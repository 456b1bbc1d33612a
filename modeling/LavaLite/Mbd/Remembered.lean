import LavaLite.Mbd.Restart

/-
Every job of the table has a history that a replay gets through.  Only the host count can
be lost, which the `JOB_NEW` record tells from the request and not from the job, so the
invariant is stated for any relation of recorded details to live ones that fixes it.
-/

namespace LavaLite.Mbd

open Base Batch Kernel Function

/-- A relation of recorded to live details that fixes the host count and outlives a compaction. -/
structure Lasting (conf : Conf) (like : Detail → Detail → Prop) : Prop where
  room : ∀ {a b : Detail}, like a b → a.res.numHosts = b.res.numHosts
  rewrites : ∀ {a b : Detail}, like a b → like (rewritten conf b) b

/-- The history of every job of the table can be replayed, and no other job has one. -/
structure Remembered (conf : Conf) (like : Detail → Detail → Prop) (m : MbdState) : Prop where
  known : ∀ {j : JobId} {job : JobData}, m.jobs j = some job →
    ∃ replayed, history conf m.manifest j = some (some replayed) ∧ like replayed.detail job.detail
  unknown : ∀ {j : JobId}, m.jobs j = none → history conf m.manifest j = some none

variable {conf : Conf} {like : Detail → Detail → Prop} {m m' : MbdState}

theorem Remembered.congr (remembered : Remembered conf like m) (jobs : m'.jobs = m.jobs)
    (manifest : m'.manifest = m.manifest) : Remembered conf like m' where
  known := by
    rw [jobs, manifest]
    exact remembered.known
  unknown := by
    rw [jobs, manifest]
    exact remembered.unknown

theorem Remembered.append {j : JobId} {job job' : JobData} {records : List Event}
    (remembered : Remembered conf like m) (lasting : Lasting conf like)
    (sound : Recoverable conf m) (found : m.jobs j = some job)
    (jobs : m'.jobs = update m.jobs j (some job')) (detail : job'.detail = job.detail)
    (manifest : m'.manifest = m.manifest ++ records) (step : MirrorStep conf records j job job') :
    Remembered conf like m' := by
  have others : ∀ {i : JobId}, i ≠ j → ∀ current,
      replayJobs conf i records current = some current := fun {i} other current =>
    replayJobs_of_ne conf i records current fun e member about =>
      other (about.symm.trans (step.about e member))
  constructor
  · intro i live at'
    rw [jobs] at at'
    rw [manifest, history_append]
    by_cases same : i = j
    · subst same
      rw [update_self] at at'
      cases at'
      obtain ⟨replayed, was, alike⟩ := remembered.known found
      obtain ⟨_, found', mirrored⟩ := sound.mirror was
      rw [found] at found'
      cases found'
      obtain ⟨replayed', told, _⟩ := step.succeeds mirrored (lasting.room alike)
      refine ⟨replayed', ?_, ?_⟩
      · rw [was]
        exact told
      · rw [replayJobs_detail told, detail]
        exact alike
    · rw [update_of_ne same] at at'
      obtain ⟨replayed, was, alike⟩ := remembered.known at'
      refine ⟨replayed, ?_, alike⟩
      rw [was]
      exact others same _
  · intro i at'
    rw [jobs] at at'
    have other : i ≠ j := by
      rintro rfl
      rw [update_self] at at'
      cases at'
    rw [update_of_ne other] at at'
    rw [manifest, history_append, remembered.unknown at']
    exact others other none

theorem Remembered.compacts (remembered : Remembered conf like m) (lasting : Lasting conf like)
    (wf : Wf conf m) (compacts : ∀ j, Compacts m m' j) : Remembered conf like m' := by
  constructor
  · intro j job at'
    rcases (compacts j).history wf with ⟨gone, _⟩ | ⟨live, block, found, still, mirror, same⟩
    · cases gone.symm.trans at'
    · cases still.symm.trans at'
      obtain ⟨_, _, alike⟩ := remembered.known found
      have again := lasting.rewrites alike
      obtain ⟨replayed, told, detail⟩ := mirror.succeeds (lasting.room again)
      refine ⟨replayed, same.trans told, ?_⟩
      rw [detail]
      exact again
  · intro j at'
    rcases (compacts j).history wf with ⟨_, nothing⟩ | ⟨live, block, _, still, _⟩
    · exact nothing
    · cases still.symm.trans at'

theorem Effect.remembered {permits : Permit} (lasting : Lasting conf like) (wf : Wf conf m)
    (sound : Recoverable conf m) (remembered : Remembered conf like m)
    (effect : Effect conf permits m m') : Remembered conf like m' := by
  cases effect.told wf with
  | same jobs manifest => exact remembered.congr jobs manifest
  | recorded found jobs request manifest step =>
    exact remembered.append lasting sound found jobs (detail_of_request request) manifest step
  | compact compacted => exact remembered.compacts lasting wf (compact_compacts compacted wf)

/-- The `JOB_NEW` records of a request tell of its jobs what is needed. -/
def Tells (conf : Conf) (like : Detail → Detail → Prop) (ws : WireJobSubmit) : Prop :=
  ∀ job e, Prepared conf ws job → eventJobNew job ws = .jobNew e →
    like (newDetail conf e) job.detail

theorem Commit.remembered {ws : WireJobSubmit} {q : QueueName} {job : JobData}
    (commit : Commit conf ws m m' q job) (lasting : Lasting conf like) (tells : Tells conf like ws)
    (remembered : Remembered conf like m) : Remembered conf like m' := by
  obtain ⟨e, isNew, told⟩ := commit.prepared.newRecord
  have manifest := commit.manifest
  rw [isNew] at manifest
  have alike := tells job e commit.prepared isNew
  have about : recordJob (.jobNew e) = job.jobId := told.jobId
  have others : ∀ {i : JobId}, i ≠ job.jobId → ∀ current,
      replayJobs conf i [.jobNew e] current = some current := fun {i} other current =>
    replayJobs_of_ne conf i _ current fun e' member isJob => by
      rw [List.mem_singleton.mp member, about] at isJob
      exact other isJob.symm
  constructor
  · intro i live at'
    rw [manifest, history_append]
    rcases commit.jobs_cases at' with ⟨rfl, rfl⟩ | before
    · obtain ⟨first, made⟩ : ∃ first, replayAlloc conf e = some first := by
        apply replayAlloc_isSome
        rw [lasting.room alike]
        exact commit.prepared.jobWf.hostCount
      refine ⟨first, ?_, ?_⟩
      · rw [remembered.unknown commit.fresh, Option.bind_some, replayJobs, if_pos about, replayJob,
          made]
        rfl
      · rw [replayAlloc_detail made]
        exact alike
    · obtain ⟨replayed, was, alike⟩ := remembered.known before
      refine ⟨replayed, ?_, alike⟩
      have other : i ≠ job.jobId := by
        rintro rfl
        rw [commit.fresh] at before
        cases before
      rw [was]
      exact others other _
  · intro i at'
    have other : i ≠ job.jobId := by
      rintro rfl
      rw [commit.jobs_self] at at'
      cases at'
    have before : m.jobs i = none := by
      rw [commit.jobs, update_of_ne other] at at'
      exact at'
    rw [manifest, history_append, remembered.unknown before]
    exact others other none

theorem Registers.remembered {ws : WireJobSubmit} (registers : Registers conf ws m m')
    (lasting : Lasting conf like) (tells : Tells conf like ws)
    (remembered : Remembered conf like m) : Remembered conf like m' :=
  registers.keeps (Remembered conf like)
    (fun remembered framed => remembered.congr framed.jobs framed.manifest)
    (fun remembered commit => commit.remembered lasting tells remembered)
    (fun remembered => remembered.congr rfl rfl) remembered

theorem Restored.remembered (restored : Restored conf m m')
    (again : ∀ {j live e}, m.jobs j = some live → like (newDetail conf e) live.detail →
      like (newDetail conf e) (newDetail conf e)) (remembered : Remembered conf like m) :
    Remembered conf like m' := by
  constructor
  · intro j job found
    obtain ⟨live, known, _⟩ := restored.mirror found
    obtain ⟨replayed, told, alike⟩ := remembered.known known
    have same : replayed = job := by
      have both := (restored.told j).symm.trans told
      rw [found] at both
      exact (Option.some.inj (Option.some.inj both)).symm
    subst same
    obtain ⟨e, detail⟩ := history_origin told
    refine ⟨replayed, ?_, ?_⟩
    · rw [restored.manifest, restored.told j, found]
    · rw [detail] at alike ⊢
      exact again known alike
  · intro j absent
    rw [restored.manifest, restored.told j, absent]

theorem Remembered.replays (remembered : Remembered conf like m) :
    ∃ r, replayEvents conf m.manifest (initialState conf m.marks m.manifest m.seqFile) =
      some r := by
  apply replayEvents_isSome
  intro j
  cases found : m.jobs j with
  | none => exact ⟨none, remembered.unknown found⟩
  | some job =>
    obtain ⟨replayed, told, _⟩ := remembered.known found
    exact ⟨some replayed, told⟩

/-! ### What the records tell -/

/-- The recorded host count and the live one, and the one a compaction would record. -/
def SameRoom (conf : Conf) (a b : Detail) : Prop :=
  a.res.numHosts = b.res.numHosts ∧ (rewritten conf b).res.numHosts = b.res.numHosts

/-- The record has all that a compaction would write, and what it says of machines is right. -/
def Faithful (conf : Conf) (a b : Detail) : Prop :=
  a = rewritten conf b ∧ a.res.machines = b.res.machines ∧ a.res.numHosts = b.res.numHosts

/--
The host count of the request, read with the machines of its record, is the one
mbd settles on: the request asks for a host, and no machine is behind the cut at
1023 bytes.
-/
def HostsRecorded (conf : Conf) (ws : WireJobSubmit) : Prop :=
  settledHosts (machinesHashPopulate conf (strlcpy 1024 ws.machines)) ws.numHosts =
    reservedHosts (settledHosts (machinesHashPopulate conf ws.machines) ws.numHosts)

def MachinesRecorded (conf : Conf) (ws : WireJobSubmit) : Prop :=
  machinesHashPopulate conf (strlcpy 1024 ws.machines) = machinesHashPopulate conf ws.machines

variable {ws : WireJobSubmit} {job : JobData}

theorem settledHosts_again {machines : List String} {asked n : Int}
    (settled : settledHosts machines asked = n) : settledHosts machines n = n := by
  unfold settledHosts at settled ⊢
  split at settled
  next some => rw [if_pos some, settled]
  next none => rw [if_neg none]

theorem sameRoom_lasting (conf : Conf) : Lasting conf (SameRoom conf) :=
  ⟨fun alike => alike.1, fun alike => ⟨alike.2, alike.2⟩⟩

theorem faithful_lasting (conf : Conf) : Lasting conf (Faithful conf) :=
  ⟨fun alike => alike.2.2, fun alike => ⟨rfl, alike.1 ▸ alike.2⟩⟩

theorem Prepared.recordedMachines (prepared : Prepared conf ws job) :
    strlcpy 1024 job.res.machinesStr = strlcpy 1024 ws.machines := by
  rw [prepared.machinesStr, strlcpy_strlcpy]
  rfl

theorem Prepared.settled (prepared : Prepared conf ws job) (recorded : HostsRecorded conf ws) :
    settledHosts (machinesHashPopulate conf (strlcpy 1024 ws.machines)) ws.numHosts =
      job.res.numHosts := by
  rw [prepared.numHosts, prepared.machines]
  exact recorded

theorem tells_sameRoom (recorded : HostsRecorded conf ws) : Tells conf (SameRoom conf) ws := by
  intro job e prepared isNew
  cases isNew
  have settled := prepared.settled recorded
  constructor
  · simp only [newDetail, JobData.detail, settled]
  · simp only [rewritten, JobData.detail, prepared.recordedMachines, settledHosts_again settled]

theorem tells_faithful (recorded : HostsRecorded conf ws) (machines : MachinesRecorded conf ws) :
    Tells conf (Faithful conf) ws := by
  intro job e prepared isNew
  cases isNew
  have settled := prepared.settled recorded
  have same : machinesHashPopulate conf (strlcpy 1024 ws.machines) = job.res.machines :=
    machines.trans prepared.machines.symm
  have cut : min 256 64 = 64 := rfl
  have cut' : min 64 256 = 64 := rfl
  refine ⟨?_, ?_, ?_⟩
  · simp only [newDetail, rewritten, JobData.detail, prepared.recordedMachines, settled,
      settledHosts_again settled, prepared.beginTime, prepared.termTime, prepared.project,
      prepared.name, prepared.numCpus, prepared.numGpus, prepared.memMb, prepared.storageMb,
      prepared.gpuModel, strlcpy_strlcpy, cut, cut', min_self]
  · simp only [newDetail, JobData.detail, same]
  · simp only [newDetail, JobData.detail, settled]

theorem sameRoom_self (e : LogJobNew) : SameRoom conf (newDetail conf e) (newDetail conf e) := by
  have text : machinesHashPopulate conf (strlcpy 1024 "") = [] := rfl
  constructor
  · rfl
  · simp only [rewritten, newDetail, text]
    exact if_neg (by decide)

theorem rewritten_rewritten {d : Detail} (none : (rewritten conf d).res.machines = []) :
    rewritten conf (rewritten conf d) = rewritten conf d := by
  have text : machinesHashPopulate conf (strlcpy 1024 "") = [] := rfl
  have cut : min 256 64 = 64 := rfl
  simp only [rewritten] at none
  simp only [rewritten, text, none, strlcpy_strlcpy, cut, min_self]
  rfl

theorem faithful_self {a b : Detail} (alike : Faithful conf a b) (none : b.res.machines = []) :
    Faithful conf a a := by
  obtain ⟨rfl, machines, _⟩ := alike
  exact ⟨(rewritten_rewritten (machines.trans none)).symm, rfl, rfl⟩

end LavaLite.Mbd
