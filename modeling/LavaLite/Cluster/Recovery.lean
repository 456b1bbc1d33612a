import LavaLite.Cluster.Resources

/-
A restart of mbd between two handlers, and a compaction.  The jobs come back as they were,
except for stops, devices and tokens; a compaction tells of the jobs what memory has, and
moves the old manifest away before the new one is there.
-/

namespace LavaLite.Cluster

open Base Batch Mbd Sbd Kernel

structure SameJob (before after : JobData) : Prop where
  list : after.listId = before.listId
  state : after.state = before.state
  queue : after.queue = before.queue
  priority : after.priority = before.priority
  owner : after.uid = before.uid ∧ after.gid = before.gid ∧ after.user = before.user
  arrayId : after.arrayId = before.arrayId
  arrayIndex : after.arrayIndex = before.arrayIndex
  arrayRange : after.arrayStart = before.arrayStart ∧ after.arrayEnd = before.arrayEnd ∧
    after.arrayStride = before.arrayStride
  dependency : after.deps = before.deps ∧ after.dependCond = before.dependCond
  pid : after.pid = before.pid
  dispatchTime : after.dispatchTime = before.dispatchTime
  forkTime : after.forkTime = before.forkTime

def KeepsJobs (before after : MbdState) : Prop :=
  ∀ id, id ≠ .finish → ∀ j ∈ before.list id, j ∈ after.list id ∧
    ∃ job job', before.jobs j = some job ∧ after.jobs j = some job' ∧ SameJob job job'

def NoneStopped (m : MbdState) : Prop :=
  ∀ j ∈ m.run, ∀ job ∈ m.jobs j, job.state ≠ .suspended

instance decidableNoneStopped (m : MbdState) : Decidable (NoneStopped m) :=
  inferInstanceAs (Decidable (∀ j ∈ m.run, ∀ job ∈ m.jobs j, job.state ≠ .suspended))

/-- A submission whose record is read back with the host count mbd settled on. -/
def hostsRecorded (conf : Conf) (_ : System) (label : Label) : Prop :=
  label.Asks (HostsRecorded conf)

theorem MirrorJob.sameJob {replayed job : JobData} (mirrored : MirrorJob replayed job)
    (open_ : job.listId ≠ .finish)
    (unstopped : job.listId = .run → job.state = .running) : SameJob job replayed := by
  have core := mirrored.core
  have told : replayed.state = job.state ∧ replayed.dispatchTime = job.dispatchTime := by
    cases on : job.listId with
    | pend =>
      obtain ⟨state, time, _⟩ := mirrored.pending on
      exact ⟨state, time⟩
    | run =>
      obtain ⟨state, time, _⟩ := mirrored.running on
      exact ⟨state.trans (unstopped on).symm, time⟩
    | finish => exact absurd on open_
  exact
    { list := mirrored.listId
      state := told.1
      queue := congrArg Core.queue core
      priority := congrArg Core.priority core
      owner := ⟨congrArg Core.uid core, congrArg Core.gid core, congrArg Core.user core⟩
      arrayId := congrArg Core.arrayId core
      arrayIndex := congrArg Core.arrayIndex core
      arrayRange := ⟨congrArg Core.arrayStart core, congrArg Core.arrayEnd core,
        congrArg Core.arrayStride core⟩
      dependency := ⟨congrArg Core.deps core, congrArg Core.dependCond core⟩
      pid := congrArg Core.pid core
      dispatchTime := told.2
      forkTime := congrArg Core.forkTime core }

variable {conf : Conf} {guard : System → Label → Prop} {like : Detail → Detail → Prop} {s : System}

theorem Reachable.remembered (lasting : Lasting conf like) (tells : ∀ {s label}, guard s label →
      label.Asks fun ws => Tells conf like (normalizeSubmit conf ws))
    (again : ∀ {s kept j live e}, guard s (.mbdRestart kept) → s.mbd.jobs j = some live →
      like (newDetail conf e) live.detail → like (newDetail conf e) (newDetail conf e))
    (reached : Reachable conf (Legibly guard) s) : Remembered conf like s.mbd := by
  let kept (m : MbdState) : Prop := Recoverable conf m ∧ Remembered conf like m
  suffices both : kept s.mbd from both.2
  refine Sound.mbd_invariant kept (fun _ => allows_anyReport _ _) ?start ?acted ?registered
    ?restarted (fun held => ⟨held.1.congr rfl rfl, held.2.congr rfl rfl⟩) (sound_initial conf) reached
  case start =>
    exact ⟨(sound_initial conf).recoverable,
      fun found => absurd found (Option.some_ne_none _).symm, fun _ => rfl⟩
  case acted =>
    intro m m' wf ⟨sound, remembered⟩ effect
    exact ⟨effect.recoverable sound wf, effect.remembered lasting wf sound remembered⟩
  case registered =>
    intro s env uid gid request m' may wf ⟨sound, remembered⟩ registers
    exact ⟨registers.recoverable sound, registers.remembered lasting (tells may) remembered⟩
  case restarted =>
    intro s kept m' may sound ⟨_, remembered⟩ replayed
    have restored := sound.restored replayed
    exact ⟨restored.recoverable, restored.remembered (again may) remembered⟩

theorem Reachable.sameRoom (reached : Reachable conf (Legibly (hostsRecorded conf)) s) :
    Remembered conf (SameRoom conf) s.mbd := by
  refine reached.remembered (sameRoom_lasting conf) (fun {s label} may => ?_)
    fun _ _ _ => sameRoom_self _
  cases label with
  | submit env uid gid request => exact tells_sameRoom may
  | _ => trivial

theorem Remembered.restarts (remembered : Remembered conf like s.mbd) (sound : Sound conf s)
    (legible : Legible s.mbd) (single : OneGpuJob conf s.mbd) :
    ∃ m', jobsReplay conf s.mbd.marks s.mbd.manifest s.mbd.seqFile = some m' ∧
      recover conf s.mbd = some m' ∧ Restored conf s.mbd m' := by
  obtain ⟨m', recovered⟩ :=
    remembered.recovers sound.wf sound.recoverable sound.saved single
  exact ⟨m', (legible.jobsReplay conf).trans recovered, recovered, sound.restored recovered⟩

/--
When the submissions are recorded well, a restart from any state reached completes
and keeps every job that has not finished, as long as the manifest is legible, no
job is suspended and no host is used by two running GPU jobs.
-/
theorem restart_keeps_jobs (reached : Reachable conf (Legibly (hostsRecorded conf)) s)
    (legible : Legible s.mbd) (unstopped : NoneStopped s.mbd) (single : OneGpuJob conf s.mbd) :
    ∃ m', jobsReplay conf s.mbd.marks s.mbd.manifest s.mbd.seqFile = some m' ∧
      KeepsJobs s.mbd m' := by
  have sound := reached.sound
  have remembered := reached.sameRoom
  obtain ⟨m', replayed, _, restored⟩ := Remembered.restarts remembered sound legible single
  refine ⟨m', replayed, fun id open_ j member => ?_⟩
  obtain ⟨job, found, on⟩ := (sound.wf.listed id j).mp member
  obtain ⟨job', found', mirrored, _⟩ := remembered.restored restored found
  refine ⟨(restored.wf.listed id j).mpr ⟨job', found', mirrored.listId.trans on⟩, job, job', found,
    found', MirrorJob.sameJob mirrored (on ▸ open_) fun onRun => ?_⟩
  have dispatched := ((sound.wf.job found).running onRun).state
  have running := unstopped j ((sound.wf.toListed.mem_iff found .run).mpr onRun) job found
  cases state : job.state <;> rw [state] at dispatched running
  all_goals first | rfl | exact absurd rfl running | cases dispatched

def oneWaits : List Label :=
  join "h1" 5 ++ [submitAt 1 plainRequest, .timer 2 fun _ => true] ++ start "h1" 3 77 ++
    [submitAt 4 plainRequest]

/-- The conditions of a restart, and the two lists. -/
def restartable (conf : Conf) (s : System) (pend run : List JobId) : Bool :=
  decide (Legible s.mbd) && decide (NoneStopped s.mbd) && decide (OneGpuJob conf s.mbd) &&
    decide (s.mbd.pend = pend) && decide (s.mbd.run = run)

theorem restartable_iff {pend run : List JobId} :
    restartable conf s pend run = true ↔ Legible s.mbd ∧ NoneStopped s.mbd ∧
      OneGpuJob conf s.mbd ∧ s.mbd.pend = pend ∧ s.mbd.run = run := by
  simp only [restartable, Bool.and_eq_true, decide_eq_true_eq, and_assoc]

theorem reachable_oneWaits (executed : s ∈ runOf smallConf (rereading fun _ _ => true) oneWaits) :
    Reachable smallConf (Legibly (hostsRecorded smallConf)) s := by
  have recorded : HostsRecorded smallConf plainRequest := by
    unfold HostsRecorded
    decide +kernel
  have asks : ∀ label ∈ oneWaits, label.Asks (HostsRecorded smallConf) := by
    simpa [oneWaits, join, start, submitAt, Label.Asks] using recorded
  exact steps_of_execute (fun label member _ => legibly_of_rereading fun _ => asks label member)
    executed

theorem restart_keeps_jobs_oneWaits :
    ∃ s, Reachable smallConf (Legibly (hostsRecorded smallConf)) s ∧ s.mbd.pend = [2] ∧
      s.mbd.run = [1] ∧ ∃ m', jobsReplay smallConf s.mbd.marks s.mbd.manifest s.mbd.seqFile =
        some m' ∧ KeepsJobs s.mbd m' := by
  obtain ⟨s, executed, ready⟩ : ∃ s ∈ runOf smallConf (rereading fun _ _ => true) oneWaits,
      restartable smallConf s [2] [1] = true := by decide +kernel
  obtain ⟨legible, unstopped, single, pend, run⟩ := restartable_iff.mp ready
  have reached := reachable_oneWaits executed
  exact ⟨s, reached, pend, run, restart_keeps_jobs reached legible unstopped single⟩

theorem restart_loses_stop :
    (runOf smallConf (rereading fun _ _ => true) oneStop).map
        (fun s => (s.mbd.run, (s.mbd.jobs 1).map JobData.state)) = some ([1], some .suspended) ∧
      (runOf smallConf (rereading fun _ _ => true) (oneStop ++ [.mbdRestart fun _ => 0])).map
        (fun s => (s.mbd.run, (s.mbd.jobs 1).map JobData.state)) = some ([1], some .running) ∧
      ¬ ∀ (conf : Conf) (s : System), Reachable conf (Legibly anyStep) s → Legible s.mbd →
        ∃ m', jobsReplay conf s.mbd.marks s.mbd.manifest s.mbd.seqFile = some m' ∧
          KeepsJobs s.mbd m' := by
  refine ⟨by decide +kernel, by decide +kernel, fun always => ?_⟩
  obtain ⟨s, executed, legible, run, suspended, running⟩ :
      ∃ s ∈ runOf smallConf (rereading fun _ _ => true) oneStop, Legible s.mbd ∧ s.mbd.run = [1] ∧
        (∀ job ∈ s.mbd.jobs 1, job.state = .suspended) ∧
        ∀ m ∈ jobsReplay smallConf s.mbd.marks s.mbd.manifest s.mbd.seqFile,
          ∀ job ∈ m.jobs 1, job.state = .running := by
    decide +kernel
  obtain ⟨m', replayed, keeps⟩ := always smallConf s (legibly_of_runOf executed) legible
  obtain ⟨_, job, job', found, found', same⟩ :=
    keeps .run (by decide) 1 (by rw [MbdState.list, run]; exact List.mem_singleton_self 1)
  have after := running m' replayed job' found'
  exact absurd (after.symm.trans (same.state.trans (suspended job found))) (by decide)

/-! ### Devices -/

/-- What the records say of a running job: its devices are the first ones of each of its hosts. -/
def RecordsFirst (conf : Conf) (m : MbdState) : Prop :=
  ∀ j ∈ m.run, ∀ told ∈ history conf m.manifest j, ∀ job ∈ told, ∀ h ∈ job.hosts, ∀ id,
    Names job id ↔ id ∈ (conf.hostConf h).gpuIds.take job.res.numGpus.toNat

/-- The marked devices are those recorded for the running jobs. -/
def DevicesRecorded (m : MbdState) : Prop :=
  ∀ h id, InUse (m.hosts h).gpus id ↔ ∃ j, Holder m h j id

/--
A restart completes and marks the recorded devices of the running jobs, when no host is
used by two running GPU jobs and the records give every job the first devices of its hosts.
-/
theorem devices_recovered {conf : Conf} {s : System}
    (reached : Reachable conf (Legibly (hostsRecorded conf)) s) (legible : Legible s.mbd)
    (single : OneGpuJob conf s.mbd) (firsts : RecordsFirst conf s.mbd) :
    ∃ m', jobsReplay conf s.mbd.marks s.mbd.manifest s.mbd.seqFile = some m' ∧
      DevicesRecorded m' := by
  have sound := reached.sound
  obtain ⟨m', replayed, recovered, restored⟩ :=
    Remembered.restarts reached.sameRoom sound legible single
  refine ⟨m', replayed, fun h id => ?_⟩
  have first : ∀ {j job}, m'.jobs j = some job → job.listId = .run → h ∈ job.hosts →
      (Names job id ↔ id ∈ (conf.hostConf h).gpuIds.take job.res.numGpus.toNat) := by
    intro j job found on uses
    obtain ⟨live, before, mirrored⟩ := restored.mirror found
    have member := (sound.wf.toListed.mem_iff before .run).mpr (mirrored.listId.symm.trans on)
    exact firsts j member _ (restored.told j) job found h uses id
  rw [restart_inUse sound.wf sound.recoverable sound.saved recovered]
  constructor
  · rintro ⟨j, job, ⟨found, on, uses, _⟩, front⟩
    exact ⟨j, job, found, on, uses, (first found on uses).mpr front⟩
  · rintro ⟨j, job, found, on, uses, named⟩
    have front := (first found on uses).mp named
    have asked : 0 < job.res.numGpus := by
      by_contra none
      rw [Int.toNat_of_nonpos (Int.not_lt.mp none), List.take_zero] at front
      cases front
    exact ⟨j, job, ⟨found, on, uses, asked⟩, front⟩

def FirstDevicesText (conf : Conf) (m : MbdState) : Prop :=
  ∀ j ∈ m.run, ∀ told ∈ history conf m.manifest j, ∀ job ∈ told, ∀ h ∈ job.hosts,
    job.gpuAssigned = gpuAssignedText 64 ((conf.hostConf h).gpuIds.take job.res.numGpus.toNat) ∧
      (deviceText ((conf.hostConf h).gpuIds.take job.res.numGpus.toNat)).length < 64

instance decidableFirstText (conf : Conf) (m : MbdState) : Decidable (FirstDevicesText conf m) :=
  inferInstanceAs (Decidable (∀ j ∈ m.run, ∀ told ∈ history conf m.manifest j, ∀ job ∈ told, _))

theorem recordsFirst_of_text {m : MbdState} (texts : FirstDevicesText conf m) :
    RecordsFirst conf m := by
  intro j member told records job found h uses id
  obtain ⟨text, fits⟩ := texts j member told records job found h uses
  rw [Names, text]
  exact mem_deviceNames_iff fits

def gpuStart : List Label :=
  join "h1" 5 ++ [submitAt 1 gpuRequest, .timer 2 fun _ => true] ++ start "h1" 3 77

theorem devices_recovered_gpuStart :
    ∃ s, Reachable smallConf (Legibly (hostsRecorded smallConf)) s ∧
      deviceView s = ([⟨0, true⟩, ⟨1, false⟩], [1], some "0") ∧
      ∃ m', jobsReplay smallConf s.mbd.marks s.mbd.manifest s.mbd.seqFile = some m' ∧
        DevicesRecorded m' := by
  obtain ⟨s, executed, ready, texts, view⟩ :
      ∃ s ∈ runOf smallConf (rereading fun _ _ => true) gpuStart,
        restartable smallConf s [] [1] = true ∧ FirstDevicesText smallConf s.mbd ∧
          deviceView s = ([⟨0, true⟩, ⟨1, false⟩], [1], some "0") := by
    decide +kernel
  have recorded : HostsRecorded smallConf gpuRequest := by
    unfold HostsRecorded
    decide +kernel
  have asks : ∀ label ∈ gpuStart, label.Asks (HostsRecorded smallConf) := by
    simpa [gpuStart, join, start, submitAt, Label.Asks] using recorded
  obtain ⟨legible, _, single, _, _⟩ := restartable_iff.mp ready
  have reached : Reachable smallConf (Legibly (hostsRecorded smallConf)) s :=
    steps_of_execute (fun label member _ => legibly_of_rereading fun _ => asks label member)
      executed
  exact ⟨s, reached, view, devices_recovered reached legible single (recordsFirst_of_text texts)⟩

def gpuPair : List Label :=
  join "h1" 5 ++ [submitAt 1 gpuRequest, submitAt 1 gpuRequest, .timer 2 fun _ => true]

theorem devices_not_recovered :
    (runOf smallConf (rereading fun _ _ => true) gpuPair).map (fun s => (s.mbd.run,
        (s.mbd.jobs 1).map JobData.gpuAssigned, (s.mbd.jobs 2).map JobData.gpuAssigned)) =
          some ([1, 2], some "0", some "1") ∧
      runOf smallConf (rereading fun _ _ => true) (gpuPair ++ [.mbdRestart fun _ => 0]) = none ∧
      ¬ ∀ (conf : Conf) (s : System), Reachable conf (Legibly anyStep) s → Legible s.mbd →
        ∃ m', jobsReplay conf s.mbd.marks s.mbd.manifest s.mbd.seqFile = some m' ∧
          DevicesRecorded m' := by
  have aborts : (runOf smallConf (rereading fun _ _ => true)
      (gpuPair ++ [.mbdRestart fun _ => 0])).isNone = true := by decide +kernel
  refine ⟨by decide +kernel, Option.isNone_iff_eq_none.mp aborts, fun always => ?_⟩
  obtain ⟨s, executed, legible, none⟩ :
      ∃ s ∈ runOf smallConf (rereading fun _ _ => true) gpuPair, Legible s.mbd ∧
        (jobsReplay smallConf s.mbd.marks s.mbd.manifest s.mbd.seqFile).isNone = true := by
    decide +kernel
  obtain ⟨m', replayed, _⟩ := always smallConf s (legibly_of_runOf executed) legible
  rw [replayed] at none
  cases none

/-! ### Allocations -/

/-- What the jobs hold and ask for, and what the pools have left. -/
structure SameAllocations (conf : Conf) (before after : MbdState) : Prop where
  running : ∀ j ∈ before.run, ∃ job job', before.jobs j = some job ∧ after.jobs j = some job' ∧
    job'.hosts = job.hosts ∧ job'.res.tokens = job.res.tokens
  pending : ∀ j ∈ before.pend, ∃ job job', before.jobs j = some job ∧ after.jobs j = some job' ∧
    job'.res.tokens = job.res.tokens ∧ job'.res.numHosts = job.res.numHosts ∧
    job'.res.machines = job.res.machines
  pools : ∀ p, (conf.findPool p).isSome = true → after.pools p = before.pools p

def Label.FindsNoMachines (s : System) : Label → Prop
  | .mbdRestart _ => ∀ j job, s.mbd.jobs j = some job → job.res.machines = []
  | _ => True

/-- Every record tells the host count and the machines of its request, and keeps telling them. -/
def machinesRecorded (conf : Conf) (s : System) (label : Label) : Prop :=
  label.Asks (fun ws => HostsRecorded conf ws ∧ MachinesRecorded conf ws) ∧ label.FindsNoMachines s

def NoTokens (m : MbdState) : Prop :=
  ∀ j ∈ m.pend ++ m.run, ∀ job ∈ m.jobs j, job.res.tokens = []

instance decidableNoTokens (m : MbdState) : Decidable (NoTokens m) :=
  inferInstanceAs (Decidable (∀ j ∈ m.pend ++ m.run, ∀ job ∈ m.jobs j, job.res.tokens = []))

theorem Reachable.faithful (reached : Reachable conf (Legibly (machinesRecorded conf)) s) :
    Remembered conf (Faithful conf) s.mbd := by
  refine reached.remembered (faithful_lasting conf) (fun {s label} may => ?_) ?_
  · cases label with
    | submit env uid gid request => exact tells_faithful may.1.1 may.1.2
    | _ => trivial
  · intro s kept j live e may found alike
    exact faithful_self alike (may.2 j live found)

theorem NoTokens.pools {m : MbdState} (none : NoTokens m) (balanced : TokensBalanced conf m)
    {p : PoolName} (known : (conf.findPool p).isSome = true) : m.pools p = conf.poolTotal p := by
  have nothing : ∀ id, id ≠ .finish → listTally m (tokenShare p) id = 0 := by
    intro id open_
    refine tally_eq_zero fun j member => ?_
    cases found : m.jobs j with
    | none => rfl
    | some job =>
      have listed : j ∈ m.pend ++ m.run := by
        cases id with
        | pend => exact List.mem_append_left _ member
        | run => exact List.mem_append_right _ member
        | finish => exact absurd rfl open_
      rw [Option.elim_some, tokenShare, none j listed job found]
      split <;> rfl
  have even := balanced p known
  rw [openTally, nothing .pend (by decide), nothing .run (by decide)] at even
  omega

/--
A restart keeps the hosts of the running jobs, the host count and the machines of
the pending ones and the pools, as long as no job has tokens, the records tell
the machines, and no earlier restart found a job that is restricted to machines.
-/
theorem restart_keeps_allocations (reached : Reachable conf (Legibly (machinesRecorded conf)) s)
    (legible : Legible s.mbd) (single : OneGpuJob conf s.mbd) (none : NoTokens s.mbd) :
    ∃ m', jobsReplay conf s.mbd.marks s.mbd.manifest s.mbd.seqFile = some m' ∧
      SameAllocations conf s.mbd m' := by
  have sound := reached.sound
  have remembered := reached.faithful
  obtain ⟨m', replayed, recovered, restored⟩ := Remembered.restarts remembered sound legible single
  refine ⟨m', replayed, ?_, ?_, ?_⟩
  · intro j member
    obtain ⟨job, found, on⟩ := (sound.wf.listed .run j).mp member
    obtain ⟨job', found', mirrored, _⟩ := remembered.restored restored found
    refine ⟨job, job', found, found', mirrored.hosts on, ?_⟩
    rw [restored.tokens found', none j (List.mem_append_right _ member) job found]
  · intro j member
    obtain ⟨job, found, _⟩ := (sound.wf.listed .pend j).mp member
    obtain ⟨job', found', _, _, machines, numHosts⟩ := remembered.restored restored found
    refine ⟨job, job', found, found', ?_, numHosts, machines⟩
    rw [restored.tokens found', none j (List.mem_append_left _ member) job found]
  · intro p known
    rw [restart_pools sound.wf sound.recoverable sound.saved recovered,
      none.pools reached.tokensBalanced known]

def machineRequest : WireJobSubmit :=
  { plainRequest with machines := "h2" }

def machineWaits : List Label :=
  join "h1" 5 ++ [submitAt 1 plainRequest, .timer 2 fun _ => true] ++ start "h1" 3 77 ++
    [submitAt 4 machineRequest]

theorem reachable_machineWaits
    (executed : s ∈ runOf smallConf (rereading fun _ _ => true) machineWaits) :
    Reachable smallConf (Legibly (machinesRecorded smallConf)) s := by
  have plain : HostsRecorded smallConf plainRequest ∧ MachinesRecorded smallConf plainRequest := by
    unfold HostsRecorded MachinesRecorded
    decide +kernel
  have machine : HostsRecorded smallConf machineRequest ∧
      MachinesRecorded smallConf machineRequest := by
    unfold HostsRecorded MachinesRecorded
    decide +kernel
  have allowed : ∀ label ∈ machineWaits, ∀ s, machinesRecorded smallConf s label := by
    simp [machineWaits, join, start, submitAt, machinesRecorded, Label.Asks,
      Label.FindsNoMachines, plain, machine]
  exact steps_of_execute
    (fun label member s => legibly_of_rereading fun _ => allowed label member s) executed

theorem restart_keeps_allocations_machineWaits :
    ∃ s, Reachable smallConf (Legibly (machinesRecorded smallConf)) s ∧
      (s.mbd.jobs 2).map (fun job => job.res.machines) = some ["h2"] ∧
      ∃ m', jobsReplay smallConf s.mbd.marks s.mbd.manifest s.mbd.seqFile = some m' ∧
        SameAllocations smallConf s.mbd m' := by
  obtain ⟨s, executed, ready, none, machines⟩ :
      ∃ s ∈ runOf smallConf (rereading fun _ _ => true) machineWaits,
        restartable smallConf s [2] [1] = true ∧ NoTokens s.mbd ∧
          (s.mbd.jobs 2).map (fun job => job.res.machines) = some ["h2"] := by
    decide +kernel
  obtain ⟨legible, _, single, _, _⟩ := restartable_iff.mp ready
  have reached := reachable_machineWaits executed
  exact ⟨s, reached, machines, restart_keeps_allocations reached legible single none⟩

def tokenStart : List Label :=
  join "h1" 5 ++ [submitAt 1 tokenRequest, .timer 2 fun _ => true]

theorem restart_loses_tokens :
    (runOf smallConf (rereading fun _ _ => true) tokenStart).map (fun s => (s.mbd.run,
        (s.mbd.jobs 1).map (fun job => job.res.tokens), s.mbd.pools "lic")) =
          some ([1], some [{ name := "lic", count := 3 }], 1) ∧
      (runOf smallConf (rereading fun _ _ => true)
        (tokenStart ++ [.mbdRestart fun _ => 0])).map (fun s => (s.mbd.run,
          (s.mbd.jobs 1).map (fun job => job.res.tokens), s.mbd.pools "lic")) =
          some ([1], some [], 4) ∧
      ¬ ∀ (conf : Conf) (s : System), Reachable conf (Legibly anyStep) s → Legible s.mbd →
        ∃ m', jobsReplay conf s.mbd.marks s.mbd.manifest s.mbd.seqFile = some m' ∧
          SameAllocations conf s.mbd m' := by
  refine ⟨by decide +kernel, by decide +kernel, fun always => ?_⟩
  obtain ⟨s, executed, legible, before, after⟩ :
      ∃ s ∈ runOf smallConf (rereading fun _ _ => true) tokenStart, Legible s.mbd ∧
        s.mbd.pools "lic" = 1 ∧ (jobsReplay smallConf s.mbd.marks s.mbd.manifest s.mbd.seqFile).map
          (fun m => m.pools "lic") = some 4 := by
    decide +kernel
  obtain ⟨m', replayed, same⟩ := always smallConf s (legibly_of_runOf executed) legible
  rw [replayed, Option.map_some] at after
  have kept := same.pools "lic" rfl
  rw [before, Option.some.inj after] at kept
  exact absurd kept (by decide)

/-! ### Compactions -/

open Option

/-- Of a job that is still in the table of `m'`, the manifest of `m` tells no signal and no device. -/
def QuietManifest (m m' : MbdState) : Prop :=
  ∀ e ∈ m.manifest, (m'.jobs (recordJob e)).isSome = true → Quiet e

instance decidableQuietManifest (m m' : MbdState) : Decidable (QuietManifest m m') :=
  inferInstanceAs (Decidable (∀ e ∈ m.manifest, (m'.jobs (recordJob e)).isSome = true → Quiet e))

def FinishedFinal (m : MbdState) : Prop :=
  ∀ j ∈ m.finish, ∀ job ∈ m.jobs j, job.state.isFinished = true

instance decidableFinishedFinal (m : MbdState) : Decidable (FinishedFinal m) :=
  inferInstanceAs (Decidable (∀ j ∈ m.finish, ∀ job ∈ m.jobs j, job.state.isFinished = true))

/-- Replaying either manifest gives the same for every job the compaction has kept. -/
def SameReplays (conf : Conf) (m m' : MbdState) : Prop :=
  ∃ r r', jobsReplay conf m.marks m.manifest m.seqFile = some r ∧
    jobsReplay conf m'.marks m'.manifest m'.seqFile = some r' ∧
    ∀ j job, m'.jobs j = some job → ∃ a b, r.jobs j = some a ∧ r'.jobs j = some b ∧ SameReplay a b

theorem compact_oneGpuJob {conf : Conf} {m m' : MbdState} (compacted : manifestRebuild m = some m')
    (single : OneGpuJob conf m) : OneGpuJob conf m' := by
  obtain ⟨_, _, rfl⟩ := manifestRebuild_spec compacted
  exact single.keeping

/--
The manifest of a compaction replays to what the old one replays to, when of the jobs it
keeps the old one tells no signal and no device and those that have finished are in a final
state, both are legible, and machines were recorded well and not lost in an earlier restart.
-/
theorem compaction_invisible {conf : Conf} {s : System} {m' : MbdState}
    (reached : Reachable conf (Legibly (machinesRecorded conf)) s) (legible : Legible s.mbd)
    (single : OneGpuJob conf s.mbd) (compacted : manifestRebuild s.mbd = some m')
    (quiet : QuietManifest s.mbd m') (final : FinishedFinal m') (legible' : Legible m') :
    SameReplays conf s.mbd m' := by
  have sound := reached.sound
  have remembered := reached.faithful
  have effect : Effect conf anyReport s.mbd m' :=
    .compact (fun _ => trivial) compacted
  have wf' := compact_wf compacted sound.wf
  have sound' := recoverable_of_compacts sound.wf (compact_compacts compacted sound.wf)
  have saved' : IdsSaved m' := effect.idsSaved sound.saved
  have remembered' :=
    effect.remembered (faithful_lasting conf) sound.wf sound.recoverable remembered
  obtain ⟨r, replayed, _, restored⟩ := Remembered.restarts remembered sound legible single
  obtain ⟨r', recovered'⟩ :=
    remembered'.recovers wf' sound' saved' (compact_oneGpuJob compacted single)
  have restored' := restored_of_recover wf' sound' saved' recovered'
  refine ⟨r, r', replayed, (legible'.jobsReplay conf).trans recovered', fun j job kept => ?_⟩
  have found := (compact_jobs compacted kept).1
  obtain ⟨a, atA, mirrored, alike⟩ := remembered.restored restored found
  obtain ⟨b, atB, mirrored', alike'⟩ := remembered'.restored restored' kept
  refine ⟨a, b, atA, atB, mirrored.sameReplay mirrored' ?_ ?_ ?_ fun on => ?_⟩
  · have told := restored.told j
    rw [atA] at told
    refine history_bare (fun e member about => quiet e member ?_) told
    rw [about, kept]
    rfl
  · have told := restored'.told j
    rw [atB] at told
    exact history_bare (fun e member _ => compact_quiet compacted e member) told
  · exact alike'.1.trans alike.1.symm
  · exact final j ((wf'.toListed.mem_iff kept .finish).mpr on) job kept

theorem compaction_invisible_machineWaits :
    ∃ s m', Reachable smallConf (Legibly (machinesRecorded smallConf)) s ∧
      manifestRebuild s.mbd = some m' ∧ m'.pend = [2] ∧ m'.run = [1] ∧
      SameReplays smallConf s.mbd m' := by
  obtain ⟨s, executed, ready, m', compacted, quiet, final, legible', pend, run⟩ :
      ∃ s ∈ runOf smallConf (rereading fun _ _ => true) machineWaits,
        restartable smallConf s [2] [1] = true ∧ ∃ m ∈ manifestRebuild s.mbd,
          QuietManifest s.mbd m ∧ FinishedFinal m ∧ Legible m ∧ m.pend = [2] ∧ m.run = [1] := by
    decide +kernel
  obtain ⟨legible, _, single, _, _⟩ := restartable_iff.mp ready
  have reached := reachable_machineWaits executed
  exact ⟨s, m', reached, compacted, pend, run,
    compaction_invisible reached legible single compacted quiet final legible'⟩

/-- A GPU job runs, and another job was killed while it waited: the next tick compacts. -/
def oneKilled : List Label :=
  gpuStart ++ [submitAt 4 plainRequest, .signal 5 1 2 0 sigKill fun _ => true]

theorem compaction_drops_devices :
    (runOf eagerConf (rereading fun _ _ => true)
        (oneKilled ++ [.mbdRestart fun _ => 0])).map
          (fun s => (s.mbd.jobs 1).map JobData.gpuAssigned) = some (some "0") ∧
      (runOf eagerConf (rereading fun _ _ => true)
        (oneKilled ++ [.timer 6 fun _ => true, .mbdRestart fun _ => 0])).map
          (fun s => (s.mbd.jobs 1).map JobData.gpuAssigned) = some (some "") ∧
      ¬ ∀ (conf : Conf) (s : System) (m' : MbdState), Reachable conf (Legibly anyStep) s →
        Legible s.mbd → manifestRebuild s.mbd = some m' → Legible m' →
          SameReplays conf s.mbd m' := by
  refine ⟨by decide +kernel, by decide +kernel, fun always => ?_⟩
  obtain ⟨s, executed, legible, before, m', compacted, legible', known, after⟩ :
      ∃ s ∈ runOf eagerConf (rereading fun _ _ => true) oneKilled, Legible s.mbd ∧
        (jobsReplay eagerConf s.mbd.marks s.mbd.manifest s.mbd.seqFile).map
          (fun m => (m.jobs 1).map JobData.gpuAssigned) = some (some "0") ∧
        ∃ m ∈ manifestRebuild s.mbd, Legible m ∧ (m.jobs 1).isSome = true ∧
          (jobsReplay eagerConf m.marks m.manifest m.seqFile).map
            (fun m => (m.jobs 1).map JobData.gpuAssigned) = some (some "") := by
    decide +kernel
  obtain ⟨r, r', replayed, replayed', same⟩ :=
    always eagerConf s m' (legibly_of_runOf executed) legible compacted legible'
  obtain ⟨job, kept⟩ := isSome_iff_exists.mp known
  obtain ⟨a, b, atA, atB, fields, _⟩ := same 1 job kept
  rw [replayed, map_some, atA] at before
  rw [replayed', map_some, atB] at after
  have first : a.gpuAssigned = "0" := Option.some.inj (Option.some.inj before)
  have second : b.gpuAssigned = "" := Option.some.inj (Option.some.inj after)
  have equal : b.gpuAssigned = a.gpuAssigned := by rw [fields]
  rw [first, second] at equal
  exact absurd equal (by decide)

/--
A crash in a compaction loses no pending and no running job when the next start reads all
their records and gets through, and it does lose one when it reads some of the records only.
The start gets through when what it reads of the finished jobs are the whole records of
some of them.
-/
theorem compaction_crash_safe {conf : Conf} {s : System} {records : List Event}
    {point : RebuildPoint}
    (reached : Reachable conf (Legibly (hostsRecorded conf)) s) (legible : Legible s.mbd)
    (rebuilt : rebuiltRecords s.mbd = some records) :
    (∀ m', startUp conf s.mbd.marks (manifestFile s.mbd.manifest records point) s.mbd.seqFile =
        some m' →
      (Survives s.mbd records point → RestoresJobs s.mbd m') ∧
      (NoneMisread s.mbd records point → RestoresJobs s.mbd m' → Survives s.mbd records point)) ∧
    (OneGpuJob conf s.mbd → SafePoint s.mbd records point → ∃ m', startUp conf s.mbd.marks
      (manifestFile s.mbd.manifest records point) s.mbd.seqFile = some m' ∧
      RestoresJobs s.mbd m') := by
  have sound := reached.sound
  have lasting := sameRoom_lasting conf
  exact ⟨fun _ => startUp_restores_iff lasting reached.sameRoom sound.wf sound.recoverable
      sound.saved legible rebuilt,
    startUp_restores lasting reached.sameRoom sound.wf sound.recoverable sound.saved legible⟩

/-- The last newline can be missing, but without its pid the running job is not as it was. -/
theorem compaction_crash_safe_oneWaits :
    ∃ s records m₁ m₂, Reachable smallConf (Legibly (hostsRecorded smallConf)) s ∧
      rebuiltRecords s.mbd = some records ∧ s.mbd.pend = [2] ∧ s.mbd.run = [1] ∧
      startUp smallConf s.mbd.marks (manifestFile s.mbd.manifest records (.written 216))
        s.mbd.seqFile = some m₁ ∧ RestoresJobs s.mbd m₁ ∧
      startUp smallConf s.mbd.marks (manifestFile s.mbd.manifest records (.written 214))
        s.mbd.seqFile = some m₂ ∧ ¬ RestoresJobs s.mbd m₂ := by
  obtain ⟨s, executed, ready, records, rebuilt, ⟨pending, writtenP, running, writtenR, whole⟩, all,
      gets, ordered, lost⟩ :
      ∃ s ∈ runOf smallConf (rereading fun _ _ => true) oneWaits,
        restartable smallConf s [2] [1] = true ∧
        ∃ records ∈ rebuiltRecords s.mbd,
          (∃ pending ∈ compactList s.mbd compactPending s.mbd.pend,
            ∃ running ∈ compactList s.mbd compactRunning s.mbd.run,
              readManifest ((manifestText records).take 216) = pending ++ running ++ []) ∧
          unfinishedRecords s.mbd (readManifest ((manifestText records).take 216)) =
            unfinishedRecords s.mbd records ∧
          (startUp smallConf s.mbd.marks (manifestFile s.mbd.manifest records (.written 214))
            s.mbd.seqFile).isSome = true ∧
          unfinishedRecords s.mbd (readManifest ((manifestText records).take 214)) <+:
            unfinishedRecords s.mbd records ∧
          unfinishedRecords s.mbd (readManifest ((manifestText records).take 214)) ≠
            unfinishedRecords s.mbd records := by
    decide +kernel
  obtain ⟨legible, _, single, pend, run⟩ := restartable_iff.mp ready
  have reached := reachable_oneWaits executed
  have safe : SafePoint s.mbd records (.written 216) :=
    ⟨pending, running, [], 0, writtenP, writtenR, rfl, whole⟩
  obtain ⟨m₁, started, _⟩ := (compaction_crash_safe reached legible rebuilt).2 single safe
  have back := ((compaction_crash_safe reached legible rebuilt).1 m₁ started).1 all
  obtain ⟨m₂, short⟩ := isSome_iff_exists.mp gets
  have only := ((compaction_crash_safe reached legible rebuilt).1 m₂ short).2 ordered
  exact ⟨s, records, m₁, m₂, reached, rebuilt, pend, run, started, back, short,
    fun restores => lost (only restores)⟩

theorem compaction_crash_loses_jobs :
    (runOf eagerConf (rereading fun _ _ => true) oneKilled).map
        (fun s => (s.mbd.run, s.mbd.jobIdSeq, (rebuiltRecords s.mbd).bind fun records =>
          (startUp eagerConf s.mbd.marks (manifestFile s.mbd.manifest records .renamed)
            s.mbd.seqFile).map fun m => (m.run, m.jobIdSeq))) = some ([1], 2, some ([], 0)) ∧
      ¬ ∀ (conf : Conf) (s : System) (records : List Event) (point : RebuildPoint),
        Reachable conf (Legibly anyStep) s → Legible s.mbd → rebuiltRecords s.mbd = some records →
          (∀ e ∈ records, Plain e) →
          ∃ m', startUp conf s.mbd.marks (manifestFile s.mbd.manifest records point)
            s.mbd.seqFile = some m' ∧ RestoresJobs s.mbd m' := by
  refine ⟨by decide +kernel, fun always => ?_⟩
  obtain ⟨s, executed, legible, run, records, rebuilt, plain⟩ :
      ∃ s ∈ runOf eagerConf (rereading fun _ _ => true) oneKilled, Legible s.mbd ∧
        s.mbd.run = [1] ∧ ∃ records ∈ rebuiltRecords s.mbd, ∀ e ∈ records, Plain e := by
    decide +kernel
  obtain ⟨m', started, restores⟩ := always eagerConf s records .renamed (legibly_of_runOf executed)
    legible rebuilt plain
  have member : 1 ∈ s.mbd.list .run := by
    rw [MbdState.list, run]
    exact List.mem_singleton_self 1
  have there := (restores .run (by decide) 1 member).1
  cases started
  cases there

end LavaLite.Cluster
