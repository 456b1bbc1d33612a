import LavaLite.Cluster.Handlers
import LavaLite.Cluster.Journal

/-
The ids of jobs over runs in which mbd may be killed anywhere.  A submission writes its
records before the sequence file, and a compaction removes records; the two together have to
leave a trace of every id that was ever written.
-/

namespace LavaLite.Cluster

open Base Batch Mbd Sbd Kernel List Option

def CaughtUp (m : MbdState) : Prop :=
  maxId m.manifest ≤ m.seqFile

instance decidableCaughtUp (m : MbdState) : Decidable (CaughtUp m) :=
  inferInstanceAs (Decidable (maxId m.manifest ≤ m.seqFile))

/--
Where a handler of mbd was killed: after `whole` of the records it appends and `torn`
bytes of the next one, with the sequence file as it was; or inside `manifest_rebuild`.
-/
inductive KillPoint where
  | appending (whole torn : Nat)
  | rebuilding (point : RebuildPoint)

/-- A step of the system, or a handler that mbd does not survive and the start after it. -/
inductive Move where
  | step (label : Label)
  | killed (label : Label) (point : KillPoint) (kept : HostName → Nat)

def appended (conf : Conf) (s : System) (label : Label) : List Event :=
  match step conf s label with
  | some s' => (manifestWritten conf s s' label).drop s.mbd.manifest.length
  | none => []

/-- The state in which a timer begins to rewrite the manifest. -/
def rewriting (conf : Conf) (s : System) : Label → Option MbdState
  | .timer now sendOk =>
    (schedule conf s.mbd now sendOk).filter fun m =>
      decide (conf.finishThreshold ≤ (m.finish.length : Int))
  | _ => none

/-- The file the next start finds; the outer `none` when the handler cannot be killed there. -/
def fileAt (conf : Conf) (s : System) (label : Label) : KillPoint → Option (Option (List Char))
  | .appending whole torn =>
    let records := appended conf s label
    let begun := (manifestText ((records.drop whole).take 1)).take torn
    some (some (manifestText (s.mbd.manifest ++ records.take whole) ++ begun))
  | .rebuilding point => do
      let m ← rewriting conf s label
      let records ← rebuiltRecords m
      some (manifestFile m.manifest records point)

/-- A system, and the ids of all the jobs whose submission has written them to the manifest. -/
structure Numbered where
  system : System
  given : List JobId

def issued (records : List Event) : Label → List JobId
  | .submit _ _ _ _ => newIds records
  | _ => []

def issuedBefore (conf : Conf) (s : System) (label : Label) : KillPoint → List JobId
  | .appending whole _ => issued ((appended conf s label).take whole) label
  | .rebuilding _ => []

def numberedStep (conf : Conf) (r : Numbered) : Move → Option Numbered
  | .step label =>
    (step conf r.system label).map fun s =>
      { system := s
        given := r.given ++ issued (appended conf r.system label) label }
  | .killed label point kept => do
      let file ← fileAt conf r.system label point
      let m ← startUp conf r.system.mbd.marks file r.system.mbd.seqFile
      some
        { system :=
            { r.system with
              mbd := m
              links := fun h => (r.system.links h).mbdGone (kept h) }
          given := r.given ++ issuedBefore conf r.system label point }

def numberedInitial (conf : Conf) : Numbered :=
  { system := initial conf
    given := [] }

def NumberedRun (conf : Conf) (guard : System → Move → Prop) : Numbered → Prop :=
  Steps (numberedStep conf) (fun r move => guard r.system move) (numberedInitial conf)

/--
What a kill has to leave: whole readable records, a file at the path of the manifest,
and no id whose record was taken out before the sequence file had it.
-/
def KillSpares (conf : Conf) (s : System) (label : Label) : KillPoint → Prop
  | .appending whole torn =>
    torn = 0 ∧ ∀ e ∈ s.mbd.manifest ++ (appended conf s label).take whole, Plain e
  | .rebuilding .started => ∀ m ∈ rewriting conf s label, Legible m
  | .rebuilding .renamed => False
  | .rebuilding (.written n) => CaughtUp s.mbd ∧ ∀ m ∈ rewriting conf s label,
      ∀ records ∈ rebuiltRecords m, ∃ k, (∀ e ∈ records.take k, Plain e) ∧
        n = (manifestText (records.take k)).length

def KeepsCount (conf : Conf) (s : System) : Move → Prop
  | .step label =>
    (label.Rereads s ∨ CaughtUp s.mbd) ∧ (rewriting conf s label ≠ none → CaughtUp s.mbd)
  | .killed label point _ => KillSpares conf s label point

variable {conf : Conf} {m m' : MbdState} {records : List Event}

theorem newIds_map_eventJobNew (ws : WireJobSubmit) (jobs : List JobData) :
    newIds (jobs.map (eventJobNew · ws)) = jobs.map JobData.jobId := by
  induction jobs with
  | nil => rfl
  | cons job rest ih => exact congrArg (job.jobId :: ·) ih

theorem jobRegister_ids {env : SubmitEnv} {uid gid : Nat} {request : WireJobSubmit}
    {answer : Except Status JobId}
    (done : jobRegister conf env m uid gid request = some (m', answer)) :
    m.jobIdSeq ≤ m'.jobIdSeq ∧ ∃ records, m'.manifest = m.manifest ++ records ∧
      (newIds records).Pairwise (· < ·) ∧ (∀ i ∈ newIds records, m.jobIdSeq < i ∧ i ≤ m'.jobIdSeq) ∧
      (m'.seqFile = m'.jobIdSeq ∨ records = [] ∧ m'.seqFile = m.seqFile) := by
  rcases jobRegister_inversion done with ⟨seq, _, grown, rfl, _⟩ |
    ⟨_, _, _, seq, jobs, m₂, _, loop, _, committed, rfl, _⟩
  · exact ⟨grown, [], (append_nil _).symm, List.Pairwise.nil,
      fun _ member => absurd member not_mem_nil, .inr ⟨rfl, rfl⟩⟩
  · obtain ⟨grown, ready⟩ := prepareLoop_spec loop
    obtain ⟨within, _, lot⟩ := ready jobs rfl
    obtain ⟨manifest, same, _⟩ := jobCommitPrepared_adds committed
    refine ⟨same ▸ grown, _, manifest, ?_, ?_, .inl rfl⟩
    · rw [newIds_map_eventJobNew]
      exact pairwise_map.mpr lot.pairwise
    · intro i member
      rw [newIds_map_eventJobNew] at member
      obtain ⟨job, listed, rfl⟩ := List.mem_map.mp member
      obtain ⟨_, above, below⟩ := within job listed
      exact ⟨above, same ▸ below⟩

variable {s s' : System} {label : Label}

theorem mbdTimer_count {now : Time} {sendOk : JobId → Bool}
    (done : mbdTimer conf s.mbd now sendOk = some m') :
    m'.seqFile = s.mbd.seqFile ∧ m'.jobIdSeq = s.mbd.jobIdSeq ∧
      (rewriting conf s (.timer now sendOk) = none → s.mbd.manifest <+: m'.manifest) := by
  obtain ⟨m, scheduled, rebuilt⟩ := bind_eq_some_iff.mp done
  have appends := schedule_appends scheduled
  unfold maybeRebuildManifest at rebuilt
  split at rebuilt
  · cases rebuilt
    exact ⟨appends.seqFile, appends.jobIdSeq, fun _ => appends.manifest⟩
  next reached =>
    obtain ⟨seqFile, jobIdSeq⟩ := manifestRebuild_count rebuilt
    refine ⟨seqFile.trans appends.seqFile, jobIdSeq.trans appends.jobIdSeq, fun none => ?_⟩
    simp [rewriting, scheduled] at none
    exact absurd none reached

theorem step_count (taken : step conf s label = some s')
    (submits : ∀ env uid gid request, label ≠ .submit env uid gid request)
    (restarts : ∀ kept, label ≠ .mbdRestart kept) :
    s'.mbd.seqFile = s.mbd.seqFile ∧ s'.mbd.jobIdSeq = s.mbd.jobIdSeq ∧
      (rewriting conf s label = none → s.mbd.manifest <+: s'.mbd.manifest) := by
  obtain ⟨m, handles, outbox, same⟩ := step_handles taken
  have of_appends : Appends s.mbd m →
      s'.mbd.seqFile = s.mbd.seqFile ∧ s'.mbd.jobIdSeq = s.mbd.jobIdSeq ∧
        (rewriting conf s label = none → s.mbd.manifest <+: s'.mbd.manifest) := by
    intro appends
    rw [same]
    exact ⟨appends.seqFile, appends.jobIdSeq, fun _ => appends.manifest⟩
  cases handles with
  | @submit env uid gid request => exact absurd rfl (submits env uid gid request)
  | @restart kept => exact absurd rfl (restarts kept)
  | signal done => exact of_appends (jobsSignal_appends done)
  | move done => exact of_appends (jobMove_acts done).appends
  | priority done => exact of_appends (jobPriority_acts done).appends
  | timer done =>
    have counted := mbdTimer_count done
    rw [same]
    exact counted
  | read head done => exact of_appends (mbdHandle_acts done).appends
  | other touches => exact of_appends (touches 0).appends

/--
No id was given twice, and every one of them is below the counter in memory and below
one of the two that a start reads.
-/
structure IdsAccounted (r : Numbered) : Prop where
  distinct : r.given.Nodup
  counted : ∀ i ∈ r.given, i ≤ r.system.mbd.jobIdSeq
  onDisk : ∀ i ∈ r.given, i ≤ max r.system.mbd.seqFile (maxId r.system.mbd.manifest)

variable {r r' : Numbered} {move : Move} {system : System} {env : SubmitEnv} {uid gid : Nat}
  {request : WireJobSubmit}

theorem IdsAccounted.onDisk_of_caughtUp (accounted : IdsAccounted r) (caughtUp : CaughtUp r.system.mbd) :
    ∀ i ∈ r.given, i ≤ r.system.mbd.seqFile := by
  intro i member
  apply Int.le_trans (accounted.onDisk i member)
  exact Int.max_le.mpr ⟨Int.le_refl _, caughtUp⟩

theorem IdsAccounted.onDisk_of_extends (accounted : IdsAccounted r)
    (front : r.system.mbd.manifest <+: records) :
    ∀ i ∈ r.given, i ≤ max r.system.mbd.seqFile (maxId records) := by
  intro i member
  apply Int.le_trans (accounted.onDisk i member)
  exact Int.max_le.mpr
    ⟨Int.le_max_left .., Int.le_trans (maxId_mono front) (Int.le_max_right ..)⟩

theorem IdsAccounted.keeps (accounted : IdsAccounted r)
    (counter : ∀ i ∈ r.given, i ≤ system.mbd.jobIdSeq)
    (disk : ∀ i ∈ r.given, i ≤ max system.mbd.seqFile (maxId system.mbd.manifest)) :
    IdsAccounted { system := system, given := r.given ++ [] } := by
  rw [append_nil]
  exact ⟨accounted.distinct, counter, disk⟩

theorem IdsAccounted.gives {ids : List JobId} (accounted : IdsAccounted r)
    (rising : ids.Pairwise (· < ·)) (above : ∀ i ∈ ids, r.system.mbd.jobIdSeq < i)
    (counter : ∀ i ∈ r.given ++ ids, i ≤ system.mbd.jobIdSeq)
    (disk : ∀ i ∈ r.given ++ ids, i ≤ max system.mbd.seqFile (maxId system.mbd.manifest)) :
    IdsAccounted { system := system, given := r.given ++ ids } where
  distinct := by
    refine nodup_append.mpr ⟨accounted.distinct, rising.imp Int.ne_of_lt, ?_⟩
    intro i before j after same
    have passed := Int.lt_of_le_of_lt (accounted.counted i before) (above j after)
    exact Int.ne_of_lt passed same
  counted := counter
  onDisk := disk

theorem appended_submit (taken : step conf s (.submit env uid gid request) = some s')
    (manifest : s'.mbd.manifest = s.mbd.manifest ++ records) :
    appended conf s (.submit env uid gid request) = records := by
  unfold appended
  rw [taken]
  simp only [manifestWritten, manifest, drop_left]

theorem IdsAccounted.submit (accounted : IdsAccounted r)
    (taken : step conf r.system (.submit env uid gid request) = some s') :
    IdsAccounted ⟨s', r.given ++ newIds (appended conf r.system (.submit env uid gid request))⟩ := by
  have whole := taken
  simp only [step] at taken
  split at taken
  · obtain ⟨⟨m, answer⟩, registered, rfl⟩ := map_eq_some_iff.mp taken
    obtain ⟨grown, records, manifest, rising, within, saved⟩ := jobRegister_ids registered
    rw [appended_submit whole manifest]
    have counter : ∀ i ∈ r.given ++ newIds records, i ≤ m.jobIdSeq := by
      intro i member
      rcases mem_append.mp member with before | after
      · exact Int.le_trans (accounted.counted i before) grown
      · exact (within i after).2
    apply accounted.gives rising (fun i member => (within i member).1) counter
    intro i member
    rcases saved with saved | ⟨rfl, same⟩
    · apply Int.le_trans (counter i member)
      rw [← saved]
      exact Int.le_max_left ..
    · -- nothing was written, and the sequence file is the old one
      rw [show newIds [] = [] from rfl, append_nil] at member
      rw [append_nil] at manifest
      have before := accounted.onDisk i member
      rw [← same, ← manifest] at before
      exact before
  · cases taken

theorem IdsAccounted.step (accounted : IdsAccounted r) (allowed : KeepsCount conf r.system (.step label))
    (taken : numberedStep conf r (.step label) = some r') : IdsAccounted r' := by
  obtain ⟨s', stepped, rfl⟩ := map_eq_some_iff.mp taken
  obtain ⟨reads, compacts⟩ := allowed
  by_cases submits : ∃ env uid gid request, label = .submit env uid gid request
  · obtain ⟨env, uid, gid, request, rfl⟩ := submits
    exact accounted.submit stepped
  by_cases restarts : ∃ kept, label = .mbdRestart kept
  · obtain ⟨kept, rfl⟩ := restarts
    obtain ⟨m, replayed, rfl⟩ := map_eq_some_iff.mp stepped
    obtain ⟨_, jobIdSeq, manifest, seqFile, _⟩ := started_of_replay replayed
    apply accounted.keeps
    · intro i member
      change i ≤ m.jobIdSeq
      rw [jobIdSeq, Int.max_comm]
      rcases reads with legible | caughtUp
      · rw [readManifest_manifestText legible]
        exact accounted.onDisk i member
      · exact Int.le_trans (accounted.onDisk_of_caughtUp caughtUp i member) (Int.le_max_left ..)
    · intro i member
      change i ≤ max m.seqFile (maxId m.manifest)
      rw [manifest, seqFile]
      exact accounted.onDisk i member
  · obtain ⟨seqFile, jobIdSeq, appends⟩ := step_count stepped
      (fun env uid gid request same => submits ⟨env, uid, gid, request, same⟩)
      (fun kept same => restarts ⟨kept, same⟩)
    have silent : issued (appended conf r.system label) label = [] := by
      cases label with
      | submit env uid gid request => exact absurd ⟨env, uid, gid, request, rfl⟩ submits
      | _ => rfl
    rw [silent]
    apply accounted.keeps
    · intro i member
      rw [jobIdSeq]
      exact accounted.counted i member
    · intro i member
      rw [seqFile]
      by_cases rewrites : rewriting conf r.system label = none
      · exact accounted.onDisk_of_extends (appends rewrites) i member
      · apply Int.le_trans _ (Int.le_max_left ..)
        exact accounted.onDisk_of_caughtUp (compacts rewrites) i member

theorem startUp_count {marks : ClosedMarks} {seqFile : JobId} (plain : ∀ e ∈ records, Plain e)
    (started : startUp conf marks (some (manifestText records)) seqFile = some m) :
    m.manifest = records ∧ m.seqFile = seqFile ∧ m.jobIdSeq = max seqFile (maxId records) := by
  obtain ⟨_, jobIdSeq, manifest, same, _⟩ := started_of_replay started
  rw [readManifest_manifestText plain] at manifest jobIdSeq
  exact ⟨manifest, same, jobIdSeq.trans (Int.max_comm ..)⟩

theorem issued_take (conf : Conf) (s : System) (label : Label) (whole : Nat) :
    (issued ((appended conf s label).take whole) label).Pairwise (· < ·) ∧
      ∀ i ∈ issued ((appended conf s label).take whole) label,
        s.mbd.jobIdSeq < i ∧ i ∈ newIds ((appended conf s label).take whole) := by
  have nothing : ([] : List JobId).Pairwise (· < ·) ∧ ∀ i ∈ ([] : List JobId),
      s.mbd.jobIdSeq < i ∧ i ∈ newIds ((appended conf s label).take whole) :=
    ⟨List.Pairwise.nil, forall_mem_nil _⟩
  cases label with
  | submit env uid gid request =>
    cases taken : Cluster.step conf s (.submit env uid gid request) with
    | none =>
      have none : appended conf s (.submit env uid gid request) = [] := by
        unfold appended
        rw [taken]
      rw [none, take_nil] at nothing ⊢
      exact nothing
    | some s' =>
      have whole := taken
      simp only [Cluster.step] at taken
      split at taken
      · obtain ⟨⟨m, answer⟩, registered, rfl⟩ := map_eq_some_iff.mp taken
        obtain ⟨_, records, manifest, rising, within, _⟩ := jobRegister_ids registered
        rw [appended_submit whole manifest]
        refine ⟨?_, fun i member => ⟨?_, member⟩⟩
        · exact rising.sublist ((take_sublist _ _).filterMap _)
        · have listed := ((take_sublist _ records).filterMap _).subset member
          exact (within i listed).1
      · cases taken
  | _ => exact nothing

theorem IdsAccounted.killed_appending {whole : Nat} (accounted : IdsAccounted r)
    (plain : ∀ e ∈ r.system.mbd.manifest ++ (appended conf r.system label).take whole, Plain e)
    (started : startUp conf r.system.mbd.marks
      (some (manifestText (r.system.mbd.manifest ++ (appended conf r.system label).take whole)))
      r.system.mbd.seqFile = some m) (same : system.mbd = m) :
    IdsAccounted ⟨system, r.given ++ issued ((appended conf r.system label).take whole) label⟩ := by
  obtain ⟨manifest, seqFile, jobIdSeq⟩ := startUp_count plain started
  obtain ⟨rising, fresh⟩ := issued_take conf r.system label whole
  have read : ∀ i ∈ r.given ++ issued ((appended conf r.system label).take whole) label,
      i ≤ max r.system.mbd.seqFile
        (maxId (r.system.mbd.manifest ++ (appended conf r.system label).take whole)) := by
    intro i member
    rcases mem_append.mp member with before | after
    · exact accounted.onDisk_of_extends (prefix_append _ _) i before
    · apply Int.le_trans _ (Int.le_max_right ..)
      apply le_maxId
      rw [newIds, filterMap_append]
      exact mem_append_right _ (fresh i after).2
  subst same
  apply accounted.gives rising fun i member => (fresh i member).1
  · rw [jobIdSeq]
    exact read
  · rw [manifest, seqFile]
    exact read

theorem IdsAccounted.killed {point : KillPoint} {kept : HostName → Nat} (accounted : IdsAccounted r)
    (allowed : KeepsCount conf r.system (.killed label point kept))
    (taken : numberedStep conf r (.killed label point kept) = some r') : IdsAccounted r' := by
  obtain ⟨file, there, taken⟩ := bind_eq_some_iff.mp taken
  obtain ⟨m, started, taken⟩ := bind_eq_some_iff.mp taken
  cases taken
  cases point with
  | appending whole torn =>
    obtain ⟨rfl, plain⟩ := allowed
    cases there
    rw [take_zero, append_nil] at started
    exact accounted.killed_appending plain started rfl
  | rebuilding point =>
    obtain ⟨before, rewrites, there⟩ := bind_eq_some_iff.mp there
    obtain ⟨records, rebuilt, there⟩ := bind_eq_some_iff.mp there
    cases there
    cases point with
    | started =>
      obtain ⟨manifest, seqFile, jobIdSeq⟩ := startUp_count (allowed before rewrites) started
      have front : r.system.mbd.manifest <+: before.manifest := by
        cases label with
        | timer now sendOk =>
          have scheduled := (filter_eq_some_iff.mp rewrites).1
          exact (schedule_appends scheduled).manifest
        | _ => cases rewrites
      have read := accounted.onDisk_of_extends front
      apply accounted.keeps
      · rw [jobIdSeq]
        exact read
      · rw [manifest, seqFile]
        exact read
    | renamed => exact absurd allowed id
    | written n =>
      obtain ⟨caughtUp, writes⟩ := allowed
      obtain ⟨k, plain, rfl⟩ := writes before rewrites records rebuilt
      have front : (manifestText records).take (manifestText (records.take k)).length =
          manifestText (records.take k) := by
        rw [← take_append_drop k records, manifestText_append]
        simp
      simp only [manifestFile, front] at started
      obtain ⟨_, seqFile, jobIdSeq⟩ := startUp_count plain started
      have saved := accounted.onDisk_of_caughtUp caughtUp
      apply accounted.keeps
      · intro i member
        rw [jobIdSeq]
        exact Int.le_trans (saved i member) (Int.le_max_left ..)
      · intro i member
        rw [seqFile]
        exact Int.le_trans (saved i member) (Int.le_max_left ..)

/--
In every run whose kills and compactions keep the count on disk, no id is given to a
second job.
-/
theorem ids_unique (run : NumberedRun conf (KeepsCount conf) r) : r.given.Nodup := by
  have start : IdsAccounted (numberedInitial conf) :=
    ⟨nodup_nil, forall_mem_nil _, forall_mem_nil _⟩
  have accounted : IdsAccounted r := by
    apply Steps.invariant IdsAccounted start _ run
    intro t u move before allowed taken
    cases move with
    | step label => exact before.step allowed taken
    | killed label point kept => exact before.killed allowed taken
  exact accounted.distinct

def numberedOf (conf : Conf) (check : System → Move → Bool) (moves : List Move) : Option Numbered :=
  execute (numberedStep conf) (fun r move => check r.system move) (numberedInitial conf) moves

def spares (conf : Conf) (s : System) (label : Label) : KillPoint → Bool
  | .appending whole torn => decide (torn = 0) &&
      decide (∀ e ∈ s.mbd.manifest ++ (appended conf s label).take whole, Plain e)
  | .rebuilding .started => (rewriting conf s label).all fun m => decide (Legible m)
  | .rebuilding .renamed => false
  | .rebuilding (.written n) => decide (CaughtUp s.mbd) && (rewriting conf s label).all fun m =>
    (rebuiltRecords m).all fun records => (List.range (records.length + 1)).any fun k =>
      decide (∀ e ∈ records.take k, Plain e) &&
        decide (n = (manifestText (records.take k)).length)

def mayCount (conf : Conf) (s : System) : Move → Bool
  | .step label => (decide (label.Rereads s) || decide (CaughtUp s.mbd)) &&
      ((rewriting conf s label).isNone || decide (CaughtUp s.mbd))
  | .killed label point _ => spares conf s label point

variable {moves : List Move}

theorem spares_sound {point : KillPoint} (checked : spares conf s label point = true) :
    KillSpares conf s label point := by
  cases point with
  | appending whole torn =>
    obtain ⟨untorn, plain⟩ := (Bool.and_eq_true _ _).mp checked
    exact ⟨of_decide_eq_true untorn, of_decide_eq_true plain⟩
  | rebuilding point =>
    cases point with
    | started =>
      intro m rewrites
      simp only [spares, mem_def.mp rewrites, all_some] at checked
      exact of_decide_eq_true checked
    | renamed => cases checked
    | written n =>
      obtain ⟨caughtUp, writes⟩ := (Bool.and_eq_true _ _).mp checked
      refine ⟨of_decide_eq_true caughtUp, fun m rewrites records rebuilt => ?_⟩
      simp only [mem_def.mp rewrites, mem_def.mp rebuilt, all_some] at writes
      obtain ⟨k, _, found⟩ := List.any_eq_true.mp writes
      obtain ⟨plain, length⟩ := (Bool.and_eq_true _ _).mp found
      exact ⟨k, of_decide_eq_true plain, of_decide_eq_true length⟩

theorem keepsCount_of_mayCount (checked : mayCount conf s move = true) :
    KeepsCount conf s move := by
  cases move with
  | killed label point kept => exact spares_sound checked
  | step label =>
    obtain ⟨reads, compacts⟩ := (Bool.and_eq_true _ _).mp checked
    refine ⟨((Bool.or_eq_true _ _).mp reads).imp of_decide_eq_true of_decide_eq_true, ?_⟩
    intro rewrites
    rcases (Bool.or_eq_true _ _).mp compacts with none | caughtUp
    · exact absurd (isNone_iff_eq_none.mp none) rewrites
    · exact of_decide_eq_true caughtUp

theorem numberedRun_of_numberedOf {check : System → Move → Bool} {guard : System → Move → Prop}
    (sound : ∀ s move, check s move = true → guard s move)
    (executed : numberedOf conf check moves = some r) : NumberedRun conf guard r :=
  steps_of_execute (fun move _ r => sound r.system move) executed

def killFirst : Move :=
  .step (.signal 2 1 1 0 sigKill fun _ => true)

/--
mbd is killed in a submission and, after another one, in a compaction that has not
written anything yet.
-/
def caughtUpKills : List Move :=
  [.killed (submitAt 1 plainRequest) (.appending 1 0) fun _ => 0, .step (submitAt 1 plainRequest),
    killFirst, .killed (.timer 3 fun _ => true) (.rebuilding (.written 0)) fun _ => 0,
    .step (submitAt 4 plainRequest)]

theorem ids_unique_caughtUpKills :
    ∃ r, NumberedRun eagerConf (KeepsCount eagerConf) r ∧ r.given.length = 3 ∧ r.given.Nodup := by
  obtain ⟨r, executed, three⟩ : ∃ r ∈ numberedOf eagerConf (mayCount eagerConf) caughtUpKills,
      r.given.length = 3 := by decide +kernel
  have run : NumberedRun eagerConf (KeepsCount eagerConf) r :=
    numberedRun_of_numberedOf (fun _ _ => keepsCount_of_mayCount) executed
  exact ⟨r, run, three, ids_unique run⟩

/--
mbd is killed between the record of a job and the sequence file; the job ends and its
record is removed before another submission has written the file.
-/
def killedInSubmission : List Move :=
  [.killed (submitAt 1 plainRequest) (.appending 1 0) fun _ => 0, killFirst,
    .step (.timer 3 fun _ => true), .step (.mbdRestart fun _ => 0), .step (submitAt 4 plainRequest)]

/-- mbd is killed between the rename of the manifest and the opening of the new one. -/
def killedInRename : List Move :=
  [.step (submitAt 1 plainRequest), killFirst,
    .killed (.timer 3 fun _ => true) (.rebuilding .renamed) fun _ => 0,
    .step (submitAt 4 plainRequest)]

/-- The moves can be made, and some id has been given twice at the end. -/
def Reuses (conf : Conf) (moves : List Move) : Prop :=
  ∃ r, numberedOf conf (fun _ _ => true) moves = some r ∧ NumberedRun conf anyStep r ∧
    ¬ r.given.Nodup

theorem reuses_of_any (executed : (numberedOf conf (fun _ _ => true) moves).any
      (fun r => !decide r.given.Nodup) = true) : Reuses conf moves := by
  obtain ⟨r, done, twice⟩ := (Option.any_eq_true _ _).mp executed
  refine ⟨r, done, numberedRun_of_numberedOf (fun _ _ _ => trivial) done, ?_⟩
  simpa using twice

theorem ids_reused : Reuses eagerConf killedInSubmission ∧ Reuses eagerConf killedInRename := by
  constructor
  · apply reuses_of_any
    decide +kernel
  · apply reuses_of_any
    decide +kernel

end LavaLite.Cluster
