import LavaLite.Mbd.Replay

/-
What every handler leaves alone, whatever state it starts from: after a kill inside a handler
or under another configuration it need not be one that mbd reaches by itself.  A handler that
acts on one job touches that job only, appends to the manifest and gives out no id.
-/

namespace LavaLite.Mbd

open Base Batch Kernel Function List Option

/-- A host as registrations and administrators see it: its channel, its state and its state file. -/
structure Presence where
  chan : Int
  status : HostStatus
  marked : Bool
  deriving DecidableEq

def MbdState.presence (m : MbdState) (h : HostName) : Presence :=
  ⟨(m.hosts h).sbdChan, (m.hosts h).status, m.marks.hosts h⟩

def NoneOnZero (m : MbdState) : Prop :=
  ∀ h, (m.hosts h).sbdChan ≠ 0

theorem NoneOnZero.congr {m m' : MbdState} (none : NoneOnZero m) (same : m'.presence = m.presence) :
    NoneOnZero m' := by
  intro h
  have chan : (m'.hosts h).sbdChan = (m.hosts h).sbdChan :=
    congrArg Presence.chan (congrFun same h)
  rw [chan]
  exact none h

structure Touches (i : JobId) (m m' : MbdState) : Prop where
  jobs : ∀ k, k ≠ i → m'.jobs k = m.jobs k
  acted : ∀ job', m'.jobs i = some job' →
    ∃ job, m.jobs i = some job ∧ (job'.jobId, job'.res) = (job.jobId, job.res)
  lists : ∀ id k, k ≠ i → (m'.list id).count k = (m.list id).count k
  manifest : ∃ records, m'.manifest = m.manifest ++ records ∧
    ((∀ job, m.jobs i = some job → job.jobId = i) → ∀ e ∈ records, recordJob e = i)
  seqFile : m'.seqFile = m.seqFile
  jobIdSeq : m'.jobIdSeq = m.jobIdSeq

structure Acts (i : JobId) (m m' : MbdState) : Prop extends Touches i m m' where
  presence : m'.presence = m.presence

theorem Touches.known {m m' : MbdState} {i k : JobId} {job' : JobData} (touches : Touches i m m')
    (found : m'.jobs k = some job') :
    ∃ job, m.jobs k = some job ∧ (job'.jobId, job'.res) = (job.jobId, job.res) := by
  by_cases same : k = i
  · subst same
    exact touches.acted job' found
  · rw [touches.jobs k same] at found
    exact ⟨job', found, rfl⟩

/-- Only records were added to what is on disk, and no id was taken. -/
structure Appends (m m' : MbdState) : Prop where
  manifest : m.manifest <+: m'.manifest
  seqFile : m'.seqFile = m.seqFile
  jobIdSeq : m'.jobIdSeq = m.jobIdSeq

variable {conf : Conf} {m m₁ m' m'' : MbdState} {i j jobId : JobId} {job job' : JobData}
  {now : Time} {q : QueueName} {h n : HostName} {msg : MbdMsg} {ackOk success close : Bool}
  {exitStatus sig arrayIndex free : Int} {uid : Nat} {status : Status} {sendOk : JobId → Bool}
  {turn : Turn} {holds : MbdState → Prop} {l : List JobId}

theorem Touches.of_kept (jobs : m'.jobs = m.jobs) (lists : ∀ id, m'.list id = m.list id)
    (manifest : m'.manifest = m.manifest) (seqFile : m'.seqFile = m.seqFile)
    (jobIdSeq : m'.jobIdSeq = m.jobIdSeq) : Touches i m m' where
  jobs := fun k _ => congrFun jobs k
  acted := fun job found => ⟨job, (congrFun jobs i).symm.trans found, rfl⟩
  lists := fun id k _ => congrArg (List.count k) (lists id)
  manifest := ⟨[], manifest.trans (append_nil _).symm, fun _ _ member => absurd member not_mem_nil⟩
  seqFile := seqFile
  jobIdSeq := jobIdSeq

theorem Acts.refl (i : JobId) (m : MbdState) : Acts i m m where
  toTouches := .of_kept rfl (fun _ => rfl) rfl rfl rfl
  presence := rfl

theorem Touches.appends (touches : Touches i m m') : Appends m m' where
  manifest := by
    obtain ⟨records, manifest, _⟩ := touches.manifest
    exact ⟨records, manifest.symm⟩
  seqFile := touches.seqFile
  jobIdSeq := touches.jobIdSeq

theorem Appends.refl (m : MbdState) : Appends m m :=
  ⟨prefix_refl _, rfl, rfl⟩

theorem Appends.trans (first : Appends m m') (second : Appends m' m'') : Appends m m'' :=
  ⟨first.manifest.trans second.manifest, second.seqFile.trans first.seqFile,
    second.jobIdSeq.trans first.jobIdSeq⟩

/-! One rule for the last operation of a handler. -/

theorem Acts.quiet (acts : Acts i m m₁) (jobs : m'.jobs = m₁.jobs)
    (lists : ∀ id k, (m'.list id).count k = (m₁.list id).count k)
    (manifest : m'.manifest = m₁.manifest) (seqFile : m'.seqFile = m₁.seqFile)
    (jobIdSeq : m'.jobIdSeq = m₁.jobIdSeq) (presence : m'.presence = m₁.presence) :
    Acts i m m' where
  jobs := fun k other => (congrFun jobs k).trans (acts.jobs k other)
  acted := fun job found => acts.acted job ((congrFun jobs i).symm.trans found)
  lists := fun id k other => (lists id k).trans (acts.lists id k other)
  manifest := by
    rw [manifest]
    exact acts.manifest
  seqFile := seqFile.trans acts.seqFile
  jobIdSeq := jobIdSeq.trans acts.jobIdSeq
  presence := presence.trans acts.presence

theorem Acts.queue {f : QueueData → QueueData} (acts : Acts i m m₁) :
    Acts i m (m₁.modifyQueue q f) :=
  acts.quiet rfl (fun _ _ => rfl) rfl rfl rfl rfl

theorem presence_send (m : MbdState) (h : HostName) (msg : MbdMsg) :
    (m.send h msg).presence = m.presence :=
  rfl

theorem presence_modifyHost (m : MbdState) (h : HostName) (f : HostData → HostData) :
    (m.modifyHost h f).presence = update m.presence h
      ⟨(f (m.hosts h)).sbdChan, (f (m.hosts h)).status, m.marks.hosts h⟩ := by
  funext n
  by_cases same : n = h
  · subst same
    simp only [MbdState.presence, MbdState.modifyHost, update_self]
  · simp only [MbdState.presence, MbdState.modifyHost, update_of_ne same]

theorem Acts.host {f : HostData → HostData} (acts : Acts i m m₁)
    (kept : ∀ host, (f host).sbdChan = host.sbdChan ∧ (f host).status = host.status) :
    Acts i m (m₁.modifyHost h f) := by
  refine acts.quiet rfl (fun _ _ => rfl) rfl rfl rfl ?_
  obtain ⟨chan, status⟩ := kept (m₁.hosts h)
  rw [presence_modifyHost, chan, status]
  exact update_eq_self h m₁.presence

theorem Acts.send (acts : Acts i m m₁) : Acts i m (m₁.send h msg) :=
  acts.quiet rfl (fun _ _ => rfl) rfl rfl rfl rfl

theorem Acts.ack (acts : Acts i m m₁) : Acts i m (if ackOk then m₁.send h msg else m₁) := by
  split
  · exact acts.send
  · exact acts

theorem Acts.release (acts : Acts i m m₁) : Acts i m (tokenPoolRelease conf m₁ job) :=
  acts.quiet rfl (fun _ _ => rfl) rfl rfl rfl rfl

theorem Acts.alloc (acts : Acts i m m₁) : Acts i m (tokenAlloc conf m₁ job) :=
  acts.quiet rfl (fun _ _ => rfl) rfl rfl rfl rfl

theorem Acts.element (acts : Acts i m m₁) : Acts i m (jobArrayElementFinished m₁ job) :=
  acts.quiet rfl (fun _ _ => rfl) rfl rfl rfl rfl

theorem Acts.deps {delta : Int} (acts : Acts i m m₁) : Acts i m (jobDepsRefcnt m₁ job delta) :=
  acts.quiet rfl (fun _ _ => rfl) rfl rfl rfl rfl

theorem presence_of_updateEach {f : HostData → Option HostData} {names : List HostName}
    {hosts : HostName → HostData}
    (kept : ∀ {a b}, f a = some b → b.sbdChan = a.sbdChan ∧ b.status = a.status)
    (updated : updateEach f names m.hosts = some hosts) (marks : m'.marks = m.marks)
    (result : m'.hosts = hosts) : m'.presence = m.presence := by
  have same := updateEach_keeps
    (fun h host => host.sbdChan = (m.hosts h).sbdChan ∧ host.status = (m.hosts h).status)
    (fun done before => ⟨(kept done).1.trans before.1, (kept done).2.trans before.2⟩)
    (fun _ => ⟨rfl, rfl⟩) updated
  funext h
  simp only [MbdState.presence, result, marks, same h]

theorem Acts.reset (acts : Acts i m m₁) (done : resetHostResources m₁ job = some m') :
    Acts i m m' := by
  obtain ⟨hosts, updated, done⟩ := bind_eq_some_iff.mp done
  cases done
  refine acts.quiet rfl (fun _ _ => rfl) rfl rfl rfl
    (presence_of_updateEach (fun reset => ?_) updated rfl rfl)
  obtain ⟨gpus, _, reset⟩ := bind_eq_some_iff.mp reset
  cases reset
  exact ⟨rfl, rfl⟩

theorem Acts.charge (acts : Acts i m m₁) (done : hostUpdateResources m₁ job = some m') :
    Acts i m m' := by
  obtain ⟨hosts, updated, done⟩ := bind_eq_some_iff.mp done
  cases done
  refine acts.quiet rfl (fun _ _ => rfl) rfl rfl rfl
    (presence_of_updateEach (fun charge => ?_) updated rfl rfl)
  cases charge
  exact ⟨rfl, rfl⟩

theorem Acts.log {e : Event} (acts : Acts i m m₁) (found : m.jobs i = some job)
    (about : job.jobId = i → recordJob e = i) : Acts i m (m₁.log e) where
  jobs := acts.jobs
  acted := acts.acted
  lists := acts.lists
  manifest := by
    obtain ⟨records, manifest, earlier⟩ := acts.manifest
    refine ⟨records ++ [e], ?_, fun keyed e' member => ?_⟩
    · rw [← append_assoc, ← manifest]
      rfl
    · rcases mem_append.mp member with member | member
      · exact earlier keyed e' member
      · rw [mem_singleton.mp member]
        exact about (keyed job found)
  seqFile := acts.seqFile
  jobIdSeq := acts.jobIdSeq
  presence := acts.presence

theorem Acts.write (acts : Acts i m m₁) (found : m.jobs i = some job)
    (jobs : m'.jobs = update m₁.jobs i (some job'))
    (same : (job'.jobId, job'.res) = (job.jobId, job.res))
    (lists : ∀ id k, k ≠ i → (m'.list id).count k = (m₁.list id).count k)
    (manifest : m'.manifest = m₁.manifest) (seqFile : m'.seqFile = m₁.seqFile)
    (jobIdSeq : m'.jobIdSeq = m₁.jobIdSeq) (presence : m'.presence = m₁.presence) :
    Acts i m m' where
  jobs := by
    intro k other
    rw [jobs, update_of_ne other]
    exact acts.jobs k other
  acted := by
    intro job'' found''
    rw [jobs, update_self] at found''
    cases found''
    exact ⟨job, found, same⟩
  lists := fun id k other => (lists id k other).trans (acts.lists id k other)
  manifest := by
    rw [manifest]
    exact acts.manifest
  seqFile := seqFile.trans acts.seqFile
  jobIdSeq := jobIdSeq.trans acts.jobIdSeq
  presence := presence.trans acts.presence

theorem Acts.set (acts : Acts i m m₁) (found : m.jobs i = some job)
    (same : (job'.jobId, job'.res) = (job.jobId, job.res)) : Acts i m (m₁.setJob i job') :=
  acts.write found rfl same (fun _ _ _ => rfl) rfl rfl rfl rfl

theorem Acts.move {source target : ListId} (acts : Acts i m m₁) (found : m.jobs i = some job)
    (same : (job'.jobId, job'.res) = (job.jobId, job.res)) :
    Acts i m (m₁.jobMoveList i job' source target) :=
  acts.write found rfl same (fun _ _ other => count_jobMoveList other) rfl rfl rfl rfl

/-! ### Reports from an sbd -/

theorem mbdJobRejectDispatch_acts (found : m.jobs j = some job)
    (done : mbdJobRejectDispatch conf m now j job ackOk = some m') : Acts j m m' := by
  unfold mbdJobRejectDispatch at done
  split at done
  · obtain ⟨h, _, done⟩ := bind_eq_some_iff.mp done
    obtain ⟨q, _, done⟩ := bind_eq_some_iff.mp done
    obtain ⟨m₁, reset, done⟩ := bind_eq_some_iff.mp done
    cases done
    apply Acts.ack
    refine Acts.log ?_ found fun _ => rfl
    refine Acts.move ?_ found rfl
    apply Acts.queue
    apply Acts.release
    exact (Acts.refl j m).reset reset
  · cases done

theorem mbdNewJobReject_acts (done : mbdNewJobReject conf m now j ackOk = some m') :
    Acts j m m' := by
  unfold mbdNewJobReject at done
  split at done
  · cases done
    exact Acts.refl j m
  next job found =>
    split at done
    · split at done
      · cases done
        exact Acts.refl j m
      · cases done
    · exact mbdJobRejectDispatch_acts found done

theorem mbdNewJobReply_acts {pid : Int} (done : mbdNewJobReply m now n j pid ackOk = some m') :
    Acts j m m' := by
  unfold mbdNewJobReply at done
  split at done
  · cases done
    exact Acts.refl j m
  next job found =>
    split at done
    · simp only at done
      split at done
      · cases done
        exact (Acts.refl j m).send
      · cases done
        refine Acts.log ?_ found fun keyed => keyed
        refine Acts.set ?_ found rfl
        exact (Acts.refl j m).send
    · cases done
      exact Acts.refl j m

theorem mbdJobFinishFirst_acts (acts : Acts j m m₁) (found : m.jobs j = some job)
    (done : mbdJobFinishFirst conf m₁ now j job success exitStatus = some m') : Acts j m m' := by
  unfold mbdJobFinishFirst at done
  obtain ⟨q, _, done⟩ := bind_eq_some_iff.mp done
  obtain ⟨m₂, reset, done⟩ := bind_eq_some_iff.mp done
  cases done
  refine Acts.log ?_ found fun keyed => keyed
  apply Acts.element
  refine Acts.move ?_ found rfl
  apply Acts.queue
  apply Acts.release
  exact acts.reset reset

theorem mbdJobFinish_acts (done : mbdJobFinish conf m now n j success exitStatus ackOk = some m') :
    Acts j m m' := by
  unfold mbdJobFinish at done
  split at done
  · cases done
    exact (Acts.refl j m).ack
  next job found =>
    obtain ⟨h, _, done⟩ := bind_eq_some_iff.mp done
    split at done
    · cases done
      exact Acts.refl j m
    · split at done
      · cases done
        exact (Acts.refl j m).ack
      · split at done
        · split at done
          · exact mbdJobFinishFirst_acts (Acts.refl j m).send found done
          · cases done
            exact Acts.refl j m
        · cases done

theorem mbdJobSignalReply_acts {ok : Bool} (done : mbdJobSignalReply m n j sig ok = some m') :
    Acts j m m' := by
  unfold mbdJobSignalReply at done
  split at done
  · cases done
    exact Acts.refl j m
  next job found =>
    split at done
    · split at done
      · obtain ⟨q, _, done⟩ := bind_eq_some_iff.mp done
        cases done
        refine Acts.host ?_ fun _ => ⟨rfl, rfl⟩
        apply Acts.queue
        exact (Acts.refl j m).set found rfl
      · split at done
        · obtain ⟨q, _, done⟩ := bind_eq_some_iff.mp done
          cases done
          refine Acts.host ?_ fun _ => ⟨rfl, rfl⟩
          apply Acts.queue
          exact (Acts.refl j m).set found rfl
        · cases done
          exact Acts.refl j m
    · cases done
      exact Acts.refl j m

theorem mbdJobMissing_acts (done : mbdJobMissing conf m now n j = some m') : Acts j m m' := by
  unfold mbdJobMissing at done
  split at done
  · cases done
    exact Acts.refl j m
  next job found =>
    split at done
    · cases done
      exact Acts.refl j m
    · split at done
      · cases done
        exact Acts.refl j m
      · split at done
        · obtain ⟨q, _, done⟩ := bind_eq_some_iff.mp done
          obtain ⟨m₁, reset, done⟩ := bind_eq_some_iff.mp done
          cases done
          refine Acts.log ?_ found fun _ => rfl
          refine Acts.move ?_ found rfl
          apply Acts.queue
          apply Acts.release
          exact (Acts.refl j m).reset reset
        · cases done
          exact Acts.refl j m

/-! ### Requests of users -/

theorem finishPendingJob_acts (found : m.jobs j = some job)
    (done : finishPendingJob m now j job sig uid = some (m', status)) : Acts j m m' := by
  unfold finishPendingJob at done
  obtain ⟨q, _, done⟩ := bind_eq_some_iff.mp done
  cases done
  apply Acts.element
  refine Acts.move ?_ found rfl
  refine Acts.log ?_ found fun keyed => keyed
  refine Acts.log ?_ found fun keyed => keyed
  apply Acts.deps
  exact (Acts.refl j m).queue

theorem stopPendingJob_acts (found : m.jobs j = some job)
    (done : stopPendingJob m now j job sig uid = some (m', status)) : Acts j m m' := by
  unfold stopPendingJob at done
  split at done
  · cases done
    exact Acts.refl j m
  · obtain ⟨q, _, done⟩ := bind_eq_some_iff.mp done
    cases done
    apply Acts.queue
    refine Acts.log ?_ found fun _ => rfl
    refine Acts.log ?_ found fun keyed => keyed
    exact (Acts.refl j m).set found rfl

theorem resumePendingJob_acts (found : m.jobs j = some job)
    (done : resumePendingJob m now j job sig uid = some (m', status)) : Acts j m m' := by
  unfold resumePendingJob at done
  split at done
  · cases done
    exact Acts.refl j m
  · obtain ⟨q, _, done⟩ := bind_eq_some_iff.mp done
    cases done
    apply Acts.queue
    refine Acts.log ?_ found fun _ => rfl
    refine Acts.log ?_ found fun keyed => keyed
    exact (Acts.refl j m).set found rfl

theorem signalPendingJob_acts (found : m.jobs j = some job)
    (done : signalPendingJob m now j job sig uid = some (m', status)) : Acts j m m' := by
  unfold signalPendingJob at done
  split at done
  · exact finishPendingJob_acts found done
  · split at done
    · exact stopPendingJob_acts found done
    · split at done
      · exact resumePendingJob_acts found done
      · cases done
        exact Acts.refl j m

theorem signalRunningJob_acts {sendOk : Bool} (found : m.jobs j = some job)
    (done : signalRunningJob m now j job sig uid sendOk = some (m', status)) : Acts j m m' := by
  unfold signalRunningJob at done
  obtain ⟨h, _, done⟩ := bind_eq_some_iff.mp done
  split at done
  · cases done
    exact Acts.refl j m
  · split at done
    · cases done
      refine Acts.log ?_ found fun keyed => keyed
      refine Acts.set ?_ found rfl
      exact (Acts.refl j m).send
    · cases done
      exact Acts.refl j m

theorem signalOneJob_acts {sendOk : Bool} (found : m.jobs j = some job)
    (done : signalOneJob conf m now uid j job sig sendOk = some (m', status)) : Acts j m m' := by
  unfold signalOneJob at done
  split at done
  · cases done
    exact Acts.refl j m
  · split at done
    · cases done
      exact Acts.refl j m
    · split at done
      · cases done
        exact Acts.refl j m
      · split at done
        · cases done
          exact Acts.refl j m
        · split at done
          · exact signalPendingJob_acts found done
          · split at done
            · exact signalPendingJob_acts found done
            · exact signalRunningJob_acts found done

theorem signalScanPending_acts (done : signalScanPending conf now uid sig m j = some m') :
    Acts j m m' := by
  unfold signalScanPending at done
  obtain ⟨job, found, done⟩ := bind_eq_some_iff.mp done
  split at done
  · split at done
    · cases done
      exact Acts.refl j m
    · obtain ⟨⟨_, status⟩, signalled, rfl⟩ := map_eq_some_iff.mp done
      exact signalPendingJob_acts found signalled
  · cases done

theorem signalScanRunning_acts (done : signalScanRunning conf now uid sig sendOk m j = some m') :
    Acts j m m' := by
  unfold signalScanRunning at done
  obtain ⟨job, found, done⟩ := bind_eq_some_iff.mp done
  obtain ⟨h, _, done⟩ := bind_eq_some_iff.mp done
  split at done
  · cases done
    exact Acts.refl j m
  · split at done
    · cases done
      exact Acts.refl j m
    · split at done
      · split at done
        · cases done
          exact Acts.refl j m
        · obtain ⟨⟨_, status⟩, signalled, rfl⟩ := map_eq_some_iff.mp done
          exact signalRunningJob_acts found signalled
      · cases done

theorem jobMove_acts {toQueue : QueueName}
    (done : jobMove conf m now uid j toQueue = some (m', status)) : Acts j m m' := by
  unfold jobMove at done
  split at done
  · cases done
    exact Acts.refl j m
  next job found =>
    split at done
    · split at done
      · cases done
        exact Acts.refl j m
      · split at done
        · cases done
          exact Acts.refl j m
        · split at done
          · cases done
            exact Acts.refl j m
          · obtain ⟨source, _, done⟩ := bind_eq_some_iff.mp done
            cases done
            apply Acts.queue
            refine Acts.set ?_ found rfl
            refine Acts.log ?_ found fun keyed => keyed
            exact (Acts.refl j m).queue
    · cases done
      exact Acts.refl j m

theorem jobPriority_acts {value : Int}
    (done : jobPriority conf m now uid j value = some (m', status)) : Acts j m m' := by
  rcases jobPriority_cases done with rfl | ⟨job, found, _, _, rfl⟩
  · exact Acts.refl j m'
  · refine Acts.log ?_ found fun keyed => keyed
    exact (Acts.refl j m).set found rfl

/-! ### Loops -/

theorem forEachJob_invariant {turn : MbdState → JobId → Option MbdState}
    (kept : ∀ {j m m'}, j ∈ l → turn m j = some m' → holds m → holds m')
    (done : forEachJob turn l m = some m') (start : holds m) : holds m' := by
  induction l generalizing m m' with
  | nil =>
    cases done
    exact start
  | cons j rest ih =>
    obtain ⟨m₁, first, done⟩ := bind_eq_some_iff.mp done
    exact ih (fun member => kept (mem_cons_of_mem j member)) done
      (kept mem_cons_self first start)

def namedJobs (m : MbdState) (jobId : JobId) (arrayIndex : Int) : List JobId :=
  if arrayIndex ≠ 0 then (jobFindArray m jobId arrayIndex).toList
  else
    jobId ::
      match m.jobs jobId with
      | some job => if job.arrayId ≠ 0 ∧ job.arrayId = job.jobId then arrayIds job else []
      | none => []

theorem jobsSignal_invariant
    (one : ∀ {j job m₁ m₂ ok status}, j ∈ namedJobs m jobId arrayIndex → m₁.jobs j = some job →
      signalOneJob conf m₁ now uid j job sig ok = some (m₂, status) → holds m₁ → holds m₂)
    (pending : ∀ {j m m'}, signalScanPending conf now uid sig m j = some m' → holds m → holds m')
    (running : ∀ {j m m'}, signalScanRunning conf now uid sig sendOk m j = some m' →
      holds m → holds m')
    (done : jobsSignal conf m now uid jobId arrayIndex sig sendOk = some (m', status))
    (start : holds m) : holds m' := by
  have element : ∀ {j m₁ m₂}, j ∈ namedJobs m jobId arrayIndex →
      signalArrayElement conf now uid sig sendOk m₁ j = some m₂ → holds m₁ → holds m₂ := by
    intro j m₁ m₂ named done start
    unfold signalArrayElement at done
    split at done
    · cases done
      exact start
    next job found =>
      split at done
      · cases done
        exact start
      · split at done
        · cases done
          exact start
        · obtain ⟨⟨_, status⟩, signalled, rfl⟩ := map_eq_some_iff.mp done
          exact one named found signalled start
  unfold jobsSignal at done
  split at done
  · obtain ⟨_, scanned, same⟩ := map_eq_some_iff.mp done
    cases same
    obtain ⟨m₁, first, second⟩ := bind_eq_some_iff.mp scanned
    exact forEachJob_invariant (fun _ => running) second
      (forEachJob_invariant (fun _ => pending) first start)
  · split at done
    next byIndex =>
      split at done
      · cases done
        exact start
      next j element =>
        obtain ⟨job, found, done⟩ := bind_eq_some_iff.mp done
        apply one _ found done start
        rw [namedJobs, if_pos byIndex, element]
        exact mem_singleton_self j
    next byId =>
      have itself : jobId ∈ namedJobs m jobId arrayIndex := by
        rw [namedJobs, if_neg byId]
        exact mem_cons_self
      split at done
      · cases done
        exact start
      next job found =>
        split at done
        next isHead =>
          have elements : ∀ {j}, j ∈ arrayIds job → j ∈ namedJobs m jobId arrayIndex := by
            intro j member
            rw [namedJobs, if_neg byId, found]
            simp only [if_pos isHead]
            exact mem_cons_of_mem _ member
          split at done
          · split at done
            · obtain ⟨_, looped, same⟩ := map_eq_some_iff.mp done
              cases same
              exact forEachJob_invariant (fun member => element (elements member)) looped start
            · exact one itself found done start
          · cases done
        next => exact one itself found done start

theorem scheduleLoop_invariant
    (kept : ∀ {j m free turn}, scheduleJob conf now sendOk m j free = some turn → holds m →
      holds turn.state) (done : scheduleLoop conf now sendOk l m free = some m') (start : holds m) :
    holds m' := by
  induction l generalizing m m' free with
  | nil =>
    cases done
    exact start
  | cons j rest ih =>
    obtain ⟨turn, first, done⟩ := bind_eq_some_iff.mp done
    split at done
    · cases done
      exact kept first start
    · exact ih done (kept first start)

theorem schedule_invariant
    (quiet : ∀ {m hosts pend}, pend.Perm m.pend →
      ({ m with hosts := hosts, pend := pend } : MbdState).presence = m.presence →
      holds m → holds { m with hosts := hosts, pend := pend })
    (kept : ∀ {j m free turn}, scheduleJob conf now sendOk m j free = some turn → holds m →
      holds turn.state) (done : schedule conf m now sendOk = some m') (start : holds m) :
    holds m' := by
  unfold schedule at done
  split at done
  · cases done
    exact start
  · simp only at done
    split at done
    · cases done
      exact quiet (.refl _) rfl start
    · split at done
      · cases done
      · apply scheduleLoop_invariant kept done
        exact quiet (conf.qsort_perm _ _) rfl (quiet (.refl _) rfl start)

theorem mbdDispatchJob_acts {planned : JobData} {queue : QueueName} {sendOk : Bool}
    {sent : Option JobData} (acts : Acts j m m₁) (found : m.jobs j = some job)
    (same : (planned.jobId, planned.res) = (job.jobId, job.res))
    (done : mbdDispatchJob m₁ now j planned queue sendOk = some (m', sent)) : Acts j m m' := by
  unfold mbdDispatchJob at done
  obtain ⟨h, _, done⟩ := bind_eq_some_iff.mp done
  split at done
  · cases done
  · obtain ⟨⟨m₂, assigned⟩, devices, done⟩ := bind_eq_some_iff.mp done
    have before : Acts j m m₂ ∧ (assigned.jobId, assigned.res) = (job.jobId, job.res) := by
      unfold assignDevices at devices
      split at devices
      · obtain ⟨⟨gpus, text⟩, _, devices⟩ := bind_eq_some_iff.mp devices
        cases devices
        exact ⟨Acts.set (acts.host fun _ => ⟨rfl, rfl⟩) found same, same⟩
      · cases devices
        exact ⟨acts, same⟩
    simp only at done
    split at done
    · cases done
      refine Acts.move ?_ found before.2
      refine Acts.log ?_ found fun keyed => (congrArg Prod.fst before.2).trans keyed
      exact before.1.send
    · cases done
      exact before.1

theorem startPlanned_acts {queue : QueueName} {plan : List HostName} {sendOk : Bool}
    (found : m.jobs j = some job)
    (done : startPlanned conf m now j job queue plan sendOk free = some turn) :
    Acts j m turn.state := by
  unfold startPlanned at done
  obtain ⟨⟨m₁, sent⟩, dispatched, done⟩ := bind_eq_some_iff.mp done
  have acts : Acts j m m₁ := by
    refine mbdDispatchJob_acts ?_ found ?_ dispatched
    · exact (Acts.refl j m).set found rfl
    · rfl
  cases sent with
  | none =>
    cases done
    exact acts
  | some started =>
    obtain ⟨m₂, charged, done⟩ := bind_eq_some_iff.mp done
    cases done
    apply Acts.queue
    apply Acts.alloc
    exact acts.deps.charge charged

theorem scheduleJob_acts (done : scheduleJob conf now sendOk m j free = some turn) :
    Acts j m turn.state := by
  unfold scheduleJob at done
  obtain ⟨job, found, done⟩ := bind_eq_some_iff.mp done
  have noted : ∀ reason, Acts j m (notePending m j job reason) :=
    fun _ => (Acts.refl j m).set found rfl
  split at done
  · cases done
    exact noted _
  · obtain ⟨queue, _, done⟩ := bind_eq_some_iff.mp done
    split at done
    · cases done
      exact noted _
    · split at done
      · cases done
        exact noted _
      · obtain ⟨satisfied, _, done⟩ := bind_eq_some_iff.mp done
        split at done
        · cases done
          exact noted _
        · split at done
          · cases done
            exact noted _
          · exact startPlanned_acts found done

/-! ### Whole requests -/

theorem jobsSignal_appends
    (done : jobsSignal conf m now uid jobId arrayIndex sig sendOk = some (m', status)) :
    Appends m m' := by
  apply jobsSignal_invariant _ _ _ done (Appends.refl m)
  · exact fun _ found one before => before.trans (signalOneJob_acts found one).appends
  · exact fun one before => before.trans (signalScanPending_acts one).appends
  · exact fun one before => before.trans (signalScanRunning_acts one).appends

theorem schedule_appends (done : schedule conf m now sendOk = some m') : Appends m m' := by
  apply schedule_invariant _ _ done (Appends.refl m)
  · exact fun _ _ before => before.trans ⟨prefix_refl _, rfl, rfl⟩
  · exact fun turn before => before.trans (scheduleJob_acts turn).appends

theorem mbdSbdRegister_touches {chan : Int} (done : mbdSbdRegister conf m n chan = some m') :
    Touches i m m' := by
  unfold mbdSbdRegister at done
  split at done
  · cases done
  · split at done
    · cases done
    · cases done
      exact .of_kept rfl (fun _ => rfl) rfl rfl rfl

theorem hostAdmin_touches : Touches i m (hostAdmin conf m uid h close).1 := by
  unfold hostAdmin
  split
  · exact (Acts.refl i m).toTouches
  · split
    · exact (Acts.refl i m).toTouches
    · exact .of_kept rfl (fun _ => rfl) rfl rfl rfl

theorem queueAdmin_acts : Acts i m (queueAdmin conf m uid q close).1 := by
  unfold queueAdmin
  split
  · exact Acts.refl i m
  · split
    · exact Acts.refl i m
    · exact (Acts.refl i m).quiet rfl (fun _ _ => rfl) rfl rfl rfl rfl

end LavaLite.Mbd
