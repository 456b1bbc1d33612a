import LavaLite.Kernel.Keyed
import LavaLite.Mbd.Register

/-
Replay one job at a time.  A record changes one job only, so what the replay of a
manifest leaves of a job depends on the records of that job alone: its history.
-/

namespace LavaLite.Mbd

open Base Batch Kernel List Option
open Function (update update_apply update_eq_self update_of_ne update_self)

/-! ### The records of one job -/

def startJob (conf : Conf) (e : LogJobStart) (job : JobData) : Option JobData :=
  if job.state = .orphan then some job
  else
    match replaySetRunHosts conf e.nhosts e.hosts job with
    | none => none
    | some (.unknownHost job) => some { job with state := .broken }
    | some (.set job) =>
      some { job with
        state := .running
        dispatchTime := e.dispatchTime
        gpuAssigned := strlcpy 64 e.gpuAssigned
        listId := .run }

/-- What a record does to a job that the replay knows; `none` is a fault of the replay. -/
def replayRecord (conf : Conf) (job : JobData) : Event → Option JobData
  | .jobNew _ => none
  | .jobStart e => startJob conf e job
  | .jobFork _ pid forkTime => some { job with pid := pid, forkTime := forkTime }
  | .jobSignal _ _ _ signalTime => some { job with signalTime := signalTime }
  | .jobFinish _ uid state exitStatus endTime =>
    some { job with
      state := state
      exitStatus := exitStatus
      uid := uid
      endTime := endTime
      listId := .finish }
  | .jobPendSusp _ _ => if job.state = .pending then some { job with state := .held } else none
  | .jobPendResume _ _ => if job.state = .held then some { job with state := .pending } else none
  | .jobSusp _ _ => some { job with state := .suspended }
  | .jobMove _ _ _ toQueue =>
    match conf.findQueue toQueue with
    | none => some { job with state := .orphan }
    | some q => some { job with queue := some q.name }
  | .jobPriority _ _ _ newPriority => some { job with priority := newPriority }
  | .jobPend _ _ =>
    if job.listId = .run then
      some { job with
        pid := 0
        forkTime := 0
        dispatchTime := 0
        state := .pending
        runNhosts := 0
        listId := .pend }
    else none

def replayJob (conf : Conf) (current : Option JobData) (e : Event) : Option (Option JobData) :=
  match e, current with
  | .jobNew e, none => some (replayAlloc conf e)
  | .jobNew e, some job => if (replayAlloc conf e).isSome then none else some (some job)
  | _, none => some none
  | e, some job => (replayRecord conf job e).map some

variable {conf : Conf} {job : JobData} {e : Event} {current : Option JobData} {j : JobId}

theorem replayJob_some (known : ∀ new, e ≠ .jobNew new) :
    replayJob conf (some job) e = (replayRecord conf job e).map some := by
  cases e with
  | jobNew new => exact absurd rfl (known new)
  | _ => rfl

theorem replayJob_none (known : ∀ new, e ≠ .jobNew new) : replayJob conf none e = some none := by
  cases e with
  | jobNew new => exact absurd rfl (known new)
  | _ => rfl

/-- What the records about `j` do to its entry, one after the other. -/
def replayJobs (conf : Conf) (j : JobId) : List Event → Option JobData → Option (Option JobData)
  | [], current => some current
  | e :: rest, current =>
    if recordJob e = j then do
      let next ← replayJob conf current e
      replayJobs conf j rest next
    else replayJobs conf j rest current

def history (conf : Conf) (manifest : List Event) (j : JobId) : Option (Option JobData) :=
  replayJobs conf j manifest none

theorem replayJobs_eq_along (conf : Conf) (j : JobId) (records : List Event) :
    ∀ current, replayJobs conf j records current =
      along recordJob (replayJob conf) j records current := by
  induction records with
  | nil => exact fun _ => rfl
  | cons e rest ih =>
    intro current
    rw [replayJobs, along]
    split
    · cases replayJob conf current e with
      | none => rfl
      | some next => exact ih next
    · exact ih current

theorem replayJobs_append (conf : Conf) (j : JobId) (first rest : List Event)
    (current : Option JobData) : replayJobs conf j (first ++ rest) current =
      (replayJobs conf j first current).bind (replayJobs conf j rest) := by
  rw [replayJobs_eq_along, along_append, replayJobs_eq_along,
    funext (replayJobs_eq_along conf j rest)]

theorem history_append (conf : Conf) (manifest records : List Event) (j : JobId) :
    history conf (manifest ++ records) j =
      (history conf manifest j).bind (replayJobs conf j records) :=
  replayJobs_append conf j manifest records none

theorem replayJobs_of_ne (conf : Conf) (j : JobId) (records : List Event)
    (current : Option JobData) (others : ∀ e ∈ records, recordJob e ≠ j) :
    replayJobs conf j records current = some current := by
  rw [replayJobs_eq_along, along_of_ne others]

theorem replayJobs_filter (conf : Conf) (j : JobId) (records : List Event)
    (current : Option JobData) : replayJobs conf j (records.filter (recordJob · = j)) current =
      replayJobs conf j records current := by
  rw [replayJobs_eq_along, replayJobs_eq_along, along_filter]

/-- What `replay_alloc` makes of a record, apart from what a request says. -/
structure Made (conf : Conf) (e : LogJobNew) (job : JobData) : Prop where
  jobId : job.jobId = e.jobId
  uid : job.uid = e.uid
  queue : job.queue = (conf.findQueue e.queue).map QueueConf.name
  state : job.state = if (conf.findQueue e.queue).isSome then e.state else .orphan
  listId : job.listId = .pend
  runNhosts : job.runNhosts = 0
  forkTime : job.forkTime = 0
  signalTime : job.signalTime = 0
  gpuAssigned : job.gpuAssigned = ""
  pendReason : job.pendReason = .none

theorem replayAlloc_made {e : LogJobNew} (alloc : replayAlloc conf e = some job) :
    Made conf e job := by
  simp only [replayAlloc, isSome_map, ite_none_left_eq_some, Option.some.injEq]
    at alloc
  obtain ⟨_, rfl⟩ := alloc
  exact ⟨rfl, rfl, rfl, rfl, rfl, rfl, rfl, rfl, rfl, rfl⟩

theorem replayJob_cases {job' : JobData} (done : replayJob conf current e = some (some job')) :
    (∃ new, e = .jobNew new ∧ current = none ∧ replayAlloc conf new = some job') ∨
      current = some job' ∨ ∃ job, current = some job ∧ replayRecord conf job e = some job' := by
  by_cases new : ∃ record, e = .jobNew record
  · obtain ⟨record, rfl⟩ := new
    cases current with
    | none => exact .inl ⟨record, rfl, rfl, Option.some.inj done⟩
    | some job =>
      rw [replayJob] at done
      exact .inr (.inl (Option.some.inj (ite_none_left_eq_some.mp done).2))
  · have known : ∀ record, e ≠ .jobNew record := fun record same => new ⟨record, same⟩
    cases current with
    | none =>
      rw [replayJob_none known] at done
      cases done
    | some job =>
      rw [replayJob_some known] at done
      obtain ⟨_, recorded, same⟩ := map_eq_some_iff.mp done
      cases same
      exact .inr (.inr ⟨job, rfl, recorded⟩)

theorem history_invariant {manifest : List Event} (holds : JobData → Prop)
    (made : ∀ e job, .jobNew e ∈ manifest → e.jobId = j → replayAlloc conf e = some job → holds job)
    (kept : ∀ e ∈ manifest, recordJob e = j → ∀ job job', replayRecord conf job e = some job' →
      holds job → holds job') (told : history conf manifest j = some (some job)) : holds job := by
  rw [history, replayJobs_eq_along] at told
  refine along_invariant (fun entry => ∀ job, entry = some job → holds job) ?_
    (fun _ absent => by cases absent) told job rfl
  rintro e member mine before after step known job rfl
  rcases replayJob_cases step with ⟨new, rfl, rfl, alloc⟩ | same | ⟨old, same, recorded⟩
  · exact made new job member mine alloc
  · exact known job same
  · exact kept e member mine old job recorded (known old same)

/-! ### The replay of a manifest, job by job -/

/-- A replay only touches the jobs, the lists and the two counters kept beside a job. -/
structure Untouched (m m' : MbdState) : Prop where
  jobIdSeq : m'.jobIdSeq = m.jobIdSeq
  hosts : m'.hosts = m.hosts
  queues : m'.queues = m.queues
  pools : m'.pools = m.pools
  manifest : m'.manifest = m.manifest
  seqFile : m'.seqFile = m.seqFile
  marks : m'.marks = m.marks
  outbox : m'.outbox = m.outbox

theorem Untouched.refl (m : MbdState) : Untouched m m :=
  ⟨rfl, rfl, rfl, rfl, rfl, rfl, rfl, rfl⟩

theorem Untouched.trans {m m₁ m' : MbdState} (first : Untouched m m₁) (rest : Untouched m₁ m') :
    Untouched m m' :=
  ⟨rest.jobIdSeq.trans first.jobIdSeq, rest.hosts.trans first.hosts,
    rest.queues.trans first.queues, rest.pools.trans first.pools,
    rest.manifest.trans first.manifest, rest.seqFile.trans first.seqFile,
    rest.marks.trans first.marks, rest.outbox.trans first.outbox⟩

/-- The lists after the entry of `j` became `entry`. -/
def entryLists (m : MbdState) (j : JobId) (entry : Option JobData) (id : ListId) : List JobId :=
  match m.jobs j, entry with
  | some old, some new => movedList m j old.listId new.listId id
  | none, some new => if id = new.listId then m.list id ++ [j] else m.list id
  | _, none => m.list id

/--
The moves of a record find their job where they look for it: a start takes it
from the pending list, and a finish does not meet a finished job.
-/
def Orderly (job : JobData) : Event → Prop
  | .jobStart _ => job.listId = .pend
  | .jobFinish _ _ _ _ _ => job.listId ≠ .finish
  | _ => True

def Proper (conf : Conf) (current : Option JobData) : List Event → Prop
  | [] => True
  | e :: rest =>
    (∀ job, current = some job → Orderly job e) ∧
      ∀ next, replayJob conf current e = some next → Proper conf next rest

theorem Proper.append {rest : List Event} {first : List Event}
    (about : ∀ e ∈ first, recordJob e = j) (proper : Proper conf current first)
    (later : ∀ next, replayJobs conf j first current = some next → Proper conf next rest) :
    Proper conf current (first ++ rest) := by
  induction first generalizing current with
  | nil => exact later _ rfl
  | cons e first ih =>
    refine ⟨proper.1, fun next fine => ih (fun e' member => about e' (mem_cons_of_mem e member))
      (proper.2 next fine) fun last done => later last ?_⟩
    rw [replayJobs, if_pos (about e mem_cons_self), fine]
    exact done

def isFinishOf (j : JobId) : Event → Bool
  | .jobFinish i _ _ _ _ => i = j
  | _ => false

structure Replays (conf : Conf) (m m' : MbdState) (e : Event) (entry : Option JobData) : Prop where
  result : replayJob conf (m.jobs (recordJob e)) e = some entry
  jobs : m'.jobs = update m.jobs (recordJob e) entry
  rest : Untouched m m'
  lists : (∀ job, m.jobs (recordJob e) = some job → Orderly job e) →
    ∀ id, m'.list id = entryLists m (recordJob e) entry id
  others : ∀ {k}, k ≠ recordJob e → ∀ id, (m'.list id).count k = (m.list id).count k
  holds : ∀ k, m'.depRefcnt k = m.depRefcnt k ∨ m'.depRefcnt k = 0
  elements : (∀ job, m.jobs (recordJob e) = some job → isFinishOf (recordJob e) e = true →
      job.arrayId = 0 ∨ m.jobs job.arrayId = none) →
    ∀ k, m'.arrayElementCnt k = m.arrayElementCnt k ∨ m'.arrayElementCnt k = 0

variable {m m' : MbdState} {job' : JobData} {entry : Option JobData} {records : List Event}

theorem Replays.unknown (absent : m.jobs (recordJob e) = none)
    (entry : replayJob conf none e = some none) : Replays conf m m e none where
  result := by rw [absent, entry]
  jobs := by rw [← absent, update_eq_self]
  rest := .refl m
  lists := fun _ id => by simp only [entryLists, absent]
  others := fun _ _ => rfl
  holds := fun _ => .inl rfl
  elements := fun _ _ => .inl rfl

theorem Replays.inPlace (found : m.jobs (recordJob e) = some job)
    (entry : replayJob conf (some job) e = some (some job')) (stays : job'.listId = job.listId) :
    Replays conf m (m.setJob (recordJob e) job') e (some job') where
  result := by rw [found, entry]
  jobs := rfl
  rest := ⟨rfl, rfl, rfl, rfl, rfl, rfl, rfl, rfl⟩
  lists := fun _ id => by
    simp only [entryLists, found, movedList, stays, if_true]
    cases id <;> rfl
  others := fun _ _ => rfl
  holds := fun _ => .inl rfl
  elements := fun _ _ => .inl rfl

theorem Replays.moved (job' : JobData) {source target : ListId}
    (found : m.jobs (recordJob e) = some job)
    (entry : replayJob conf (some job) e = some (some { job' with listId := target }))
    (orderly : Orderly job e → job.listId = source ∧ source ≠ target) :
    Replays conf m (m.jobMoveList (recordJob e) job' source target) e
      (some { job' with listId := target }) where
  result := by rw [found, entry]
  jobs := rfl
  rest := ⟨rfl, rfl, rfl, rfl, rfl, rfl, rfl, rfl⟩
  lists := fun fine id => by
    obtain ⟨onSource, leaves⟩ := orderly (fine job found)
    simp only [entryLists, found, movedList, onSource, if_neg leaves]
    cases id <;> rfl
  others := fun other _ => count_jobMoveList other
  holds := fun _ => .inl rfl
  elements := fun _ _ => .inl rfl

theorem replaySetRunHosts_frame {nhosts : Int} {hosts : List HostName}
    (done : replaySetRunHosts conf nhosts hosts job = some (.set job') ∨
      replaySetRunHosts conf nhosts hosts job = some (.unknownHost job')) :
    ∃ runHosts n, job' = { job with runHosts := runHosts, runNhosts := n } := by
  induction hosts generalizing job job' with
  | nil =>
    unfold replaySetRunHosts at done
    split at done
    · rcases done with done | done <;> cases done
      exact ⟨_, _, rfl⟩
    · rcases done with done | done <;> cases done
  | cons h rest ih =>
    unfold replaySetRunHosts at done
    split at done
    · rcases done with done | done <;> cases done
    · split at done
      · split at done
        · split at done
          · rcases done with done | done <;> cases done
            exact ⟨_, _, rfl⟩
          · rcases done with done | done <;> cases done
        · split at done
          · obtain ⟨runHosts, n, rfl⟩ := ih done
            exact ⟨runHosts, n, rfl⟩
          · rcases done with done | done <;> cases done
      · rcases done with done | done <;> cases done
        exact ⟨_, _, rfl⟩

theorem startJob_cases {e : LogJobStart} (done : startJob conf e job = some job') :
    job' = job ∨
      (∃ hosts n, job' = { job with runHosts := hosts, runNhosts := n, state := .broken }) ∨
      ∃ hosts n, job' = { job with
        runHosts := hosts
        runNhosts := n
        state := .running
        dispatchTime := e.dispatchTime
        gpuAssigned := strlcpy 64 e.gpuAssigned
        listId := .run } := by
  unfold startJob at done
  split at done
  · cases done
    exact .inl rfl
  · split at done
    · cases done
    next unknownHost =>
      obtain ⟨hosts, n, rfl⟩ := replaySetRunHosts_frame (Or.inr unknownHost)
      cases done
      exact .inr (.inl ⟨hosts, n, rfl⟩)
    next set =>
      obtain ⟨hosts, n, rfl⟩ := replaySetRunHosts_frame (Or.inl set)
      cases done
      exact .inr (.inr ⟨hosts, n, rfl⟩)

theorem list_jobArrayElementFinished (m : MbdState) (job : JobData) (id : ListId) :
    (jobArrayElementFinished m job).list id = m.list id := by
  cases id <;> rfl

theorem replayJobFinish_replays {uid : Nat} {state : JobState} {exitStatus : Int} {endTime : Time} :
    ∃ entry, Replays conf m (replayJobFinish m j uid state exitStatus endTime)
      (.jobFinish j uid state exitStatus endTime) entry := by
  unfold replayJobFinish
  split
  next absent => exact ⟨none, .unknown absent rfl⟩
  next job found =>
    have leaves : job.listId ≠ .finish →
        job.listId = (if job.listId = .run then ListId.run else .pend) ∧
          (if job.listId = .run then ListId.run else .pend) ≠ .finish := by
      intro open_
      cases on : job.listId <;> simp_all
    have moved : Replays conf m _ (.jobFinish j uid state exitStatus endTime) _ :=
      .moved (e := .jobFinish j uid state exitStatus endTime)
        { job with
          state := state
          exitStatus := exitStatus
          uid := uid
          endTime := endTime } found rfl leaves
    refine ⟨_, moved.result, moved.jobs, ⟨rfl, rfl, rfl, rfl, rfl, rfl, rfl, rfl⟩,
      fun fine id => ?_, fun other id => ?_, moved.holds, fun apart k => .inl ?_⟩
    · rw [list_jobArrayElementFinished]
      exact moved.lists fine id
    · rw [list_jobArrayElementFinished]
      exact moved.others other id
    · refine congrFun (if_neg ?_) k
      rintro ⟨element, known⟩
      rcases apart job found (decide_eq_true rfl) with single | unknown
      · exact element single
      · have other : job.arrayId ≠ j := by
          intro same
          rw [same, found] at unknown
          cases unknown
        change (update m.jobs j _ job.arrayId).isSome = true at known
        rw [update_of_ne other, unknown] at known
        cases known

/-- A record is replayed as `replayJob` has it, or neither has a result. -/
def Outcome (conf : Conf) (m : MbdState) (e : Event) : Prop :=
  (∃ m' entry, replayEvent conf m e = some m' ∧ Replays conf m m' e entry) ∨
    (replayEvent conf m e = none ∧ replayJob conf (m.jobs (recordJob e)) e = none)

theorem Outcome.inPlace (known : ∀ new, e ≠ .jobNew new)
    (acts : replayEvent conf m e = match m.jobs (recordJob e) with
      | none => some m
      | some job => (replayRecord conf job e).map (m.setJob (recordJob e)))
    (stays : ∀ job job', replayRecord conf job e = some job' → job'.listId = job.listId) :
    Outcome conf m e := by
  cases found : m.jobs (recordJob e) with
  | none =>
    rw [found] at acts
    exact .inl ⟨m, none, acts, .unknown found (replayJob_none known)⟩
  | some job =>
    have entry : replayJob conf (some job) e = _ := replayJob_some known
    simp only [found] at acts
    cases result : replayRecord conf job e with
    | none =>
      rw [result] at acts entry
      exact .inr ⟨acts, by rw [found, entry]; rfl⟩
    | some job' =>
      rw [result] at acts entry
      exact .inl ⟨_, _, acts, .inPlace found entry (stays job job' result)⟩

theorem replayJobNew_outcome (new : LogJobNew) : Outcome conf m (.jobNew new) := by
  have acts : replayEvent conf m (.jobNew new) = replayJobNew conf m new := rfl
  unfold replayJobNew at acts
  cases alloc : replayAlloc conf new with
  | none =>
    rw [alloc] at acts
    refine .inl ⟨m, m.jobs new.jobId, acts, ?_, (update_eq_self _ _).symm, .refl m, ?_,
      fun _ _ => rfl, fun _ => .inl rfl, fun _ _ => .inl rfl⟩
    · cases found : m.jobs new.jobId <;> simp [replayJob, recordJob, found, alloc]
    · intro _ id
      cases found : m.jobs new.jobId <;> simp [entryLists, recordJob, found, movedList]
  | some job =>
    cases found : m.jobs new.jobId with
    | some old =>
      simp only [alloc, found, isSome_some, if_true] at acts
      exact .inr ⟨acts, by simp [replayJob, recordJob, found, alloc]⟩
    | none =>
      simp only [alloc, found, isSome_none, Bool.false_eq_true, if_false] at acts
      have fresh : ∀ (table : JobId → Int) (k : JobId),
          update table new.jobId 0 k = table k ∨ update table new.jobId 0 k = 0 := by
        intro table k
        rw [update_apply]
        split
        · exact .inr rfl
        · exact .inl rfl
      refine .inl ⟨_, some job, acts, ?_, rfl, ⟨rfl, rfl, rfl, rfl, rfl, rfl, rfl, rfl⟩, ?_, ?_,
        fresh m.depRefcnt, fun _ => fresh m.arrayElementCnt⟩
      · simp [replayJob, recordJob, found, alloc]
      · intro _ id
        simp only [entryLists, recordJob, found, (replayAlloc_made alloc).listId]
        cases id <;> rfl
      · intro k other id
        cases id with
        | pend => exact count_concat_of_ne other
        | run | finish => rfl

theorem replayJobStart_outcome (start : LogJobStart) : Outcome conf m (.jobStart start) := by
  have acts : replayEvent conf m (.jobStart start) = replayJobStart conf m start := rfl
  unfold replayJobStart at acts
  cases found : m.jobs start.jobId with
  | none =>
    rw [found] at acts
    exact .inl ⟨m, none, acts, .unknown found rfl⟩
  | some job =>
    simp only [found] at acts
    split at acts
    next orphan =>
      have kept : m.setJob start.jobId job = m := by
        rw [MbdState.setJob, ← found, update_eq_self]
      have inPlace : Replays conf m (m.setJob start.jobId job) (.jobStart start) (some job) :=
        .inPlace (e := .jobStart start) found
          (by simp [replayJob, replayRecord, startJob, orphan]) rfl
      rw [kept] at inPlace
      exact .inl ⟨m, _, acts, inPlace⟩
    next known =>
      split at acts
      next failed =>
        exact .inr ⟨acts, by simp [replayJob, recordJob, found, replayRecord, startJob, known, failed]⟩
      next job' unknownHost =>
        obtain ⟨hosts, n, rfl⟩ := replaySetRunHosts_frame (Or.inr unknownHost)
        exact .inl ⟨_, _, acts, .inPlace (e := .jobStart start) found
          (by simp [replayJob, replayRecord, startJob, known, unknownHost]) rfl⟩
      next job' set =>
        exact .inl ⟨_, _, acts, .moved (e := .jobStart start) _ found
          (by simp [replayJob, replayRecord, startJob, known, set])
          fun pending => ⟨pending, by decide⟩⟩

theorem replayJobPend_outcome (j : JobId) (time : Time) : Outcome conf m (.jobPend j time) := by
  have acts : replayEvent conf m (.jobPend j time) = replayJobPend m j := rfl
  unfold replayJobPend at acts
  cases found : m.jobs j with
  | none =>
    rw [found] at acts
    exact .inl ⟨m, none, acts, .unknown found rfl⟩
  | some job =>
    simp only [found] at acts
    split at acts
    next running =>
      exact .inl ⟨_, _, acts, .moved (e := .jobPend j time) _ found
        (by simp [replayJob, replayRecord, running]) fun _ => ⟨running, by decide⟩⟩
    next idle =>
      exact .inr ⟨acts, by simp [replayJob, recordJob, found, replayRecord, idle]⟩

theorem replayEvent_outcome (conf : Conf) (m : MbdState) (e : Event) : Outcome conf m e := by
  cases e with
  | jobNew new => exact replayJobNew_outcome new
  | jobStart start => exact replayJobStart_outcome start
  | jobFinish j uid state exitStatus endTime =>
    obtain ⟨entry, replays⟩ := replayJobFinish_replays
    exact .inl ⟨_, entry, rfl, replays⟩
  | jobPend j time => exact replayJobPend_outcome j time
  | jobFork j | jobSignal j | jobSusp j | jobPriority j =>
    refine .inPlace (fun _ => Event.noConfusion) ?_ fun job job' done => by cases done; rfl
    simp only [replayEvent, recordJob]
    cases m.jobs j <;> rfl
  | jobPendSusp j | jobPendResume j =>
    refine .inPlace (fun _ => Event.noConfusion) ?_ fun job job' done => ?_
    · simp only [replayEvent, recordJob, replayRecord]
      cases m.jobs j with
      | none => rfl
      | some job =>
        dsimp only
        split <;> rfl
    · simp only [replayRecord, ite_none_right_eq_some] at done
      cases done.2
      rfl
  | jobMove j time source target =>
    refine .inPlace (fun _ => Event.noConfusion) ?_ fun job job' done => ?_
    · simp only [replayEvent, recordJob, replayRecord]
      cases m.jobs j with
      | none => rfl
      | some job => cases conf.findQueue target <;> rfl
    · simp only [replayRecord] at done
      split at done <;> cases done <;> rfl

theorem replayEvent_replays (done : replayEvent conf m e = some m') :
    ∃ entry, Replays conf m m' e entry := by
  rcases replayEvent_outcome conf m e with ⟨m₁, entry, acts, replays⟩ | ⟨fails, -⟩
  · cases acts.symm.trans done
    exact ⟨entry, replays⟩
  · cases fails.symm.trans done

theorem replayEvent_isSome (fine : replayJob conf (m.jobs (recordJob e)) e = some entry) :
    ∃ m', replayEvent conf m e = some m' := by
  rcases replayEvent_outcome conf m e with ⟨m', _, acts, _⟩ | ⟨-, fails⟩
  · exact ⟨m', acts⟩
  · cases fails.symm.trans fine

theorem ListedAt.entryLists (listed : ListedAt j m) (known : m.jobs j ≠ none → entry ≠ none)
    (id : ListId) : (entryLists m j entry id).count j = presence entry id := by
  cases found : m.jobs j with
  | none =>
    cases entry with
    | none =>
      simp only [Mbd.entryLists, found]
      exact (listed id).trans (congrArg (presence · id) found)
    | some new =>
      simp only [Mbd.entryLists, found]
      exact listed.added found id
  | some old =>
    cases entry with
    | none => exact absurd rfl (known (found ▸ some_ne_none old))
    | some new =>
      simp only [Mbd.entryLists, found]
      exact listed.movedList found new.listId id

theorem replayJob_keeps (done : replayJob conf current e = some entry) (known : current ≠ none) :
    entry ≠ none := by
  obtain ⟨job, rfl⟩ := ne_none_iff_exists'.mp known
  rintro rfl
  cases e <;> simp [replayJob] at done

theorem replayEvents_spec (done : replayEvents conf records m = some m') :
    (∀ j, replayJobs conf j records (m.jobs j) = some (m'.jobs j)) ∧ Untouched m m' := by
  induction records generalizing m m' with
  | nil =>
    cases done
    exact ⟨fun _ => rfl, .refl m⟩
  | cons e rest ih =>
    unfold replayEvents at done
    split at done
    · cases done
    next m₁ first =>
      obtain ⟨entry, replays⟩ := replayEvent_replays first
      obtain ⟨each, untouched⟩ := ih done
      refine ⟨fun j => ?_, replays.rest.trans untouched⟩
      have later := each j
      rw [replays.jobs] at later
      by_cases same : recordJob e = j
      · subst same
        rw [update_self] at later
        rw [replayJobs, if_pos rfl, replays.result]
        exact later
      · rw [update_of_ne (Ne.symm same)] at later
        rw [replayJobs, if_neg same]
        exact later

theorem replayEvents_isSome
    (each : ∀ j, ∃ entry, replayJobs conf j records (m.jobs j) = some entry) :
    ∃ m', replayEvents conf records m = some m' := by
  induction records generalizing m with
  | nil => exact ⟨_, rfl⟩
  | cons e rest ih =>
    obtain ⟨entry, first⟩ := each (recordJob e)
    rw [replayJobs, if_pos rfl] at first
    obtain ⟨next, fine, _⟩ := bind_eq_some_iff.mp first
    obtain ⟨m₁, done⟩ := replayEvent_isSome fine
    obtain ⟨next', replays⟩ := replayEvent_replays done
    have later : ∀ j, ∃ entry, replayJobs conf j rest (m₁.jobs j) = some entry := by
      intro j
      obtain ⟨entry, all⟩ := each j
      rw [replays.jobs]
      by_cases same : recordJob e = j
      · subst same
        rw [update_self]
        rw [replayJobs, if_pos rfl, replays.result] at all
        exact ⟨entry, all⟩
      · rw [update_of_ne (Ne.symm same)]
        rw [replayJobs, if_neg same] at all
        exact ⟨entry, all⟩
    obtain ⟨m', rest⟩ := ih later
    exact ⟨m', by rw [replayEvents, done]; exact rest⟩

theorem replayEvents_append : ∀ (first rest : List Event) (m : MbdState),
    replayEvents conf (first ++ rest) m =
      (replayEvents conf first m).bind (replayEvents conf rest) := by
  intro first
  induction first with
  | nil => exact fun _ _ => rfl
  | cons e first ih =>
    intro rest m
    simp only [cons_append, replayEvents]
    cases replayEvent conf m e with
    | none => rfl
    | some next => exact ih rest next

theorem replayEvents_listedAt
    (proper : Proper conf (m.jobs j) (records.filter (recordJob · = j))) (listed : ListedAt j m)
    (done : replayEvents conf records m = some m') : ListedAt j m' := by
  induction records generalizing m m' with
  | nil =>
    cases done
    exact listed
  | cons e rest ih =>
    unfold replayEvents at done
    split at done
    · cases done
    next m₁ first =>
      obtain ⟨entry, replays⟩ := replayEvent_replays first
      by_cases same : recordJob e = j
      · subst same
        rw [filter_cons_of_pos (by simp)] at proper
        refine ih ?_ (fun id => ?_) done
        · rw [replays.jobs, update_self]
          exact proper.2 entry replays.result
        · rw [replays.lists proper.1 id, replays.jobs, update_self]
          exact listed.entryLists (replayJob_keeps replays.result) id
      · have kept : m₁.jobs j = m.jobs j := by
          rw [replays.jobs, update_of_ne (Ne.symm same)]
        rw [filter_cons_of_neg (by simpa using same)] at proper
        refine ih (kept ▸ proper) (fun id => ?_) done
        rw [replays.others (Ne.symm same) id, kept]
        exact listed id

theorem replayEvents_listed
    (proper : ∀ j, Proper conf (m.jobs j) (records.filter (recordJob · = j))) (wf : Listed m)
    (done : replayEvents conf records m = some m') : Listed m' :=
  listed_of_listedAt fun j => replayEvents_listedAt (proper j) (wf.listedAt j) done

theorem replayEvents_listed_of_about (about : ∀ e ∈ records, recordJob e = j)
    (proper : Proper conf (m.jobs j) records) (wf : Listed m)
    (done : replayEvents conf records m = some m') : Listed m' := by
  refine replayEvents_listed (fun i => ?_) wf done
  by_cases same : i = j
  · subst same
    rw [filter_eq_self.mpr fun e member => by simpa using about e member]
    exact proper
  · rw [filter_eq_nil_iff.mpr fun e member => by
      rw [about e member]
      simpa using Ne.symm same]
    trivial

/-! ### What only the record of the submission tells -/

structure Detail where
  submitTime : Time
  beginTime : Time
  termTime : Time
  project : String
  name : String
  res : JobResources
  deriving DecidableEq, Repr

def JobData.detail (job : JobData) : Detail :=
  { submitTime := job.submitTime
    beginTime := job.beginTime
    termTime := job.termTime
    project := job.project
    name := job.name
    res := job.res }

def newDetail (conf : Conf) (e : LogJobNew) : Detail :=
  { submitTime := e.submitTime
    beginTime := e.beginTime
    termTime := e.termTime
    project := strlcpy 256 e.projectName
    name := strlcpy 64 e.jobName
    res :=
      { numCpus := e.numCpu
        numHosts := settledHosts (machinesHashPopulate conf e.machines) e.numHosts
        numGpus := e.numGpus
        gpuModel := strlcpy 256 e.gpuModel
        memMb := e.memMb
        storageMb := e.storageMb
        machinesStr := ""
        machines := machinesHashPopulate conf e.machines
        tokenpoolStr := ""
        tokens := [] } }

/-- What a replay makes of the `JOB_NEW` record a compaction writes for a job. -/
def rewritten (conf : Conf) (d : Detail) : Detail :=
  let machines := machinesHashPopulate conf (strlcpy 1024 d.res.machinesStr)
  { d with
    project := strlcpy 256 (strlcpy 64 d.project)
    name := strlcpy 64 (strlcpy 64 d.name)
    res := { d.res with
      numHosts := settledHosts machines d.res.numHosts
      gpuModel := strlcpy 256 (strlcpy 64 d.res.gpuModel)
      machinesStr := ""
      machines := machines
      tokenpoolStr := ""
      tokens := [] } }

variable {e : LogJobNew}

theorem detail_of_request {uid : Nat} (same : job'.request = { job.request with uid := uid }) :
    job'.detail = job.detail :=
  congrArg (fun r : Request => Detail.mk r.submitTime r.beginTime r.termTime r.project r.name r.res)
    same

theorem replayAlloc_detail (alloc : replayAlloc conf e = some job) :
    job.detail = newDetail conf e := by
  simp only [replayAlloc, Option.ite_none_left_eq_some, Option.some.injEq] at alloc
  obtain ⟨_, rfl⟩ := alloc
  rfl

theorem replayAlloc_isSome (count : 0 ≤ (newDetail conf e).res.numHosts) :
    ∃ job, replayAlloc conf e = some job := by
  simp only [newDetail] at count
  have room := Int.not_lt.mpr count
  unfold replayAlloc
  simp only [if_neg room]
  exact ⟨_, rfl⟩

theorem newDetail_compact {queue : QueueName} (written : compactWriteJobNew job queue = .jobNew e) :
    newDetail conf e = rewritten conf job.detail := by
  cases written
  rfl

theorem replayRecord_request {e : Event} (done : replayRecord conf job e = some job') :
    job'.request = { job.request with uid := job'.uid } := by
  cases e with
  | jobNew => cases done
  | jobFork | jobSignal | jobFinish | jobSusp | jobPriority =>
    cases done
    rfl
  | jobPendSusp | jobPendResume | jobPend =>
    simp only [replayRecord] at done
    split at done
    · cases done
      rfl
    · cases done
  | jobMove =>
    simp only [replayRecord] at done
    split at done <;> cases done <;> rfl
  | jobStart e =>
    rcases startJob_cases done with rfl | ⟨_, _, rfl⟩ | ⟨_, _, rfl⟩ <;> rfl

theorem replayJob_request {e : Event} (done : replayJob conf (some job) e = some entry) :
    ∃ job', entry = some job' ∧ job'.request = { job.request with uid := job'.uid } := by
  by_cases new : ∃ fresh, e = .jobNew fresh
  · obtain ⟨fresh, rfl⟩ := new
    simp only [replayJob] at done
    split at done
    · cases done
    · cases done
      exact ⟨job, rfl, rfl⟩
  · rw [replayJob_some fun fresh same => new ⟨fresh, same⟩] at done
    obtain ⟨job', recorded, same⟩ := Option.map_eq_some_iff.mp done
    exact ⟨job', same.symm, replayRecord_request recorded⟩

theorem replayJobs_request (done : replayJobs conf j records (some job) = some entry) :
    ∃ job', entry = some job' ∧ job'.request = { job.request with uid := job'.uid } := by
  rw [replayJobs_eq_along] at done
  refine along_invariant (fun entry => ∃ job', entry = some job' ∧
    job'.request = { job.request with uid := job'.uid }) ?_ ⟨job, rfl, rfl⟩ done
  rintro e _ _ _ next step ⟨middle, rfl, before⟩
  obtain ⟨job', rfl, after⟩ := replayJob_request step
  exact ⟨job', rfl, by rw [after, before]⟩

theorem replayJobs_detail (done : replayJobs conf j records (some job) = some (some job')) :
    job'.detail = job.detail := by
  obtain ⟨_, same, request⟩ := replayJobs_request done
  cases same
  exact detail_of_request request

theorem history_origin {manifest : List Event} (told : history conf manifest j = some (some job)) :
    ∃ e, job.detail = newDetail conf e := by
  refine history_invariant (fun job => ∃ e, job.detail = newDetail conf e) ?_ ?_ told
  · exact fun e _ _ _ alloc => ⟨e, replayAlloc_detail alloc⟩
  · intro _ _ _ _ _ recorded known
    rw [detail_of_request (replayRecord_request recorded)]
    exact known

/-! ### The ids of a manifest -/

def newIds (records : List Event) : List JobId :=
  records.filterMap fun e =>
    match e with
    | .jobNew e => some e.jobId
    | _ => none

private abbrev largest (best : JobId) (e : Event) : JobId :=
  match e with
  | .jobNew e => max best e.jobId
  | _ => best

theorem le_foldl_largest {best : JobId} :
    best ≤ records.foldl largest best ∧ ∀ i ∈ newIds records, i ≤ records.foldl largest best := by
  induction records generalizing best with
  | nil => exact ⟨Int.le_refl best, fun _ member => absurd member List.not_mem_nil⟩
  | cons e rest ih =>
    obtain ⟨grown, inside⟩ := @ih (largest best e)
    have step : best ≤ largest best e := by
      cases e with
      | jobNew e => exact Int.le_max_left ..
      | _ => exact Int.le_refl best
    refine ⟨Int.le_trans step grown, fun i member => ?_⟩
    cases e with
    | jobNew e =>
      rcases List.mem_cons.mp member with rfl | member
      · exact Int.le_trans (Int.le_max_right ..) grown
      · exact inside i member
    | _ => exact inside i member

theorem le_maxId {i : JobId} (member : i ∈ newIds records) : i ≤ maxId records :=
  le_foldl_largest.2 i member

theorem maxId_mono {before : List Event} (front : before <+: records) :
    maxId before ≤ maxId records := by
  obtain ⟨rest, rfl⟩ := front
  unfold maxId
  rw [List.foldl_append]
  exact le_foldl_largest.1

theorem history_known {manifest : List Event} (told : history conf manifest j = some (some job)) :
    job.jobId = j ∧ j ≤ maxId manifest := by
  refine history_invariant (fun job => job.jobId = j ∧ j ≤ maxId manifest) ?_ ?_ told
  · rintro e job member rfl alloc
    exact ⟨(replayAlloc_made alloc).jobId, le_maxId (List.mem_filterMap.mpr ⟨_, member, rfl⟩)⟩
  · intro e _ _ job job' recorded known
    have kept : job'.jobId = job.jobId := congrArg Request.jobId (replayRecord_request recorded)
    exact ⟨kept.trans known.1, known.2⟩

/-- A replay knows of a job, of its start and of its fork from records that say so. -/
theorem history_sources {manifest : List Event}
    (told : history conf manifest j = some (some job)) :
    (∃ new, .jobNew new ∈ manifest ∧ new.jobId = j) ∧
    (job.listId = .run → ∃ start, .jobStart start ∈ manifest ∧ start.jobId = j) ∧
    (job.forkTime ≠ 0 → .jobFork j job.pid job.forkTime ∈ manifest) := by
  refine history_invariant (fun job => (∃ new, .jobNew new ∈ manifest ∧ new.jobId = j) ∧
    (job.listId = .run → ∃ start, .jobStart start ∈ manifest ∧ start.jobId = j) ∧
    (job.forkTime ≠ 0 → .jobFork j job.pid job.forkTime ∈ manifest)) ?_ ?_ told
  · intro e job member mine alloc
    have made := replayAlloc_made alloc
    refine ⟨⟨e, member, mine⟩, fun on => ?_, fun forked => absurd made.forkTime forked⟩
    cases made.listId.symm.trans on
  · rintro e member mine job job' recorded ⟨new, start, fork⟩
    refine ⟨new, ?_⟩
    cases e with
    | jobNew => cases recorded
    | jobStart e =>
      rcases startJob_cases recorded with rfl | ⟨_, _, rfl⟩ | ⟨_, _, rfl⟩ <;>
        exact ⟨fun _ => ⟨e, member, mine⟩, fork⟩
    | jobFork i pid time =>
      cases recorded
      exact ⟨start, fun _ => mine ▸ member⟩
    | jobFinish =>
      cases recorded
      exact ⟨fun on => (by cases on), fork⟩
    | jobSignal | jobSusp | jobPriority =>
      cases recorded
      exact ⟨start, fork⟩
    | jobPendSusp | jobPendResume =>
      obtain ⟨_, same⟩ := ite_none_right_eq_some.mp recorded
      cases same
      exact ⟨start, fork⟩
    | jobPend =>
      obtain ⟨_, same⟩ := ite_none_right_eq_some.mp recorded
      cases same
      exact ⟨fun on => (by cases on), fun forked => absurd rfl forked⟩
    | jobMove =>
      simp only [replayRecord] at recorded
      split at recorded <;> cases recorded <;> exact ⟨start, fork⟩

end LavaLite.Mbd
