import LavaLite.Mbd.Invariant

/-
Every handler on existing jobs is a sequence of effects.  A change is followed
through the basic operations in the order of the code; what then follows from an
effect is said elsewhere.
-/

namespace LavaLite.Mbd

open Base Batch Kernel Function List Option

/-! ### The counters other jobs change on a job -/

theorem namings_cons (d : JobDep) (rest : List JobDep) (job : JobData) (k : JobId) :
    (namings { job with deps := d :: rest } k : Int) = namings { job with deps := rest } k +
        if d.isCondition = true ∧ d.jobId = k then 1 else 0 := by
  unfold namings
  rw [countP_cons]
  by_cases named : d.isCondition = true ∧ d.jobId = k
  · simp [named]
  · rw [if_neg named, if_neg]
    · simp
    · simpa using named

theorem depRefcnt_jobDepsRefcnt (m : MbdState) (job : JobData) (delta : Int) (k : JobId) :
    (jobDepsRefcnt m job delta).depRefcnt k =
      m.depRefcnt k + if (m.jobs k).isSome then delta * namings job k else 0 := by
  unfold jobDepsRefcnt
  generalize m.depRefcnt = refs
  obtain ⟨deps, same⟩ : ∃ deps, deps = job.deps := ⟨_, rfl⟩
  have own : job = { job with deps := deps } := by rw [same]
  rw [own]
  clear own same
  simp only
  induction deps generalizing refs with
  | nil => simp [namings]
  | cons d rest ih =>
    rw [foldl_cons, ih, namings_cons]
    by_cases named : d.jobId = k
    · subst named
      cases condition : d.isCondition with
      | false => simp
      | true =>
        cases known : m.jobs d.jobId with
        | none => simp
        | some target =>
          simp [Int.mul_add]
          omega
    · have other : k ≠ d.jobId := fun same => named same.symm
      simp only [named, and_false, if_false, Int.add_zero]
      congr 1
      split
      · exact update_of_ne other _ _
      · rfl

theorem arrayElementCnt_jobArrayElementFinished (m : MbdState) (job : JobData) (k : JobId) :
    (jobArrayElementFinished m job).arrayElementCnt k = m.arrayElementCnt k -
      if job.arrayId ≠ 0 ∧ job.arrayId = k ∧ (m.jobs k).isSome then 1 else 0 := by
  change (if job.arrayId ≠ 0 ∧ (m.jobs job.arrayId).isSome then
    update m.arrayElementCnt job.arrayId (m.arrayElementCnt job.arrayId - 1)
    else m.arrayElementCnt) k = _
  by_cases element : job.arrayId = k
  · subst element
    split
    next counted => rw [update_self, if_pos ⟨counted.1, rfl, counted.2⟩]
    next uncounted => rw [if_neg fun all => uncounted ⟨all.1, all.2.2⟩, Int.sub_zero]
  · have apart : ¬ (job.arrayId ≠ 0 ∧ job.arrayId = k ∧ (m.jobs k).isSome) :=
      fun all => element all.2.1
    rw [if_neg apart, Int.sub_zero]
    split
    · exact update_of_ne (Ne.symm element) _ _
    · rfl

variable {m m' : MbdState} {job job' : JobData} {j : JobId} {conf : Conf} {permits : Permit}
  {uid : Nat}

theorem releasedHolds_of_eq (stays : job'.listId = job.listId) (k : JobId) :
    releasedHolds m job job' k = 0 := by
  rw [releasedHolds, stays, if_neg fun all => all.2.1 all.1]

theorem finishedElements_of_eq (stays : job'.listId = job.listId) (k : JobId) :
    finishedElements m job job' k = 0 := by
  rw [finishedElements, stays, if_neg fun all => all.1 all.2.1]

theorem releasedHolds_of_left (left : job.listId ≠ .pend) (k : JobId) :
    releasedHolds m job job' k = 0 := by
  rw [releasedHolds, if_neg fun all => left all.1]

theorem finishedElements_of_open (open_ : job'.listId ≠ .finish) (k : JobId) :
    finishedElements m job job' k = 0 := by
  rw [finishedElements, if_neg fun all => open_ all.2.1]

theorem isSome_update {table : JobId → Option JobData} (found : table j = some job) (job' : JobData)
    (k : JobId) : (update table j (some job') k).isSome = (table k).isSome := by
  by_cases same : k = j
  · rw [same, update_self, found]
    rfl
  · rw [update_of_ne same]

/-! ### Following a change through the basic operations -/

section Change

variable {of moved : JobData} {onHost : HostChange} {onQueue : QueueChange} {pools : PoolName → Int}
  {records : List Event} {sent : Outbox} {table : JobId → Option JobData}

theorem Change.start (found : m.jobs j = some job) :
    Change m m j job job hostsKept queuesKept m.pools [] [] where
  found := found
  jobs := by rw [← found, update_eq_self]
  lists := fun id => by simp [movedList]
  request := rfl
  hosts := fun _ => rfl
  queues := fun _ => rfl
  pools := rfl
  manifest := (append_nil _).symm
  outbox := (append_nil _).symm
  jobIdSeq := rfl
  seqFile := rfl
  marks := rfl
  holds := fun k => by rw [releasedHolds_of_eq rfl, Int.sub_zero]
  elements := fun k => by rw [finishedElements_of_eq rfl, Int.sub_zero]

variable (change : Change m m' j job job' onHost onQueue pools records sent)
include change

theorem Change.isSome_jobs (k : JobId) : (m'.jobs k).isSome = (m.jobs k).isSome := by
  rw [change.jobs]
  exact isSome_update change.found job' k

theorem Change.setJob (job'' : JobData) (request : job''.request = job.request)
    (list : job''.listId = job'.listId) :
    Change m (m'.setJob j job'') j job job'' onHost onQueue pools records sent :=
  { change with
    jobs := by
      change update m'.jobs j (some job'') = _
      rw [change.jobs, update_idem]
    lists := fun id => by
      rw [list, ← change.lists id]
      cases id <;> rfl
    request := request
    holds := fun k => by
      rw [releasedHolds, list]
      exact change.holds k
    elements := fun k => by
      rw [finishedElements, list]
      exact change.elements k }

theorem Change.holds_of_eq (stayed : job'.listId = job.listId) (k : JobId) :
    m'.depRefcnt k = m.depRefcnt k := by
  rw [change.holds, releasedHolds_of_eq stayed, Int.sub_zero]

theorem Change.elements_of_eq (stayed : job'.listId = job.listId) (k : JobId) :
    m'.arrayElementCnt k = m.arrayElementCnt k := by
  rw [change.elements, finishedElements_of_eq stayed, Int.sub_zero]

/--
The job leaves its list, which it must not have left before; `refs` and `counts`
are the two counters after the move.
-/
theorem Change.relist (job'' : JobData) {source target : ListId} {refs counts : JobId → Int}
    (request : job''.request = job.request) (stayed : job'.listId = job.listId)
    (onSource : job.listId = source) (leaves : source ≠ target)
    (holds : ∀ k, refs k = m.depRefcnt k - releasedHolds m job { job'' with listId := target } k)
    (elements : ∀ k, counts k =
      m.arrayElementCnt k - finishedElements m job { job'' with listId := target } k) :
    Change m { m'.jobMoveList j job'' source target with
        depRefcnt := refs
        arrayElementCnt := counts } j job { job'' with listId := target }
      onHost onQueue pools records sent :=
  { change with
    jobs := by
      change update m'.jobs j _ = _
      rw [change.jobs, update_idem]
    lists := fun id => by
      have relisted : MbdState.list { m'.jobMoveList j job'' source target with
          depRefcnt := refs
          arrayElementCnt := counts } id = m'.relist j source target id := by
        cases id <;> rfl
      rw [relisted, movedList, onSource, if_neg leaves]
      simp only [MbdState.relist, change.lists, movedList, if_pos stayed.symm]
    request := request
    holds := holds
    elements := elements }

theorem Change.toPending (job'' : JobData) (request : job''.request = job.request)
    (stayed : job'.listId = job.listId) (onRun : job.listId = .run) :
    Change m (m'.jobMoveList j job'' .run .pend) j job { job'' with listId := .pend }
      onHost onQueue pools records sent := by
  refine change.relist job'' request stayed onRun (by decide) (fun k => ?_) fun k => ?_
  · rw [releasedHolds_of_left (onRun.trans_ne (by decide)), Int.sub_zero]
    exact change.holds_of_eq stayed k
  · rw [finishedElements_of_open (show ListId.pend ≠ .finish by decide), Int.sub_zero]
    exact change.elements_of_eq stayed k

theorem Change.released (stayed : job'.listId = job.listId) (onPend : job.listId = .pend)
    (deps : of.deps = job.deps) (leaves : moved.listId ≠ .pend)
    (known : ∀ k, (table k).isSome = (m'.jobs k).isSome) (k : JobId) :
    (jobDepsRefcnt { m' with jobs := table } of (-1)).depRefcnt k =
      m.depRefcnt k - releasedHolds m job moved k := by
  have named : namings of k = namings job k := by rw [namings, namings, deps]
  rw [depRefcnt_jobDepsRefcnt, known, change.isSome_jobs, named, releasedHolds,
    change.holds_of_eq stayed]
  by_cases isKnown : (m.jobs k).isSome = true
  · rw [if_pos isKnown, if_pos ⟨onPend, leaves, isKnown⟩]
    omega
  · rw [if_neg isKnown, if_neg fun all => isKnown all.2.2]
    omega

theorem Change.ended (stayed : job'.listId = job.listId) (open_ : job.listId ≠ .finish)
    (array : of.arrayId = job.arrayId) (final : moved.listId = .finish)
    (known : ∀ k, (table k).isSome = (m'.jobs k).isSome) (k : JobId) :
    (jobArrayElementFinished { m' with jobs := table } of).arrayElementCnt k =
      m.arrayElementCnt k - finishedElements m job moved k := by
  rw [arrayElementCnt_jobArrayElementFinished, known, change.isSome_jobs, array, finishedElements,
    change.elements_of_eq stayed]
  congr 1
  exact if_congr ⟨fun all => ⟨open_, final, all⟩, fun all => all.2.2⟩ rfl rfl

theorem Change.toRunning (job'' of : JobData) (request : job''.request = job.request)
    (deps : of.deps = job.deps) (stayed : job'.listId = job.listId) (onPend : job.listId = .pend) :
    Change m (jobDepsRefcnt (m'.jobMoveList j job'' .pend .run) of (-1)) j job
      { job'' with listId := .run } onHost onQueue pools records sent := by
  refine change.relist job'' request stayed onPend (by decide) (fun k => ?_) fun k => ?_
  · exact change.released stayed onPend deps (show ListId.run ≠ .pend by decide)
      (isSome_update change.jobs_self { job'' with listId := .run }) k
  · rw [finishedElements_of_open (show ListId.run ≠ .finish by decide), Int.sub_zero]
    exact change.elements_of_eq stayed k

theorem Change.killed (job'' : JobData) (request : job''.request = job.request)
    (stayed : job'.listId = job.listId) (onPend : job.listId = .pend) :
    Change m (jobArrayElementFinished { m'.jobMoveList j job'' .pend .finish with
        depRefcnt := (jobDepsRefcnt m' job'' (-1)).depRefcnt } job'')
      j job { job'' with listId := .finish } onHost onQueue pools records sent := by
  refine change.relist job'' request stayed onPend (by decide) (fun k => ?_) fun k => ?_
  · exact change.released stayed onPend (congrArg Request.deps request) (show ListId.finish ≠ .pend by decide) (fun _ => rfl) k
  · exact change.ended stayed (onPend.trans_ne (by decide)) (congrArg Request.arrayId request) rfl
      (isSome_update change.jobs_self { job'' with listId := .finish }) k

theorem Change.toFinished (job'' : JobData) (request : job''.request = job.request)
    (stayed : job'.listId = job.listId) (onRun : job.listId = .run) :
    Change m (jobArrayElementFinished (m'.jobMoveList j job'' .run .finish) job'')
      j job { job'' with listId := .finish } onHost onQueue pools records sent := by
  refine change.relist job'' request stayed onRun (by decide) (fun k => ?_) fun k => ?_
  · rw [releasedHolds_of_left (onRun.trans_ne (by decide)), Int.sub_zero]
    exact change.holds_of_eq stayed k
  · exact change.ended stayed (onRun.trans_ne (by decide)) (congrArg Request.arrayId request) rfl
      (isSome_update change.jobs_self { job'' with listId := .finish }) k

theorem Change.log (e : Event) :
    Change m (m'.log e) j job job' onHost onQueue pools (records ++ [e]) sent :=
  { change with
    lists := change.lists
    manifest := by
      change m'.manifest ++ [e] = _
      rw [change.manifest, append_assoc] }

theorem Change.send (n : HostName) (msg : MbdMsg) :
    Change m (m'.send n msg) j job job' onHost onQueue pools records (sent ++ [(n, msg)]) :=
  { change with
    lists := change.lists
    outbox := by
      change m'.outbox ++ [(n, msg)] = _
      rw [change.outbox, append_assoc] }

theorem Change.modifyQueue (q : QueueName) (f : QueueData → QueueData) :
    Change m (m'.modifyQueue q f) j job job' onHost (fun q' c => atQueue q f q' (onQueue q' c))
      pools records sent :=
  { change with
    lists := change.lists
    queues := fun q' => by
      rw [← change.queues q']
      unfold MbdState.modifyQueue atQueue
      by_cases same : q' = q
      · subst same
        simp
      · simp [same] }

theorem Change.setHosts (onHost' : HostChange)
    {hosts : HostName → HostData} (relates : ∀ h, onHost' h (m.hosts h) (hosts h)) :
    Change m { m' with hosts := hosts } j job job' onHost' onQueue pools records sent :=
  { change with
    lists := change.lists
    hosts := relates }

theorem Change.setPools (pools' : PoolName → Int) :
    Change m { m' with pools := pools' } j job job' onHost onQueue pools' records sent :=
  { change with
    lists := change.lists
    pools := rfl }

end Change

/-! ### Signals to waiting jobs -/

/--
What a request does to one job: nothing, or a change that is logged.  The job is one
of the user who asks, unless a manager does.
-/
inductive Requested (conf : Conf) (permits : Permit) (uid : Nat) (j : JobId) (m : MbdState) :
    MbdState → Prop where
  | nothing : Requested conf permits uid j m m
  | changes {m' : MbdState} {job job' : JobData} {onQueue : QueueChange}
      {pools : PoolName → Int} {records : List Event} {sent : Outbox}
      (owned : job.uid = uid ∨ conf.isManager uid = true)
      (change : Change m m' j job job' hostsKept onQueue pools records sent)
      (about : ∀ e ∈ records, recordJob e = j) (effect : Effect conf permits m m') :
      Requested conf permits uid j m m'

abbrev Requests (conf : Conf) (permits : Permit) (uid : Nat) : MbdState → MbdState → Prop :=
  Relation.ReflTransGen fun m m' => ∃ j, Requested conf permits uid j m m'

theorem Requested.effects (requested : Requested conf permits uid j m m') :
    Effects conf permits m m' := by
  cases requested with
  | nothing => exact .refl
  | changes _ _ _ effect => exact .single effect

theorem Requests.effects (requests : Requests conf permits uid m m') :
    Effects conf permits m m' := by
  induction requests with
  | refl => exact .refl
  | tail _ last ih =>
    obtain ⟨j, requested⟩ := last
    exact ih.trans requested.effects

variable {now : Time} {sig : Int} {status : Status} {sendOk : JobId → Bool}

theorem owned_of_not (may : ¬(job.uid ≠ uid ∧ (!conf.isManager uid) = true)) :
    job.uid = uid ∨ conf.isManager uid = true := by
  by_cases own : job.uid = uid
  · exact Or.inl own
  · cases manager : conf.isManager uid with
    | true => exact Or.inr rfl
    | false => exact absurd ⟨own, by rw [manager]; rfl⟩ may

theorem finishPendingJob_requested (owned : job.uid = uid ∨ conf.isManager uid = true)
    (wf : Wf conf m) (found : m.jobs j = some job) (pending : job.listId = .pend) (clock : 0 < now)
    (done : finishPendingJob m now j job sig uid = some (m', status)) :
    Requested conf permits uid j m m' := by
  have waiting := ((wf.job found).waiting pending).state
  have id := (wf.job found).id
  obtain ⟨q, ofQueue, done⟩ := bind_eq_some_iff.mp done
  have result := (Prod.mk.inj (Option.some.inj done)).1
  have change := ((((Change.start found).modifyQueue q (countKilled job)).log
    (eventJobSignal (killedJob job now) sig uid)).log
    (eventJobFinish (killedJob job now))).killed (killedJob job now) rfl rfl pending
  rw [← result]
  exact .changes owned change (by simp [eventJobSignal, eventJobFinish, killedJob, recordJob, id])
    (Effect.kill pending waiting ofQueue clock change)

theorem stopPendingJob_requested (owned : job.uid = uid ∨ conf.isManager uid = true)
    (found : m.jobs j = some job) (id : job.jobId = j) (pending : job.listId = .pend)
    (ready : job.state = .held ∨ job.state = .pending)
    (done : stopPendingJob m now j job sig uid = some (m', status)) :
    Requested conf permits uid j m m' := by
  unfold stopPendingJob at done
  by_cases onHold : job.state = .held
  · rw [if_pos onHold] at done
    cases done
    exact .nothing
  · rw [if_neg onHold] at done
    obtain ⟨q, ofQueue, done⟩ := bind_eq_some_iff.mp done
    rw [← (Prod.mk.inj (Option.some.inj done)).1]
    have change := ((((Change.start found).setJob (signalledJob job .held now) rfl rfl).log
      (eventJobSignal (signalledJob job .held now) sig uid)).log (.jobPendSusp j now)).modifyQueue q
        countHeld
    exact .changes owned change (by simp [eventJobSignal, signalledJob, recordJob, id])
      (Effect.hold pending (ready.resolve_left onHold) ofQueue change)

theorem resumePendingJob_requested (owned : job.uid = uid ∨ conf.isManager uid = true)
    (found : m.jobs j = some job) (id : job.jobId = j) (pending : job.listId = .pend)
    (done : resumePendingJob m now j job sig uid = some (m', status)) :
    Requested conf permits uid j m m' := by
  unfold resumePendingJob at done
  by_cases onHold : job.state = .held
  · rw [if_neg (not_not_intro onHold)] at done
    obtain ⟨q, ofQueue, done⟩ := bind_eq_some_iff.mp done
    rw [← (Prod.mk.inj (Option.some.inj done)).1]
    have change := ((((Change.start found).setJob (signalledJob job .pending now) rfl rfl).log
      (eventJobSignal (signalledJob job .pending now) sig uid)).log (.jobPendResume j now)).modifyQueue
        q countUnheld
    exact .changes owned change (by simp [eventJobSignal, signalledJob, recordJob, id])
      (Effect.unhold pending onHold ofQueue change)
  · rw [if_pos onHold] at done
    cases done
    exact .nothing

theorem signalPendingJob_requested (owned : job.uid = uid ∨ conf.isManager uid = true)
    (wf : Wf conf m) (found : m.jobs j = some job) (pending : job.listId = .pend) (clock : 0 < now)
    (done : signalPendingJob m now j job sig uid = some (m', status)) :
    Requested conf permits uid j m m' := by
  unfold signalPendingJob at done
  split at done
  · exact finishPendingJob_requested owned wf found pending clock done
  · split at done
    · refine stopPendingJob_requested owned found (wf.job found).id pending ?_ done
      have waiting := ((wf.job found).waiting pending).state
      simp only [JobState.isWaiting, Bool.or_eq_true, decide_eq_true_eq] at waiting
      exact waiting.symm
    · split at done
      · exact resumePendingJob_requested owned found (wf.job found).id pending done
      · cases done
        exact .nothing

theorem signalRunningJob_requested {sendOk : Bool}
    (owned : job.uid = uid ∨ conf.isManager uid = true) (found : m.jobs j = some job)
    (id : job.jobId = j) (left : job.listId ≠ .pend)
    (done : signalRunningJob m now j job sig uid sendOk = some (m', status)) :
    Requested conf permits uid j m m' := by
  obtain ⟨h, isFirst, done⟩ := bind_eq_some_iff.mp done
  split at done
  · cases done
    exact .nothing
  · split at done
    · rw [← (Prod.mk.inj (Option.some.inj done)).1]
      have change := (((Change.start found).send h (.jobSignal j sig)).setJob
        { job with signalTime := now } rfl rfl).log
          (eventJobSignal { job with signalTime := now } sig uid)
      exact .changes owned change (by simp [eventJobSignal, recordJob, id])
        (Effect.signalSent left isFirst change)
    · cases done
      exact .nothing

theorem listId_of_waiting (sound : JobWf conf j job) (waiting : job.state.isWaiting = true) :
    job.listId = .pend := by
  cases list : job.listId with
  | pend => rfl
  | run =>
    have dispatched := (sound.running list).state
    cases state : job.state <;> simp [JobState.isWaiting, JobState.isDispatched, state]
      at waiting dispatched
  | finish =>
    have final := (sound.finished list).state
    cases state : job.state <;> simp [JobState.isWaiting, JobState.isDispatched,
      JobState.isFinished, state] at waiting final

theorem not_lost (sound : JobWf conf j job) : job.state ≠ .orphan ∧ job.state ≠ .broken := by
  cases list : job.listId with
  | pend =>
    have waiting := (sound.waiting list).state
    cases state : job.state <;> simp [JobState.isWaiting, state] at waiting ⊢
  | run =>
    have dispatched := (sound.running list).state
    cases state : job.state <;> simp [JobState.isDispatched, state] at dispatched ⊢
  | finish =>
    have final := (sound.finished list).state
    cases state : job.state <;> simp [JobState.isDispatched, JobState.isFinished, state]
      at final ⊢

theorem signalOneJob_requested {sendOk : Bool} (wf : Wf conf m) (found : m.jobs j = some job)
    (clock : 0 < now) (done : signalOneJob conf m now uid j job sig sendOk = some (m', status)) :
    Requested conf permits uid j m m' := by
  have sound := wf.job found
  unfold signalOneJob at done
  split at done
  · cases done
    exact .nothing
  next may =>
    have owned := owned_of_not may
    split at done
    · cases done
      exact .nothing
    · split at done
      · cases done
        exact .nothing
      · split at done
        · cases done
          exact .nothing
        · rw [if_neg (fun lost => lost.elim (not_lost sound).1 (not_lost sound).2)] at done
          split at done
          next waiting =>
            exact signalPendingJob_requested owned wf found (listId_of_waiting sound waiting) clock
              done
          next awake =>
            refine signalRunningJob_requested owned found sound.id (fun pending => awake ?_) done
            exact (sound.waiting pending).state

theorem forEachJob_requests {step : MbdState → JobId → Option MbdState}
    (turn : ∀ {m m' : MbdState} {j : JobId}, Wf conf m → step m j = some m' →
      Requested conf permits uid j m m') {l : List JobId} (wf : Wf conf m)
    (done : forEachJob step l m = some m') : Requests conf permits uid m m' := by
  induction l generalizing m m' with
  | nil =>
    cases done
    exact .refl
  | cons j rest ih =>
    obtain ⟨mid, first, others⟩ := bind_eq_some_iff.mp done
    have requested := turn wf first
    exact .head ⟨j, requested⟩ (ih (requested.effects.keeps (Wf conf) Effect.wf wf) others)

theorem signalArrayElement_requested (clock : 0 < now) (wf : Wf conf m)
    (done : signalArrayElement conf now uid sig sendOk m j = some m') :
    Requested conf permits uid j m m' := by
  unfold signalArrayElement at done
  cases found : m.jobs j with
  | none =>
    simp only [found] at done
    cases done
    exact .nothing
  | some job =>
    simp only [found] at done
    split at done
    · cases done
      exact .nothing
    · split at done
      · cases done
        exact .nothing
      · obtain ⟨⟨m₁, status⟩, signalled, same⟩ := map_eq_some_iff.mp done
        cases same
        exact signalOneJob_requested wf found clock signalled

theorem signalScanPending_requested (clock : 0 < now) (wf : Wf conf m)
    (done : signalScanPending conf now uid sig m j = some m') :
    Requested conf permits uid j m m' := by
  obtain ⟨job, found, done⟩ := bind_eq_some_iff.mp done
  split at done
  next waiting =>
    split at done
    · cases done
      exact .nothing
    next may =>
      obtain ⟨⟨m₁, status⟩, signalled, same⟩ := map_eq_some_iff.mp done
      cases same
      exact signalPendingJob_requested (owned_of_not may) wf found
        (listId_of_waiting (wf.job found) waiting) clock signalled
  next => cases done

theorem signalScanRunning_requested (wf : Wf conf m)
    (done : signalScanRunning conf now uid sig sendOk m j = some m') :
    Requested conf permits uid j m m' := by
  obtain ⟨job, found, done⟩ := bind_eq_some_iff.mp done
  obtain ⟨h, _, done⟩ := bind_eq_some_iff.mp done
  split at done
  · cases done
    exact .nothing
  · split at done
    · cases done
      exact .nothing
    · split at done
      next dispatched =>
        split at done
        · cases done
          exact .nothing
        next may =>
          obtain ⟨⟨m₁, status⟩, signalled, same⟩ := map_eq_some_iff.mp done
          cases same
          refine signalRunningJob_requested (owned_of_not may) found (wf.job found).id
            (fun pending => ?_) signalled
          have waiting := ((wf.job found).waiting pending).state
          cases state : job.state <;> simp [JobState.isWaiting, JobState.isDispatched, state]
            at waiting dispatched
      next => cases done

theorem signalJobsScan_requests (clock : 0 < now) (wf : Wf conf m)
    (done : signalJobsScan conf m now uid sig sendOk = some m') :
    Requests conf permits uid m m' := by
  obtain ⟨mid, first, second⟩ := bind_eq_some_iff.mp done
  have requests : Requests conf permits uid m mid :=
    forEachJob_requests (signalScanPending_requested clock) wf first
  exact requests.trans (forEachJob_requests signalScanRunning_requested
    (requests.effects.keeps (Wf conf) Effect.wf wf) second)

theorem jobsSignal_requests {jobId : JobId} {arrayIndex : Int} (clock : 0 < now) (wf : Wf conf m)
    (done : jobsSignal conf m now uid jobId arrayIndex sig sendOk = some (m', status)) :
    Requests conf permits uid m m' := by
  unfold jobsSignal at done
  split at done
  · obtain ⟨m₁, scanned, same⟩ := map_eq_some_iff.mp done
    cases same
    exact signalJobsScan_requests clock wf scanned
  · split at done
    · split at done
      · cases done
        exact .refl
      · obtain ⟨job, found, done⟩ := bind_eq_some_iff.mp done
        exact .single ⟨_, signalOneJob_requested wf found clock done⟩
    · split at done
      · cases done
        exact .refl
      next job found =>
        split at done
        · split at done
          · split at done
            · obtain ⟨m₁, looped, same⟩ := map_eq_some_iff.mp done
              cases same
              exact forEachJob_requests (signalArrayElement_requested clock) wf looped
            · exact .single ⟨_, signalOneJob_requested wf found clock done⟩
          · cases done
        · exact .single ⟨_, signalOneJob_requested wf found clock done⟩

/-! ### Moves and priorities -/

theorem Conf.findQueue_name {name : QueueName} {q : QueueConf}
    (found : conf.findQueue name = some q) : q.name = name := by
  have matched := find?_some found
  simpa using matched

theorem jobMove_requested {toQueue : QueueName} (wf : Wf conf m)
    (permitted : ∀ job, m.jobs j = some job → permits m job (.moved toQueue))
    (done : jobMove conf m now uid j toQueue = some (m', status)) :
    Requested conf permits uid j m m' := by
  unfold jobMove at done
  split at done
  · cases done
    exact .nothing
  next job found =>
    split at done
    next waiting =>
      split at done
      · cases done
        exact .nothing
      next target known =>
        split at done
        · cases done
          exact .nothing
        next may =>
          split at done
          · cases done
            exact .nothing
          · obtain ⟨source, ofQueue, done⟩ := bind_eq_some_iff.mp done
            cases done
            have same : target.name = toQueue := Conf.findQueue_name known
            have named : conf.findQueue target.name = some target := by
              rw [same]
              exact known
            have change := ((((Change.start found).modifyQueue source
              (moveCount job (-1))).log (eventJobMove job now source target.name)).setJob
                { job with queue := some target.name } rfl rfl).modifyQueue target.name
                  (moveCount job 1)
            exact .changes (owned_of_not may) change
              (by simp [eventJobMove, recordJob, (wf.job found).id])
              (Effect.move (listId_of_waiting (wf.job found) waiting) waiting ofQueue named
                (same ▸ permitted job found) change)
    next =>
      cases done
      exact .nothing

theorem jobPriority_requested {value : Int} (wf : Wf conf m)
    (permitted : ∀ job, m.jobs j = some job → permits m job (.ranked uid))
    (done : jobPriority conf m now uid j value = some (m', status)) :
    Requested conf permits uid j m m' := by
  rcases jobPriority_cases done with rfl | ⟨job, found, may, within, rfl⟩
  · exact .nothing
  · have change := ((Change.start found).setJob { job with priority := value } rfl rfl).log
      (eventJobPriority { job with priority := value } now job.priority)
    exact .changes (owned_of_not may) change
      (by simp [eventJobPriority, recordJob, (wf.job found).id])
      (Effect.priority within (permitted job found) change)

end LavaLite.Mbd
