import LavaLite.Mbd.Handlers

/-
`signal_jobs_scan` against `signal_one_job`.  The scan lacks the two tests that make a
repeated stop or continue do nothing, and it asks whether the user may signal the job rather
than whether the job is the user's.
-/

namespace LavaLite.Mbd

open Base Batch Kernel List Option

/-- `signal_one_job` on a job of the user. -/
def signalOwn (conf : Conf) (now : Time) (uid : Nat) (sig : Int) (sendOk : JobId → Bool)
    (m : MbdState) (j : JobId) : Option MbdState := do
  let job ← m.jobs j
  if job.uid = uid then (signalOneJob conf m now uid j job sig (sendOk j)).map Prod.fst else some m

/-- One signal to each job of the user, on the pending and on the running list. -/
def signalEach (conf : Conf) (m : MbdState) (now : Time) (uid : Nat) (sig : Int)
    (sendOk : JobId → Bool) : Option MbdState :=
  forEachJob (signalOwn conf now uid sig sendOk) (m.pend ++ m.run) m

/-- Whether the signal does something to a pending job, or can be sent to the host of another. -/
def reacts (m : MbdState) (sig : Int) (ok : Bool) (job : JobData) : Bool :=
  if job.state.isWaiting then
    decide (sig = sigTerm ∨ sig = sigInt ∨ sig = sigKill) ||
      (isStopSignal sig && decide (job.state = .pending)) ||
      (decide (sig = sigCont) && decide (job.state = .held))
  else ok && job.runHosts.head?.any fun h => decide (0 ≤ (m.hosts h).sbdChan)

def isRepeated (sig : Int) (job : JobData) : Bool :=
  (isStopSignal sig && decide (job.state = .suspended)) ||
    (decide (sig = sigCont) && decide (job.state = .running))

/-- The scan signals the job, and one signal to each job of the user does not. -/
def overreached (conf : Conf) (m : MbdState) (uid : Nat) (sig : Int) (ok : Bool)
    (job : JobData) : Bool :=
  reacts m sig ok job &&
    ((decide (job.uid ≠ uid) && conf.isManager uid) || (decide (job.uid = uid) && isRepeated sig job))

/-! ### Loops over distinct jobs -/

def recordsOf (m : MbdState) (j : JobId) : Nat :=
  m.manifest.countP fun e => recordJob e = j

/-- What a turn of another job leaves of a job, and of the hosts. -/
structure SameView (m m' : MbdState) (j : JobId) : Prop where
  jobs : m'.jobs j = m.jobs j
  hosts : m'.hosts = m.hosts
  records : recordsOf m' j = recordsOf m j

section Loop

variable {conf : Conf} {uid : Nat} {m m' : MbdState} {j : JobId} {l : List JobId}
  {turn other : MbdState → JobId → Option MbdState}

theorem SameView.refl (m : MbdState) (j : JobId) : SameView m m j :=
  ⟨rfl, rfl, rfl⟩

theorem SameView.trans {mid : MbdState} (first : SameView m mid j) (second : SameView mid m' j) :
    SameView m m' j :=
  ⟨second.jobs.trans first.jobs, second.hosts.trans first.hosts, second.records.trans first.records⟩

theorem Requested.sameView {permits : Permit} {k : JobId} (requested : Requested conf permits uid j m m')
    (different : k ≠ j) : SameView m m' k := by
  cases requested with
  | nothing => exact SameView.refl m k
  | @changes _ _ _ _ _ records _ _ change about _ =>
    have foreign : records.countP (fun e => recordJob e = k) = 0 := by
      apply countP_eq_zero.mpr
      intro e member
      rw [about e member, decide_eq_true_eq]
      exact different.symm
    refine ⟨change.jobs_of_ne different, funext change.hosts, ?_⟩
    rw [recordsOf, change.manifest, countP_append, foreign]
    rfl

variable
  (requests : ∀ {m m' : MbdState} {j : JobId}, Wf conf m → turn m j = some m' → Requested conf anyReport uid j m m')

include requests

theorem forEachJob_sameView (wf : Wf conf m) (absent : j ∉ l) (done : forEachJob turn l m = some m') :
    SameView m m' j := by
  induction l generalizing m with
  | nil =>
    cases done
    exact SameView.refl _ j
  | cons i rest ih =>
    obtain ⟨mid, first, others⟩ := bind_eq_some_iff.mp done
    have requested := requests wf first
    have different : j ≠ i := fun same => absent (same ▸ mem_cons_self)
    have later : j ∉ rest := fun member => absent (mem_cons_of_mem i member)
    apply (requested.sameView different).trans
    exact ih (requested.effects.keeps (Wf conf) Effect.wf wf) later others

theorem forEachJob_turn (wf : Wf conf m) (distinct : l.Nodup) (member : j ∈ l)
    (done : forEachJob turn l m = some m') :
    ∃ before after, Wf conf before ∧ SameView m before j ∧ turn before j = some after ∧
      recordsOf m' j = recordsOf after j := by
  induction l generalizing m with
  | nil => cases member
  | cons i rest ih =>
    obtain ⟨absent, distinct⟩ := nodup_cons.mp distinct
    obtain ⟨mid, first, others⟩ := bind_eq_some_iff.mp done
    have requested := requests wf first
    have wfMid := requested.effects.keeps (Wf conf) Effect.wf wf
    rcases mem_cons.mp member with rfl | later
    · have kept := forEachJob_sameView requests wfMid absent others
      exact ⟨m, mid, wf, SameView.refl m j, first, kept.records⟩
    · have different : j ≠ i := fun same => absent (same ▸ later)
      obtain ⟨before, after, wfBefore, seen, taken, final⟩ := ih wfMid distinct later others
      exact ⟨before, after, wfBefore, (requested.sameView different).trans seen, taken, final⟩

theorem forEachJob_total (wf : Wf conf m) (distinct : l.Nodup)
    (total : ∀ now : MbdState, ∀ j ∈ l, Wf conf now → SameView m now j → ∃ m', turn now j = some m') :
    ∃ m', forEachJob turn l m = some m' := by
  induction l generalizing m with
  | nil => exact ⟨m, rfl⟩
  | cons i rest ih =>
    obtain ⟨absent, distinct⟩ := nodup_cons.mp distinct
    obtain ⟨mid, first⟩ := total m i mem_cons_self wf (SameView.refl m i)
    have requested := requests wf first
    have further := ih (requested.effects.keeps (Wf conf) Effect.wf wf) distinct ?later
    case later =>
      intro now j member wfNow seen
      have different : j ≠ i := fun same => absent (same ▸ member)
      exact total now j (mem_cons_of_mem i member) wfNow
        ((requested.sameView different).trans seen)
    obtain ⟨m', others⟩ := further
    exact ⟨m', bind_eq_some_iff.mpr ⟨mid, first, others⟩⟩

theorem forEachJob_congr (wf : Wf conf m) (distinct : l.Nodup)
    (agree : ∀ now : MbdState, ∀ j ∈ l, Wf conf now → SameView m now j → turn now j = other now j) :
    forEachJob turn l m = forEachJob other l m := by
  induction l generalizing m with
  | nil => rfl
  | cons i rest ih =>
    obtain ⟨absent, distinct⟩ := nodup_cons.mp distinct
    have first := agree m i mem_cons_self wf (SameView.refl m i)
    rw [forEachJob, forEachJob, ← first]
    cases taken : turn m i with
    | none => rfl
    | some mid =>
      have requested := requests wf taken
      apply ih (requested.effects.keeps (Wf conf) Effect.wf wf) distinct
      intro now j member wfNow seen
      have different : j ≠ i := fun same => absent (same ▸ member)
      exact agree now j (mem_cons_of_mem i member) wfNow
        ((requested.sameView different).trans seen)

end Loop

/-! ### One job -/

variable {conf : Conf} {permits : Permit} {uid : Nat} {m m' : MbdState} {j : JobId} {job : JobData}
  {now : Time} {sig : Int} {sendOk : JobId → Bool} {ok : Bool} {h : HostName}

theorem recordsOf_log {e : Event} (about : recordJob e = j) :
    recordsOf (m.log e) j = recordsOf m j + 1 := by
  change (m.manifest ++ [e]).countP _ = _
  rw [countP_append, countP_singleton, if_pos (decide_eq_true about)]
  rfl

theorem waiting_cases (waiting : job.state.isWaiting = true) :
    job.state = .pending ∨ job.state = .held := by
  simpa only [JobState.isWaiting, Bool.or_eq_true, decide_eq_true_eq] using waiting

theorem signalPendingJob_silent (waiting : job.state.isWaiting = true)
    (quiet : reacts m sig ok job = false) :
    (signalPendingJob m now j job sig uid).map Prod.fst = some m := by
  rw [reacts, if_pos waiting] at quiet
  simp only [Bool.or_eq_false_iff, Bool.and_eq_false_iff, decide_eq_false_iff_not] at quiet
  obtain ⟨⟨noKill, noStop⟩, noCont⟩ := quiet
  rw [signalPendingJob, if_neg noKill]
  split
  next stop =>
    rw [stop] at noStop
    have held := (waiting_cases waiting).resolve_left (noStop.resolve_left (by decide))
    rw [stopPendingJob, if_pos held]
    rfl
  · split
    next cont =>
      rw [resumePendingJob, if_pos (noCont.resolve_left (not_not_intro cont))]
      rfl
    · rfl

theorem signalPendingJob_records (id : job.jobId = j) (waiting : job.state.isWaiting = true)
    {q : QueueName} (ofQueue : job.queue = some q) (heard : reacts m sig ok job = true) :
    ∃ m', (signalPendingJob m now j job sig uid).map Prod.fst = some m' ∧
      recordsOf m' j = recordsOf m j + 2 := by
  -- each of the three ways logs the signal and then what came of it
  have logged : ∀ {e f : Event} {m' : MbdState}, recordJob e = j → recordJob f = j →
      m'.manifest = ((m.log e).log f).manifest → recordsOf m' j = recordsOf m j + 2 := by
    intro e f m' first second same
    rw [recordsOf, same]
    change recordsOf ((m.log e).log f) j = _
    rw [recordsOf_log second, recordsOf_log first]
  rw [reacts, if_pos waiting] at heard
  simp only [Bool.or_eq_true, Bool.and_eq_true, decide_eq_true_eq] at heard
  unfold signalPendingJob
  split
  · rw [finishPendingJob, ofQueue]
    exact ⟨_, rfl, logged (e := eventJobSignal (killedJob job now) sig uid)
      (f := eventJobFinish (killedJob job now)) id id rfl⟩
  next noKill =>
    rcases heard with (kill | ⟨stop, pending⟩) | ⟨cont, held⟩
    · exact absurd kill noKill
    · rw [if_pos stop, stopPendingJob, if_neg (by rw [pending]; decide), ofQueue]
      exact ⟨_, rfl, logged (e := eventJobSignal (signalledJob job .held now) sig uid)
        (f := .jobPendSusp j now) id rfl rfl⟩
    · have noStop : isStopSignal sig = false := by rw [cont]; decide
      rw [noStop, if_neg Bool.false_ne_true, if_pos cont, resumePendingJob,
        if_neg (not_not_intro held), ofQueue]
      exact ⟨_, rfl, logged (e := eventJobSignal (signalledJob job .pending now) sig uid)
        (f := .jobPendResume j now) id rfl rfl⟩

theorem signalRunningJob_silent (awake : job.state.isWaiting = false)
    (isFirst : job.runHosts.head? = some h) (quiet : reacts m sig ok job = false) :
    (signalRunningJob m now j job sig uid ok).map Prod.fst = some m := by
  rw [reacts, awake, if_neg Bool.false_ne_true, isFirst, any_some, Bool.and_eq_false_iff,
    decide_eq_false_iff_not] at quiet
  rw [signalRunningJob, isFirst, bind_eq_bind, bind_some]
  split
  · rfl
  next connected =>
    have unsent : ok = false := quiet.resolve_right (not_not_intro (Int.not_lt.mp connected))
    rw [unsent]
    rfl

theorem signalRunningJob_records (id : job.jobId = j) (awake : job.state.isWaiting = false)
    (isFirst : job.runHosts.head? = some h) (heard : reacts m sig ok job = true) :
    ∃ m', (signalRunningJob m now j job sig uid ok).map Prod.fst = some m' ∧
      recordsOf m' j = recordsOf m j + 1 := by
  rw [reacts, awake, if_neg Bool.false_ne_true, isFirst, any_some, Bool.and_eq_true,
    decide_eq_true_eq] at heard
  rw [signalRunningJob, isFirst, bind_eq_bind, bind_some,
    if_neg (Int.not_lt.mpr heard.2), if_pos heard.1]
  exact ⟨_, rfl, recordsOf_log id⟩

/-- The turn of a job in the scan and its own turn, by what the signal itself does to the job. -/
structure Turns (conf : Conf) (m : MbdState) (uid : Nat) (sig : Int) (ok : Bool) (j : JobId)
    (job : JobData) (scan own action : Option MbdState) : Prop where
  scans : scan = if job.uid = uid ∨ conf.isManager uid = true then action else some m
  owns : own = if job.uid = uid then (if isRepeated sig job then some m else action) else some m
  silent : reacts m sig ok job = false → action = some m
  heard : reacts m sig ok job = true → ∃ m', action = some m' ∧ recordsOf m j < recordsOf m' j

namespace Turns

variable {scan own action : Option MbdState}

theorem total (turns : Turns conf m uid sig ok j job scan own action) : ∃ m', scan = some m' := by
  rw [turns.scans]
  split
  · cases reaction : reacts m sig ok job with
    | false => exact ⟨m, turns.silent reaction⟩
    | true =>
      obtain ⟨m', acted, _⟩ := turns.heard reaction
      exact ⟨m', acted⟩
  · exact ⟨m, rfl⟩

theorem agree (turns : Turns conf m uid sig ok j job scan own action)
    (within : overreached conf m uid sig ok job = false) : scan = own := by
  rw [turns.scans, turns.owns]
  cases reaction : reacts m sig ok job with
  | false =>
    rw [turns.silent reaction]
    split <;> split <;> simp
  | true =>
    rw [overreached, reaction, Bool.true_and, Bool.or_eq_false_iff, Bool.and_eq_false_iff,
      Bool.and_eq_false_iff] at within
    by_cases mine : job.uid = uid
    · have fresh := within.2.resolve_left (by simp [mine])
      rw [if_pos (Or.inl mine), if_pos mine, fresh, if_neg Bool.false_ne_true]
    · have user : conf.isManager uid = false := within.1.resolve_left (by simp [mine])
      rw [if_neg (by simp [mine, user]), if_neg mine]

theorem differ (turns : Turns conf m uid sig ok j job scan own action)
    (isOver : overreached conf m uid sig ok job = true) :
    (∃ m', scan = some m' ∧ recordsOf m j < recordsOf m' j) ∧ own = some m := by
  simp only [overreached, Bool.and_eq_true, Bool.or_eq_true, decide_eq_true_eq] at isOver
  obtain ⟨reaction, why⟩ := isOver
  rw [turns.scans, turns.owns]
  rcases why with ⟨foreign, manager⟩ | ⟨mine, repeated⟩
  · rw [if_pos (Or.inr manager), if_neg foreign]
    exact ⟨turns.heard reaction, rfl⟩
  · rw [if_pos (Or.inl mine), if_pos mine, if_pos repeated]
    exact ⟨turns.heard reaction, rfl⟩

end Turns

theorem ite_may : (if job.uid ≠ uid ∧ (!conf.isManager uid) = true then some m else action) =
      if job.uid = uid ∨ conf.isManager uid = true then action else some m := by
  by_cases mine : job.uid = uid <;> cases manager : conf.isManager uid <;> simp [mine]

/-- On a waiting job the two tests of `signal_one_job` only spare a call that does nothing. -/
theorem signalOneJob_pending (waiting : job.state.isWaiting = true) (mine : job.uid = uid) :
    (signalOneJob conf m now uid j job sig ok).map Prod.fst =
      (signalPendingJob m now j job sig uid).map Prod.fst := by
  have quiet : reacts m sig ok job = false →
      (signalPendingJob m now j job sig uid).map Prod.fst = some m := signalPendingJob_silent waiting
  rw [reacts, if_pos waiting] at quiet
  have unfinished : job.state.isFinished = false := by
    rcases waiting_cases waiting with state | state <;> rw [state] <;> rfl
  have known : ¬(job.state = .orphan ∨ job.state = .broken) := by
    rcases waiting_cases waiting with state | state <;> rw [state] <;> decide
  rw [signalOneJob, if_neg known, if_pos waiting, if_neg (fun foreign => foreign.1 mine), unfinished, if_neg Bool.false_ne_true]
  split
  next stop =>
    obtain ⟨stop, state⟩ := stop
    have held : job.state = .held := by
      rcases waiting_cases waiting with state' | state' <;> simp_all
    rw [quiet ?_]
    · rfl
    · simp only [isStopSignal, Bool.or_eq_true, decide_eq_true_eq] at stop
      rcases stop with same | same <;> rw [held, same] <;> decide
  · split
    next cont =>
      obtain ⟨cont, state⟩ := cont
      have pending : job.state = .pending := by
        rcases waiting_cases waiting with state' | state' <;> simp_all
      rw [quiet (by rw [cont, pending]; decide)]
      rfl
    · rfl

theorem signalOneJob_running (dispatched : job.state.isDispatched = true) (mine : job.uid = uid) :
    (signalOneJob conf m now uid j job sig ok).map Prod.fst =
      if isRepeated sig job then some m else (signalRunningJob m now j job sig uid ok).map Prod.fst := by
  have cases : job.state = .running ∨ job.state = .suspended := by
    simpa only [JobState.isDispatched, Bool.or_eq_true, decide_eq_true_eq] using dispatched
  rw [signalOneJob, if_neg (fun foreign => foreign.1 mine)]
  rcases cases with state | state
  · by_cases cont : sig = sigCont <;>
      simp [state, cont, isRepeated, JobState.isFinished, JobState.isWaiting]
  · cases stop : isStopSignal sig <;>
      simp [state, stop, isRepeated, JobState.isFinished, JobState.isWaiting]

theorem signalScanPending_turns (sendOk : JobId → Bool) (wf : Wf conf m) (found : m.jobs j = some job)
    (pending : job.listId = .pend) :
    Turns conf m uid sig (sendOk j) j job (signalScanPending conf now uid sig m j)
      (signalOwn conf now uid sig sendOk m j)
      ((signalPendingJob m now j job sig uid).map Prod.fst) := by
  have sound := wf.job found
  have waiting := (sound.waiting pending).state
  obtain ⟨q, ofQueue, _⟩ := sound.queue
  have fresh : isRepeated sig job = false := by
    rcases waiting_cases waiting with state | state <;> simp [isRepeated, state]
  refine ⟨?_, ?_, signalPendingJob_silent waiting, fun heard => ?_⟩
  · rw [signalScanPending, found, bind_eq_bind, bind_some, if_pos waiting, ite_may]
  · rw [signalOwn, found, bind_eq_bind, bind_some, fresh, if_neg Bool.false_ne_true]
    split
    next mine => exact signalOneJob_pending waiting mine
    · rfl
  · obtain ⟨m', acted, written⟩ := signalPendingJob_records sound.id waiting ofQueue heard
    exact ⟨m', acted, by omega⟩

theorem signalScanRunning_turns (wf : Wf conf m) (found : m.jobs j = some job)
    (running : job.listId = .run) :
    Turns conf m uid sig (sendOk j) j job (signalScanRunning conf now uid sig sendOk m j)
      (signalOwn conf now uid sig sendOk m j)
      ((signalRunningJob m now j job sig uid (sendOk j)).map Prod.fst) := by
  have sound := wf.job found
  have dispatched := (sound.running running).state
  have awake : job.state.isWaiting = false := by
    cases state : job.state <;> simp [JobState.isWaiting, JobState.isDispatched, state] at dispatched ⊢
  have known : ¬(job.state = .orphan ∨ job.state = .broken) :=
    fun lost => lost.elim (not_lost sound).1 (not_lost sound).2
  obtain ⟨h, others, hosts⟩ := exists_cons_of_ne_nil (sound.running running).nonempty
  have isFirst : job.runHosts.head? = some h := by rw [hosts]; rfl
  refine ⟨?_, ?_, signalRunningJob_silent awake isFirst, fun heard => ?_⟩
  · rw [signalScanRunning, found, bind_eq_bind, bind_some, isFirst,
      bind_eq_bind, bind_some, if_neg known]
    split
    next away =>
      rw [signalRunningJob_silent awake isFirst]
      · split <;> rfl
      · simp [reacts, awake, isFirst, away]
    · rw [ite_may]
  · rw [signalOwn, found, bind_eq_bind, bind_some]
    split
    next mine => exact signalOneJob_running dispatched mine
    · rfl
  · obtain ⟨m', acted, written⟩ := signalRunningJob_records sound.id awake isFirst heard
    exact ⟨m', acted, by omega⟩

theorem signalPendingJob_run {status : Status}
    (done : signalPendingJob m now j job sig uid = some (m', status)) : m'.run = m.run := by
  unfold signalPendingJob at done
  split at done
  · obtain ⟨q, _, done⟩ := bind_eq_some_iff.mp done
    cases done
    rfl
  · split at done
    · rw [stopPendingJob] at done
      split at done
      · cases done
        rfl
      · obtain ⟨q, _, done⟩ := bind_eq_some_iff.mp done
        cases done
        rfl
    · split at done
      · rw [resumePendingJob] at done
        split at done
        · cases done
          rfl
        · obtain ⟨q, _, done⟩ := bind_eq_some_iff.mp done
          cases done
          rfl
      · cases done
        rfl

/-! ### The whole lists -/

variable {before : MbdState}

theorem signalOwn_requested (clock : 0 < now) (wf : Wf conf m)
    (done : signalOwn conf now uid sig sendOk m j = some m') :
    Requested conf permits uid j m m' := by
  obtain ⟨job, found, done⟩ := bind_eq_some_iff.mp done
  split at done
  · obtain ⟨⟨m₁, status⟩, signalled, same⟩ := map_eq_some_iff.mp done
    cases same
    exact signalOneJob_requested wf found clock signalled
  · cases done
    exact .nothing

theorem forEachJob_append {turn : MbdState → JobId → Option MbdState} (front back : List JobId) :
    forEachJob turn (front ++ back) m =
      (forEachJob turn front m).bind fun mid => forEachJob turn back mid := by
  induction front generalizing m with
  | nil => rfl
  | cons j rest ih =>
    rw [cons_append, forEachJob, forEachJob, bind_eq_bind, bind_assoc]
    exact Option.bind_congr fun mid _ => ih

theorem signalScanPending_run {l : List JobId}
    (done : forEachJob (signalScanPending conf now uid sig) l m = some m') : m'.run = m.run := by
  induction l generalizing m with
  | nil =>
    cases done
    rfl
  | cons j rest ih =>
    obtain ⟨mid, first, others⟩ := bind_eq_some_iff.mp done
    apply (ih others).trans
    obtain ⟨job, _, first⟩ := bind_eq_some_iff.mp first
    split at first
    · split at first
      · cases first
        rfl
      · obtain ⟨⟨m₁, status⟩, signalled, same⟩ := map_eq_some_iff.mp first
        cases same
        exact signalPendingJob_run signalled
    · cases first

theorem SameView.listed {id : ListId} (wf : Wf conf m) (member : j ∈ m.list id)
    (seen : SameView m before j) :
    ∃ job, m.jobs j = some job ∧ before.jobs j = some job ∧ job.listId = id := by
  obtain ⟨job, found, onList⟩ := (wf.listed id j).mp member
  exact ⟨job, found, seen.jobs.trans found, onList⟩

theorem SameView.overreached (seen : SameView m before j) :
    Mbd.overreached conf before uid sig ok job = Mbd.overreached conf m uid sig ok job := by
  rw [Mbd.overreached, Mbd.overreached, reacts, reacts, seen.hosts]

theorem signalScanPending_wf {mid : MbdState} (clock : 0 < now) (wf : Wf conf m)
    (pended : forEachJob (signalScanPending conf now uid sig) m.pend m = some mid) :
    Wf conf mid ∧ mid.run = m.run := by
  have requests : Requests conf anyReport uid m mid :=
    forEachJob_requests (signalScanPending_requested clock) wf pended
  exact ⟨requests.effects.keeps (Wf conf) Effect.wf wf, signalScanPending_run pended⟩

theorem signalJobsScan_total (clock : 0 < now) (wf : Wf conf m) :
    ∃ m', signalJobsScan conf m now uid sig sendOk = some m' := by
  have first : ∃ mid, forEachJob (signalScanPending conf now uid sig) m.pend m = some mid := by
    apply forEachJob_total (signalScanPending_requested clock) wf (wf.distinct .pend)
    intro before j member wfBefore seen
    obtain ⟨job, _, found, onList⟩ := seen.listed wf member
    exact (signalScanPending_turns sendOk wfBefore found onList).total
  obtain ⟨mid, pended⟩ := first
  obtain ⟨wfMid, _⟩ := signalScanPending_wf clock wf pended
  have second : ∃ m', forEachJob (signalScanRunning conf now uid sig sendOk) mid.run mid = some m' := by
    apply forEachJob_total signalScanRunning_requested wfMid (wfMid.distinct .run)
    intro before j member wfBefore seen
    obtain ⟨job, _, found, onList⟩ := seen.listed wfMid member
    exact (signalScanRunning_turns wfBefore found onList).total
  obtain ⟨m', ran⟩ := second
  exact ⟨m', bind_eq_some_iff.mpr ⟨mid, pended, ran⟩⟩

theorem signalJobsScan_eq (clock : 0 < now) (wf : Wf conf m)
    (within : ∀ j ∈ m.pend ++ m.run, ∀ job, m.jobs j = some job →
      overreached conf m uid sig (sendOk j) job = false) :
    signalJobsScan conf m now uid sig sendOk = signalEach conf m now uid sig sendOk := by
  have first : forEachJob (signalScanPending conf now uid sig) m.pend m =
      forEachJob (signalOwn conf now uid sig sendOk) m.pend m := by
    apply forEachJob_congr (signalScanPending_requested clock) wf (wf.distinct .pend)
    intro before j member wfBefore seen
    obtain ⟨job, found, present, onList⟩ := seen.listed wf member
    apply (signalScanPending_turns sendOk wfBefore present onList).agree
    rw [seen.overreached]
    exact within j (mem_append_left _ member) job found
  rw [signalJobsScan, signalEach, forEachJob_append, bind_eq_bind, ← first]
  apply Option.bind_congr
  intro mid pended
  obtain ⟨wfMid, sameRun⟩ := signalScanPending_wf clock wf pended
  rw [sameRun]
  apply forEachJob_congr signalScanRunning_requested wfMid (wf.distinct .run)
  intro before j member wfBefore seen
  have running : j ∈ mid.list .run := by
    change j ∈ mid.run
    rw [sameRun]
    exact member
  have elsewhere : j ∉ m.list .pend := wf.apart (by decide) member
  have early := forEachJob_sameView (signalScanPending_requested clock) wf elsewhere pended
  obtain ⟨job, found, present, onList⟩ := seen.listed wfMid running
  apply (signalScanRunning_turns wfBefore present onList).agree
  rw [(early.trans seen).overreached]
  exact within j (mem_append_right _ member) job (early.jobs ▸ found)

theorem signalEach_records (clock : 0 < now) (wf : Wf conf m)
    (done : signalEach conf m now uid sig sendOk = some m') (found : m.jobs j = some job)
    (member : j ∈ m.pend ++ m.run) (isOver : overreached conf m uid sig (sendOk j) job = true) :
    recordsOf m' j = recordsOf m j := by
  have distinct : (m.pend ++ m.run).Nodup :=
    nodup_append'.mpr ⟨wf.distinct .pend, wf.distinct .run,
      fun i waiting running => wf.apart (a := .pend) (b := .run) (by decide) waiting running⟩
  obtain ⟨before, after, wfBefore, seen, taken, final⟩ :=
    forEachJob_turn (signalOwn_requested clock) wf distinct member done
  have present := seen.jobs.trans found
  rw [← seen.overreached] at isOver
  have idle : signalOwn conf now uid sig sendOk before j = some before := by
    rcases mem_append.mp member with waiting | running
    · exact ((signalScanPending_turns sendOk wfBefore present
        ((wf.mem_iff found .pend).mp waiting)).differ isOver).2
    · exact ((signalScanRunning_turns wfBefore present
        ((wf.mem_iff found .run).mp running)).differ isOver).2
  rw [idle] at taken
  cases taken
  exact final.trans seen.records

theorem signalJobsScan_records (clock : 0 < now) (wf : Wf conf m)
    (done : signalJobsScan conf m now uid sig sendOk = some m') (found : m.jobs j = some job)
    (member : j ∈ m.pend ++ m.run) (isOver : overreached conf m uid sig (sendOk j) job = true) :
    recordsOf m j < recordsOf m' j := by
  obtain ⟨mid, pended, ran⟩ := bind_eq_some_iff.mp done
  obtain ⟨wfMid, sameRun⟩ := signalScanPending_wf clock wf pended
  rw [sameRun] at ran
  rcases mem_append.mp member with waiting | running
  · have elsewhere : j ∉ m.list .run := wf.apart (a := .pend) (by decide) waiting
    obtain ⟨before, after, wfBefore, seen, taken, final⟩ :=
      forEachJob_turn (signalScanPending_requested clock) wf (wf.distinct .pend) waiting pended
    have late := forEachJob_sameView signalScanRunning_requested wfMid elsewhere ran
    rw [← seen.overreached] at isOver
    obtain ⟨⟨m₁, acted, more⟩, _⟩ := (signalScanPending_turns sendOk wfBefore
      (seen.jobs.trans found) ((wf.mem_iff found .pend).mp waiting)).differ isOver
    rw [acted] at taken
    cases taken
    have same := seen.records
    have last := late.records
    omega
  · have elsewhere : j ∉ m.list .pend := wf.apart (a := .run) (by decide) running
    have early := forEachJob_sameView (signalScanPending_requested clock) wf elsewhere pended
    obtain ⟨before, after, wfBefore, seen, taken, final⟩ :=
      forEachJob_turn signalScanRunning_requested wfMid (wf.distinct .run) running ran
    have view := early.trans seen
    rw [← view.overreached] at isOver
    obtain ⟨⟨m₁, acted, more⟩, _⟩ := (signalScanRunning_turns wfBefore
      (view.jobs.trans found) ((wf.mem_iff found .run).mp running)).differ isOver
    rw [acted] at taken
    cases taken
    have same := view.records
    omega

theorem signalJobsScan_eq_iff (clock : 0 < now) (wf : Wf conf m) :
    signalJobsScan conf m now uid sig sendOk = signalEach conf m now uid sig sendOk ↔
      ∀ j ∈ m.pend ++ m.run, ∀ job, m.jobs j = some job →
        overreached conf m uid sig (sendOk j) job = false := by
  refine ⟨fun same j member job found => ?_, signalJobsScan_eq clock wf⟩
  obtain ⟨m', done⟩ : ∃ m', signalJobsScan conf m now uid sig sendOk = some m' :=
    signalJobsScan_total clock wf
  apply Bool.eq_false_iff.mpr
  intro isOver
  have more := signalJobsScan_records clock wf done found member isOver
  have none := signalEach_records clock wf (same ▸ done) found member isOver
  omega

end LavaLite.Mbd
