import LavaLite.Mbd.Tally

/-
The counters of queues and hosts, and the recount of `mbd_assert_counters`.  The
counters of a queue follow its jobs through every effect; only those of running
and stopped jobs depend on what an sbd reports.
-/

namespace LavaLite.Mbd

open Base Batch Kernel

/-! ### Queues -/

inductive QueueCounter where
  | numJobs
  | numPend
  | numHeld
  | numRun
  | numSusp
  | numCpusUsed
  | numHostsUsed
  deriving DecidableEq, Repr

def QueueData.count (c : QueueData) : QueueCounter → Int
  | .numJobs => c.numJobs
  | .numPend => c.numPend
  | .numHeld => c.numHeld
  | .numRun => c.numRun
  | .numSusp => c.numSusp
  | .numCpusUsed => c.numCpusUsed
  | .numHostsUsed => c.numHostsUsed

def pendingCount (job : JobData) : QueueCounter → Int
  | .numJobs => 1
  | .numPend => if job.state = .held then 0 else 1
  | .numHeld => if job.state = .held then 1 else 0
  | _ => 0

def runningCount (job : JobData) : QueueCounter → Int
  | .numJobs => 1
  | .numRun => if job.state = .running then 1 else 0
  | .numSusp => if job.state = .suspended then 1 else 0
  | .numCpusUsed => job.res.numCpus * job.runNhosts
  | .numHostsUsed => job.runNhosts
  | _ => 0

def QueueData.noCounts : QueueData :=
  makeQueue false

def recountPending (m : MbdState) (q : QueueName) (c : QueueData) (j : JobId) : QueueData :=
  match m.jobs j with
  | none => c
  | some job =>
    if job.queue = some q then
      { c with
        numJobs := c.numJobs + 1
        numHeld := if job.state = .held then c.numHeld + 1 else c.numHeld
        numPend := if job.state = .pending ∨ job.state = .broken ∨ job.state = .orphan then
          c.numPend + 1 else c.numPend }
    else c

def recountRunning (m : MbdState) (q : QueueName) (c : QueueData) (j : JobId) : QueueData :=
  match m.jobs j with
  | none => c
  | some job =>
    if job.queue = some q then
      { c with
        numJobs := c.numJobs + 1
        numCpusUsed := c.numCpusUsed + job.res.numCpus * job.runNhosts
        numHostsUsed := c.numHostsUsed + job.runNhosts
        numSusp := if job.state = .suspended then c.numSusp + 1 else c.numSusp
        numRun := if job.state = .running then c.numRun + 1 else c.numRun }
    else c

/-- The recount of one queue in `mbd_assert_counters`. -/
def recountQueue (m : MbdState) (q : QueueName) : QueueData :=
  m.run.foldl (recountRunning m q) (m.pend.foldl (recountPending m q) QueueData.noCounts)

/-! ### Hosts -/

inductive HostCounter where
  | freeCpu
  | freeMem
  | freeStorage
  | numJobs
  | numRun
  | numSusp
  | numCpusUsed
  deriving DecidableEq, Repr

def HostData.count (h : HostData) : HostCounter → Int
  | .freeCpu => h.freeCpu
  | .freeMem => h.freeMemMb
  | .freeStorage => h.freeStorageMb
  | .numJobs => h.numJobs
  | .numRun => h.numRun
  | .numSusp => h.numSusp
  | .numCpusUsed => h.numCpusUsed

def hostCount (job : JobData) : HostCounter → Int
  | .freeCpu => -job.res.numCpus
  | .freeMem => -job.res.memMb
  | .freeStorage => -job.res.storageMb
  | .numJobs => 1
  | .numRun => if job.state = .running then 1 else 0
  | .numSusp => if job.state = .suspended then 1 else 0
  | .numCpusUsed => job.res.numCpus

structure HostCounts where
  numJobs : Int
  numRun : Int
  numSusp : Int
  numCpusUsed : Int
  deriving DecidableEq, Repr

def HostCounts.none : HostCounts :=
  { numJobs := 0
    numRun := 0
    numSusp := 0
    numCpusUsed := 0 }

/-- The body of the recount's loop over the running list for one host. -/
def recountOnHost (m : MbdState) (h : HostName) (c : HostCounts) (j : JobId) : HostCounts :=
  match m.jobs j with
  | .none => c
  | some job =>
    if jobUsesHost job h then
      { c with
        numJobs := c.numJobs + 1
        numCpusUsed := c.numCpusUsed + job.res.numCpus
        numSusp := if job.state = .suspended then c.numSusp + 1 else c.numSusp
        numRun := if job.state = .running then c.numRun + 1 else c.numRun }
    else c

/-- The recount of one host in `mbd_assert_counters`. -/
def recountHost (m : MbdState) (h : HostName) : HostCounts :=
  m.run.foldl (recountOnHost m h) .none

/-! ### Effects -/

def jobShare (k : QueueCounter) (job : JobData) : Int :=
  match job.listId with
  | .pend => pendingCount job k
  | .run => runningCount job k
  | .finish => 0

def queueShare (q : QueueName) (k : QueueCounter) (job : JobData) : Int :=
  if job.queue = some q then jobShare k job else 0

theorem queueShare_open (q : QueueName) (k : QueueCounter) : OpenWeight (queueShare q k) := by
  intro job ended
  simp [queueShare, jobShare, ended]

/-- One counter of every queue is what a recount gives. -/
def QueueBalanced (k : QueueCounter) (m : MbdState) : Prop :=
  ∀ q, (m.queues q).count k = openTally m (queueShare q k)

/--
The reports after which the counters of running and stopped jobs still agree
with the states of the jobs.
-/
def orderlyReports : Permit
  | _, job, .forked => job.forkTime ≤ 0 → job.state = .running
  | _, job, .stopped _ => job.listId = .run ∧ job.state = .running
  | _, job, .continued _ => job.listId = .run ∧ job.state = .suspended
  | _, _, _ => True

instance decidableOrderly (m : MbdState) (job : JobData) :
    ∀ report, Decidable (orderlyReports m job report)
  | .forked => inferInstanceAs (Decidable (job.forkTime ≤ 0 → job.state = .running))
  | .stopped _ => inferInstanceAs (Decidable (job.listId = .run ∧ job.state = .running))
  | .continued _ => inferInstanceAs (Decidable (job.listId = .run ∧ job.state = .suspended))
  | .released | .finished | .unsent | .compacted | .moved _ | .ranked _ => isTrue trivial

def QueueCounter.steady : QueueCounter → Bool
  | .numRun | .numSusp => false
  | _ => true

theorem isWaiting_cases {state : JobState} (waiting : state.isWaiting = true) :
    state = .pending ∨ state = .held := by
  cases state <;> simp_all [JobState.isWaiting]

theorem isDispatched_cases {state : JobState} (dispatched : state.isDispatched = true) :
    state = .running ∨ state = .suspended := by
  cases state <;> simp_all [JobState.isDispatched]

theorem count_moveCount {job : JobData} {k : QueueCounter} (pending : job.listId = .pend)
    (waiting : job.state.isWaiting = true) (delta : Int) (c : QueueData) :
    (moveCount job delta c).count k = c.count k + delta * jobShare k job := by
  rcases isWaiting_cases waiting with ready | onHold
  · cases k <;> simp [jobShare, pending, ready, pendingCount, moveCount, QueueData.count]
  · cases k <;> simp [jobShare, pending, onHold, pendingCount, moveCount, QueueData.count]

theorem jobShare_of_steady {job job' : JobData} {k : QueueCounter} (steady : k.steady = true)
    (left : job.listId ≠ .pend) (list : job'.listId = job.listId) (res : job'.res = job.res)
    (runNhosts : job'.runNhosts = job.runNhosts) : jobShare k job' = jobShare k job := by
  unfold jobShare
  rw [list]
  cases on : job.listId with
  | pend => exact absurd on left
  | run => cases k <;> simp_all [QueueCounter.steady, runningCount]
  | finish => rfl

variable {conf : Conf} {permits : Permit} {m m' : MbdState} {j : JobId} {job job' : JobData}
  {onHost : HostChange} {onQueue : QueueChange} {pools : PoolName → Int} {records : List Event}
  {sent : Outbox} {queue : QueueName} {k : QueueCounter} {ws : WireJobSubmit}

theorem Change.queueBalanced
    (change : Change m m' j job job' onHost onQueue pools records sent) (wf : Listed m)
    (balanced : QueueBalanced k m)
    (counted : ∀ q c, (onQueue q c).count k = c.count k - queueShare q k job + queueShare q k job') :
    QueueBalanced k m' := by
  intro q
  rw [change.queues, counted, balanced q, change.openTally wf (queueShare_open q k)]

theorem Change.queueBalanced_kept
    (change : Change m m' j job job' onHost queuesKept pools records sent) (wf : Listed m)
    (balanced : QueueBalanced k m) (queue : job'.queue = job.queue)
    (share : jobShare k job' = jobShare k job) : QueueBalanced k m' := by
  refine change.queueBalanced wf balanced fun q c => ?_
  simp only [queuesKept, queueShare, queue, share]
  omega

theorem Change.queueBalanced_at {f : QueueData → QueueData}
    (change : Change m m' j job job' onHost (atQueue queue f) pools records sent) (wf : Listed m)
    (balanced : QueueBalanced k m) (ofQueue : job.queue = some queue)
    (stays : job'.queue = job.queue)
    (counted : ∀ c, (f c).count k = c.count k - jobShare k job + jobShare k job') :
    QueueBalanced k m' := by
  refine change.queueBalanced wf balanced fun q c => ?_
  simp only [atQueue, queueShare, stays, ofQueue, Option.some.injEq, eq_comm (a := q)]
  split
  · exact counted c
  · omega

theorem Frame.queueBalanced (framed : Frame m m') (balanced : QueueBalanced k m) :
    QueueBalanced k m' := by
  intro q
  rw [framed.openTally, ← balanced q, framed.queues q]
  cases k <;> rfl

theorem Effect.queueBalanced (wf : Wf conf m) (balanced : QueueBalanced k m)
    (orderly : k.steady = true ∨ ∀ m job report, permits m job report → orderlyReports m job report)
    (effect : Effect conf permits m m') : QueueBalanced k m' := by
  cases effect with
  | frame framed => exact framed.queueBalanced balanced
  | ackReply _ _ sends | ackFinish _ _ sends =>
    subst sends
    exact balanced
  | compact _ compacted =>
    intro q
    have queues : m'.queues = m.queues := by
      obtain ⟨_, _, result⟩ := manifestRebuild_spec compacted
      rw [result]
    rw [compact_openTally compacted wf, ← balanced q, queues]
  | note pending change | signalSent _ _ change | priority _ _ change =>
    exact change.queueBalanced_kept wf.toListed balanced rfl rfl
  | stranded pending _ _ _ _ change =>
    refine change.queueBalanced_kept wf.toListed balanced rfl ?_
    simp [jobShare, plannedJob, pending, pendingCount]
  | dispatch pending ready ofQueue _ _ _ _ _ change =>
    refine change.queueBalanced_at wf.toListed balanced ofQueue rfl fun c => ?_
    cases k <;> simp [jobShare, pending, ready, pendingCount, runningCount, countDispatched,
      QueueData.count, dispatchedJob]
  | hold pending ready ofQueue change =>
    refine change.queueBalanced_at wf.toListed balanced ofQueue rfl fun c => ?_
    cases k <;> simp [jobShare, pending, ready, pendingCount, countHeld, QueueData.count,
      signalledJob]
  | unhold pending onHold ofQueue change =>
    refine change.queueBalanced_at wf.toListed balanced ofQueue rfl fun c => ?_
    cases k <;> simp [jobShare, pending, onHold, pendingCount, countUnheld, QueueData.count,
      signalledJob]
  | kill pending waiting ofQueue _ change =>
    refine change.queueBalanced_at wf.toListed balanced ofQueue rfl fun c => ?_
    rcases isWaiting_cases waiting with ready | onHold
    · cases k <;> simp [jobShare, pending, ready, pendingCount, countKilled, QueueData.count]
    · cases k <;> simp [jobShare, pending, onHold, pendingCount, countKilled, QueueData.count]
  | @move j job source target _ pending waiting ofQueue _ _ change =>
    refine change.queueBalanced wf.toListed balanced fun q c => ?_
    have moves := fun delta c => count_moveCount (k := k) pending waiting delta c
    have share : jobShare k { job with queue := some target.name } = jobShare k job := rfl
    simp only [queueShare, ofQueue, Option.some.injEq, eq_comm (b := q), share]
    unfold atQueue
    by_cases onTarget : q = target.name
    · by_cases onSource : q = source
      · simp only [if_pos onTarget, if_pos onSource, moves]
        omega
      · simp only [if_pos onTarget, if_neg onSource, moves]
        omega
    · by_cases onSource : q = source
      · simp only [if_neg onTarget, if_pos onSource, moves]
        omega
      · simp only [if_neg onTarget, if_neg onSource]
        omega
  | fork running _ unforked _ permitted change =>
    refine change.queueBalanced_kept wf.toListed balanced rfl ?_
    rcases orderly with steady | orderly
    · exact jobShare_of_steady steady (by rw [running]; decide) rfl rfl rfl
    · have wasRunning := orderly _ _ _ permitted unforked
      cases k <;> simp [jobShare, running, runningCount, wasRunning]
  | release running _ dispatched ofQueue result _ _ change =>
    refine change.queueBalanced_at wf.toListed balanced ofQueue ?_ fun c => ?_
    · rcases result with rfl | rfl <;> rfl
    · rcases isDispatched_cases dispatched with isRunning | isStopped
      · rcases result with rfl | rfl <;> cases k <;>
          simp [jobShare, running, isRunning, pendingCount, runningCount, countReleased,
            uncountRunning, QueueData.count, backToPending]
      · rcases result with rfl | rfl <;> cases k <;>
          simp [jobShare, running, isStopped, pendingCount, runningCount, countReleased,
            uncountRunning, QueueData.count, backToPending]
  | finish running _ dispatched ofQueue _ _ _ change =>
    refine change.queueBalanced_at wf.toListed balanced ofQueue rfl fun c => ?_
    rcases isDispatched_cases dispatched with isRunning | isStopped
    · cases k <;> simp [jobShare, running, isRunning, runningCount, countFinished,
        uncountRunning, QueueData.count]
    · cases k <;> simp [jobShare, running, isStopped, runningCount, countFinished,
        uncountRunning, QueueData.count]
  | @stopped _ job _ _ left ofQueue permitted change =>
    refine change.queueBalanced_at wf.toListed balanced ofQueue rfl fun c => ?_
    rcases orderly with steady | orderly
    · have share : jobShare k { job with state := .suspended } = jobShare k job :=
        jobShare_of_steady steady left rfl rfl rfl
      have kept : (countStopped c).count k = c.count k := by
        cases k <;> first | rfl | cases steady
      rw [share, kept]
      omega
    · obtain ⟨running, isRunning⟩ := orderly _ _ _ permitted
      cases k <;> simp [jobShare, running, isRunning, runningCount, countStopped, QueueData.count]
  | @continued _ job _ _ left ofQueue permitted change =>
    refine change.queueBalanced_at wf.toListed balanced ofQueue rfl fun c => ?_
    rcases orderly with steady | orderly
    · have share : jobShare k { job with state := .running } = jobShare k job :=
        jobShare_of_steady steady left rfl rfl rfl
      have kept : (countResumed c).count k = c.count k := by
        cases k <;> first | rfl | cases steady
      rw [share, kept]
      omega
    · obtain ⟨running, isStopped⟩ := orderly _ _ _ permitted
      cases k <;> simp [jobShare, running, isStopped, runningCount, countResumed, QueueData.count]

theorem Commit.queueBalanced (commit : Commit conf ws m m' queue job) (wf : Wf conf m)
    (balanced : QueueBalanced k m) : QueueBalanced k m' := by
  intro q
  have waiting := (commit.prepared.jobWf.waiting commit.prepared.list).state
  have counted : ∀ c, (countCommitted job c).count k = c.count k + jobShare k job := by
    intro c
    rcases isWaiting_cases waiting with ready | onHold
    · cases k <;> simp [jobShare, commit.prepared.list, ready, pendingCount, countCommitted,
        QueueData.count]
    · cases k <;> simp [jobShare, commit.prepared.list, onHold, pendingCount, countCommitted,
        QueueData.count]
  rw [commit.openTally wf.toListed (queueShare_open q k), ← balanced q, commit.queues]
  simp only [atQueue, queueShare, commit.ofQueue, Option.some.injEq, eq_comm (b := q)]
  split
  · exact counted _
  · omega

theorem Registers.queueBalanced (registers : Registers conf ws m m') (wf : Wf conf m)
    (balanced : QueueBalanced k m) : QueueBalanced k m' :=
  registers.keeps_of_wf (QueueBalanced k) (fun _ balanced framed => framed.queueBalanced balanced)
    (fun wf balanced commit => commit.queueBalanced wf balanced) (fun _ balanced => balanced)
    wf balanced

/-! ### The recount -/

variable {q : QueueName}

theorem count_recountQueue (wf : Wf conf m) :
    (recountQueue m q).count k = openTally m (queueShare q k) := by
  have pending : ∀ j ∈ m.pend, ∀ c, (recountPending m q c j).count k =
      c.count k + (m.jobs j).elim 0 (queueShare q k) := by
    intro j member c
    obtain ⟨job, found, on⟩ := (wf.listed .pend j).mp member
    have waiting := ((wf.job found).waiting on).state
    simp only [recountPending, found, queueShare, jobShare, on, Option.elim_some]
    split
    · rcases isWaiting_cases waiting with ready | onHold
      · cases k <;> simp [ready, pendingCount, QueueData.count]
      · cases k <;> simp [onHold, pendingCount, QueueData.count]
    · omega
  have running : ∀ j ∈ m.run, ∀ c, (recountRunning m q c j).count k =
      c.count k + (m.jobs j).elim 0 (queueShare q k) := by
    intro j member c
    obtain ⟨job, found, on⟩ := (wf.listed .run j).mp member
    simp only [recountRunning, found, queueShare, jobShare, on, Option.elim_some]
    split
    · cases k <;> simp [runningCount, QueueData.count] <;> split <;> omega
    · omega
  unfold recountQueue
  rw [foldl_tally (QueueData.count · k) running, foldl_tally (QueueData.count · k) pending]
  have none : QueueData.noCounts.count k = 0 := by
    cases k <;> rfl
  rw [none]
  exact Int.zero_add _ ▸ rfl

end LavaLite.Mbd
