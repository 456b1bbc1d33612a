import LavaLite.Kernel.Table
import LavaLite.Mbd.Submit

/-
Requests of users on existing jobs, the reports an sbd sends about the jobs it was
given, its registration, and the requests of managers.  A handler answers `none` where
the code runs into a failed assertion or an unset pointer.
-/

namespace LavaLite.Mbd

open Base Batch Kernel

/-! ### Resources of a dispatched job -/

def releasedGpus (job : JobData) (gpus : List GpuId) : Option (List GpuId) :=
  if job.res.numGpus > 0 then gpuIdsMarkFree gpus job.res.numGpus else some gpus

/-- The body of the loop of `reset_host_resources` for one host. -/
def resetHost (job : JobData) (h : HostData) : Option HostData := do
  let gpus ← releasedGpus job h.gpus
  some { h with
    freeCpu := h.freeCpu + job.res.numCpus
    freeMemMb := addU64 h.freeMemMb job.res.memMb
    freeStorageMb := addU64 h.freeStorageMb job.res.storageMb
    numJobs := h.numJobs - 1
    numCpusUsed := h.numCpusUsed - job.res.numCpus
    numRun := if job.state = .running then h.numRun - 1 else h.numRun
    numSusp := if job.state = .suspended then h.numSusp - 1 else h.numSusp
    exclusive := if job.flags.exclusive then false else h.exclusive
    gpus := gpus }

def resetHostResources (m : MbdState) (job : JobData) : Option MbdState := do
  let hosts ← updateEach (resetHost job) job.hosts m.hosts
  some { m with hosts := hosts }

/-- Add `sign * count` to the pool of every token; unknown pools are skipped. -/
def changeTokens (conf : Conf) (sign : Int) (tokens : List JobToken) (pools : PoolName → Int) :
    PoolName → Int :=
  tokens.foldl
    (fun pools t =>
      match conf.findPool t.name with
      | some _ => Function.update pools t.name (pools t.name + sign * t.count)
      | none => pools)
    pools

def tokenPoolRelease (conf : Conf) (m : MbdState) (job : JobData) : MbdState :=
  { m with pools := changeTokens conf 1 job.res.tokens m.pools }

def jobArrayElementFinished (m : MbdState) (job : JobData) : MbdState :=
  { m with
    arrayElementCnt :=
      if job.arrayId ≠ 0 ∧ (m.jobs job.arrayId).isSome then
        Function.update m.arrayElementCnt job.arrayId (m.arrayElementCnt job.arrayId - 1)
      else m.arrayElementCnt }

def uncountRunning (job : JobData) (c : QueueData) : QueueData :=
  { c with
    numRun := if job.state = .running then c.numRun - 1 else c.numRun
    numSusp := if job.state = .suspended then c.numSusp - 1 else c.numSusp
    numCpusUsed := c.numCpusUsed - job.res.numCpus * job.runNhosts
    numHostsUsed := c.numHostsUsed - job.runNhosts }

def countReleased (job : JobData) (c : QueueData) : QueueData :=
  { uncountRunning job c with numPend := c.numPend + 1 }

def countFinished (job : JobData) (c : QueueData) : QueueData :=
  { uncountRunning job c with numJobs := c.numJobs - 1 }

/-- The fields a job loses when it goes back to pending. -/
def backToPending (job : JobData) : JobData :=
  { job with
    pid := 0
    forkTime := 0
    dispatchTime := 0
    state := .pending
    pendReason := .none }

/-! ### Reports from an sbd -/

/--
`mbd_job_reject_dispatch`.  `ackOk` is whether the acknowledgement could be
signed and queued.
-/
def mbdJobRejectDispatch (conf : Conf) (m : MbdState) (now : Time) (j : JobId) (job : JobData)
    (ackOk : Bool) : Option MbdState :=
  if job.state = .running ∧ job.listId = .run then do
    let h ← job.runHosts.head?
    let q ← job.queue
    let m ← resetHostResources m job
    let m := tokenPoolRelease conf m job
    let m := m.modifyQueue q (countReleased job)
    let m := m.jobMoveList j { backToPending job with runHosts := [], runNhosts := 0 } .run .pend
    let m := m.log (.jobPend j now)
    some (if ackOk then m.send h (.newJobReplyAck j) else m)
  else none

/-- `mbd_new_job_reply` for a job the sbd could not start. -/
def mbdNewJobReject (conf : Conf) (m : MbdState) (now : Time) (j : JobId) (ackOk : Bool) :
    Option MbdState :=
  match m.jobs j with
  | none => some m
  | some job =>
    if job.state.isWaiting then
      if job.listId = .pend then some m else none
    else mbdJobRejectDispatch conf m now j job ackOk

/-- `mbd_new_job_reply` for a job the sbd has started. -/
def mbdNewJobReply (m : MbdState) (now : Time) (n : HostName) (j : JobId) (pid : Int)
    (ackOk : Bool) : Option MbdState :=
  match m.jobs j with
  | none => some m
  | some job =>
    if ackOk then
      let m := m.send n (.newJobReplyAck j)
      if job.forkTime > 0 then some m
      else
        let job := { job with
          pid := pid
          forkTime := now
          state := .running }
        some ((m.setJob j job).log (eventJobFork job))
    else some m

def finishedJob (job : JobData) (now : Time) (success : Bool) (exitStatus : Int) : JobData :=
  { job with
    endTime := now
    exitStatus := exitStatus
    state := if success then .done else .exited }

/-- The part of `mbd_job_finish` after the acknowledgement of a first report. -/
def mbdJobFinishFirst (conf : Conf) (m : MbdState) (now : Time) (j : JobId) (job : JobData)
    (success : Bool) (exitStatus : Int) : Option MbdState := do
  let q ← job.queue
  let m ← resetHostResources m job
  let m := tokenPoolRelease conf m job
  let m := m.modifyQueue q (countFinished job)
  let job := finishedJob job now success exitStatus
  let m := m.jobMoveList j job .run .finish
  let m := jobArrayElementFinished m job
  some (m.log (eventJobFinish job))

def mbdJobFinish (conf : Conf) (m : MbdState) (now : Time) (n : HostName) (j : JobId)
    (success : Bool) (exitStatus : Int) (ackOk : Bool) : Option MbdState :=
  match m.jobs j with
  | none => some (if ackOk then m.send n (.jobFinishAck j) else m)
  | some job => do
      let h ← job.runHosts.head?
      if n ≠ h then some m
      else if job.endTime > 0 then some (if ackOk then m.send n (.jobFinishAck j) else m)
      else if job.state.isDispatched then
        if ackOk then mbdJobFinishFirst conf (m.send n (.jobFinishAck j)) now j job success exitStatus
        else some m
      else none

/-- The two counters a stop or a continue moves between. -/
def countStopped (c : QueueData) : QueueData :=
  { c with
    numRun := c.numRun - 1
    numSusp := c.numSusp + 1 }

def countResumed (c : QueueData) : QueueData :=
  { c with
    numSusp := c.numSusp - 1
    numRun := c.numRun + 1 }

/-- The same two counters on the host that answered. -/
def hostStopped (h : HostData) : HostData :=
  { h with
    numSusp := h.numSusp + 1
    numRun := h.numRun - 1 }

def hostResumed (h : HostData) : HostData :=
  { h with
    numSusp := h.numSusp - 1
    numRun := h.numRun + 1 }

/-- The state the job is in is not looked at. -/
def mbdJobSignalReply (m : MbdState) (n : HostName) (j : JobId) (sig : Int) (ok : Bool) :
    Option MbdState :=
  match m.jobs j with
  | none => some m
  | some job =>
    if ok then
      if isStopSignal sig then do
        let q ← job.queue
        some (((m.setJob j { job with state := .suspended }).modifyQueue q
          countStopped).modifyHost n hostStopped)
      else if sig = sigCont then do
        let q ← job.queue
        some (((m.setJob j { job with state := .running }).modifyQueue q
          countResumed).modifyHost n hostResumed)
      else some m
    else some m

/-- The run hosts stay on the job. -/
def mbdJobMissing (conf : Conf) (m : MbdState) (now : Time) (n : HostName) (j : JobId) :
    Option MbdState :=
  match m.jobs j with
  | none => some m
  | some job =>
    if job.state = .orphan then some m
    else if job.runNhosts = 0 ∨ job.runHosts.head? ≠ some n then some m
    else if job.state.isDispatched then do
      let q ← job.queue
      let m ← resetHostResources m job
      let m := tokenPoolRelease conf m job
      let m := m.modifyQueue q (countReleased job)
      let m := m.jobMoveList j (backToPending job) .run .pend
      some (m.log (.jobPend j now))
    else some m

/-! ### Requests of users -/

def countKilled (job : JobData) (c : QueueData) : QueueData :=
  { c with
    numPend := if job.state = .pending then c.numPend - 1 else c.numPend
    numHeld := if job.state = .held then c.numHeld - 1 else c.numHeld
    numJobs := c.numJobs - 1 }

def countHeld (c : QueueData) : QueueData :=
  { c with
    numPend := c.numPend - 1
    numHeld := c.numHeld + 1 }

def countUnheld (c : QueueData) : QueueData :=
  { c with
    numHeld := c.numHeld - 1
    numPend := c.numPend + 1 }

def killedJob (job : JobData) (now : Time) : JobData :=
  { job with
    signalTime := now
    endTime := now
    state := .exited }

def finishPendingJob (m : MbdState) (now : Time) (j : JobId) (job : JobData) (sig : Int)
    (uid : Nat) : Option (MbdState × Status) := do
  let q ← job.queue
  let m := m.modifyQueue q (countKilled job)
  let job := killedJob job now
  let m := jobDepsRefcnt m job (-1)
  let m := (m.log (eventJobSignal job sig uid)).log (eventJobFinish job)
  let m := m.jobMoveList j job .pend .finish
  some (jobArrayElementFinished m job, .ok)

def signalledJob (job : JobData) (state : JobState) (now : Time) : JobData :=
  { job with
    state := state
    signalTime := now }

def stopPendingJob (m : MbdState) (now : Time) (j : JobId) (job : JobData) (sig : Int)
    (uid : Nat) : Option (MbdState × Status) :=
  if job.state = .held then some (m, .ok)
  else do
    let q ← job.queue
    let job := signalledJob job .held now
    let m := m.setJob j job
    let m := (m.log (eventJobSignal job sig uid)).log (.jobPendSusp j now)
    some (m.modifyQueue q countHeld, .ok)

def resumePendingJob (m : MbdState) (now : Time) (j : JobId) (job : JobData) (sig : Int)
    (uid : Nat) : Option (MbdState × Status) :=
  if job.state ≠ .held then some (m, .ok)
  else do
    let q ← job.queue
    let job := signalledJob job .pending now
    let m := m.setJob j job
    let m := (m.log (eventJobSignal job sig uid)).log (.jobPendResume j now)
    some (m.modifyQueue q countUnheld, .ok)

def signalPendingJob (m : MbdState) (now : Time) (j : JobId) (job : JobData) (sig : Int)
    (uid : Nat) : Option (MbdState × Status) :=
  if sig = sigTerm ∨ sig = sigInt ∨ sig = sigKill then finishPendingJob m now j job sig uid
  else if isStopSignal sig then stopPendingJob m now j job sig uid
  else if sig = sigCont then resumePendingJob m now j job sig uid
  else some (m, .einval)

/-- `signal_running_job`; `sendOk` is whether the message could be queued. -/
def signalRunningJob (m : MbdState) (now : Time) (j : JobId) (job : JobData) (sig : Int)
    (uid : Nat) (sendOk : Bool) : Option (MbdState × Status) := do
  let h ← job.runHosts.head?
  if (m.hosts h).sbdChan < 0 then some (m, .eagain)
  else if sendOk then
    let job := { job with signalTime := now }
    let m := (m.send h (.jobSignal j sig)).setJob j job
    some (m.log (eventJobSignal job sig uid), .ok)
  else some (m, .eagain)

def signalOneJob (conf : Conf) (m : MbdState) (now : Time) (uid : Nat) (j : JobId)
    (job : JobData) (sig : Int) (sendOk : Bool) : Option (MbdState × Status) :=
  if job.uid ≠ uid ∧ !conf.isManager uid then some (m, .eperm)
  else if job.state.isFinished then some (m, .einval)
  else if isStopSignal sig ∧ (job.state = .suspended ∨ job.state = .held) then some (m, .ok)
  else if sig = sigCont ∧ (job.state = .pending ∨ job.state = .running) then some (m, .ok)
  else if job.state = .orphan ∨ job.state = .broken then signalPendingJob m now j job sig uid
  else if job.state.isWaiting then signalPendingJob m now j job sig uid
  else signalRunningJob m now j job sig uid sendOk

/-- Apply a partial step to every job of a list in turn, as the bulk loops do. -/
def forEachJob (step : MbdState → JobId → Option MbdState) : List JobId → MbdState → Option MbdState
  | [], m => some m
  | j :: rest, m => do
      let m ← step m j
      forEachJob step rest m

/-- The body of the loop of `signal_array`. -/
def signalArrayElement (conf : Conf) (now : Time) (uid : Nat) (sig : Int)
    (sendOk : JobId → Bool) (m : MbdState) (j : JobId) : Option MbdState :=
  match m.jobs j with
  | none => some m
  | some job =>
    if job.state.isFinished then some m
    else if job.uid ≠ uid ∧ !conf.isManager uid then some m
    else (signalOneJob conf m now uid j job sig (sendOk j)).map Prod.fst

def arrayLength (first last stride : Int) : Nat :=
  if stride ≤ 0 ∨ last < first then 0 else ((last - first) / stride).toNat + 1

/-- The job ids of an array whose head is `head`: consecutive from the head's. -/
def arrayIds (head : JobData) : List JobId :=
  (List.range (arrayLength head.arrayStart head.arrayEnd head.arrayStride)).map
    fun (i : Nat) => head.jobId + (i : Int)

/-- Whether one element counts as signalled by `signal_array`. -/
def arrayElementCounts (conf : Conf) (m : MbdState) (uid : Nat) (j : JobId) : Bool :=
  match m.jobs j with
  | none => false
  | some job => !job.state.isFinished && (job.uid = uid || conf.isManager uid)

/-- The body of the first loop of `signal_jobs_scan`. -/
def signalScanPending (conf : Conf) (now : Time) (uid : Nat) (sig : Int) (m : MbdState)
    (j : JobId) : Option MbdState := do
  let job ← m.jobs j
  if job.state.isWaiting then
    if job.uid ≠ uid ∧ !conf.isManager uid then some m
    else (signalPendingJob m now j job sig uid).map Prod.fst
  else none

/-- The body of the second loop of `signal_jobs_scan`. -/
def signalScanRunning (conf : Conf) (now : Time) (uid : Nat) (sig : Int)
    (sendOk : JobId → Bool) (m : MbdState) (j : JobId) : Option MbdState := do
  let job ← m.jobs j
  let h ← job.runHosts.head?
  if job.state = .orphan ∨ job.state = .broken then some m
  else if (m.hosts h).sbdChan < 0 then some m
  else if job.state.isDispatched then
    if job.uid ≠ uid ∧ !conf.isManager uid then some m
    else (signalRunningJob m now j job sig uid (sendOk j)).map Prod.fst
  else none

/-- Every pending job, then every running one. -/
def signalJobsScan (conf : Conf) (m : MbdState) (now : Time) (uid : Nat) (sig : Int)
    (sendOk : JobId → Bool) : Option MbdState := do
  let m ← forEachJob (signalScanPending conf now uid sig) m.pend m
  forEachJob (signalScanRunning conf now uid sig sendOk) m.run m

def jobFindArray (m : MbdState) (arrayId : JobId) (arrayIndex : Int) : Option JobId := do
  let head ← m.jobs arrayId
  if head.arrayId ≠ head.jobId then none
  else if arrayIndex < head.arrayStart ∨ head.arrayEnd < arrayIndex ∨ head.arrayStride ≤ 0 then none
  else if (arrayIndex - head.arrayStart) % head.arrayStride ≠ 0 then none
  else
    let j := head.jobId + (arrayIndex - head.arrayStart) / head.arrayStride
    if (m.jobs j).isSome then some j else none

def jobsSignal (conf : Conf) (m : MbdState) (now : Time) (uid : Nat) (jobId : JobId)
    (arrayIndex sig : Int) (sendOk : JobId → Bool) : Option (MbdState × Status) :=
  if jobId = 0 then
    (signalJobsScan conf m now uid sig sendOk).map fun m => (m, .ok)
  else if arrayIndex ≠ 0 then
    match jobFindArray m jobId arrayIndex with
    | none => some (m, .esrch)
    | some j => do
        let job ← m.jobs j
        signalOneJob conf m now uid j job sig (sendOk j)
  else
    match m.jobs jobId with
    | none => some (m, .esrch)
    | some job =>
      if job.arrayId ≠ 0 ∧ job.arrayId = job.jobId then
        if job.arrayIndex = job.arrayStart then
          if (arrayIds job).any (arrayElementCounts conf m uid) then
            (forEachJob (signalArrayElement conf now uid sig sendOk) (arrayIds job) m).map
              fun m => (m, .ok)
          else signalOneJob conf m now uid jobId job sig (sendOk jobId)
        else none
      else signalOneJob conf m now uid jobId job sig (sendOk jobId)

def moveCount (job : JobData) (delta : Int) (c : QueueData) : QueueData :=
  { c with
    numPend := if job.state = .pending then c.numPend + delta else c.numPend
    numHeld := if job.state = .pending then c.numHeld else c.numHeld + delta
    numJobs := c.numJobs + delta }

def jobMove (conf : Conf) (m : MbdState) (now : Time) (uid : Nat) (j : JobId)
    (toQueue : QueueName) : Option (MbdState × Status) :=
  match m.jobs j with
  | none => some (m, .esrch)
  | some job =>
    if job.state.isWaiting then
      match conf.findQueue toQueue with
      | none => some (m, .esrch)
      | some target =>
        if job.uid ≠ uid ∧ !conf.isManager uid then some (m, .eperm)
        else if !queueUserAllowed target job.user then some (m, .eperm)
        else do
          let source ← job.queue
          let m := m.modifyQueue source (moveCount job (-1))
          let m := m.log (eventJobMove job now source target.name)
          let m := m.setJob j { job with queue := some target.name }
          some (m.modifyQueue target.name (moveCount job 1), .ok)
    else some (m, .einval)

/-- Whether the new priority exceeds the queue's; a manager's request does not look. -/
def exceedsQueue (conf : Conf) (uid : Nat) (job : JobData) (priority : Int) : Option Bool :=
  if conf.isManager uid then some false
  else do
    let queue ← job.queue
    let q ← conf.findQueue queue
    some (decide (q.priority < priority))

def jobPriority (conf : Conf) (m : MbdState) (now : Time) (uid : Nat) (j : JobId)
    (priority : Int) : Option (MbdState × Status) :=
  match m.jobs j with
  | none => some (m, .esrch)
  | some job =>
    if job.state.isFinished then some (m, .einval)
    else if job.uid ≠ uid ∧ !conf.isManager uid then some (m, .eperm)
    else do
      let exceeds ← exceedsQueue conf uid job priority
      if exceeds then some (m, .eperm)
      else if priority < 0 then some (m, .einval)
      else if job.priority < priority ∧ !conf.isManager uid then some (m, .eperm)
      else if priority = job.priority then some (m, .ok)
      else
        let changed := { job with priority := priority }
        some ((m.setJob j changed).log (eventJobPriority changed now job.priority), .ok)

theorem jobPriority_cases {conf : Conf} {m m' : MbdState} {now : Time} {uid : Nat} {j : JobId}
    {value : Int} {status : Status}
    (done : jobPriority conf m now uid j value = some (m', status)) :
    m' = m ∨ ∃ job, m.jobs j = some job ∧ ¬(job.uid ≠ uid ∧ !conf.isManager uid) ∧
      exceedsQueue conf uid job value = some false ∧
      m' = (m.setJob j { job with priority := value }).log
        (eventJobPriority { job with priority := value } now job.priority) := by
  refine or_iff_not_imp_left.mpr fun changed => ?_
  have kept : m ≠ m' := Ne.symm changed
  unfold jobPriority at done
  split at done <;>
    simp only [ite_eq_iff, Option.bind_eq_bind, Option.bind_eq_some_iff, Option.some.injEq,
      Prod.mk.injEq, kept, false_and, and_false, false_or] at done
  next job found =>
    obtain ⟨_, may, exceeds, checked, within, _, _, _, rfl, _⟩ := done
    rw [Bool.eq_false_iff.mpr within] at checked
    exact ⟨job, found, may, checked, rfl⟩

/-! ### Connections and administration -/

/-- The running jobs whose exec host is `n`. -/
def buildSbdRunList (m : MbdState) (n : HostName) : List (JobId × Int) :=
  m.run.filterMap fun j =>
    match m.jobs j with
    | some job => if job.runHosts.head? = some n then some (j, job.pid) else none
    | none => none

/--
`mbd_sbd_register` on channel `chan`: `none` when the host is unknown or has a
channel already, and the new channel is shut down.
-/
def mbdSbdRegister (conf : Conf) (m : MbdState) (n : HostName) (chan : Int) : Option MbdState :=
  match conf.findHost n with
  | none => none
  | some _ =>
    if (m.hosts n).sbdChan ≠ -1 then none
    else
      let m := m.modifyHost n fun h =>
        { h with
          sbdChan := chan
          status := { h.status with unavail := false } }
      some (m.send n (.registerAck (buildSbdRunList m n)))

def mbdSbdDisconnect (m : MbdState) (n : HostName) : MbdState :=
  m.modifyHost n fun h =>
    { h with
      sbdChan := -1
      status := { h.status with unavail := true } }

/-- `host_admin`, with the state file it writes. -/
def hostAdmin (conf : Conf) (m : MbdState) (uid : Nat) (h : HostName) (close : Bool) :
    MbdState × Status :=
  if !conf.isManager uid then (m, .eperm)
  else
    match conf.findHost h with
    | none => (m, .einval)
    | some _ =>
      let m := m.modifyHost h fun host =>
        { host with status := { host.status with closed := close } }
      ({ m with marks := { m.marks with hosts := Function.update m.marks.hosts h close } }, .ok)

/-- `queue_admin`, with the state file it writes. -/
def queueAdmin (conf : Conf) (m : MbdState) (uid : Nat) (q : QueueName) (close : Bool) :
    MbdState × Status :=
  if !conf.isManager uid then (m, .eperm)
  else
    match conf.findQueue q with
    | none => (m, .esrch)
    | some _ =>
      let m := m.modifyQueue q fun c => { c with closed := close }
      ({ m with marks := { m.marks with queues := Function.update m.marks.queues q close } }, .ok)

end LavaLite.Mbd
