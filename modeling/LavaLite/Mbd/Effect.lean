import Mathlib.Logic.Relation
import LavaLite.Mbd.Replay

/-
What a handler can do to the state of mbd, said once.  Every handler of a job
that already exists is a sequence of the effects listed here; the invariants of
the daemon are proved for one effect and hold for every handler.
-/

namespace LavaLite.Mbd

open Base Batch Kernel

/-! ### The shape of a change of one job -/

def movedList (m : MbdState) (j : JobId) (source target id : ListId) : List JobId :=
  if source = target then m.list id else m.relist j source target id

structure Request where
  jobId : JobId
  uid : Nat
  gid : Nat
  user : String
  submitTime : Time
  beginTime : Time
  termTime : Time
  project : String
  name : String
  flags : JobFlags
  deps : List JobDep
  dependCond : String
  res : JobResources
  arrayId : JobId
  arrayIndex : Int
  arrayStart : Int
  arrayEnd : Int
  arrayStride : Int
  deriving DecidableEq, Repr

def JobData.request (job : JobData) : Request :=
  { jobId := job.jobId
    uid := job.uid
    gid := job.gid
    user := job.user
    submitTime := job.submitTime
    beginTime := job.beginTime
    termTime := job.termTime
    project := job.project
    name := job.name
    flags := job.flags
    deps := job.deps
    dependCond := job.dependCond
    res := job.res
    arrayId := job.arrayId
    arrayIndex := job.arrayIndex
    arrayStart := job.arrayStart
    arrayEnd := job.arrayEnd
    arrayStride := job.arrayStride }

/-- How many atoms of the dependency expression of `job` name the job `k`. -/
def namings (job : JobData) (k : JobId) : Nat :=
  job.deps.countP fun d => d.isCondition && d.jobId = k

/-- The holds on `k` that a job gives up when it leaves the pending list. -/
def releasedHolds (m : MbdState) (job job' : JobData) (k : JobId) : Int :=
  if job.listId = .pend ∧ job'.listId ≠ .pend ∧ (m.jobs k).isSome then namings job k else 0

/-- Whether a job that joins the finished list is an element of the array of `k`. -/
def finishedElements (m : MbdState) (job job' : JobData) (k : JobId) : Int :=
  if job.listId ≠ .finish ∧ job'.listId = .finish ∧ job.arrayId ≠ 0 ∧ job.arrayId = k ∧
    (m.jobs k).isSome then 1 else 0

abbrev HostChange := HostName → HostData → HostData → Prop

abbrev QueueChange := QueueName → QueueData → QueueData

/--
One job changes: `onHost` and `onQueue` say what happens to the hosts and the
queues, `records` is what is appended to the manifest and `sent` what is queued
for the sbds.
-/
structure Change (m m' : MbdState) (j : JobId) (job job' : JobData)
    (onHost : HostChange) (onQueue : QueueChange) (pools : PoolName → Int) (records : List Event)
    (sent : Outbox) : Prop where
  found : m.jobs j = some job
  jobs : m'.jobs = Function.update m.jobs j (some job')
  lists : ∀ id, m'.list id = movedList m j job.listId job'.listId id
  request : job'.request = job.request
  hosts : ∀ h, onHost h (m.hosts h) (m'.hosts h)
  queues : ∀ q, m'.queues q = onQueue q (m.queues q)
  pools : m'.pools = pools
  manifest : m'.manifest = m.manifest ++ records
  outbox : m'.outbox = m.outbox ++ sent
  jobIdSeq : m'.jobIdSeq = m.jobIdSeq
  seqFile : m'.seqFile = m.seqFile
  marks : m'.marks = m.marks
  holds : ∀ k, m'.depRefcnt k = m.depRefcnt k - releasedHolds m job job' k
  elements : ∀ k, m'.arrayElementCnt k = m.arrayElementCnt k - finishedElements m job job' k

def hostsKept (_ : HostName) (a b : HostData) : Prop :=
  b = a

def queuesKept (_ : QueueName) (c : QueueData) : QueueData :=
  c

def atQueue (q : QueueName) (f : QueueData → QueueData) (q' : QueueName) (c : QueueData) :
    QueueData :=
  if q' = q then f c else c

def hostsReset (job : JobData) (h : HostName) (a b : HostData) : Prop :=
  if h ∈ job.hosts then resetHost job a = some b else b = a

/-- The devices of the first host of a plan are assigned. -/
def hostsAssigned (first : HostName) (gpus : List GpuId) (h : HostName) (a : HostData) : HostData :=
  if h = first then { a with gpus := gpus } else a

/-- The devices of the first host are assigned, and every host of the plan is charged. -/
def hostsCharged (job : JobData) (first : HostName) (gpus : List GpuId) (h : HostName)
    (a b : HostData) : Prop :=
  b = if h ∈ job.hosts then chargeHost job (hostsAssigned first gpus h a)
    else hostsAssigned first gpus h a

def atHost (n : HostName) (f : HostData → HostData) (h : HostName) (a b : HostData) : Prop :=
  b = if h = n then f a else a

/-! ### Changes that leave every job alone -/

def SameAccount (a b : HostData) : Prop :=
  b = { a with
    candidate := b.candidate
    status := b.status
    sbdChan := b.sbdChan }

def SameCount (a b : QueueData) : Prop :=
  b = { a with closed := b.closed }

/-- Only marks, channels, orders and the id sequence change. -/
structure Frame (m m' : MbdState) : Prop where
  jobs : m'.jobs = m.jobs
  pend : m'.pend.Perm m.pend
  run : m'.run = m.run
  finish : m'.finish = m.finish
  hosts : ∀ h, SameAccount (m.hosts h) (m'.hosts h)
  queues : ∀ q, SameCount (m.queues q) (m'.queues q)
  pools : m'.pools = m.pools
  manifest : m'.manifest = m.manifest
  outbox : m'.outbox = m.outbox
  jobIdSeq : m.jobIdSeq ≤ m'.jobIdSeq
  seqFile : m'.seqFile = m.seqFile
  holds : m'.depRefcnt = m.depRefcnt
  elements : m'.arrayElementCnt = m.arrayElementCnt

/-! ### Plans -/

/-- What the scheduler checked of the hosts it picked for a job. -/
structure PlanFor (conf : Conf) (m : MbdState) (job : JobData) (queue : QueueName)
    (plan : List HostName) : Prop where
  distinct : plan.Nodup
  count : (plan.length : Int) = job.res.numHosts
  member : ∀ h ∈ plan, conf.queueHasHost queue h = true
  meets : ∀ h ∈ plan, hostMeetsRequirements conf m job h = true

def plannedJob (job : JobData) (plan : List HostName) : JobData :=
  { job with
    runHosts := plan
    runNhosts := plan.length
    pendReason := .none }

/-- The device text and table after `assignDevices`, which only GPU jobs change. -/
def AssignedOn (m : MbdState) (job : JobData) (first : HostName) (gpus : List GpuId)
    (text : String) : Prop :=
  if job.res.numGpus > 0 then
    buildGpuAssignedStr (m.hosts first).gpus job.res.numGpus = some (gpus, text)
  else gpus = (m.hosts first).gpus ∧ text = job.gpuAssigned

def dispatchedJob (job : JobData) (plan : List HostName) (text : String) (now : Time) : JobData :=
  { plannedJob job plan with
    gpuAssigned := text
    dispatchTime := now
    state := .running
    listId := .run }

/-! ### The effects -/

/--
The steps whose soundness depends on what an sbd reports, and when, on a lost message,
on the manifest staying as it is, or on who asks for what.
-/
inductive Report where
  | forked
  | stopped (n : HostName)
  | continued (n : HostName)
  | released
  | finished
  | unsent
  | compacted
  | moved (target : QueueName)
  | ranked (uid : Nat)
  deriving DecidableEq, Repr

/-- A restriction on reports: the state and the job a report may meet. -/
abbrev Permit :=
  MbdState → JobData → Report → Prop

def anyReport : Permit :=
  fun _ _ _ => True

/-- The steps the handlers on existing jobs are made of. -/
inductive Effect (conf : Conf) (permits : Permit) (m m' : MbdState) : Prop where
  /-- Marks, channels, orders, the id sequence. -/
  | frame (framed : Frame m m')
  /-- The acknowledgement of a reply whose pid is already known. -/
  | ackReply {n : HostName} {j : JobId} {job : JobData} (found : m.jobs j = some job)
      (forked : 0 < job.forkTime) (sends : m' = m.send n (.newJobReplyAck j))
  /-- The acknowledgement of a finish that is recorded, or of an unknown job. -/
  | ackFinish {n : HostName} {j : JobId}
      (saved : j ≤ m.seqFile)
      (final : ∀ job, m.jobs j = some job → job.listId = .finish ∧ 0 < job.forkTime)
      (sends : m' = m.send n (.jobFinishAck j))
  /-- A pending job notes why it waits. -/
  | note {j : JobId} {job : JobData} {reason : PendReason} (pending : job.listId = .pend)
      (change : Change m m' j job { job with pendReason := reason } hostsKept queuesKept
        m.pools [] [])
  /-- A plan was written and devices were marked, but the message could not be queued. -/
  | stranded {j : JobId} {job : JobData} {queue : QueueName} {plan : List HostName}
      {first : HostName} {gpus : List GpuId} {text : String} (pending : job.listId = .pend)
      (planned : PlanFor conf m job queue plan) (isFirst : plan.head? = some first)
      (assigned : AssignedOn m job first gpus text) (permitted : permits m job .unsent)
      (change : Change m m' j job { plannedJob job plan with gpuAssigned := text }
        (fun h a b => b = hostsAssigned first gpus h a) queuesKept m.pools [] [])
  /-- A pending job is started on the hosts of its plan. -/
  | dispatch {j : JobId} {job : JobData} {queue : QueueName} {plan : List HostName}
      {first : HostName} {gpus : List GpuId} {text : String} {now : Time}
      (pending : job.listId = .pend) (ready : job.state = .pending)
      (ofQueue : job.queue = some queue) (clock : 0 < now)
      (planned : PlanFor conf m job queue plan) (isFirst : plan.head? = some first)
      (tokens : tokensAvailable conf m job = true)
      (assigned : AssignedOn m job first gpus text)
      (change : Change m m' j job (dispatchedJob job plan text now)
        (hostsCharged (dispatchedJob job plan text now) first gpus)
        (atQueue queue (countDispatched (dispatchedJob job plan text now)))
        (changeTokens conf (-1) job.res.tokens m.pools)
        [eventJobStart (dispatchedJob job plan text now)]
        [(first, .newJob (wireJobStart (dispatchedJob job plan text now) queue))])
  /-- A signal is passed on to the sbd of a job that was dispatched. -/
  | signalSent {j : JobId} {job : JobData} {h : HostName} {sig : Int} {uid : Nat} {now : Time}
      (left : job.listId ≠ .pend) (isFirst : job.runHosts.head? = some h)
      (change : Change m m' j job { job with signalTime := now } hostsKept queuesKept m.pools
        [eventJobSignal { job with signalTime := now } sig uid] [(h, .jobSignal j sig)])
  /-- A pending job is put on hold. -/
  | hold {j : JobId} {job : JobData} {queue : QueueName} {sig : Int} {uid : Nat} {now : Time}
      (pending : job.listId = .pend) (ready : job.state = .pending)
      (ofQueue : job.queue = some queue)
      (change : Change m m' j job (signalledJob job .held now) hostsKept
        (atQueue queue countHeld) m.pools
        [eventJobSignal (signalledJob job .held now) sig uid, .jobPendSusp j now] [])
  /-- A job on hold is released. -/
  | unhold {j : JobId} {job : JobData} {queue : QueueName} {sig : Int} {uid : Nat} {now : Time}
      (pending : job.listId = .pend) (onHold : job.state = .held)
      (ofQueue : job.queue = some queue)
      (change : Change m m' j job (signalledJob job .pending now) hostsKept
        (atQueue queue countUnheld) m.pools
        [eventJobSignal (signalledJob job .pending now) sig uid, .jobPendResume j now] [])
  /-- A waiting job is killed. -/
  | kill {j : JobId} {job : JobData} {queue : QueueName} {sig : Int} {uid : Nat} {now : Time}
      (pending : job.listId = .pend) (waiting : job.state.isWaiting = true)
      (ofQueue : job.queue = some queue) (clock : 0 < now)
      (change : Change m m' j job { killedJob job now with listId := .finish } hostsKept
        (atQueue queue (countKilled job)) m.pools
        [eventJobSignal (killedJob job now) sig uid, eventJobFinish (killedJob job now)] [])
  /-- A waiting job changes its queue. -/
  | move {j : JobId} {job : JobData} {source : QueueName} {target : QueueConf} {now : Time}
      (pending : job.listId = .pend) (waiting : job.state.isWaiting = true)
      (ofQueue : job.queue = some source) (known : conf.findQueue target.name = some target)
      (permitted : permits m job (.moved target.name))
      (change : Change m m' j job { job with queue := some target.name } hostsKept
        (fun q c => atQueue target.name (moveCount job 1) q
          (atQueue source (moveCount job (-1)) q c)) m.pools
        [eventJobMove job now source target.name] [])
  /-- The priority of a job that has not finished changes. -/
  | priority {j : JobId} {job : JobData} {uid : Nat} {value : Int} {now : Time}
      (within : exceedsQueue conf uid job value = some false)
      (permitted : permits m job (.ranked uid))
      (change : Change m m' j job { job with priority := value } hostsKept queuesKept m.pools
        [eventJobPriority { job with priority := value } now job.priority] [])
  /-- The sbd reports the pid of a running job for the first time. -/
  | fork {j : JobId} {job : JobData} {n : HostName} {pid : Int} {now : Time}
      (running : job.listId = .run) (isFirst : job.runHosts.head? = some n)
      (unforked : job.forkTime ≤ 0) (clock : 0 < now) (permitted : permits m job .forked)
      (change : Change m m' j job { job with pid := pid, forkTime := now, state := .running }
        hostsKept queuesKept m.pools
        [eventJobFork { job with pid := pid, forkTime := now, state := .running }]
        [(n, .newJobReplyAck j)])
  /-- A running job goes back to pending: rejected by its sbd, or missing there. -/
  | release {j : JobId} {job job' : JobData} {queue : QueueName} {n : HostName}
      {sent : Outbox} {now : Time} (running : job.listId = .run)
      (isFirst : job.runHosts.head? = some n)
      (dispatched : job.state.isDispatched = true) (ofQueue : job.queue = some queue)
      (result : job' = { backToPending job with runHosts := [], runNhosts := 0, listId := .pend } ∨
        job' = { backToPending job with listId := .pend })
      (acks : sent = [] ∨ sent = [(n, .newJobReplyAck j)]) (permitted : permits m job .released)
      (change : Change m m' j job job' (hostsReset job) (atQueue queue (countReleased job))
        (changeTokens conf 1 job.res.tokens m.pools) [.jobPend j now] sent)
  /-- A running job finishes. -/
  | finish {j : JobId} {job : JobData} {queue : QueueName} {n : HostName} {success : Bool}
      {exitStatus : Int} {now : Time} (running : job.listId = .run)
      (isFirst : job.runHosts.head? = some n)
      (dispatched : job.state.isDispatched = true) (ofQueue : job.queue = some queue)
      (forked : 0 < job.forkTime) (clock : 0 < now) (permitted : permits m job .finished)
      (change : Change m m' j job
        { finishedJob job now success exitStatus with listId := .finish } (hostsReset job)
        (atQueue queue (countFinished job)) (changeTokens conf 1 job.res.tokens m.pools)
        [eventJobFinish (finishedJob job now success exitStatus)] [(n, .jobFinishAck j)])
  /-- A stop or a continue was delivered to a job that mbd has as running or as finished. -/
  | stopped {j : JobId} {job : JobData} {queue : QueueName} {n : HostName}
      (left : job.listId ≠ .pend) (ofQueue : job.queue = some queue)
      (permitted : permits m job (.stopped n))
      (change : Change m m' j job { job with state := .suspended } (atHost n hostStopped)
        (atQueue queue countStopped) m.pools [] [])
  | continued {j : JobId} {job : JobData} {queue : QueueName} {n : HostName}
      (left : job.listId ≠ .pend) (ofQueue : job.queue = some queue)
      (permitted : permits m job (.continued n))
      (change : Change m m' j job { job with state := .running } (atHost n hostResumed)
        (atQueue queue countResumed) m.pools [] [])
  /-- The manifest is rewritten and finished jobs that nothing needs are freed. -/
  | compact (permitted : ∀ job, permits m job .compacted) (compacted : manifestRebuild m = some m')

abbrev Effects (conf : Conf) (permits : Permit) : MbdState → MbdState → Prop :=
  Relation.ReflTransGen (Effect conf permits)

variable {conf : Conf} {permits : Permit} {m m' : MbdState}

theorem Effect.single (effect : Effect conf permits m m') : Effects conf permits m m' :=
  Relation.ReflTransGen.single effect

theorem Effects.keeps (holds : MbdState → Prop)
    (kept : ∀ {m m' : MbdState}, holds m → Effect conf permits m m' → holds m') (start : holds m)
    (effects : Effects conf permits m m') : holds m' := by
  induction effects with
  | refl => exact start
  | tail _ effect ih => exact kept ih effect

end LavaLite.Mbd
