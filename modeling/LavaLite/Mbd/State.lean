import Mathlib.Data.List.Nodup
import LavaLite.Batch.Wire

/-
The data of the master daemon: the configuration it is started with, the jobs
and their three lists, hosts, queues and token pools, and what it keeps on disk,
with the writers of `events.c`.
-/

namespace LavaLite.Mbd

open Batch

/-! ### Configuration -/

/-- One line of the `Host` section of `llb.hosts`. -/
structure HostConf where
  name : HostName
  totalCpu : Int
  totalMemMb : Nat
  totalStorageMb : Nat
  gpuModel : String
  gpuIds : List Int
  deriving DecidableEq, Repr

/-- One `Queue` section; `hosts` and `users` are the expanded tables. -/
structure QueueConf where
  name : QueueName
  priority : Int
  hosts : List HostName
  users : List String
  deriving DecidableEq, Repr

/-- One line of the `TokenPool` section. -/
structure PoolConf where
  name : PoolName
  total : Int
  positive : 0 < total
  deriving DecidableEq, Repr

/-- One line of the `HostGroup` section. -/
structure GroupConf where
  name : String
  members : List HostName
  deriving DecidableEq, Repr

/--
The configuration.  Tables are keyed by name, and names are assumed to be distinct: `conf.c`
does not look at what `ll_hash_insert` answers.  The sizes are `uint64_t`; a queue's host
table holds configured hosts only, and its name and that of a token pool were read into 64
bytes.  `qsort` and the iteration order of a hash table are whatever the platform gives, up
to reordering.
-/
structure Conf where
  hosts : List HostConf
  queues : List QueueConf
  pools : List PoolConf
  groups : List GroupConf
  defaultQueue : QueueName
  mgrUid : Nat
  finishThreshold : Int
  qsort : (JobId → JobId → Int) → List JobId → List JobId
  qsortHosts : (HostName → HostName → Int) → List HostName → List HostName
  hashOrder : List String → List String
  hosts_nodup : (hosts.map HostConf.name).Nodup
  queues_nodup : (queues.map QueueConf.name).Nodup
  pools_nodup : (pools.map PoolConf.name).Nodup
  sizes_fit : ∀ h ∈ hosts, h.totalMemMb < Base.u64Modulus ∧ h.totalStorageMb < Base.u64Modulus
  queue_hosts : ∀ q ∈ queues, ∀ h ∈ q.hosts, h ∈ hosts.map HostConf.name
  queue_names_fit : ∀ q ∈ queues, q.name.toList.length < 64
  pool_names_fit : ∀ p ∈ pools, p.name.toList.length < 64
  qsort_perm : ∀ cmp l, (qsort cmp l).Perm l
  qsortHosts_perm : ∀ cmp l, (qsortHosts cmp l).Perm l
  hashOrder_perm : ∀ l, (hashOrder l).Perm l

namespace Conf

def hostNames (conf : Conf) : List HostName :=
  conf.hosts.map HostConf.name

def findHost (conf : Conf) (name : HostName) : Option HostConf :=
  conf.hosts.find? fun h => h.name = name

def findQueue (conf : Conf) (name : QueueName) : Option QueueConf :=
  conf.queues.find? fun q => q.name = name

def findPool (conf : Conf) (name : PoolName) : Option PoolConf :=
  conf.pools.find? fun p => p.name = name

def findGroup (conf : Conf) (name : String) : Option GroupConf :=
  conf.groups.find? fun g => g.name = name

/-- `ll_hash_search(&q->host_hash, host)` for the queue called `queue`. -/
def queueHasHost (conf : Conf) (queue : QueueName) (host : HostName) : Bool :=
  match conf.findQueue queue with
  | some q => q.hosts.contains host
  | none => false

def isManager (conf : Conf) (uid : Nat) : Bool :=
  uid = 0 || uid = conf.mgrUid

end Conf

/-! ### Jobs -/

structure JobToken where
  name : PoolName
  count : Int
  deriving DecidableEq, Repr

/-- `struct job_resources`; `machines` are the distinct keys of the hash table. -/
structure JobResources where
  numCpus : Int
  numHosts : Int
  numGpus : Int
  gpuModel : String
  memMb : Nat
  storageMb : Nat
  machinesStr : String
  machines : List String
  tokenpoolStr : String
  tokens : List JobToken
  deriving DecidableEq, Repr, Inhabited

inductive ListId where
  | pend
  | run
  | finish
  deriving DecidableEq, Repr, Inhabited

inductive PendReason where
  | none
  | jobNotReady
  | queueClosed
  | tokens
  | depend
  | hostExclusive
  | gpuModel
  | notEnoughGpus
  | notEnoughMem
  | notEnoughStorage
  | notEnoughCpus
  | noHosts
  deriving DecidableEq, Repr, Inhabited

/--
`struct job_data`.  `runHosts` is the part of the `run_hosts` array that has
been written, an array of `res.numHosts` entries; the job uses the first
`runNhosts` of them.
-/
structure JobData where
  jobId : JobId
  uid : Nat
  gid : Nat
  pid : Int
  user : String
  state : JobState
  exitStatus : Int
  priority : Int
  submitTime : Time
  dispatchTime : Time
  forkTime : Time
  endTime : Time
  beginTime : Time
  termTime : Time
  signalTime : Time
  queue : Option QueueName
  project : String
  name : String
  flags : JobFlags
  listId : ListId
  pendReason : PendReason
  deps : List JobDep
  dependCond : String
  res : JobResources
  runNhosts : Nat
  runHosts : List HostName
  gpuAssigned : String
  arrayId : JobId
  arrayIndex : Int
  arrayStart : Int
  arrayEnd : Int
  arrayStride : Int
  deriving DecidableEq, Repr, Inhabited

def JobData.hosts (job : JobData) : List HostName :=
  job.runHosts.take job.runNhosts

def jobUsesHost (job : JobData) (h : HostName) : Bool :=
  job.hosts.contains h

/-! ### Hosts, queues and the daemon's state -/

structure GpuId where
  id : Int
  inUse : Bool
  deriving DecidableEq, Repr

/-- The bits of `mbd_host.state`; both clear is `HOST_OK`. -/
structure HostStatus where
  closed : Bool
  unavail : Bool
  deriving DecidableEq, Repr

/--
The part of `struct mbd_host` that changes while mbd runs.  `free_cpu` is an `int` that
would wrap and is kept exact here: it stays in range as long as no job asks for a negative
number of CPUs.
-/
structure HostData where
  freeCpu : Int
  freeMemMb : Nat
  freeStorageMb : Nat
  gpus : List GpuId
  status : HostStatus
  candidate : Bool
  exclusive : Bool
  numJobs : Int
  numRun : Int
  numSusp : Int
  sbdChan : Int
  numCpusUsed : Int
  deriving DecidableEq, Repr

/-- The part of `struct mbd_queue` that changes while mbd runs. -/
structure QueueData where
  numJobs : Int
  numPend : Int
  numRun : Int
  numSusp : Int
  numHeld : Int
  closed : Bool
  numCpusUsed : Int
  numHostsUsed : Int
  deriving DecidableEq, Repr

/-- The closed marks that admin requests leave in the state directory. -/
structure ClosedMarks where
  hosts : HostName → Bool
  queues : QueueName → Bool

abbrev Outbox := List (HostName × MbdMsg)

/--
The state of mbd.  `jobs` is `job_id_hash`; `depRefcnt` and `arrayElementCnt`
are the two counters other jobs change on a job, kept beside it.  `manifest`,
`seqFile` and `marks` are on disk; `outbox` holds the messages queued for an sbd
since the handler was entered.
-/
structure MbdState where
  jobIdSeq : JobId
  jobs : JobId → Option JobData
  depRefcnt : JobId → Int
  arrayElementCnt : JobId → Int
  pend : List JobId
  run : List JobId
  finish : List JobId
  hosts : HostName → HostData
  queues : QueueName → QueueData
  pools : PoolName → Int
  manifest : List Event
  seqFile : JobId
  marks : ClosedMarks
  outbox : Outbox

namespace MbdState

def list (m : MbdState) : ListId → List JobId
  | .pend => m.pend
  | .run => m.run
  | .finish => m.finish

def setJob (m : MbdState) (j : JobId) (job : JobData) : MbdState :=
  { m with jobs := Function.update m.jobs j (some job) }

def relist (m : MbdState) (j : JobId) (source target id : ListId) : List JobId :=
  let l := if id = source then (m.list id).erase j else m.list id
  if id = target then l ++ [j] else l

/-- The job leaves one list, joins another and remembers which. -/
def jobMoveList (m : MbdState) (j : JobId) (job : JobData) (source target : ListId) : MbdState :=
  { m with
    pend := m.relist j source target .pend
    run := m.relist j source target .run
    finish := m.relist j source target .finish
    jobs := Function.update m.jobs j (some { job with listId := target }) }

def modifyQueue (m : MbdState) (q : QueueName) (f : QueueData → QueueData) : MbdState :=
  { m with queues := Function.update m.queues q (f (m.queues q)) }

def modifyHost (m : MbdState) (h : HostName) (f : HostData → HostData) : MbdState :=
  { m with hosts := Function.update m.hosts h (f (m.hosts h)) }

def log (m : MbdState) (e : Event) : MbdState :=
  { m with manifest := m.manifest ++ [e] }

/-- `enqueue_payload` on the channel of a host. -/
def send (m : MbdState) (h : HostName) (msg : MbdMsg) : MbdState :=
  { m with outbox := m.outbox ++ [(h, msg)] }

end MbdState

variable {i k : JobId} {m : MbdState} {source target id : ListId}

theorem count_concat_of_ne {l : List JobId} (other : k ≠ i) : (l ++ [i]).count k = l.count k := by
  rw [List.count_append, List.count_cons_of_ne (Ne.symm other), List.count_nil, Nat.add_zero]

theorem count_relist (other : k ≠ i) :
    (m.relist i source target id).count k = (m.list id).count k := by
  have left : (if id = source then (m.list id).erase i else m.list id).count k =
      (m.list id).count k := by
    split
    · exact List.count_erase_of_ne other
    · rfl
  simp only [MbdState.relist]
  split
  · exact (count_concat_of_ne other).trans left
  · exact left

theorem count_jobMoveList {job : JobData} (other : k ≠ i) :
    ((m.jobMoveList i job source target).list id).count k = (m.list id).count k := by
  cases id <;> exact count_relist other

/-! ### The device table of a host -/

open Base

def gpuIdsCountFree (gpus : List GpuId) : Nat :=
  (gpus.filter fun g => !g.inUse).length

def markFirst (n : Nat) (used : Bool) (gpus : List GpuId) : List GpuId :=
  (gpus.take n).map (fun g => { g with inUse := used }) ++ gpus.drop n

/--
The first `numGpus` entries of the table are cleared, and both assertions need all of
them to exist and to be marked.
-/
def gpuIdsMarkFree (gpus : List GpuId) (numGpus : Int) : Option (List GpuId) :=
  let n := numGpus.toNat
  if n ≤ gpus.length ∧ (gpus.take n).all (fun g => g.inUse) then
    some (markFirst n false gpus)
  else none

/--
The first `numGpus` entries are marked, and both assertions need all of them to exist
and to be free.
-/
def gpuIdsMarkInuse (gpus : List GpuId) (numGpus : Int) : Option (List GpuId) :=
  let n := numGpus.toNat
  if n ≤ gpus.length ∧ (gpus.take n).all (fun g => !g.inUse) then
    some (markFirst n true gpus)
  else none

/--
The loop of `build_gpu_assigned_str`: walk the table, mark free devices until
`n` are assigned, and collect their ids.
-/
def assignGpus : Nat → List GpuId → List GpuId × List Int
  | 0, gpus => (gpus, [])
  | _ + 1, [] => ([], [])
  | n + 1, g :: gpus =>
    if g.inUse then
      let (rest, ids) := assignGpus (n + 1) gpus
      (g :: rest, ids)
    else
      let (rest, ids) := assignGpus n gpus
      ({ g with inUse := true } :: rest, g.id :: ids)

/-- The text `build_gpu_assigned_str` leaves in a buffer of `size` bytes. -/
def gpuAssignedText (size : Nat) : List Int → String
  | [] => ""
  | id :: ids =>
    ids.foldl (fun text id => strlcat size (strlcat size text ",") (decimalText id))
      (strlcat size "" (decimalText id))

/-- The new table and the text, in 64 bytes. -/
def buildGpuAssignedStr (gpus : List GpuId) (numGpus : Int) :
    Option (List GpuId × String) :=
  if numGpus.toNat ≤ gpus.length then
    let (marked, ids) := assignGpus numGpus.toNat gpus
    some (marked, gpuAssignedText 64 ids)
  else none

/-! ### The records of the handlers -/

def recordJob : Event → JobId
  | .jobNew e => e.jobId
  | .jobStart e => e.jobId
  | .jobFork j _ _ => j
  | .jobSignal j _ _ _ => j
  | .jobFinish j _ _ _ _ => j
  | .jobPendSusp j _ => j
  | .jobPendResume j _ => j
  | .jobSusp j _ => j
  | .jobMove j _ _ _ => j
  | .jobPriority j _ _ _ => j
  | .jobPend j _ => j

/-- Most fields come from the request, not from the job. -/
def eventJobNew (job : JobData) (ws : WireJobSubmit) : Event :=
  .jobNew
    { jobId := job.jobId
      arrayId := job.arrayId
      arrayIndex := job.arrayIndex
      arrayStart := job.arrayStart
      arrayEnd := job.arrayEnd
      arrayStride := job.arrayStride
      uid := job.uid
      gid := job.gid
      state := job.state
      priority := job.priority
      submitTime := job.submitTime
      beginTime := ws.beginTime
      termTime := ws.termTime
      numCpu := ws.numCpus
      -- the submitted host count, not the one job_alloc settled on
      numHosts := ws.numHosts
      numGpus := ws.numGpus
      memMb := ws.memMb
      storageMb := ws.storageMb
      flags := ws.flags
      username := strlcpy 64 ws.username
      jobName := strlcpy 64 ws.name
      queue := strlcpy 64 ws.queue
      projectName := strlcpy 64 ws.project
      gpuModel := strlcpy 64 ws.gpuModel
      machines := strlcpy 1024 ws.machines
      tokenpool := strlcpy 256 ws.tokenpool
      dependCond := strlcpy 4096 ws.dependCond }

def eventJobStart (job : JobData) : Event :=
  .jobStart
    { jobId := job.jobId
      dispatchTime := job.dispatchTime
      nhosts := job.res.numHosts
      cpusPerHost := job.res.numCpus
      gpusPerHost := job.res.numGpus
      gpuModel := strlcpy 64 job.res.gpuModel
      gpuAssigned := strlcpy 64 job.gpuAssigned
      hosts := job.hosts }

/-- `event_job_fork`, and `compact_write_job_fork`. -/
def eventJobFork (job : JobData) : Event :=
  .jobFork job.jobId job.pid job.forkTime

def eventJobSignal (job : JobData) (sig : Int) (uid : Nat) : Event :=
  .jobSignal job.jobId sig uid job.signalTime

/-- `event_job_finish`, and `compact_write_job_finish`. -/
def eventJobFinish (job : JobData) : Event :=
  .jobFinish job.jobId job.uid job.state job.exitStatus job.endTime

/-- The from-queue is the one the job still has. -/
def eventJobMove (job : JobData) (now : Time) (fromQueue toQueue : QueueName) : Event :=
  .jobMove job.jobId now (strlcpy 64 fromQueue) (strlcpy 64 toQueue)

def eventJobPriority (job : JobData) (now : Time) (oldPriority : Int) : Event :=
  .jobPriority job.jobId now oldPriority job.priority

/-- Every field comes from the job. -/
def compactWriteJobNew (job : JobData) (queue : QueueName) : Event :=
  .jobNew
    { jobId := job.jobId
      arrayId := job.arrayId
      arrayIndex := job.arrayIndex
      arrayStart := job.arrayStart
      arrayEnd := job.arrayEnd
      arrayStride := job.arrayStride
      uid := job.uid
      gid := job.gid
      state := job.state
      priority := job.priority
      submitTime := job.submitTime
      beginTime := job.beginTime
      termTime := job.termTime
      numCpu := job.res.numCpus
      numHosts := job.res.numHosts
      numGpus := job.res.numGpus
      memMb := job.res.memMb
      storageMb := job.res.storageMb
      flags := job.flags
      username := strlcpy 64 job.user
      jobName := strlcpy 64 job.name
      queue := strlcpy 64 queue
      projectName := strlcpy 64 job.project
      gpuModel := strlcpy 64 job.res.gpuModel
      machines := strlcpy 1024 job.res.machinesStr
      tokenpool := strlcpy 256 job.res.tokenpoolStr
      dependCond := strlcpy 4096 job.dependCond }

/--
No `gpu_assigned`, and the hosts are the first `res.num_hosts` entries of the array;
`none` when one of them is not set.
-/
def compactWriteJobStart (job : JobData) : Option Event :=
  if job.res.numHosts.toNat ≤ job.runHosts.length then
    some (.jobStart
      { jobId := job.jobId
        dispatchTime := job.dispatchTime
        nhosts := job.res.numHosts
        cpusPerHost := job.res.numCpus
        gpusPerHost := job.res.numGpus
        gpuModel := strlcpy 64 job.res.gpuModel
        gpuAssigned := ""
        hosts := job.runHosts.take job.res.numHosts.toNat })
  else none

def compactPending (job : JobData) : Option (List Event) := do
  let queue ← job.queue
  some [compactWriteJobNew job queue]

def compactRunning (job : JobData) : Option (List Event) := do
  let queue ← job.queue
  let start ← compactWriteJobStart job
  some ([compactWriteJobNew job queue, start] ++
    if job.forkTime ≠ 0 then [eventJobFork job] else [])

/-- The start records of a finished job: none when it was killed while pending. -/
def compactStarted (job : JobData) : Option (List Event) :=
  if job.dispatchTime ≠ 0 then do
    let start ← compactWriteJobStart job
    some (start :: if job.forkTime ≠ 0 then [eventJobFork job] else [])
  else some []

def compactWriteJobFinished (job : JobData) : Option (List Event) := do
  let queue ← job.queue
  let started ← compactStarted job
  some (compactWriteJobNew job queue :: (started ++ [eventJobFinish job]))

end LavaLite.Mbd
