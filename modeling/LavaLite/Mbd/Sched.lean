import LavaLite.Mbd.Job

/-
The scheduling cycle of `sched.c` and the dispatch of `sbd.c`: candidates, the
host plan of a job, and the walk over the sorted pending list.
-/

namespace LavaLite.Mbd

open Base Batch Kernel

def isCandidate (h : HostData) : Bool :=
  !h.status.closed && !h.status.unavail && decide (0 ≤ h.sbdChan) && decide (0 < h.freeCpu)

def markCandidates (conf : Conf) (m : MbdState) : MbdState × Int :=
  ({ m with hosts := fun h => { m.hosts h with candidate := isCandidate (m.hosts h) } },
    ((conf.hostNames.filter fun h => isCandidate (m.hosts h)).map
      fun h => (m.hosts h).freeCpu).sum)

/-- `pend_job_cmp` would read through the null pointer of a job without a queue; here it has 0. -/
def queuePriority (conf : Conf) (job : JobData) : Int :=
  match job.queue.bind conf.findQueue with
  | some q => q.priority
  | none => 0

/-- The differences are those of 32-bit integers, which wrap. -/
def pendJobCmp (conf : Conf) (m : MbdState) (a b : JobId) : Int :=
  match m.jobs a, m.jobs b with
  | some ja, some jb =>
    let byQueue := toInt32 (queuePriority conf jb - queuePriority conf ja)
    let byJob := toInt32 (jb.priority - ja.priority)
    if byQueue ≠ 0 then byQueue
    else if byJob ≠ 0 then byJob
    else if ja.jobId < jb.jobId then -1
    else if jb.jobId < ja.jobId then 1
    else 0
  | _, _ => 0

/-- The entries of the buffer the pending list is sorted in. -/
def schedSortBufMax : Nat := 131072

/-- The fullest host first. -/
def hostPlanCmp (m : MbdState) (a b : HostName) : Int :=
  (m.hosts a).freeCpu - (m.hosts b).freeCpu

def jobIsReady (now : Time) (job : JobData) : Bool :=
  job.state = .pending && !(decide (0 < job.beginTime) && decide (now < job.beginTime))

/-- Every entry is compared with the pool on its own. -/
def tokensAvailable (conf : Conf) (m : MbdState) (job : JobData) : Bool :=
  job.res.tokens.all fun t =>
    match conf.findPool t.name with
    | some _ => decide (t.count ≤ m.pools t.name)
    | none => false

def depJobCheck (job : JobData) : DepType → Bool
  | .done => job.state = .done
  | .exit => job.state = .exited
  | .ended => job.state.isFinished
  | _ => false

def arrayHasMember (m : MbdState) (l : List JobId) (arrayId : JobId) : Bool :=
  l.any fun j =>
    match m.jobs j with
    | some job => job.arrayId = arrayId
    | none => false

def depArrayCheck (m : MbdState) (arrayId : JobId) (type : DepType) : Bool :=
  !arrayHasMember m m.pend arrayId && !arrayHasMember m m.run arrayId &&
    m.finish.all fun j =>
      match m.jobs j with
      | some job => job.arrayId ≠ arrayId || depJobCheck job type
      | none => true

def depCallEval (m : MbdState) (type : DepType) (jobId : JobId) : Bool :=
  match m.jobs jobId with
  | none => false
  | some job =>
    if job.arrayId ≠ 0 ∧ job.arrayId = job.jobId then depArrayCheck m job.arrayId type
    else depJobCheck job type

/-- `job_dep_satisfied`; `none` is an access outside the evaluation stack. -/
def jobDepSatisfied (m : MbdState) (job : JobData) : Option Bool :=
  if job.deps.isEmpty then some true
  else depListEval (depCallEval m) job.deps

/-! ### The host plan -/

/-- The refusals of `host_meets_requirements`, in the order of its tests. -/
inductive HostRefusal where
  | notCandidate
  | exclusive
  | noCpus
  | noMem
  | noStorage
  | noGpus
  | gpuModel
  deriving DecidableEq, Repr

/-- The number of free devices, or 0 when there are too few. -/
def hostHasGpuCount (h : HostData) (job : JobData) : Nat :=
  if job.res.numGpus ≤ gpuIdsCountFree h.gpus then gpuIdsCountFree h.gpus else 0

/-- `host_meets_requirements`: `none` when the host will do. -/
def hostRefusal (hc : HostConf) (h : HostData) (job : JobData) : Option HostRefusal :=
  if !h.candidate then some .notCandidate
  else if h.exclusive then some .exclusive
  else if job.flags.exclusive ∧ h.numJobs > 0 then some .exclusive
  else if h.freeCpu < job.res.numCpus then some .noCpus
  else if h.freeMemMb < job.res.memMb then some .noMem
  else if h.freeStorageMb < job.res.storageMb then some .noStorage
  else if job.res.numGpus > 0 ∧ hostHasGpuCount h job = 0 then some .noGpus
  else if job.res.gpuModel ≠ "" ∧ (hc.gpuModel ≠ job.res.gpuModel ∨ hostHasGpuCount h job = 0) then
    some .gpuModel
  else none

/-- A host of the configuration that will do for the job. -/
def hostMeetsRequirements (conf : Conf) (m : MbdState) (job : JobData) (h : HostName) : Bool :=
  match conf.findHost h with
  | some hc => (hostRefusal hc (m.hosts h) job).isNone
  | none => false

def hostsLen (plan : List HostName) : Nat :=
  (plan.map fun h => h.toList.length + 16).sum

/-- Every named machine has to be available. -/
def buildHostPlanMachines (conf : Conf) (m : MbdState) (job : JobData) (queue : QueueName) :
    Option (List HostName) :=
  let plan := (conf.hashOrder job.res.machines).filter fun h =>
    conf.queueHasHost queue h && hostMeetsRequirements conf m job h
  if plan.length < job.res.machines.length then none
  else if 8192 ≤ hostsLen plan then none
  else some plan

def buildHostPlan (conf : Conf) (m : MbdState) (job : JobData) (queue : QueueName) :
    Option (List HostName) :=
  if job.res.machines.length > 0 then buildHostPlanMachines conf m job queue
  else
    let usable := conf.hostNames.filter fun h =>
      conf.queueHasHost queue h && hostMeetsRequirements conf m job h
    if (usable.length : Int) < job.res.numHosts then none
    else
      let plan := (conf.qsortHosts (hostPlanCmp m) usable).take job.res.numHosts.toNat
      if 8192 ≤ hostsLen plan then none else some plan

/-- The most specific refusal met while planning. -/
def diagReason (refusals : List HostRefusal) : PendReason :=
  if refusals.contains .exclusive then .hostExclusive
  else if refusals.contains .gpuModel then .gpuModel
  else if refusals.contains .noGpus then .notEnoughGpus
  else if refusals.contains .noMem then .notEnoughMem
  else if refusals.contains .noStorage then .notEnoughStorage
  else if refusals.contains .noCpus then .notEnoughCpus
  else .noHosts

/-- The refusals counted while the plan of a job was built. -/
def planRefusals (conf : Conf) (m : MbdState) (job : JobData) (queue : QueueName) :
    List HostRefusal :=
  let considered :=
    if job.res.machines.length > 0 then conf.hashOrder job.res.machines else conf.hostNames
  (considered.filter (conf.queueHasHost queue)).filterMap fun h =>
    (conf.findHost h).bind fun hc => hostRefusal hc (m.hosts h) job

/-! ### Dispatch -/

/-- The message `mbd_dispatch_job` fills from the job and the plan. -/
def wireJobStart (job : JobData) (queue : QueueName) : WireJobStart :=
  { jobId := job.jobId
    uid := job.uid
    gid := job.gid
    termTime := job.termTime
    gpusPerHost := job.res.numGpus
    ncpus := job.res.numCpus
    memMb := job.res.memMb
    jobName := job.name
    queue := queue
    username := job.user
    gpuModel := job.res.gpuModel
    hosts := job.hosts
    gpuAssigned := if job.res.numGpus > 0 then job.gpuAssigned else "" }

/-- The device assignment of `mbd_dispatch_job`, on the first host only. -/
def assignDevices (m : MbdState) (j : JobId) (job : JobData) (h : HostName) :
    Option (MbdState × JobData) :=
  if job.res.numGpus > 0 then do
    let (gpus, text) ← buildGpuAssignedStr (m.hosts h).gpus job.res.numGpus
    let job := { job with gpuAssigned := text }
    some ((m.modifyHost h fun host => { host with gpus := gpus }).setJob j job, job)
  else some (m, job)

/--
The result says whether the job was dispatched. The devices are marked before the
message is queued.
-/
def mbdDispatchJob (m : MbdState) (now : Time) (j : JobId) (job : JobData) (queue : QueueName)
    (sendOk : Bool) : Option (MbdState × Option JobData) := do
  let h ← job.runHosts.head?
  if (m.hosts h).sbdChan ≤ 0 then none
  else
    let (m, job) ← assignDevices m j job h
    if sendOk then
      let m := m.send h (.newJob (wireJobStart job queue))
      let job := { job with
        dispatchTime := now
        state := .running }
      let m := m.log (eventJobStart job)
      some (m.jobMoveList j job .pend .run, some { job with listId := .run })
    else some (m, none)

def chargeHost (job : JobData) (h : HostData) : HostData :=
  { h with
    freeCpu := h.freeCpu - job.res.numCpus
    freeMemMb := subU64 h.freeMemMb job.res.memMb
    freeStorageMb := subU64 h.freeStorageMb job.res.storageMb
    numJobs := h.numJobs + 1
    numRun := h.numRun + 1
    numCpusUsed := h.numCpusUsed + job.res.numCpus
    candidate := if h.freeCpu - job.res.numCpus ≤ 0 then false else h.candidate
    exclusive := if job.flags.exclusive then true else h.exclusive }

def hostUpdateResources (m : MbdState) (job : JobData) : Option MbdState := do
  let hosts ← updateEach (fun h => some (chargeHost job h)) job.hosts m.hosts
  some { m with hosts := hosts }

def tokenAlloc (conf : Conf) (m : MbdState) (job : JobData) : MbdState :=
  { m with pools := changeTokens conf (-1) job.res.tokens m.pools }

def countDispatched (job : JobData) (c : QueueData) : QueueData :=
  { c with
    numRun := c.numRun + 1
    numPend := c.numPend - 1
    numCpusUsed := c.numCpusUsed + job.res.numCpus * job.runNhosts
    numHostsUsed := c.numHostsUsed + job.runNhosts }

def notePending (m : MbdState) (j : JobId) (job : JobData) (reason : PendReason) : MbdState :=
  m.setJob j { job with pendReason := reason }

/-- One turn of the loop of `schedule`: the state, the slots left, and whether to stop. -/
structure Turn where
  state : MbdState
  freeSlots : Int
  stop : Bool

def startPlanned (conf : Conf) (m : MbdState) (now : Time) (j : JobId) (job : JobData)
    (queue : QueueName) (plan : List HostName) (sendOk : Bool) (freeSlots : Int) :
    Option Turn := do
  let job := { job with
    runHosts := plan
    runNhosts := plan.length
    pendReason := .none }
  match ← mbdDispatchJob (m.setJob j job) now j job queue sendOk with
  | (m, none) => some ⟨m, freeSlots, false⟩
  | (m, some job) => do
      let m := jobDepsRefcnt m job (-1)
      let m ← hostUpdateResources m job
      let m := tokenAlloc conf m job
      let m := m.modifyQueue queue (countDispatched job)
      let freeSlots := freeSlots - job.res.numCpus * job.runNhosts
      some ⟨m, freeSlots, decide (freeSlots ≤ 0)⟩

def scheduleJob (conf : Conf) (now : Time) (sendOk : JobId → Bool) (m : MbdState) (j : JobId)
    (freeSlots : Int) : Option Turn := do
  let job ← m.jobs j
  if !jobIsReady now job then some ⟨notePending m j job .jobNotReady, freeSlots, false⟩
  else
    let queue ← job.queue
    if (m.queues queue).closed then some ⟨notePending m j job .queueClosed, freeSlots, false⟩
    else if !tokensAvailable conf m job then some ⟨notePending m j job .tokens, freeSlots, false⟩
    else
      let satisfied ← jobDepSatisfied m job
      if !satisfied then some ⟨notePending m j job .depend, freeSlots, false⟩
      else
        match buildHostPlan conf m job queue with
        | none =>
          some ⟨notePending m j job (diagReason (planRefusals conf m job queue)), freeSlots, false⟩
        | some plan => startPlanned conf m now j job queue plan (sendOk j) freeSlots

def scheduleLoop (conf : Conf) (now : Time) (sendOk : JobId → Bool) :
    List JobId → MbdState → Int → Option MbdState
  | [], m, _ => some m
  | j :: rest, m, freeSlots => do
      let turn ← scheduleJob conf now sendOk m j freeSlots
      if turn.stop then some turn.state
      else scheduleLoop conf now sendOk rest turn.state turn.freeSlots

/-- `schedule`; `none` is also a write behind the end of the buffer for the sort. -/
def schedule (conf : Conf) (m : MbdState) (now : Time) (sendOk : JobId → Bool) :
    Option MbdState :=
  if m.pend.isEmpty then some m
  else
    let (m, freeSlots) := markCandidates conf m
    if freeSlots = 0 then some m
    else if schedSortBufMax < m.pend.length then none
    else
      let sorted := conf.qsort (pendJobCmp conf m) m.pend
      scheduleLoop conf now sendOk sorted { m with pend := sorted } freeSlots

end LavaLite.Mbd
