import LavaLite.Batch.LogReading
import LavaLite.Mbd.Sched

/-
The other half of `events.c`: replaying the manifest when mbd starts, rebuilding
the counters from the lists, and rewriting the manifest when enough jobs have
finished.
-/

namespace LavaLite.Mbd

open Base Batch Kernel Function

/-! ### Starting up -/

/-- A host as `make_host` leaves it; `closed` comes from the host's state file. -/
def makeHost (hc : HostConf) (closed : Bool) : HostData :=
  { freeCpu := hc.totalCpu
    freeMemMb := hc.totalMemMb
    freeStorageMb := hc.totalStorageMb
    gpus := hc.gpuIds.map fun id => { id := id, inUse := false }
    status := { closed := closed, unavail := true }
    candidate := false
    exclusive := false
    numJobs := 0
    numRun := 0
    numSusp := 0
    sbdChan := -1
    numCpusUsed := 0 }

/--
What `host_state_init` and `queue_state_init` find of a state file: the entries of the
directory that begin with a dot are passed over.
-/
def readBack (marked : String → Bool) (name : String) : Bool :=
  marked name && name.toList.head? != some '.'

def makeQueue (closed : Bool) : QueueData :=
  { numJobs := 0
    numPend := 0
    numRun := 0
    numSusp := 0
    numHeld := 0
    closed := closed
    numCpusUsed := 0
    numHostsUsed := 0 }

/-- What a name that is not configured stands for; no handler looks at it. -/
def noHost : HostConf :=
  { name := ""
    totalCpu := 0
    totalMemMb := 0
    totalStorageMb := 0
    gpuModel := ""
    gpuIds := [] }

def Conf.hostConf (conf : Conf) (h : HostName) : HostConf :=
  (conf.findHost h).getD noHost

def Conf.poolTotal (conf : Conf) (p : PoolName) : Int :=
  match conf.findPool p with
  | some pc => pc.total
  | none => 0

/-- mbd after `conf_init` and the state files, and before the replay. -/
def initialState (conf : Conf) (marks : ClosedMarks) (manifest : List Event)
    (seqFile : JobId) : MbdState :=
  { jobIdSeq := 0
    jobs := fun _ => none
    depRefcnt := fun _ => 0
    arrayElementCnt := fun _ => 0
    pend := []
    run := []
    finish := []
    hosts := fun h => makeHost (conf.hostConf h) (readBack marks.hosts h)
    queues := fun q => makeQueue (readBack marks.queues q)
    pools := conf.poolTotal
    manifest := manifest
    seqFile := seqFile
    marks := marks
    outbox := [] }

/-! ### Replaying one record -/

/--
`replay_alloc`: `none` when the host count is negative, for which `calloc` fails
and the record is dropped.  The token pool text and the machines text of the
record are not put back on the job.
-/
def replayAlloc (conf : Conf) (e : LogJobNew) : Option JobData :=
  let machines := machinesHashPopulate conf e.machines
  let numHosts := settledHosts machines e.numHosts
  let queue := (conf.findQueue e.queue).map QueueConf.name
  let (deps, dependCond) :=
    match jobDepsSet none e.dependCond with
    | .ok found => found
    | .error _ => ([], "")
  if numHosts < 0 then none
  else
    some
      { jobId := e.jobId
        uid := e.uid
        gid := e.gid
        pid := 0
        user := strlcpy 64 e.username
        state := if queue.isSome then e.state else .orphan
        exitStatus := 0
        priority := e.priority
        submitTime := e.submitTime
        dispatchTime := 0
        forkTime := 0
        endTime := 0
        beginTime := e.beginTime
        termTime := e.termTime
        signalTime := 0
        queue := queue
        project := strlcpy 256 e.projectName
        name := strlcpy 64 e.jobName
        flags := e.flags
        listId := .pend
        pendReason := .none
        deps := deps
        dependCond := dependCond
        res :=
          { numCpus := e.numCpu
            numHosts := numHosts
            numGpus := e.numGpus
            gpuModel := strlcpy 256 e.gpuModel
            memMb := e.memMb
            storageMb := e.storageMb
            machinesStr := ""
            machines := machines
            tokenpoolStr := ""
            tokens := [] }
        runNhosts := 0
        runHosts := []
        gpuAssigned := ""
        arrayId := e.arrayId
        arrayIndex := e.arrayIndex
        arrayStart := e.arrayStart
        arrayEnd := e.arrayEnd
        arrayStride := e.arrayStride }

/--
`replay_job_new` and `replay_insert`.  A second record for an id would put a job
on the pending list that the table does not know, and the C code goes on with both
jobs: the model has no such state and answers `none`.
-/
def replayJobNew (conf : Conf) (m : MbdState) (e : LogJobNew) : Option MbdState :=
  match replayAlloc conf e with
  | none => some m
  | some job =>
    if (m.jobs e.jobId).isSome then none
    else
      some { m.setJob e.jobId job with
        pend := m.pend ++ [e.jobId]
        depRefcnt := update m.depRefcnt e.jobId 0
        arrayElementCnt := update m.arrayElementCnt e.jobId 0 }

/-- What the loop of `replay_set_run_hosts` ends with. -/
inductive RunHostsResult where
  | set (job : JobData)
  | unknownHost (job : JobData)
  deriving DecidableEq, Repr

/--
The loop of `replay_set_run_hosts`.  `none` is a write past the end of the
`run_hosts` array, an unset queue, or the failed assertion on the host count.
-/
def replaySetRunHosts (conf : Conf) (nhosts : Int) : List HostName → JobData → Option RunHostsResult
  | [], job => if (job.runNhosts : Int) = nhosts then some (.set job) else none
  | h :: rest, job =>
    match job.queue with
    | none => none
    | some queue =>
      if conf.queueHasHost queue h then
        if nhosts ≤ (job.runNhosts : Int) then
          if (job.runNhosts : Int) = nhosts then some (.set job) else none
        else if (job.runNhosts : Int) < job.res.numHosts then
          replaySetRunHosts conf nhosts rest
            { job with
              runHosts := job.runHosts.take job.runNhosts ++
                h :: job.runHosts.drop (job.runNhosts + 1)
              runNhosts := job.runNhosts + 1 }
        else none
      else some (.unknownHost job)

def replayJobStart (conf : Conf) (m : MbdState) (e : LogJobStart) : Option MbdState :=
  match m.jobs e.jobId with
  | none => some m
  | some job =>
    if job.state = .orphan then some m
    else
      match replaySetRunHosts conf e.nhosts e.hosts job with
      | none => none
      | some (.unknownHost job) => some (m.setJob e.jobId { job with state := .broken })
      | some (.set job) =>
        some (m.jobMoveList e.jobId
          { job with
            state := .running
            dispatchTime := e.dispatchTime
            gpuAssigned := strlcpy 64 e.gpuAssigned } .pend .run)

def replayJobFinish (m : MbdState) (j : JobId) (uid : Nat) (state : JobState)
    (exitStatus : Int) (endTime : Time) : MbdState :=
  match m.jobs j with
  | none => m
  | some job =>
    let source : ListId := if job.listId = .run then .run else .pend
    let job := { job with
      state := state
      exitStatus := exitStatus
      uid := uid
      endTime := endTime }
    jobArrayElementFinished (m.jobMoveList j job source .finish) job

def replayJobPend (m : MbdState) (j : JobId) : Option MbdState :=
  match m.jobs j with
  | none => some m
  | some job =>
    if job.listId = .run then
      some (m.jobMoveList j
        { job with
          pid := 0
          forkTime := 0
          dispatchTime := 0
          state := .pending
          runNhosts := 0 } .run .pend)
    else none

def replayEvent (conf : Conf) (m : MbdState) (e : Event) : Option MbdState :=
  match e with
  | .jobNew e => replayJobNew conf m e
  | .jobStart e => replayJobStart conf m e
  | .jobFork j pid forkTime =>
    match m.jobs j with
    | none => some m
    | some job => some (m.setJob j { job with pid := pid, forkTime := forkTime })
  | .jobSignal j _ _ signalTime =>
    match m.jobs j with
    | none => some m
    | some job => some (m.setJob j { job with signalTime := signalTime })
  | .jobFinish j uid state exitStatus endTime =>
    some (replayJobFinish m j uid state exitStatus endTime)
  | .jobPendSusp j _ =>
    match m.jobs j with
    | none => some m
    | some job =>
      if job.state = .pending then some (m.setJob j { job with state := .held }) else none
  | .jobPendResume j _ =>
    match m.jobs j with
    | none => some m
    | some job =>
      if job.state = .held then some (m.setJob j { job with state := .pending }) else none
  | .jobSusp j _ =>
    match m.jobs j with
    | none => some m
    | some job => some (m.setJob j { job with state := .suspended })
  | .jobMove j _ _ toQueue =>
    match m.jobs j with
    | none => some m
    | some job =>
      match conf.findQueue toQueue with
      | none => some (m.setJob j { job with state := .orphan })
      | some q => some (m.setJob j { job with queue := some q.name })
  | .jobPriority j _ _ newPriority =>
    match m.jobs j with
    | none => some m
    | some job => some (m.setJob j { job with priority := newPriority })
  | .jobPend j _ => replayJobPend m j

def replayEvents (conf : Conf) : List Event → MbdState → Option MbdState
  | [], m => some m
  | e :: rest, m =>
    match replayEvent conf m e with
    | none => none
    | some m => replayEvents conf rest m

def maxId (events : List Event) : JobId :=
  events.foldl
    (fun best e =>
      match e with
      | .jobNew e => max best e.jobId
      | _ => best)
    0

/-! ### Rebuilding the counters -/

def countPending (job : JobData) (c : QueueData) : Option QueueData :=
  match job.state with
  | .held => some { c with numJobs := c.numJobs + 1, numHeld := c.numHeld + 1 }
  | .pending | .broken | .orphan =>
    some { c with numJobs := c.numJobs + 1, numPend := c.numPend + 1 }
  | _ => none

def countRunning (job : JobData) (c : QueueData) : Option QueueData :=
  let used := { c with
    numJobs := c.numJobs + 1
    numCpusUsed := c.numCpusUsed + job.res.numCpus * job.runNhosts
    numHostsUsed := c.numHostsUsed + job.runNhosts }
  match job.state with
  | .running => some { used with numRun := c.numRun + 1 }
  | .suspended => some { used with numSusp := c.numSusp + 1 }
  | _ => none

def recoveredGpus (job : JobData) (gpus : List GpuId) : Option (List GpuId) :=
  if job.res.numGpus > 0 then gpuIdsMarkInuse gpus job.res.numGpus else some gpus

/-- `replay_charge_running_job` for one host. -/
def replayChargeHost (job : JobData) (h : HostData) : Option HostData := do
  let gpus ← recoveredGpus job h.gpus
  some { h with
    freeCpu := h.freeCpu - job.res.numCpus
    freeMemMb := subU64 h.freeMemMb job.res.memMb
    freeStorageMb := subU64 h.freeStorageMb job.res.storageMb
    numJobs := h.numJobs + 1
    numCpusUsed := h.numCpusUsed + job.res.numCpus
    numSusp := if job.state = .suspended then h.numSusp + 1 else h.numSusp
    numRun := if job.state = .suspended then h.numRun else h.numRun + 1
    exclusive := if job.flags.exclusive then true else h.exclusive
    gpus := gpus }

def rebuildPending (m : MbdState) (j : JobId) : Option MbdState := do
  let job ← m.jobs j
  let q ← job.queue
  let c ← countPending job (m.queues q)
  some { m with queues := update m.queues q c }

def rebuildRunning (conf : Conf) (m : MbdState) (j : JobId) : Option MbdState := do
  let job ← m.jobs j
  let q ← job.queue
  let c ← countRunning job (m.queues q)
  let hosts ← updateEach (replayChargeHost job) job.hosts m.hosts
  some (tokenAlloc conf
    { m with
      queues := update m.queues q c
      hosts := hosts } job)

/-- The third loop: the holds of the pending jobs. -/
def rebuildHolds (m : MbdState) (j : JobId) : MbdState :=
  match m.jobs j with
  | some job => jobDepsRefcnt m job 1
  | none => m

/-- The last two loops: the elements of every array that have not finished. -/
def rebuildElements (m : MbdState) (j : JobId) : MbdState :=
  match m.jobs j with
  | some job =>
    { m with
      arrayElementCnt :=
        if job.arrayId ≠ 0 ∧ (m.jobs job.arrayId).isSome then
          update m.arrayElementCnt job.arrayId (m.arrayElementCnt job.arrayId + 1)
        else m.arrayElementCnt }
  | none => m

/-- Nothing before it has touched a counter, so the reset it begins with changes nothing. -/
def replayRebuildCounters (conf : Conf) (m : MbdState) : Option MbdState := do
  let m ← forEachJob rebuildPending m.pend m
  let m ← forEachJob (rebuildRunning conf) m.run m
  let m := m.pend.foldl rebuildHolds m
  some ((m.pend ++ m.run).foldl rebuildElements m)

/-- `jobs_replay` on the records that were read from the manifest. -/
def replayRecords (conf : Conf) (marks : ClosedMarks) (records manifest : List Event)
    (seqFile : JobId) : Option MbdState := do
  let m ← replayEvents conf records (initialState conf marks manifest seqFile)
  replayRebuildCounters conf { m with jobIdSeq := max (maxId records) seqFile }

/-- From the text of the manifest and the sequence file. -/
def jobsReplay (conf : Conf) (marks : ClosedMarks) (manifest : List Event) (seqFile : JobId) :
    Option MbdState :=
  replayRecords conf marks (readManifest (manifestText manifest)) manifest seqFile

def Legible (m : MbdState) : Prop :=
  ∀ e ∈ m.manifest, Plain e

instance decidableLegible (m : MbdState) : Decidable (Legible m) :=
  inferInstanceAs (Decidable (∀ e ∈ m.manifest, Plain e))

/-- What `jobs_replay` makes of a manifest when it reads all of its records. -/
def recover (conf : Conf) (m : MbdState) : Option MbdState :=
  replayRecords conf m.marks m.manifest m.manifest m.seqFile

theorem Legible.jobsReplay {m : MbdState} (legible : Legible m) (conf : Conf) :
    Mbd.jobsReplay conf m.marks m.manifest m.seqFile = recover conf m := by
  rw [Mbd.jobsReplay, readManifest_manifestText legible]
  rfl

/-! ### Compaction -/

def retained (m : MbdState) (j : JobId) (job : JobData) : Bool :=
  decide (m.depRefcnt j > 0) ||
    (decide (job.arrayId = job.jobId) && decide (job.arrayId ≠ 0) &&
      decide (m.arrayElementCnt j > 0))

def keepFinished (m : MbdState) (j : JobId) : Bool :=
  match m.jobs j with
  | some job => retained m j job
  | none => false

def compactList (m : MbdState) (write : JobData → Option (List Event)) :
    List JobId → Option (List Event)
  | [] => some []
  | j :: rest => do
      let job ← m.jobs j
      let records ← write job
      let others ← compactList m write rest
      some (records ++ others)

/-- A fresh manifest, and the finished jobs nothing needs are freed. -/
def manifestRebuild (m : MbdState) : Option MbdState := do
  let kept := m.finish.filter (keepFinished m)
  let pending ← compactList m compactPending m.pend
  let running ← compactList m compactRunning m.run
  let finished ← compactList m compactWriteJobFinished kept
  some { m with
    finish := kept
    jobs := fun j => if j ∈ m.finish ∧ j ∉ kept then none else m.jobs j
    manifest := pending ++ running ++ finished }

def maybeRebuildManifest (conf : Conf) (m : MbdState) : Option MbdState :=
  if (m.finish.length : Int) < conf.finishThreshold then some m else manifestRebuild m

end LavaLite.Mbd
