import LavaLite.Batch.Dependency

/-
The vocabulary shared by the daemons: job states and flags, the submission request, the
messages between mbd and an sbd and the records of the manifest, with the fields they read.
-/

namespace LavaLite.Batch

abbrev JobId := Int
abbrev HostName := String
abbrev QueueName := String
abbrev PoolName := String

/-- A `time_t`; zero means "not set". -/
abbrev Time := Int

/-- The job states of `llbatch.h`. -/
inductive JobState where
  | pending
  | held
  | running
  | suspended
  | exited
  | done
  | orphan
  | broken
  | unknown
  deriving DecidableEq, Repr, Inhabited

def JobState.isFinished (s : JobState) : Bool :=
  s = .done || s = .exited

def JobState.isWaiting (s : JobState) : Bool :=
  s = .pending || s = .held

def JobState.isDispatched (s : JobState) : Bool :=
  s = .running || s = .suspended

structure JobFlags where
  exclusive : Bool
  hold : Bool
  array : Bool
  deriving DecidableEq, Repr, Inhabited

def JobFlags.none : JobFlags :=
  { exclusive := false
    hold := false
    array := false }

/-- The signals the job handlers tell apart, with their Linux numbers. -/
def sigInt : Int := 2
def sigKill : Int := 9
def sigTerm : Int := 15
def sigCont : Int := 18
def sigStop : Int := 19
def sigTstp : Int := 20

def isStopSignal (sig : Int) : Bool :=
  sig = sigStop || sig = sigTstp

inductive Status where
  | ok
  | einval
  | eperm
  | esrch
  | eagain
  | enoent
  | enomem
  | eio
  deriving DecidableEq, Repr

/--
`struct wire_job_submit`, without the fields that only go to the sidecar.  The
dependency text is a terminated string in an array of 4096 bytes.
-/
structure WireJobSubmit where
  name : String
  queue : QueueName
  project : String
  machines : String
  dependCond : String
  gpuModel : String
  username : String
  numCpus : Int
  numHosts : Int
  numGpus : Int
  memMb : Nat
  storageMb : Nat
  tokenpool : String
  flags : JobFlags
  beginTime : Time
  termTime : Time
  arrayStart : Int
  arrayEnd : Int
  arrayStride : Int
  dependCond_fits : dependCond.toList.length < 4096
  deriving DecidableEq, Repr

/-- `struct wire_job_start`, without what is read back from the sidecar files. -/
structure WireJobStart where
  jobId : JobId
  uid : Nat
  gid : Nat
  termTime : Time
  gpusPerHost : Int
  ncpus : Int
  memMb : Nat
  jobName : String
  queue : QueueName
  username : String
  gpuModel : String
  hosts : List HostName
  gpuAssigned : String
  deriving DecidableEq, Repr

inductive MbdMsg where
  | newJob (start : WireJobStart)
  | newJobReplyAck (jobId : JobId)
  | jobFinishAck (jobId : JobId)
  | jobSignal (jobId : JobId) (sig : Int)
  | registerAck (jobs : List (JobId × Int))
  deriving DecidableEq, Repr

inductive SbdMsg where
  /-- `BATCH_NEW_JOB_REPLY` with state `RUNNING`. -/
  | newJobReply (jobId : JobId) (pid : Int)
  /-- `BATCH_NEW_JOB_REPLY` with state `PENDING`: the job could not be started. -/
  | newJobReject (jobId : JobId)
  /-- `BATCH_JOB_FINISH`; `success` is `f.state == 0`. -/
  | jobFinish (jobId : JobId) (success : Bool) (exitStatus : Int)
  /-- `BATCH_SBD_JOB_SIGNAL_REPLY`; `ok` is `hdr->status == MBD_OK`. -/
  | signalReply (jobId : JobId) (sig : Int) (ok : Bool)
  | jobMissing (jobId : JobId)
  deriving DecidableEq, Repr

/-! ### The records of the manifest -/

structure LogJobNew where
  jobId : JobId
  arrayId : JobId
  arrayIndex : Int
  arrayStart : Int
  arrayEnd : Int
  arrayStride : Int
  uid : Nat
  gid : Nat
  state : JobState
  priority : Int
  submitTime : Time
  beginTime : Time
  termTime : Time
  numCpu : Int
  numHosts : Int
  numGpus : Int
  memMb : Nat
  storageMb : Nat
  flags : JobFlags
  username : String
  jobName : String
  queue : QueueName
  projectName : String
  gpuModel : String
  machines : String
  tokenpool : String
  dependCond : String
  deriving DecidableEq, Repr

/-- `struct log_job_start`; `hosts` is the list behind the space-separated text. -/
structure LogJobStart where
  jobId : JobId
  dispatchTime : Time
  nhosts : Int
  cpusPerHost : Int
  gpusPerHost : Int
  gpuModel : String
  gpuAssigned : String
  hosts : List HostName
  deriving DecidableEq, Repr

inductive Event where
  | jobNew (e : LogJobNew)
  | jobStart (e : LogJobStart)
  | jobFork (jobId : JobId) (pid : Int) (forkTime : Time)
  | jobSignal (jobId : JobId) (sig : Int) (uid : Nat) (signalTime : Time)
  | jobFinish (jobId : JobId) (uid : Nat) (state : JobState) (exitStatus : Int) (endTime : Time)
  | jobPendSusp (jobId : JobId) (eventTime : Time)
  | jobPendResume (jobId : JobId) (eventTime : Time)
  | jobSusp (jobId : JobId) (eventTime : Time)
  | jobMove (jobId : JobId) (eventTime : Time) (fromQueue toQueue : QueueName)
  | jobPriority (jobId : JobId) (eventTime : Time) (oldPriority newPriority : Int)
  | jobPend (jobId : JobId) (eventTime : Time)
  deriving DecidableEq, Repr

end LavaLite.Batch
