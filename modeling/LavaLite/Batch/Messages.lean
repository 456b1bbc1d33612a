import LavaLite.Base.Protocol

/-
The messages on the wire: every structure with its fields, in the order its codec writes
them.  A text field is an array of fixed size that is sent whole; only the host and user
names of a queue are strings of their own.
-/

namespace LavaLite.Batch.Messages

open Base
open Kernel (Block Codec Fields)

/-- `char name[n]`. -/
abbrev CharArray (n : Nat) := Block UInt8 n

structure WireSbdJob where
  jobId : Int64
  pid : Int32

def xdrWireSbdJob : Codec UInt8 WireSbdJob :=
  Fields.start WireSbdJob.mk
    |>.field xdrInt64 WireSbdJob.jobId
    |>.field xdrInt32 WireSbdJob.pid
    |>.codec fun _ => rfl

/-- The number of jobs is the length of the array; the same in the other structures with arrays. -/
structure WireSbdRegister where
  hostname : CharArray 64
  jobs : CArray 16 WireSbdJob

def xdrWireSbdRegister : Codec UInt8 WireSbdRegister :=
  Fields.start WireSbdRegister.mk
    |>.field (xdrOpaque 64) WireSbdRegister.hostname
    |>.field (xdrArray 16 xdrWireSbdJob) WireSbdRegister.jobs
    |>.codec fun _ => rfl

structure WireJobState where
  jobId : Int64
  state : Int32

def xdrWireJobState : Codec UInt8 WireJobState :=
  Fields.start WireJobState.mk
    |>.field xdrInt64 WireJobState.jobId
    |>.field xdrInt32 WireJobState.state
    |>.codec fun _ => rfl

structure WireJobFinish where
  jobId : Int64
  state : Int32
  exitStatus : Int32
  pid : Int32
  memMb : UInt64
  swapMb : UInt64
  cpuTime : Double

def xdrWireJobFinish : Codec UInt8 WireJobFinish :=
  Fields.start WireJobFinish.mk
    |>.field xdrInt64 WireJobFinish.jobId
    |>.field xdrInt32 WireJobFinish.state
    |>.field xdrInt32 WireJobFinish.exitStatus
    |>.field xdrInt32 WireJobFinish.pid
    |>.field xdrUint64 WireJobFinish.memMb
    |>.field xdrUint64 WireJobFinish.swapMb
    |>.field xdrDouble WireJobFinish.cpuTime
    |>.codec fun _ => rfl

structure WireJobScript where
  data : Bytes

def xdrWireJobScript : Codec UInt8 WireJobScript :=
  Fields.start WireJobScript.mk
    |>.field xdrBytes WireJobScript.data
    |>.codec fun _ => rfl

/-- Without the user id, which mbd fills in from the header. -/
structure WireJobSig where
  jobId : Int64
  arrayIndex : Int32
  sig : Int32

def xdrWireJobSig : Codec UInt8 WireJobSig :=
  Fields.start WireJobSig.mk
    |>.field xdrInt64 WireJobSig.jobId
    |>.field xdrInt32 WireJobSig.arrayIndex
    |>.field xdrInt32 WireJobSig.sig
    |>.codec fun _ => rfl

structure WireJobSubmit where
  name : CharArray 256
  queue : CharArray 256
  project : CharArray 64
  comment : CharArray 1024
  machines : CharArray 4096
  inFile : CharArray 4096
  outFile : CharArray 4096
  errFile : CharArray 4096
  cwd : CharArray 4096
  dependCond : CharArray 4096
  command : CharArray 4096
  gpuModel : CharArray 256
  submitHost : CharArray 64
  username : CharArray 256
  homeDir : CharArray 4096
  numCpus : Int32
  numHosts : Int32
  numGpus : Int32
  memMb : UInt64
  storageMb : UInt64
  tokenpool : CharArray 256
  umask : UInt32
  flags : UInt32
  beginTime : Int64
  termTime : Int64
  suspTime : Int64
  resumeTime : Int64
  arrayStart : Int32
  arrayEnd : Int32
  arrayStride : Int32

def xdrWireJobSubmit : Codec UInt8 WireJobSubmit :=
  Fields.start (fun name queue project comment machines inFile outFile errFile cwd dependCond command
        gpuModel submitHost username homeDir tokenpool numCpus numHosts numGpus memMb storageMb
        umask flags beginTime termTime suspTime resumeTime arrayStart arrayEnd arrayStride =>
      { name, queue, project, comment, machines, inFile, outFile, errFile, cwd, dependCond,
        command, gpuModel, submitHost, username, homeDir, numCpus, numHosts, numGpus, memMb,
        storageMb, tokenpool, umask, flags, beginTime, termTime, suspTime, resumeTime, arrayStart,
        arrayEnd, arrayStride })
    |>.field (xdrOpaque 256) WireJobSubmit.name
    |>.field (xdrOpaque 256) WireJobSubmit.queue
    |>.field (xdrOpaque 64) WireJobSubmit.project
    |>.field (xdrOpaque 1024) WireJobSubmit.comment
    |>.field (xdrOpaque 4096) WireJobSubmit.machines
    |>.field (xdrOpaque 4096) WireJobSubmit.inFile
    |>.field (xdrOpaque 4096) WireJobSubmit.outFile
    |>.field (xdrOpaque 4096) WireJobSubmit.errFile
    |>.field (xdrOpaque 4096) WireJobSubmit.cwd
    |>.field (xdrOpaque 4096) WireJobSubmit.dependCond
    |>.field (xdrOpaque 4096) WireJobSubmit.command
    |>.field (xdrOpaque 256) WireJobSubmit.gpuModel
    |>.field (xdrOpaque 64) WireJobSubmit.submitHost
    |>.field (xdrOpaque 256) WireJobSubmit.username
    |>.field (xdrOpaque 4096) WireJobSubmit.homeDir
    |>.field (xdrOpaque 256) WireJobSubmit.tokenpool
    |>.field xdrInt32 WireJobSubmit.numCpus
    |>.field xdrInt32 WireJobSubmit.numHosts
    |>.field xdrInt32 WireJobSubmit.numGpus
    |>.field xdrUint64 WireJobSubmit.memMb
    |>.field xdrUint64 WireJobSubmit.storageMb
    |>.field xdrUint32 WireJobSubmit.umask
    |>.field xdrUint32 WireJobSubmit.flags
    |>.field xdrInt64 WireJobSubmit.beginTime
    |>.field xdrInt64 WireJobSubmit.termTime
    |>.field xdrInt64 WireJobSubmit.suspTime
    |>.field xdrInt64 WireJobSubmit.resumeTime
    |>.field xdrInt32 WireJobSubmit.arrayStart
    |>.field xdrInt32 WireJobSubmit.arrayEnd
    |>.field xdrInt32 WireJobSubmit.arrayStride
    |>.codec fun _ => rfl

structure WireJobSubmitReply where
  jobId : Int64

def xdrWireJobSubmitReply : Codec UInt8 WireJobSubmitReply :=
  Fields.start WireJobSubmitReply.mk
    |>.field xdrInt64 WireJobSubmitReply.jobId
    |>.codec fun _ => rfl

structure WireJobInfoReq where
  jobId : Int64
  flags : Int32

def xdrWireJobInfoReq : Codec UInt8 WireJobInfoReq :=
  Fields.start WireJobInfoReq.mk
    |>.field xdrInt64 WireJobInfoReq.jobId
    |>.field xdrInt32 WireJobInfoReq.flags
    |>.codec fun _ => rfl

structure WireJobInfo where
  jobId : Int64
  arrayId : Int64
  arrayIndex : Int32
  uid : UInt32
  pid : Int32
  state : Int32
  exitStatus : Int32
  priority : Int32
  pendReason : Int32
  submitTime : Int64
  dispatchTime : Int64
  endTime : Int64
  suspTime : Int64
  name : CharArray 64
  queue : CharArray 64
  submitHost : CharArray 64
  runHosts : CharArray 4096
  comment : CharArray 512

def xdrWireJobInfo : Codec UInt8 WireJobInfo :=
  Fields.start WireJobInfo.mk
    |>.field xdrInt64 WireJobInfo.jobId
    |>.field xdrInt64 WireJobInfo.arrayId
    |>.field xdrInt32 WireJobInfo.arrayIndex
    |>.field xdrUint32 WireJobInfo.uid
    |>.field xdrInt32 WireJobInfo.pid
    |>.field xdrInt32 WireJobInfo.state
    |>.field xdrInt32 WireJobInfo.exitStatus
    |>.field xdrInt32 WireJobInfo.priority
    |>.field xdrInt32 WireJobInfo.pendReason
    |>.field xdrInt64 WireJobInfo.submitTime
    |>.field xdrInt64 WireJobInfo.dispatchTime
    |>.field xdrInt64 WireJobInfo.endTime
    |>.field xdrInt64 WireJobInfo.suspTime
    |>.field (xdrOpaque 64) WireJobInfo.name
    |>.field (xdrOpaque 64) WireJobInfo.queue
    |>.field (xdrOpaque 64) WireJobInfo.submitHost
    |>.field (xdrOpaque 4096) WireJobInfo.runHosts
    |>.field (xdrOpaque 512) WireJobInfo.comment
    |>.codec fun _ => rfl

structure WireJobInfoArray where
  jobs : CArray 4880 WireJobInfo

def xdrWireJobInfoArray : Codec UInt8 WireJobInfoArray :=
  Fields.start WireJobInfoArray.mk
    |>.field (xdrArray 4880 xdrWireJobInfo) WireJobInfoArray.jobs
    |>.codec fun _ => rfl

structure WireJobStart where
  jobId : Int64
  uid : UInt32
  gid : UInt32
  umask : UInt32
  jobName : CharArray 256
  queue : CharArray 64
  username : CharArray 64
  homeDir : CharArray 4096
  cwd : CharArray 4096
  command : CharArray 512
  inFile : CharArray 4096
  outFile : CharArray 4096
  errFile : CharArray 4096
  hosts : CharArray 8192
  termTime : Int64
  gpusPerHost : Int32
  ncpus : Int32
  memMb : UInt64
  gpuModel : CharArray 64
  gpuAssigned : CharArray 64
  script : WireJobScript

def xdrWireJobStart : Codec UInt8 WireJobStart :=
  Fields.start (fun jobId uid gid umask jobName queue username homeDir cwd command inFile outFile errFile
        hosts termTime gpusPerHost ncpus memMb gpuModel script gpuAssigned =>
      { jobId, uid, gid, umask, jobName, queue, username, homeDir, cwd, command, inFile, outFile,
        errFile, hosts, termTime, gpusPerHost, ncpus, memMb, gpuModel, gpuAssigned, script })
    |>.field xdrInt64 WireJobStart.jobId
    |>.field xdrUint32 WireJobStart.uid
    |>.field xdrUint32 WireJobStart.gid
    |>.field xdrUint32 WireJobStart.umask
    |>.field (xdrOpaque 256) WireJobStart.jobName
    |>.field (xdrOpaque 64) WireJobStart.queue
    |>.field (xdrOpaque 64) WireJobStart.username
    |>.field (xdrOpaque 4096) WireJobStart.homeDir
    |>.field (xdrOpaque 4096) WireJobStart.cwd
    |>.field (xdrOpaque 512) WireJobStart.command
    |>.field (xdrOpaque 4096) WireJobStart.inFile
    |>.field (xdrOpaque 4096) WireJobStart.outFile
    |>.field (xdrOpaque 4096) WireJobStart.errFile
    |>.field (xdrOpaque 8192) WireJobStart.hosts
    |>.field xdrInt64 WireJobStart.termTime
    |>.field xdrInt32 WireJobStart.gpusPerHost
    |>.field xdrInt32 WireJobStart.ncpus
    |>.field xdrUint64 WireJobStart.memMb
    |>.field (xdrOpaque 64) WireJobStart.gpuModel
    |>.field xdrWireJobScript WireJobStart.script
    |>.field (xdrOpaque 64) WireJobStart.gpuAssigned
    |>.codec fun _ => rfl

structure WireJobReply where
  jobId : Int64
  pid : Int32
  pgid : Int32
  state : Int32

def xdrWireJobReply : Codec UInt8 WireJobReply :=
  Fields.start WireJobReply.mk
    |>.field xdrInt64 WireJobReply.jobId
    |>.field xdrInt32 WireJobReply.pid
    |>.field xdrInt32 WireJobReply.pgid
    |>.field xdrInt32 WireJobReply.state
    |>.codec fun _ => rfl

structure WireHostInfo where
  name : CharArray 64
  state : Int32
  totalCpu : Int32
  freeCpu : Int32
  totalGpu : Int32
  freeGpu : Int32
  totalMemMb : UInt64
  freeMemMb : UInt64
  totalStorageMb : UInt64
  freeStorageMb : UInt64
  numJobs : Int32
  numRun : Int32
  numSusp : Int32
  gpuModel : CharArray 64
  gpuIds : CharArray 64

def xdrWireHostInfo : Codec UInt8 WireHostInfo :=
  Fields.start WireHostInfo.mk
    |>.field (xdrOpaque 64) WireHostInfo.name
    |>.field xdrInt32 WireHostInfo.state
    |>.field xdrInt32 WireHostInfo.totalCpu
    |>.field xdrInt32 WireHostInfo.freeCpu
    |>.field xdrInt32 WireHostInfo.totalGpu
    |>.field xdrInt32 WireHostInfo.freeGpu
    |>.field xdrUint64 WireHostInfo.totalMemMb
    |>.field xdrUint64 WireHostInfo.freeMemMb
    |>.field xdrUint64 WireHostInfo.totalStorageMb
    |>.field xdrUint64 WireHostInfo.freeStorageMb
    |>.field xdrInt32 WireHostInfo.numJobs
    |>.field xdrInt32 WireHostInfo.numRun
    |>.field xdrInt32 WireHostInfo.numSusp
    |>.field (xdrOpaque 64) WireHostInfo.gpuModel
    |>.field (xdrOpaque 64) WireHostInfo.gpuIds
    |>.codec fun _ => rfl

structure WireHostInfoArray where
  hosts : CArray 264 WireHostInfo

def xdrWireHostInfoArray : Codec UInt8 WireHostInfoArray :=
  Fields.start WireHostInfoArray.mk
    |>.field (xdrArray 264 xdrWireHostInfo) WireHostInfoArray.hosts
    |>.codec fun _ => rfl

structure WireHostAdmin where
  name : CharArray 64
  op : Int32

def xdrWireHostAdmin : Codec UInt8 WireHostAdmin :=
  Fields.start WireHostAdmin.mk
    |>.field (xdrOpaque 64) WireHostAdmin.name
    |>.field xdrInt32 WireHostAdmin.op
    |>.codec fun _ => rfl

structure WireQueueInfo where
  name : CharArray 64
  description : CharArray 256
  hosts : CArray 8 CString
  users : CArray 8 CString
  priority : Int32
  maxJobs : Int32
  numJobs : Int32
  numPend : Int32
  numRun : Int32
  numSusp : Int32
  numHeld : Int32
  numCpusUsed : Int32
  numHostsUsed : Int32
  status : Int32

def xdrWireQueueInfo : Codec UInt8 WireQueueInfo :=
  Fields.start WireQueueInfo.mk
    |>.field (xdrOpaque 64) WireQueueInfo.name
    |>.field (xdrOpaque 256) WireQueueInfo.description
    |>.field (xdrArray 8 xdrWrapstring) WireQueueInfo.hosts
    |>.field (xdrArray 8 xdrWrapstring) WireQueueInfo.users
    |>.field xdrInt32 WireQueueInfo.priority
    |>.field xdrInt32 WireQueueInfo.maxJobs
    |>.field xdrInt32 WireQueueInfo.numJobs
    |>.field xdrInt32 WireQueueInfo.numPend
    |>.field xdrInt32 WireQueueInfo.numRun
    |>.field xdrInt32 WireQueueInfo.numSusp
    |>.field xdrInt32 WireQueueInfo.numHeld
    |>.field xdrInt32 WireQueueInfo.numCpusUsed
    |>.field xdrInt32 WireQueueInfo.numHostsUsed
    |>.field xdrInt32 WireQueueInfo.status
    |>.codec fun _ => rfl

structure WireQueueAdmin where
  name : CharArray 64
  op : Int32

def xdrWireQueueAdmin : Codec UInt8 WireQueueAdmin :=
  Fields.start WireQueueAdmin.mk
    |>.field (xdrOpaque 64) WireQueueAdmin.name
    |>.field xdrInt32 WireQueueAdmin.op
    |>.codec fun _ => rfl

structure WireQueueInfoArray where
  queues : CArray 392 WireQueueInfo

def xdrWireQueueInfoArray : Codec UInt8 WireQueueInfoArray :=
  Fields.start WireQueueInfoArray.mk
    |>.field (xdrArray 392 xdrWireQueueInfo) WireQueueInfoArray.queues
    |>.codec fun _ => rfl

structure WireGroupInfo where
  name : CharArray 64
  numMembers : Int32
  members : CharArray 1024

def xdrWireGroupInfo : Codec UInt8 WireGroupInfo :=
  Fields.start WireGroupInfo.mk
    |>.field (xdrOpaque 64) WireGroupInfo.name
    |>.field xdrInt32 WireGroupInfo.numMembers
    |>.field (xdrOpaque 1024) WireGroupInfo.members
    |>.codec fun _ => rfl

structure WireGroupInfoArray where
  groups : CArray 1092 WireGroupInfo

def xdrWireGroupInfoArray : Codec UInt8 WireGroupInfoArray :=
  Fields.start WireGroupInfoArray.mk
    |>.field (xdrArray 1092 xdrWireGroupInfo) WireGroupInfoArray.groups
    |>.codec fun _ => rfl

structure WireJobAck where
  jobId : Int64
  ackOp : Int32

def xdrWireJobAck : Codec UInt8 WireJobAck :=
  Fields.start WireJobAck.mk
    |>.field xdrInt64 WireJobAck.jobId
    |>.field xdrInt32 WireJobAck.ackOp
    |>.codec fun _ => rfl

structure WireTokenInfo where
  name : CharArray 64
  total : Int32
  free : Int32

def xdrWireTokenInfo : Codec UInt8 WireTokenInfo :=
  Fields.start WireTokenInfo.mk
    |>.field (xdrOpaque 64) WireTokenInfo.name
    |>.field xdrInt32 WireTokenInfo.total
    |>.field xdrInt32 WireTokenInfo.free
    |>.codec fun _ => rfl

structure WireTokenInfoArray where
  tokens : CArray 72 WireTokenInfo

def xdrWireTokenInfoArray : Codec UInt8 WireTokenInfoArray :=
  Fields.start WireTokenInfoArray.mk
    |>.field (xdrArray 72 xdrWireTokenInfo) WireTokenInfoArray.tokens
    |>.codec fun _ => rfl

structure WireJobMove where
  jobId : Int64
  toQueue : CharArray 64

def xdrWireJobMove : Codec UInt8 WireJobMove :=
  Fields.start WireJobMove.mk
    |>.field xdrInt64 WireJobMove.jobId
    |>.field (xdrOpaque 64) WireJobMove.toQueue
    |>.codec fun _ => rfl

structure WireJobPriority where
  jobId : Int64
  priority : Int32

def xdrWireJobPriority : Codec UInt8 WireJobPriority :=
  Fields.start WireJobPriority.mk
    |>.field xdrInt64 WireJobPriority.jobId
    |>.field xdrInt32 WireJobPriority.priority
    |>.codec fun _ => rfl

structure WireJobQuery where
  jobId : Int64
  arrayId : Int64
  arrayIndex : Int32
  flags : Int32
  uid : Int32

def xdrWireJobQuery : Codec UInt8 WireJobQuery :=
  Fields.start WireJobQuery.mk
    |>.field xdrInt64 WireJobQuery.jobId
    |>.field xdrInt64 WireJobQuery.arrayId
    |>.field xdrInt32 WireJobQuery.arrayIndex
    |>.field xdrInt32 WireJobQuery.flags
    |>.field xdrInt32 WireJobQuery.uid
    |>.codec fun _ => rfl

inductive MessageType where
  | sbdJob
  | sbdRegister
  | jobState
  | jobFinish
  | jobScript
  | jobSig
  | jobSubmit
  | jobSubmitReply
  | jobInfoReq
  | jobInfo
  | jobInfoArray
  | jobStart
  | jobReply
  | hostInfo
  | hostInfoArray
  | hostAdmin
  | queueInfo
  | queueAdmin
  | queueInfoArray
  | groupInfo
  | groupInfoArray
  | jobAck
  | tokenInfo
  | tokenInfoArray
  | jobMove
  | jobPriority
  | jobQuery
  deriving DecidableEq, Repr

def MessageType.Value : MessageType → Type
  | .sbdJob => WireSbdJob
  | .sbdRegister => WireSbdRegister
  | .jobState => WireJobState
  | .jobFinish => WireJobFinish
  | .jobScript => WireJobScript
  | .jobSig => WireJobSig
  | .jobSubmit => WireJobSubmit
  | .jobSubmitReply => WireJobSubmitReply
  | .jobInfoReq => WireJobInfoReq
  | .jobInfo => WireJobInfo
  | .jobInfoArray => WireJobInfoArray
  | .jobStart => WireJobStart
  | .jobReply => WireJobReply
  | .hostInfo => WireHostInfo
  | .hostInfoArray => WireHostInfoArray
  | .hostAdmin => WireHostAdmin
  | .queueInfo => WireQueueInfo
  | .queueAdmin => WireQueueAdmin
  | .queueInfoArray => WireQueueInfoArray
  | .groupInfo => WireGroupInfo
  | .groupInfoArray => WireGroupInfoArray
  | .jobAck => WireJobAck
  | .tokenInfo => WireTokenInfo
  | .tokenInfoArray => WireTokenInfoArray
  | .jobMove => WireJobMove
  | .jobPriority => WireJobPriority
  | .jobQuery => WireJobQuery

def MessageType.xdrFunc : (t : MessageType) → Codec UInt8 t.Value
  | .sbdJob => xdrWireSbdJob
  | .sbdRegister => xdrWireSbdRegister
  | .jobState => xdrWireJobState
  | .jobFinish => xdrWireJobFinish
  | .jobScript => xdrWireJobScript
  | .jobSig => xdrWireJobSig
  | .jobSubmit => xdrWireJobSubmit
  | .jobSubmitReply => xdrWireJobSubmitReply
  | .jobInfoReq => xdrWireJobInfoReq
  | .jobInfo => xdrWireJobInfo
  | .jobInfoArray => xdrWireJobInfoArray
  | .jobStart => xdrWireJobStart
  | .jobReply => xdrWireJobReply
  | .hostInfo => xdrWireHostInfo
  | .hostInfoArray => xdrWireHostInfoArray
  | .hostAdmin => xdrWireHostAdmin
  | .queueInfo => xdrWireQueueInfo
  | .queueAdmin => xdrWireQueueAdmin
  | .queueInfoArray => xdrWireQueueInfoArray
  | .groupInfo => xdrWireGroupInfo
  | .groupInfoArray => xdrWireGroupInfoArray
  | .jobAck => xdrWireJobAck
  | .tokenInfo => xdrWireTokenInfo
  | .tokenInfoArray => xdrWireTokenInfoArray
  | .jobMove => xdrWireJobMove
  | .jobPriority => xdrWireJobPriority
  | .jobQuery => xdrWireJobQuery

/-! ### Sending and receiving -/

variable {hmac : Hmac} {auth peer : AuthState} {uid gid : UInt32} {signed now : Nat}

/--
A header is signed, the message is encoded into a buffer, and a peer reads it: the
header comes back as the encoder left it, which is as it was signed but for the
length, the payload comes back from that many bytes, and the header is verified.
-/
def RoundTrips (hmac : Hmac) (auth peer : AuthState) (uid gid : UInt32) (signed now : Nat)
    (hdr : ProtocolHeader) (t : MessageType) (payload : Option t.Value) (m : XdrMem) : Prop :=
  ∃ m' hdr', llEncodeMsg m payload t.xdrFunc (authSignHeader hmac auth uid gid signed hdr) =
        some (m', hdr') ∧
      hdr' = { authSignHeader hmac auth uid gid signed hdr with length := hdr'.length } ∧
      Carries m'.written hdr' t.xdrFunc payload ∧
      authVerifyHeader hmac peer now hdr' = .verified

/-- The length of the message is an `int`, and where signatures are asked for so is the window. -/
def Encodable (peer : AuthState) (signed now : Nat) (t : MessageType) (payload : Option t.Value) :
    Prop :=
  ((payloadBytes t.xdrFunc payload).length : Int) + packetHeaderSize ≤ intMax ∧
    (peer.required = true → AgeDefined peer signed now)

theorem RoundTrips.fits {hdr : ProtocolHeader} {t : MessageType} {payload : Option t.Value}
    {m : XdrMem} (trip : RoundTrips hmac auth peer uid gid signed now hdr t payload m)
    (room : packetHeaderSize + (payloadBytes t.xdrFunc payload).length ≤ m.bytes.length) :
    ((payloadBytes t.xdrFunc payload).length : Int) + packetHeaderSize ≤ intMax := by
  obtain ⟨m', hdr', encoded, -, carried, -⟩ := trip
  exact (encodeFrame_carries_iff _ room).mp ⟨m', hdr', encoded, carried⟩

theorem messages_roundTrip_iff (hdr : ProtocolHeader) (t : MessageType) (payload : Option t.Value)
    {m : XdrMem} (room : packetHeaderSize + (payloadBytes t.xdrFunc payload).length ≤ m.bytes.length)
    (sameKey : peer.key = auth.key) (sameOrder : peer.order = auth.order)
    (window : InWindow peer signed now) :
    RoundTrips hmac auth peer uid gid signed now hdr t payload m ↔
      Encodable peer signed now t payload := by
  have verifies : ∀ n, authVerifyHeader hmac peer now
      ((authSignHeader hmac auth uid gid signed hdr).withLength n) = .verified ↔
        (peer.required = true → AgeDefined peer signed now) := by
    intro n
    rw [authSignHeader_congr sameKey.symm sameOrder.symm]
    exact authVerifyHeader_signed_iff n window
  constructor
  · intro trip
    have fits := trip.fits room
    obtain ⟨m', hdr', encoded, -, -, verified⟩ := trip
    obtain ⟨_, _, same⟩ := encodeFrame_eq (authSignHeader hmac auth uid gid signed hdr) room
    have left : hdr' = (authSignHeader hmac auth uid gid signed hdr).withLength
        (payloadBytes t.xdrFunc payload).length := by
      rw [llEncodeMsg, same] at encoded
      split at encoded
      · cases encoded
      · exact (congrArg Prod.snd (Option.some.inj encoded)).symm
    exact ⟨fits, (verifies _).mp (left ▸ verified)⟩
  · rintro ⟨fits, aged⟩
    obtain ⟨m', hdr', encoded, carried⟩ := (encodeFrame_carries_iff
      (authSignHeader hmac auth uid gid signed hdr) room).mpr fits
    obtain ⟨_, done, -⟩ := encodeFrame_of_fits (authSignHeader hmac auth uid gid signed hdr) room fits
    obtain ⟨rfl, rfl⟩ := Prod.mk.inj (Option.some.inj (encoded.symm.trans done))
    exact ⟨_, _, encoded, rfl, carried, (verifies _).mpr aged⟩

/-! A message and its acknowledgement on one machine, and a script that is too long. -/

def plainHeader : ProtocolHeader :=
  { sequence := 0, operation := 0, version := 131072, length := 0, status := 0, uid := 0, gid := 0
    timestamp := 0, hmac := zeroDigest }

/-- A machine that asks for signatures of the last five minutes. -/
def plainAuth : AuthState :=
  { key := zeroDigest, required := true, allowedAge := 300, order := .little }

def freshBuffer (size : Nat) (fits : size < 4294967296) : XdrMem where
  bytes := List.replicate size 0
  pos := 0
  pos_le := Nat.zero_le _
  size_lt := by rw [List.length_replicate]; exact fits

theorem messages_roundTrip_iff_jobAck :
    RoundTrips (fun key _ => key) plainAuth plainAuth 1 1 1000 1060 plainHeader .jobAck
      (some ⟨7, 1⟩) (freshBuffer 76 (by decide)) :=
  (messages_roundTrip_iff plainHeader .jobAck (some ⟨7, 1⟩) (by decide) rfl rfl (by decide)).mpr
    ⟨by decide, fun _ => .inl (by decide)⟩

def longScript : WireJobScript where
  data := ⟨List.replicate 2147483648 0, by rw [List.length_replicate]; decide⟩

theorem length_longScript :
    (payloadBytes MessageType.jobScript.xdrFunc (some longScript)).length = 2147483652 := by
  have length : longScript.data.val.length = 2147483648 := List.length_replicate
  have bytes : ∀ script : WireJobScript,
      payloadBytes MessageType.jobScript.xdrFunc (some script) = xdrBytes.encode script.data :=
    fun _ => rfl
  rw [bytes, length_xdrBytes, length]

theorem longScript_not_returned :
    packetHeaderSize + (payloadBytes MessageType.jobScript.xdrFunc (some longScript)).length ≤
        (freshBuffer 2147483716 (by decide)).bytes.length ∧
      InWindow plainAuth 1000 1060 ∧
      ¬RoundTrips (fun key _ => key) plainAuth plainAuth 1 1 1000 1060 plainHeader .jobScript
        (some longScript) (freshBuffer 2147483716 (by decide)) := by
  have room : packetHeaderSize +
      (payloadBytes MessageType.jobScript.xdrFunc (some longScript)).length ≤
        (freshBuffer 2147483716 (by decide)).bytes.length := by
    rw [length_longScript, freshBuffer, List.length_replicate]
    decide
  refine ⟨room, by decide, fun trip => ?_⟩
  have fits := trip.fits room
  rw [length_longScript] at fits
  exact absurd fits (by decide)

end LavaLite.Batch.Messages
