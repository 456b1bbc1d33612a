import LavaLite.Batch.Wire

/-
`log.c`: the text of the manifest.  A record is one line: a header, then numbers, then texts
in double quotes.  The line buffer of the reader has 4096 bytes and a quote inside a text is
not escaped, so not every record that is written is read back.
-/

namespace LavaLite.Batch

open Base

/-! ### Quoted texts -/

def writeQstr (s : String) : List Char :=
  ' ' :: '"' :: (s.toList ++ ['"'])

/-- `read_qstr` into a buffer of `maxlen` bytes. -/
def readQstr (maxlen : Nat) (p : List Char) : Option (String × List Char) :=
  match p.dropWhile (· = ' ') with
  | '"' :: s =>
    match s.dropWhile (· ≠ '"') with
    | [] => none
    | _ :: rest =>
      if (s.takeWhile (· ≠ '"')).length < maxlen then
        some (String.ofList (s.takeWhile (· ≠ '"')), rest)
      else none
  | _ => none

def readQstrs : List Nat → List Char → Option (List String × List Char)
  | [], p => some ([], p)
  | size :: sizes, p => do
      let (text, p) ← readQstr size p
      let (texts, p) ← readQstrs sizes p
      some (text :: texts, p)

/-! ### Headers -/

/-- `enum event_type`, without `EVENT_NULL`. -/
inductive EventType where
  | jobNew
  | jobStart
  | jobFork
  | jobSignal
  | jobFinish
  | jobPendSusp
  | jobPendResume
  | jobSusp
  | jobMove
  | jobPriority
  | jobPend
  deriving DecidableEq, Repr

/-- `event_names`. -/
def EventType.name : EventType → String
  | .jobNew => "JOB_NEW"
  | .jobStart => "JOB_START"
  | .jobFork => "JOB_FORK"
  | .jobSignal => "JOB_SIGNAL"
  | .jobFinish => "JOB_FINISH"
  | .jobPendSusp => "JOB_PEND_SUSP"
  | .jobPendResume => "JOB_PEND_RESUME"
  | .jobSusp => "JOB_SUSP"
  | .jobMove => "JOB_MOVE"
  | .jobPriority => "JOB_PRIORITY"
  | .jobPend => "JOB_PEND"

def eventTypes : List EventType :=
  [.jobNew, .jobStart, .jobFork, .jobSignal, .jobFinish, .jobPendSusp, .jobPendResume, .jobSusp,
    .jobMove, .jobPriority, .jobPend]

/-- `parse_event_type`; `none` is `EVENT_NULL`. -/
def parseEventType (name : List Char) : Option EventType :=
  eventTypes.find? fun type => type.name.toList = name

/-- `struct event_rec`; `type` is `none` for `EVENT_NULL`. -/
structure EventRec where
  version : Int
  type : Option EventType
  eventTime : Time
  rest : List Char
  deriving DecidableEq, Repr

def scanHdr (line : List Char) : Option EventRec :=
  let line := skipWs line
  let etype := (line.take 63).takeWhile fun c => !isSpace c
  if etype.isEmpty then none
  else do
    let (version, line) ← scanInteger (line.drop etype.length)
    let (time, rest) ← scanInteger line
    some
      { version := NumKind.int.store version
        type := parseEventType etype
        eventTime := NumKind.long.store time
        rest := rest }

/-- The header of the next line, and the rest of the file. -/
def logReadHdr (file : List Char) : Option (EventRec × List Char) := do
  let (line, file) ← fgets 4096 file
  let header ← scanHdr line
  some (header, file)

/-! ### Records -/

/-- What every writer prints: `write_hdr`, the numbers, the quoted texts and the newline. -/
def writeRecord (type : EventType) (time : Time) (numbers : List Int) (texts : List String) :
    List Char :=
  type.name.toList ++ writeNumbers (1 :: time :: numbers) ++ texts.flatMap writeQstr ++ ['\n']

/-- What every parser reads: a row of numbers, then a row of quoted texts. -/
def readPayload (kinds : List NumKind) (sizes : List Nat) (header : EventRec) :
    Option (List Int × List String) := do
  let (numbers, p) ← scanNumbers kinds header.rest
  let (texts, _) ← readQstrs sizes p
  some (numbers, texts)

def JobState.code : JobState → Int
  | .pending => 1
  | .held => 2
  | .running => 3
  | .suspended => 4
  | .exited => 5
  | .done => 6
  | .orphan => 7
  | .broken => 8
  | .unknown => 9

/-- The state with a value; a number that is no state is like `JOB_UNKNOWN` to every handler. -/
def JobState.ofCode (n : Int) : JobState :=
  if n = 1 then .pending
  else if n = 2 then .held
  else if n = 3 then .running
  else if n = 4 then .suspended
  else if n = 5 then .exited
  else if n = 6 then .done
  else if n = 7 then .orphan
  else if n = 8 then .broken
  else .unknown

def JobFlags.bits (flags : JobFlags) : Int :=
  (if flags.exclusive then 1 else 0) + (if flags.hold then 2 else 0) + if flags.array then 4 else 0

def JobFlags.ofBits (n : Int) : JobFlags :=
  { exclusive := n % 2 = 1
    hold := n / 2 % 2 = 1
    array := n / 4 % 2 = 1 }

def LogJobNew.numbers (j : LogJobNew) : List Int :=
  [j.jobId, j.arrayId, j.arrayIndex, j.arrayStart, j.arrayEnd, j.arrayStride, j.uid, j.gid,
    j.state.code, j.priority, j.beginTime, j.termTime, j.numCpu, j.numHosts, j.numGpus, j.memMb,
    j.storageMb, j.flags.bits]

def LogJobNew.texts (j : LogJobNew) : List String :=
  [j.username, j.jobName, j.queue, j.projectName, j.gpuModel, j.machines, j.tokenpool, j.dependCond]

def logWriteJobNew (j : LogJobNew) : List Char :=
  writeRecord .jobNew j.submitTime j.numbers j.texts

def jobNewKinds : List NumKind :=
  [.long, .long, .int, .int, .int, .int, .uint, .uint, .int, .int, .long, .long, .int, .int, .int,
    .ulong, .ulong, .uint]

def jobNewSizes : List Nat :=
  [64, 64, 64, 64, 64, 1024, 256, 4096]

def logParseJobNew (header : EventRec) : Option LogJobNew := do
  let (numbers, texts) ← readPayload jobNewKinds jobNewSizes header
  match numbers, texts with
  | [jobId, arrayId, arrayIndex, arrayStart, arrayEnd, arrayStride, uid, gid, state, priority,
      beginTime, termTime, numCpu, numHosts, numGpus, memMb, storageMb, flags],
    [username, jobName, queue, projectName, gpuModel, machines, tokenpool, dependCond] =>
      some
        { jobId := jobId
          arrayId := arrayId
          arrayIndex := arrayIndex
          arrayStart := arrayStart
          arrayEnd := arrayEnd
          arrayStride := arrayStride
          uid := uid.toNat
          gid := gid.toNat
          state := .ofCode state
          priority := priority
          submitTime := header.eventTime
          beginTime := beginTime
          termTime := termTime
          numCpu := numCpu
          numHosts := numHosts
          numGpus := numGpus
          memMb := memMb.toNat
          storageMb := storageMb.toNat
          flags := .ofBits flags
          username := username
          jobName := jobName
          queue := queue
          projectName := projectName
          gpuModel := gpuModel
          machines := machines
          tokenpool := tokenpool
          dependCond := dependCond }
  | _, _ => none

/-- The loop of `event_job_start` that fills `e.hosts`, a buffer of 4096 bytes. -/
def hostsText : List HostName → String
  | [] => ""
  | first :: rest =>
    rest.foldl (fun text h => strlcat 4096 (strlcat 4096 text " ") h) (strlcat 4096 "" first)

/-- The separators of `replay_set_run_hosts`. -/
def isHostSep (c : Char) : Bool :=
  c = ' ' || c = '\t' || c = ','

def LogJobStart.numbers (j : LogJobStart) : List Int :=
  [j.jobId, j.nhosts, j.cpusPerHost, j.gpusPerHost]

def LogJobStart.texts (j : LogJobStart) : List String :=
  [j.gpuModel, j.gpuAssigned, hostsText j.hosts]

/-- `log_write_job_start`, with the host text `event_job_start` has built. -/
def logWriteJobStart (j : LogJobStart) : List Char :=
  writeRecord .jobStart j.dispatchTime j.numbers j.texts

def jobStartKinds : List NumKind :=
  [.long, .int, .int, .int]

def jobStartSizes : List Nat :=
  [64, 64, 4096]

/-- `log_parse_job_start`, and the `strtok` loop of `replay_set_run_hosts` over the host text. -/
def logParseJobStart (header : EventRec) : Option LogJobStart := do
  let (numbers, texts) ← readPayload jobStartKinds jobStartSizes header
  match numbers, texts with
  | [jobId, nhosts, cpusPerHost, gpusPerHost], [gpuModel, gpuAssigned, hosts] =>
    some
      { jobId := jobId
        dispatchTime := header.eventTime
        nhosts := nhosts
        cpusPerHost := cpusPerHost
        gpusPerHost := gpusPerHost
        gpuModel := gpuModel
        gpuAssigned := gpuAssigned
        hosts := strtok isHostSep hosts }
  | _, _ => none

def logWriteJobFork (j : JobId) (pid : Int) (forkTime : Time) : List Char :=
  writeRecord .jobFork forkTime [j, pid] []

def logParseJobFork (header : EventRec) : Option Event :=
  match readPayload [.long, .int] [] header with
  | some ([j, pid], _) => some (.jobFork j pid header.eventTime)
  | _ => none

def logWriteJobSignal (j : JobId) (sig : Int) (uid : Nat) (signalTime : Time) : List Char :=
  writeRecord .jobSignal signalTime [j, sig, uid] []

def logParseJobSignal (header : EventRec) : Option Event :=
  match readPayload [.long, .int, .uint] [] header with
  | some ([j, sig, uid], _) => some (.jobSignal j sig uid.toNat header.eventTime)
  | _ => none

def logWriteJobFinish (j : JobId) (uid : Nat) (state : JobState) (exitStatus : Int)
    (endTime : Time) : List Char :=
  writeRecord .jobFinish endTime [j, uid, state.code, exitStatus, endTime] []

/-- The end time that was printed is not read, the header has it too. -/
def logParseJobFinish (header : EventRec) : Option Event :=
  match readPayload [.long, .uint, .int, .int] [] header with
  | some ([j, uid, state, exitStatus], _) =>
    some (.jobFinish j uid.toNat (.ofCode state) exitStatus header.eventTime)
  | _ => none

def logWriteJobMove (j : JobId) (eventTime : Time) (fromQueue toQueue : QueueName) : List Char :=
  writeRecord .jobMove eventTime [j] [fromQueue, toQueue]

def logParseJobMove (header : EventRec) : Option Event :=
  match readPayload [.long] [64, 64] header with
  | some ([j], [fromQueue, toQueue]) => some (.jobMove j header.eventTime fromQueue toQueue)
  | _ => none

def logWriteJobPriority (j : JobId) (eventTime : Time) (oldPriority newPriority : Int) :
    List Char :=
  writeRecord .jobPriority eventTime [j, oldPriority, newPriority] []

def logParseJobPriority (header : EventRec) : Option Event :=
  match readPayload [.long, .int, .int] [] header with
  | some ([j, old, new], _) => some (.jobPriority j header.eventTime old new)
  | _ => none

/-- The four writers of a state change: `JOB_PEND_SUSP`, `JOB_PEND_RESUME`, `JOB_SUSP`, `JOB_PEND`. -/
def logWriteChange (type : EventType) (j : JobId) (eventTime : Time) : List Char :=
  writeRecord type eventTime [j] []

def logParseChange (change : JobId → Time → Event) (header : EventRec) : Option Event :=
  match readPayload [.long] [] header with
  | some ([j], _) => some (change j header.eventTime)
  | _ => none

def writeEvent : Event → List Char
  | .jobNew e => logWriteJobNew e
  | .jobStart e => logWriteJobStart e
  | .jobFork j pid forkTime => logWriteJobFork j pid forkTime
  | .jobSignal j sig uid signalTime => logWriteJobSignal j sig uid signalTime
  | .jobFinish j uid state exitStatus endTime => logWriteJobFinish j uid state exitStatus endTime
  | .jobPendSusp j eventTime => logWriteChange .jobPendSusp j eventTime
  | .jobPendResume j eventTime => logWriteChange .jobPendResume j eventTime
  | .jobSusp j eventTime => logWriteChange .jobSusp j eventTime
  | .jobMove j eventTime fromQueue toQueue => logWriteJobMove j eventTime fromQueue toQueue
  | .jobPriority j eventTime old new => logWriteJobPriority j eventTime old new
  | .jobPend j eventTime => logWriteChange .jobPend j eventTime

def parseEvent (header : EventRec) : Option Event :=
  match header.type with
  | none => none
  | some .jobNew => (logParseJobNew header).map .jobNew
  | some .jobStart => (logParseJobStart header).map .jobStart
  | some .jobFork => logParseJobFork header
  | some .jobSignal => logParseJobSignal header
  | some .jobFinish => logParseJobFinish header
  | some .jobPendSusp => logParseChange .jobPendSusp header
  | some .jobPendResume => logParseChange .jobPendResume header
  | some .jobSusp => logParseChange .jobSusp header
  | some .jobMove => logParseJobMove header
  | some .jobPriority => logParseJobPriority header
  | some .jobPend => logParseChange .jobPend header

def manifestText (records : List Event) : List Char :=
  records.flatMap writeEvent

/--
The lines the loop of `jobs_replay` goes through, `none` for one whose payload
does not parse.  The loop ends at the first line without a header: to it that is
the end of the file.
-/
def readLines : Nat → List Char → List (Option Event)
  | 0, _ => []
  | fuel + 1, file =>
    match logReadHdr file with
    | none => []
    | some (header, file) => parseEvent header :: readLines fuel file

/-- All the lines of a file: each has at least one byte. -/
def readAll (file : List Char) : List (Option Event) :=
  readLines file.length file

def readManifest (file : List Char) : List Event :=
  (readAll file).reduceOption

end LavaLite.Batch
