import LavaLite.Mbd.State

/-
Submission: `job_register` and what it calls.  A request becomes one job, or one
job for each index of an array; all of them are prepared before the first one is
committed.
-/

namespace LavaLite.Mbd

open Base Batch

/--
What the environment contributes to a request: the clock, whether the job's
files could be written, whether the reply could be queued, and what the
uninitialised `count` of `job_parse_tokens` holds.
-/
structure SubmitEnv where
  now : Time
  filesOk : JobId → Bool
  replyOk : Bool
  junk : Nat → Int

/-- At most every job of the table can be in the way. -/
def nextJobId (jobs : JobId → Option JobData) : Nat → JobId → JobId
  | 0, seq => seq + 1
  | fuel + 1, seq =>
    if (jobs (seq + 1)).isSome then nextJobId jobs fuel (seq + 1) else seq + 1

def queueUserAllowed (q : QueueConf) (user : String) : Bool :=
  q.users.isEmpty || q.users.contains user

def insertKey (keys : List String) (key : String) : List String :=
  if keys.contains key then keys else keys ++ [key]

/-- A group name stands for its members. -/
def tokenMachines (conf : Conf) (tok : String) : List String :=
  match conf.findGroup tok with
  | some g => g.members
  | none => [tok]

def machinesHashInsertToken (conf : Conf) (keys : List String) (tok : String) : List String :=
  (tokenMachines conf tok).foldl insertKey keys

/--
The loop of `machines_hash_populate`.  The members of a group are read with `strtok` as
well, which then has nothing left of the list: no name behind a group is looked at.
-/
def machinesHashTokens (conf : Conf) : List String → List String → List String
  | keys, [] => keys
  | keys, tok :: rest =>
    let keys := machinesHashInsertToken conf keys tok
    if (conf.findGroup tok).isSome then keys else machinesHashTokens conf keys rest

def machineTokens (machines : String) : List String :=
  strtok (fun c => c = ' ' || c = '\t' || c = ',') (strlcpy 4096 machines)

/-- The distinct keys, in insertion order. -/
def machinesHashPopulate (conf : Conf) (machines : String) : List String :=
  machinesHashTokens conf [] (machineTokens machines)

def settledHosts (machines : List String) (numHosts : Int) : Int :=
  if machines.length > 0 then machines.length else numHosts

/-- The entries `job_alloc` reserves for the hosts: at least one. -/
def reservedHosts (numHosts : Int) : Int :=
  if numHosts < 1 then 1 else numHosts

def splitEq : List Char → Option (List Char × List Char)
  | [] => none
  | '=' :: rest => some ([], rest)
  | c :: rest => (splitEq rest).map fun (name, value) => (c :: name, value)

/--
`job_parse_tokens`.  `ll_atoi` answers 0 on bad text and never a negative value,
so the error test lets bad text through with whatever `count` held.
-/
def parseTokens (conf : Conf) (junk : Nat → Int) : List String → Except Status (List JobToken)
  | [] => .ok []
  | tok :: rest =>
    match splitEq tok.toList with
    | none => .error .einval
    | some (name, value) =>
      let count := (llAtoi value).getD (junk rest.length)
      if count ≤ 0 then .error .einval
      else
        match conf.findPool (String.ofList name) with
        | none => .error .einval
        | some _ =>
          match parseTokens conf junk rest with
          | .error e => .error e
          | .ok tokens =>
            .ok ({ name := strlcpy 64 (String.ofList name), count := count } :: tokens)

/-- `job_parse_tokens` on the request's text. -/
def jobParseTokens (conf : Conf) (junk : Nat → Int) (tokenpool : String) :
    Except Status (List JobToken) :=
  parseTokens conf junk (strtok (fun c => c = ',') (strlcpy 1024 tokenpool))

/-- An empty text is no dependency at all. -/
def jobDepsSet (resolve : Option (Int → Bool)) (dependCond : String) :
    Except DepParseError (List JobDep × String) :=
  if dependCond = "" then .ok ([], "")
  else (depParse resolve dependCond).map fun deps => (deps, strlcpy 4096 dependCond)

/-- What `job_alloc` writes back into the request: default name and queue. -/
def normalizeSubmit (conf : Conf) (ws : WireJobSubmit) : WireJobSubmit :=
  { ws with
    name := if ws.name = "" then "-" else ws.name
    queue := if ws.queue = "" then strlcpy 256 conf.defaultQueue else ws.queue }

/-- The job `job_alloc` fills once the queue is known. -/
def allocJob (conf : Conf) (now : Time) (id : JobId) (uid gid : Nat) (ws : WireJobSubmit)
    (q : QueueConf) : JobData :=
  let machines := machinesHashPopulate conf ws.machines
  { jobId := id
    uid := uid
    gid := gid
    pid := 0
    user := strlcpy 64 ws.username
    state := if ws.flags.hold then .held else .pending
    exitStatus := 0
    priority := q.priority
    submitTime := now
    dispatchTime := 0
    forkTime := 0
    endTime := 0
    beginTime := ws.beginTime
    termTime := ws.termTime
    signalTime := 0
    queue := some q.name
    project := strlcpy 256 ws.project
    name := strlcpy 64 ws.name
    flags := ws.flags
    listId := .pend
    pendReason := .none
    deps := []
    dependCond := ""
    res :=
      { numCpus := ws.numCpus
        numHosts := reservedHosts (settledHosts machines ws.numHosts)
        numGpus := ws.numGpus
        gpuModel := strlcpy 256 ws.gpuModel
        memMb := ws.memMb
        storageMb := ws.storageMb
        machinesStr := strlcpy 4096 ws.machines
        machines := machines
        tokenpoolStr := ""
        tokens := [] }
    runNhosts := 0
    runHosts := []
    gpuAssigned := ""
    arrayId := 0
    arrayIndex := 0
    arrayStart := 0
    arrayEnd := 0
    arrayStride := 0 }

/-- `job_alloc`, without its `ENOMEM`, and the ids `job_prepare` copies from the header. -/
def jobAlloc (conf : Conf) (now : Time) (id : JobId) (uid gid : Nat) (ws : WireJobSubmit) :
    Except Status JobData :=
  match conf.findQueue ws.queue with
  | none => .error .einval
  | some q =>
    if queueUserAllowed q (strlcpy 64 ws.username) then
      .ok (allocJob conf now id uid gid ws q)
    else .error .eperm

/-- `job_prepare` for a fresh id: files, tokens, then dependencies; no allocation fails. -/
def jobPrepare (conf : Conf) (env : SubmitEnv) (jobs : JobId → Option JobData) (id : JobId)
    (uid gid : Nat) (ws : WireJobSubmit) : Except Status JobData :=
  match jobAlloc conf env.now id uid gid ws with
  | .error e => .error e
  | .ok job =>
    if env.filesOk id then
      match jobParseTokens conf env.junk ws.tokenpool with
      | .error e => .error e
      | .ok tokens =>
        match jobDepsSet (some fun d => (jobs d).isSome) ws.dependCond with
        | .error _ => .error .einval
        | .ok (deps, dependCond) =>
          .ok { job with
            res := { job.res with
              tokens := tokens
              tokenpoolStr := strlcpy 256 ws.tokenpool }
            deps := deps
            dependCond := dependCond }
    else .error .eio

/-- The array fields an element gets inside the loop of `job_register`. -/
def setArrayFields (ws : WireJobSubmit) (arrayId : JobId) (index : Int) (job : JobData) : JobData :=
  if ws.flags.array then
    { job with
      arrayId := arrayId
      arrayIndex := index
      arrayStart := ws.arrayStart
      arrayEnd := ws.arrayEnd
      arrayStride := ws.arrayStride }
  else job

/-- The assertion of the loop on consecutive ids. -/
def followsOn (prepared : List JobData) (id : JobId) : Bool :=
  match prepared with
  | [] => true
  | previous :: _ => decide (id = previous.jobId + 1)

/--
The preparation loop of `job_register`: `prepared` holds the jobs so far, latest
first.  `none` is a failed assertion or a signed overflow of the index.  The
result is the id sequence reached and either the error or all the jobs.
-/
def prepareLoop (conf : Conf) (env : SubmitEnv) (m : MbdState) (uid gid : Nat)
    (ws : WireJobSubmit) (last stride : Int) :
    Nat → Int → JobId → List JobData → Option (JobId × Except Status (List JobData))
  | 0, _, _, _ => none
  | fuel + 1, index, seq, prepared =>
    if last < index then some (seq, .ok prepared.reverse)
    else
      let id := nextJobId m.jobs (m.pend.length + m.run.length + m.finish.length) seq
      match jobPrepare conf env m.jobs id uid gid ws with
      | .error e => some (id, .error e)
      | .ok job =>
        let arrayId := (prepared.getLast?.map JobData.jobId).getD id
        if followsOn prepared id ∧ index + stride ≤ intMax then
          prepareLoop conf env m uid gid ws last stride fuel (index + stride) id
            (setArrayFields ws arrayId index job :: prepared)
        else none

/-- Adjust the count on every known job the expression names. -/
def jobDepsRefcnt (m : MbdState) (job : JobData) (delta : Int) : MbdState :=
  { m with
    depRefcnt := job.deps.foldl
      (fun refs d =>
        if d.isCondition && (m.jobs d.jobId).isSome then
          Function.update refs d.jobId (refs d.jobId + delta)
        else refs)
      m.depRefcnt }

def countCommitted (job : JobData) (c : QueueData) : QueueData :=
  { c with
    numPend := if job.state = .pending then c.numPend + 1 else c.numPend
    numHeld := if job.state = .held then c.numHeld + 1 else c.numHeld
    numJobs := c.numJobs + 1 }

/--
`job_commit`; `elements` is the element count the preparation loop left on an
array head, and zero on every other job.
-/
def jobCommit (m : MbdState) (ws : WireJobSubmit) (elements : Int) (job : JobData) :
    Option MbdState :=
  match m.jobs job.jobId, job.queue with
  | none, some q =>
    let j := job.jobId
    let job := { job with listId := .pend }
    let m := { m.setJob j job with
      depRefcnt := Function.update m.depRefcnt j 0
      arrayElementCnt := Function.update m.arrayElementCnt j elements }
    let m := jobDepsRefcnt m job 1
    let m := { m with pend := m.pend ++ [j] }
    let m := m.log (eventJobNew job ws)
    some (m.modifyQueue q (countCommitted job))
  | _, _ => none

def elementCount (ws : WireJobSubmit) (total : Nat) (job : JobData) : Int :=
  if ws.flags.array ∧ job.arrayId = job.jobId then total else 0

def jobCommitPrepared (ws : WireJobSubmit) (total : Nat) :
    List JobData → MbdState → Option MbdState
  | [], m => some m
  | job :: rest, m =>
    match jobCommit m ws (elementCount ws total job) job with
    | none => none
    | some m => jobCommitPrepared ws total rest m

/-- The answer is the status, and the id told to the client when the request was accepted. -/
def jobRegister (conf : Conf) (env : SubmitEnv) (m : MbdState) (uid gid : Nat)
    (request : WireJobSubmit) : Option (MbdState × Except Status JobId) :=
  let ws := normalizeSubmit conf request
  let (first, last, stride) :=
    if ws.flags.array then (ws.arrayStart, ws.arrayEnd, ws.arrayStride) else (0, 0, 1)
  if ws.flags.array ∧ (ws.arrayStride ≤ 0 ∨ ws.arrayEnd < ws.arrayStart) then
    some (m, .error .einval)
  else
    match prepareLoop conf env m uid gid ws last stride
        ((last - first).toNat + 2) first m.jobIdSeq [] with
    | none => none
    | some (seq, .error e) => some ({ m with jobIdSeq := seq }, .error e)
    | some (seq, .ok prepared) =>
      if env.replyOk then
        match jobCommitPrepared ws prepared.length prepared { m with jobIdSeq := seq } with
        | none => none
        | some m =>
          some ({ m with seqFile := m.jobIdSeq }, .ok ((prepared.head?.map JobData.jobId).getD 0))
      else some ({ m with jobIdSeq := seq }, .error .eio)

end LavaLite.Mbd
