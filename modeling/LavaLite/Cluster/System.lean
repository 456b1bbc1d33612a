import LavaLite.Kernel.Run
import LavaLite.Mbd.Replay
import LavaLite.Sbd.Daemon
import Mathlib.Data.List.Sort

/-
mbd, one sbd for each host, and the connections between them.  A connection
keeps the order of its messages; either end may close it at any time, and then
any part of what was on the way at its end may be lost.
-/

namespace LavaLite.Cluster

open Base Batch Mbd Sbd Kernel

/--
What an sbd's current connection is to mbd: none, one that mbd has closed, one
whose registration mbd has not read yet, or the one bound to the host.
-/
inductive Side where
  | down
  | dead
  | fresh
  | joined
  deriving DecidableEq, Repr

/--
The connections of one host.  `fromSbd` is what mbd has not read on the bound
channel, `queued` what the sbd sent behind the registration on a fresh
connection, `toSbd` what the sbd has not read on its current connection.
-/
structure Link where
  side : Side
  fromSbd : List SbdMsg
  queued : List SbdMsg
  toSbd : List MbdMsg
  deriving DecidableEq, Repr

def Link.none : Link :=
  { side := .down
    fromSbd := []
    queued := []
    toSbd := [] }

structure System where
  mbd : MbdState
  sbds : HostName → SbdState
  links : HostName → Link

/-- What can happen next; the arguments are the choices of the environment. -/
inductive Label where
  | submit (env : SubmitEnv) (uid gid : Nat) (request : WireJobSubmit)
  | signal (now : Time) (uid : Nat) (jobId : JobId) (arrayIndex sig : Int) (sendOk : JobId → Bool)
  | move (now : Time) (uid : Nat) (jobId : JobId) (toQueue : QueueName)
  | priority (now : Time) (uid : Nat) (jobId : JobId) (value : Int)
  | hostAdmin (uid : Nat) (host : HostName) (close : Bool)
  | queueAdmin (uid : Nat) (queue : QueueName) (close : Bool)
  /-- The scheduling timer: `schedule` and `maybe_rebuild_manifest`. -/
  | timer (now : Time) (sendOk : JobId → Bool)
  /-- An sbd opens a connection and sends its registration. -/
  | connect (host : HostName)
  /-- mbd reads the registration on a fresh connection. -/
  | register (host : HostName) (chan : Int)
  /-- mbd reads the next message of a bound channel. -/
  | mbdRead (host : HostName) (now : Time) (ackOk : Bool)
  /-- mbd closes the channel of a host; `kept` messages were already on the way. -/
  | mbdDrop (host : HostName) (kept : Nat)
  /-- An sbd reads the next message. -/
  | sbdRead (host : HostName) (outcome : StartOutcome) (delivered : Bool)
  /-- An sbd finds its connection broken; `kept` messages had reached mbd's side. -/
  | sbdDrop (host : HostName) (kept : Nat)
  /-- An sbd process ends and is started again. -/
  | sbdRestart (host : HostName) (kept : Nat)
  /-- A job process ends. -/
  | jobExit (host : HostName) (jobId : JobId) (status : Int)
  /-- The timer of an sbd resends the reply to a new job. -/
  | resendReply (host : HostName) (jobId : JobId)
  /-- The timer of an sbd reports a finished job. -/
  | reportFinish (host : HostName) (jobId : JobId)
  /-- mbd is killed between two handlers and started again. -/
  | mbdRestart (kept : HostName → Nat)

/-- A label that submits a job asks for something of the given kind. -/
def Label.Asks (wants : WireJobSubmit → Prop) : Label → Prop
  | .submit _ _ _ request => wants request
  | _ => True

def Label.NoRestart : Label → Prop
  | .mbdRestart _ => False
  | _ => True

def Label.Rereads (s : System) : Label → Prop
  | .mbdRestart _ => Legible s.mbd
  | _ => True

def Legibly (guard : System → Label → Prop) (s : System) (label : Label) : Prop :=
  guard s label ∧ label.Rereads s

instance decidableRereads (s : System) (label : Label) : Decidable (label.Rereads s) :=
  match label with
  | .mbdRestart _ => inferInstanceAs (Decidable (Legible s.mbd))
  | .submit _ _ _ _ | .signal _ _ _ _ _ _ | .move _ _ _ _ | .priority _ _ _ _
  | .hostAdmin _ _ _ | .queueAdmin _ _ _ | .timer _ _ | .connect _ | .register _ _
  | .mbdRead _ _ _ | .mbdDrop _ _ | .sbdRead _ _ _ | .sbdDrop _ _ | .sbdRestart _ _
  | .jobExit _ _ _ | .resendReply _ _ | .reportFinish _ _ => isTrue trivial

def rereading (check : System → Label → Bool) (s : System) (label : Label) : Bool :=
  check s label && decide (label.Rereads s)

variable {s : System} {conf : Conf} {labels : List Label}

theorem legibly_of_rereading {check : System → Label → Bool} {guard : System → Label → Prop}
    {label : Label} (sound : check s label = true → guard s label)
    (checked : rereading check s label = true) : Legibly guard s label := by
  obtain ⟨first, second⟩ := (Bool.and_eq_true _ _).mp checked
  exact ⟨sound first, of_decide_eq_true second⟩

def Label.Sends : Label → Prop
  | .timer _ sendOk => ∀ j, sendOk j = true
  | _ => True

def deliver (links : HostName → Link) (h : HostName) (msg : MbdMsg) : HostName → Link :=
  match (links h).side with
  | .joined => Function.update links h { links h with toSbd := (links h).toSbd ++ [msg] }
  | _ => links

def deliverAll (links : HostName → Link) (outbox : Outbox) : HostName → Link :=
  outbox.foldl (fun links (h, msg) => deliver links h msg) links

def afterMbd (s : System) (m : MbdState) : System :=
  { s with
    mbd := { m with outbox := [] }
    links := deliverAll s.links m.outbox }

def sendFromSbd (link : Link) (msgs : List SbdMsg) : Link :=
  match link.side with
  | .joined => { link with fromSbd := link.fromSbd ++ msgs }
  | .fresh => { link with queued := link.queued ++ msgs }
  | _ => link

def mbdHandle (conf : Conf) (m : MbdState) (h : HostName) (now : Time) (ackOk : Bool) :
    SbdMsg → Option MbdState
  | .newJobReply j pid => mbdNewJobReply m now h j pid ackOk
  | .newJobReject j => mbdNewJobReject conf m now j ackOk
  | .jobFinish j success exitStatus => mbdJobFinish conf m now h j success exitStatus ackOk
  | .signalReply j sig ok => mbdJobSignalReply m h j sig ok
  | .jobMissing j => mbdJobMissing conf m now h j

def Link.closedByMbd (link : Link) (kept : Nat) : Link :=
  match link.side with
  | .joined =>
    { link with
      side := .dead
      fromSbd := []
      toSbd := link.toSbd.take kept }
  | _ => { link with fromSbd := [] }

def Link.closedBySbd (link : Link) (kept : Nat) : Link :=
  { link with
    side := .down
    fromSbd := if link.side = .joined then link.fromSbd.take kept else link.fromSbd
    queued := []
    toSbd := [] }

def Link.mbdGone (link : Link) (kept : Nat) : Link :=
  match link.side with
  | .joined =>
    { link with
      side := .dead
      fromSbd := []
      toSbd := link.toSbd.take kept }
  | .fresh =>
    { link with
      side := .dead
      fromSbd := []
      queued := [] }
  | _ => { link with fromSbd := [] }

def System.setLink (s : System) (h : HostName) (link : Link) : System :=
  { s with links := Function.update s.links h link }

def System.setSbd (s : System) (h : HostName) (sbd : SbdState) : System :=
  { s with sbds := Function.update s.sbds h sbd }

def mbdTimer (conf : Conf) (m : MbdState) (now : Time) (sendOk : JobId → Bool) :
    Option MbdState := do
  let m ← schedule conf m now sendOk
  maybeRebuildManifest conf m

/-- One step of the system; `none` when the step is not possible or mbd aborts in it. -/
def step (conf : Conf) (s : System) : Label → Option System
  | .submit env uid gid request =>
    if 0 < env.now then
      (jobRegister conf env s.mbd uid gid request).map fun (m, _) => afterMbd s m
    else none
  | .signal now uid jobId arrayIndex sig sendOk =>
    if 0 < now then
      (jobsSignal conf s.mbd now uid jobId arrayIndex sig sendOk).map
        fun (m, _) => afterMbd s m
    else none
  | .move now uid jobId toQueue =>
    if 0 < now then
      (jobMove conf s.mbd now uid jobId toQueue).map fun (m, _) => afterMbd s m
    else none
  | .priority now uid jobId value =>
    if 0 < now then
      (jobPriority conf s.mbd now uid jobId value).map fun (m, _) => afterMbd s m
    else none
  | .hostAdmin uid host close => some (afterMbd s (hostAdmin conf s.mbd uid host close).1)
  | .queueAdmin uid queue close => some (afterMbd s (queueAdmin conf s.mbd uid queue close).1)
  | .timer now sendOk =>
    if 0 < now then (mbdTimer conf s.mbd now sendOk).map (afterMbd s) else none
  | .connect h =>
    if (s.links h).side = .down then
      some (s.setLink h { s.links h with side := .fresh, queued := [], toSbd := [] })
    else none
  | .register h chan =>
    if (s.links h).side = .fresh ∧ 0 < chan then
      match mbdSbdRegister conf s.mbd h chan with
      | none => some (s.setLink h { s.links h with side := .dead, queued := [] })
      | some m =>
        some (afterMbd
          (s.setLink h
            { s.links h with
              side := .joined
              fromSbd := (s.links h).queued
              queued := [] }) m)
    else none
  | .mbdRead h now ackOk =>
    match (s.links h).fromSbd with
    | [] => none
    | msg :: rest =>
      if 0 < now ∧ (s.mbd.hosts h).sbdChan ≠ -1 then
        (mbdHandle conf s.mbd h now ackOk msg).map
          (afterMbd (s.setLink h { s.links h with fromSbd := rest }))
      else none
  | .mbdDrop h kept =>
    if (s.mbd.hosts h).sbdChan ≠ -1 then
      some { s.setLink h ((s.links h).closedByMbd kept) with
        mbd := mbdSbdDisconnect s.mbd h }
    else none
  | .sbdRead h outcome delivered =>
    match (s.links h).toSbd with
    | [] => none
    | msg :: rest =>
      (sbdHandle (s.sbds h) msg outcome delivered).map fun (sbd, sent) =>
        (s.setSbd h sbd).setLink h (sendFromSbd { s.links h with toSbd := rest } sent)
  | .sbdDrop h kept =>
    if (s.links h).side ≠ .down then
      some ((s.setSbd h (sbdMbdLinkDown (s.sbds h))).setLink h ((s.links h).closedBySbd kept))
    else none
  | .sbdRestart h kept =>
    some ((s.setSbd h (sbdJobStateLoadAll (s.sbds h))).setLink h ((s.links h).closedBySbd kept))
  | .jobExit h j status => some (s.setSbd h (jobExited (s.sbds h) j status))
  | .resendReply h j =>
    if (s.links h).side ≠ .down then
      (jobNewDrive (s.sbds h) j).map fun sent => s.setLink h (sendFromSbd (s.links h) sent)
    else none
  | .reportFinish h j =>
    if (s.links h).side ≠ .down then
      (jobFinishDrive (s.sbds h) j).map fun sent => s.setLink h (sendFromSbd (s.links h) sent)
    else none
  | .mbdRestart kept =>
    (jobsReplay conf s.mbd.marks s.mbd.manifest s.mbd.seqFile).map fun m =>
      { s with
        mbd := m
        links := fun h => (s.links h).mbdGone (kept h) }

def initial (conf : Conf) : System :=
  { mbd := initialState conf
      { hosts := fun _ => false
        queues := fun _ => false } [] 0
    sbds := fun _ => { jobs := [] }
    links := fun _ => .none }

/-- `Leads conf guard s t`: a run from `s` whose steps all meet the guard ends in `t`. -/
abbrev Leads (conf : Conf) (guard : System → Label → Prop) : System → System → Prop :=
  Steps (step conf) guard

def Reachable (conf : Conf) (guard : System → Label → Prop) : System → Prop :=
  Leads conf guard (initial conf)

/-! ### A small cluster -/

/-- Two hosts, one of them with two devices, one queue and one token pool. -/
def smallConf : Conf :=
  { hosts :=
      [ { name := "h1", totalCpu := 4, totalMemMb := 100, totalStorageMb := 100,
          gpuModel := "", gpuIds := [0, 1] },
        { name := "h2", totalCpu := 4, totalMemMb := 100, totalStorageMb := 100,
          gpuModel := "", gpuIds := [] } ]
    queues := [{ name := "normal", priority := 1, hosts := ["h1", "h2"], users := [] }]
    pools := [{ name := "lic", total := 4, positive := by decide }]
    groups := []
    defaultQueue := "normal"
    mgrUid := 0
    finishThreshold := 1000
    qsort := fun cmp => List.insertionSort fun a b => cmp a b ≤ 0
    qsortHosts := fun cmp => List.insertionSort fun a b => cmp a b ≤ 0
    hashOrder := fun names => names
    hosts_nodup := by decide
    queues_nodup := by decide
    pools_nodup := by decide
    pool_names_fit := by decide
    sizes_fit := by decide
    queue_hosts := by decide
    queue_names_fit := by decide
    qsort_perm := fun _ _ => List.perm_insertionSort _ _
    qsortHosts_perm := fun _ _ => List.perm_insertionSort _ _
    hashOrder_perm := fun _ => List.Perm.refl _ }

/-- A cluster that rewrites its manifest as soon as one job has finished. -/
def eagerConf : Conf :=
  { smallConf with finishThreshold := 1 }

def plainRequest : WireJobSubmit :=
  { name := ""
    queue := ""
    project := ""
    machines := ""
    dependCond := ""
    gpuModel := ""
    username := "user"
    numCpus := 1
    numHosts := 1
    numGpus := 0
    memMb := 1
    storageMb := 0
    tokenpool := ""
    flags := JobFlags.none
    beginTime := 0
    termTime := 0
    arrayStart := 0
    arrayEnd := 0
    arrayStride := 0
    dependCond_fits := by decide }

def submitAt (now : Time) (request : WireJobSubmit) : Label :=
  .submit { now := now, filesOk := fun _ => true, replyOk := true, junk := fun _ => 0 }
    1 1 request

def join (h : HostName) (chan : Int) : List Label :=
  [.connect h, .register h chan, .sbdRead h .failed true]

def start (h : HostName) (now : Time) (pid : Int) : List Label :=
  [.sbdRead h (.started pid) true, .mbdRead h now true, .sbdRead h .failed true]

def exchange (h : HostName) (now : Time) : List Label :=
  [.sbdRead h .failed true, .mbdRead h now true]

def oneStop : List Label :=
  join "h1" 5 ++ [submitAt 1 plainRequest, .timer 2 fun _ => true] ++ start "h1" 3 77 ++
    [.signal 4 1 1 0 sigStop fun _ => true] ++ exchange "h1" 5

/--
A job name that ends its line of the manifest and begins the next one with a
record of its own.
-/
def forgedName (record : String) : String :=
  "x\n" ++ record

def runOf (conf : Conf) (check : System → Label → Bool) (labels : List Label) : Option System :=
  execute (step conf) check (initial conf) labels

theorem legibly_of_runOf (executed : runOf conf (rereading fun _ _ => true) labels = some s) :
    Reachable conf (Legibly anyStep) s :=
  steps_of_execute (fun _ _ _ => legibly_of_rereading fun _ => trivial) executed

theorem reachable_of_runOf (executed : runOf conf (fun _ _ => true) labels = some s) :
    Reachable conf anyStep s :=
  steps_of_execute (fun _ _ _ _ => trivial) executed

end LavaLite.Cluster
