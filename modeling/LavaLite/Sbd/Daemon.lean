import Mathlib.Logic.Function.Basic
import LavaLite.Batch.Wire

/-
The execution daemon: the jobs it holds, what it answers to mbd, what survives its restart,
and which processes a signal keeps from running.  Whether a process can be spawned or
signalled, and its exit, are outcomes given from outside.
-/

namespace LavaLite.Sbd

open Base Batch Function

/--
`struct sbd_job`.  The fields `saved…` are the last state file written for the
job; a job whose finish was acknowledged leaves the list at once, and its state
file is skipped at the next start.
-/
structure SbdJob where
  jobId : JobId
  pid : Int
  pidAcked : Bool
  exitStatus : Option Int
  savedAcked : Bool
  savedExit : Option Int
  deriving DecidableEq, Repr

/-- `sbd_job_list`, in order. -/
structure SbdState where
  jobs : List SbdJob
  deriving DecidableEq, Repr

def SbdState.find (s : SbdState) (j : JobId) : Option SbdJob :=
  s.jobs.find? fun job => job.jobId = j

def SbdState.modify (s : SbdState) (j : JobId) (f : SbdJob → SbdJob) : SbdState :=
  { s with jobs := s.jobs.map fun job => if job.jobId = j then f job else job }

def SbdJob.write (job : SbdJob) : SbdJob :=
  { job with
    savedAcked := job.pidAcked
    savedExit := job.exitStatus }

inductive StartOutcome where
  | started (pid : Int)
  | failed
  deriving DecidableEq, Repr

/-- What the process of a job runs with. -/
structure Credentials where
  groups : List Nat
  gid : Nat
  uid : Nat
  deriving DecidableEq, Repr

/--
`set_user_id` of a job that `sbd_job_create` made from the message.  The groups come
from the host's own database, by the name in the message.
-/
def setUserId (initgroups : String → Nat → Option (List Nat)) (start : WireJobStart) :
    Option Credentials := do
  let groups ← initgroups (strlcpy 64 start.username) start.gid
  some
    { groups := groups
      gid := start.gid
      uid := start.uid }

def sbdJobNew (s : SbdState) (j : JobId) (outcome : StartOutcome) : SbdState × List SbdMsg :=
  match s.find j with
  | some job => (s, [.newJobReply j job.pid])
  | none =>
    match outcome with
    | .failed => (s, [.newJobReject j])
    | .started pid =>
      let job : SbdJob :=
        { jobId := j
          pid := pid
          pidAcked := false
          exitStatus := none
          savedAcked := false
          savedExit := none }
      ({ s with jobs := s.jobs ++ [job] }, [.newJobReply j pid])

def sbdJobNewReplyAck (s : SbdState) (j : JobId) : SbdState :=
  match s.find j with
  | none => s
  | some job =>
    if job.pidAcked then s
    else s.modify j fun job => SbdJob.write { job with pidAcked := true }

/-- `sbd_job_finish_ack`; `none` is `sbd_fatal`. -/
def sbdJobFinishAck (s : SbdState) (j : JobId) : Option SbdState :=
  match s.find j with
  | none => some s
  | some job =>
    if job.exitStatus.isSome then
      some { s with jobs := s.jobs.filter fun job => job.jobId ≠ j }
    else none

/-- `sbd_job_signal`: `delivered` is the outcome for a job that is held. -/
def sbdJobSignal (s : SbdState) (j : JobId) (sig : Int) (delivered : Bool) : List SbdMsg :=
  match s.find j with
  | none => [.signalReply j sig false]
  | some _ => [.signalReply j sig delivered]

/-- The loop of `sbd_register_ack`; `none` is `sbd_fatal`. -/
def sbdRegisterAck : List (JobId × Int) → SbdState → Option (SbdState × List SbdMsg)
  | [], s => some (s, [])
  | (j, mbdPid) :: rest, s =>
    match s.find j with
    | none => do
        let (s, sent) ← sbdRegisterAck rest s
        some (s, .jobMissing j :: sent)
    | some job =>
      if job.pid ≤ 0 then none
      else if mbdPid > 0 then
        if mbdPid = job.pid then sbdRegisterAck rest s else none
      else sbdRegisterAck rest (s.modify j fun job => { job with pidAcked := false })

def sbdHandle (s : SbdState) (msg : MbdMsg) (outcome : StartOutcome) (delivered : Bool) :
    Option (SbdState × List SbdMsg) :=
  match msg with
  | .newJob start => some (sbdJobNew s start.jobId outcome)
  | .newJobReplyAck j => some (sbdJobNewReplyAck s j, [])
  | .jobFinishAck j => (sbdJobFinishAck s j).map fun s => (s, [])
  | .jobSignal j sig => some (s, sbdJobSignal s j sig delivered)
  | .registerAck jobs => sbdRegisterAck jobs s

/-- `sbd_job_new_reply` from the timer: a job whose pid is not acknowledged. -/
def jobNewDrive (s : SbdState) (j : JobId) : Option (List SbdMsg) := do
  let job ← s.find j
  if job.pidAcked then none else some [.newJobReply j job.pid]

def exitSuccess (status : Int) : Bool :=
  status % 128 = 0 && status / 256 % 256 = 0

/-- `sbd_job_finish` from the timer: the pid is acknowledged and the exit status known. -/
def jobFinishDrive (s : SbdState) (j : JobId) : Option (List SbdMsg) := do
  let job ← s.find j
  let status ← job.exitStatus
  if job.pidAcked then some [.jobFinish j (exitSuccess status) status] else none

def jobExited (s : SbdState) (j : JobId) (status : Int) : SbdState :=
  s.modify j fun job => { job with exitStatus := some status }

/-- Every job's state is written. -/
def sbdMbdLinkDown (s : SbdState) : SbdState :=
  { s with jobs := s.jobs.map SbdJob.write }

/-- `sbd_job_state_load_all` of a new process, where each state file reads back as it was written. -/
def sbdJobStateLoadAll (s : SbdState) : SbdState :=
  { s with
    jobs := s.jobs.map fun job =>
      { job with
        pidAcked := job.savedAcked
        exitStatus := job.savedExit } }

end LavaLite.Sbd
