import Mathlib.Data.List.Induction
import LavaLite.Sbd.Daemon

/-
What the timer of an sbd does with a job: the deadline, and the two ways to learn how the job
ended.  A process that this sbd started is reaped with its wait status; one that an earlier
sbd started is found dead, and its exit code is in a file.
-/

namespace LavaLite.Sbd

open Base Batch List

/-! ### The timer -/

/-- The fields of `struct sbd_job` that the timer and the finish report use. -/
structure TimedJob where
  jobId : JobId
  pid : Int
  pidAcked : Bool
  finishAcked : Bool
  finishLastSend : Time
  retryExitCount : Nat
  exitStatus : Int
  exitStatusValid : Bool
  endTime : Time
  terminateTime : Time
  terminateKillTime : Time
  deriving DecidableEq, Repr

inductive TimerSignal where
  /-- `killpg(job->pgid, SIGUSR2)`. -/
  | usr2
  /-- `cgroup_job_kill`. -/
  | kill
  deriving DecidableEq, Repr

def jobTerminateCheck (now : Time) (job : TimedJob) : TimedJob × List TimerSignal :=
  if job.terminateTime ≤ 0 then (job, [])
  else if job.exitStatusValid then (job, [])
  else if job.terminateTime ≤ now ∧ job.terminateKillTime = 0 then
    ({ job with terminateTime := 0, terminateKillTime := now + 60 }, [.usr2])
  else if 0 < job.terminateKillTime ∧ job.terminateKillTime ≤ now then
    ({ job with terminateKillTime := 0 }, [.kill])
  else (job, [])

/-- The code and the time in the file, of which 63 bytes are read. -/
def sbdReadExitStatusFile (file : Option (List Char)) : Option (Int × Int) := do
  let text ← file
  let buf := text.take 63
  if buf = [] then none
  else
    match scanNumbers [.int, .long] buf with
    | some ([code, ts], _) => some (code, ts)
    | _ => none

structure Tick where
  now : Time
  /-- The wait status of the job's process, if it was reaped since the last tick. -/
  reaped : Option Int
  /-- `sbd_pid_alive`. -/
  alive : Bool
  /-- The file `exit` of the job. -/
  exitFile : Option (List Char)
  deriving DecidableEq, Repr

/-- `sbd_reap_children`, for the process of the job. -/
def sbdReap (status : Int) (now : Time) (job : TimedJob) : TimedJob :=
  { job with exitStatus := status, exitStatusValid := true, endTime := now }

/-- The body of `job_status_checking`; `none` is its `assert`. -/
def jobStatusCheck (tick : Tick) (job : TimedJob) : Option (TimedJob × List TimerSignal) :=
  if job.exitStatusValid then some (job, [])
  else if job.finishAcked then none
  else if job.pidAcked = false then some (job, [])
  else
    let (job, sent) := jobTerminateCheck tick.now job
    if tick.alive then some (job, sent)
    else
      match sbdReadExitStatusFile tick.exitFile with
      | none =>
        let job := { job with retryExitCount := job.retryExitCount + 1 }
        if job.retryExitCount < 3 then some (job, sent)
        else some ({ job with finishLastSend := 0, exitStatusValid := true, exitStatus := 1 }, sent)
      | some (code, _) =>
        some ({ job with finishLastSend := 0, exitStatusValid := true, exitStatus := code }, sent)

/-- The timer rings: children are reaped first. -/
def timerTick (tick : Tick) (job : TimedJob) : Option (TimedJob × List TimerSignal) :=
  match tick.reaped with
  | none => jobStatusCheck tick job
  | some status => jobStatusCheck tick (sbdReap status tick.now job)

def runTicks (job : TimedJob) (ticks : List Tick) : Option TimedJob :=
  ticks.foldlM (fun job tick => (timerTick tick job).map Prod.fst) job

/-- `sbd_job_finish`; `none` is one of its `assert`s. -/
def sbdJobFinish (job : TimedJob) : Option SbdMsg :=
  if job.pidAcked = false ∨ job.finishAcked = true ∨ job.exitStatusValid = false then none
  else some (.jobFinish job.jobId (exitSuccess job.exitStatus) job.exitStatus)

theorem jobTerminateCheck_fst (now : Time) (job : TimedJob) :
    ∃ deadline kill, (jobTerminateCheck now job).1 =
      { job with terminateTime := deadline, terminateKillTime := kill } := by
  unfold jobTerminateCheck
  split_ifs
  · exact ⟨_, _, rfl⟩
  · exact ⟨_, _, rfl⟩
  · exact ⟨_, _, rfl⟩
  · exact ⟨_, _, rfl⟩
  · exact ⟨_, _, rfl⟩

/-! ### The end of the job script -/

/-- How the user's command ends: with a code, and by running into the end of the script or not. -/
structure Ending where
  code : Nat
  code_lt : code < 256
  through : Bool

/-- What `echo "$ExitStat $(date +%s)"` writes. -/
def exitFileText (code : Nat) (date : Int) : List Char :=
  decimalDigits code ++ (' ' :: decimalDigits date ++ ['\n'])

/-- The file `exit` that the script leaves: its last lines do not run when the command exits. -/
def Ending.exitFile (e : Ending) (date : Int) : Option (List Char) :=
  if e.through then some (exitFileText e.code date) else none

/-- The wait status of the script, which exits with the command's code either way. -/
def Ending.waitStatus (e : Ending) : Int :=
  e.code * 256

def Ending.recovered (e : Ending) : Int :=
  if e.through then e.code else 1

theorem length_exitFileText {code : Nat} {date : Int} (small : code < 256)
    (fits : NumKind.long.Fits date) : (exitFileText code date).length ≤ 63 := by
  have digits : (decimalDigits (code : Int)).length ≤ 3 := by
    rw [decimalDigits, if_neg (by omega)]
    apply length_natDigits_le _ (by decide)
    omega
  have long : (decimalDigits date).length ≤ 20 := by
    obtain ⟨lower, upper⟩ := fits
    have magnitude : date.natAbs < 10 ^ 19 := by omega
    rw [decimalDigits]
    split
    · exact Nat.succ_le_succ (length_natDigits_le magnitude (by decide))
    · exact Nat.le_succ_of_le (length_natDigits_le magnitude (by decide))
  rw [exitFileText]
  simp only [length_append, length_cons, length_nil]
  omega

theorem sbdReadExitStatusFile_text {code : Nat} {date : Int} (small : code < 256)
    (fits : NumKind.long.Fits date) :
    sbdReadExitStatusFile (some (exitFileText code date)) = some ((code : Int), date) := by
  have whole : (exitFileText code date).take 63 = exitFileText code date :=
    take_of_length_le (length_exitFileText small fits)
  have filled : exitFileText code date ≠ [] :=
    append_ne_nil_of_left_ne_nil (decimalDigits_ne_nil _) _
  have stops : NoDigit ['\n'] := by
    intro c first
    cases first
    decide
  have row : List.Forall₂ NumKind.Fits [.int, .long] [(code : Int), date] := by
    refine .cons ⟨?_, ?_⟩ (.cons fits .nil)
    · unfold intMin
      omega
    · unfold intMax
      omega
  have blank : scanNumbers [.int, .long] (exitFileText code date) =
      scanNumbers [.int, .long] (writeNumbers [(code : Int), date] ++ ['\n']) := by
    have same : writeNumbers [(code : Int), date] ++ ['\n'] = ' ' :: exitFileText code date := by
      simp [writeNumbers, exitFileText]
    have skipped : skipWs (' ' :: exitFileText code date) = skipWs (exitFileText code date) :=
      dropWhile_cons_of_pos (by decide)
    rw [same]
    simp only [scanNumbers, scanInteger, skipped]
  rw [sbdReadExitStatusFile, Option.bind_eq_bind, Option.bind_some, whole, if_neg filled, blank,
    scanNumbers_writeNumbers stops row]

/-! ### Recovering an exit status -/

/-- The job has not ended for all this sbd knows, after `k` failed attempts to read the file. -/
structure Awaited (j : JobId) (k : Nat) (job : TimedJob) : Prop where
  jobId : job.jobId = j
  acked : job.pidAcked = true
  unfinished : job.finishAcked = false
  unknown : job.exitStatusValid = false
  retries : job.retryExitCount = k

structure Concluded (j : JobId) (status : Int) (job : TimedJob) : Prop where
  jobId : job.jobId = j
  acked : job.pidAcked = true
  unfinished : job.finishAcked = false
  known : job.exitStatusValid = true
  status_eq : job.exitStatus = status

variable {j : JobId} {k : Nat} {status : Int} {job : TimedJob} {t : Tick}

theorem Awaited.check (awaited : Awaited j k job) (now : Time) :
    Awaited j k (jobTerminateCheck now job).1 := by
  obtain ⟨deadline, kill, same⟩ := jobTerminateCheck_fst now job
  rw [same]
  exact ⟨awaited.jobId, awaited.acked, awaited.unfinished, awaited.unknown, awaited.retries⟩

theorem Awaited.statusCheck (awaited : Awaited j k job) :
    jobStatusCheck t job = if t.alive then some (jobTerminateCheck t.now job)
      else
        match sbdReadExitStatusFile t.exitFile with
        | none =>
          if k + 1 < 3 then
            some ({ (jobTerminateCheck t.now job).1 with retryExitCount := k + 1 },
              (jobTerminateCheck t.now job).2)
          else
            some ({ (jobTerminateCheck t.now job).1 with
              retryExitCount := k + 1
              finishLastSend := 0
              exitStatusValid := true
              exitStatus := 1 }, (jobTerminateCheck t.now job).2)
        | some (code, _) =>
          some ({ (jobTerminateCheck t.now job).1 with
            finishLastSend := 0
            exitStatusValid := true
            exitStatus := code }, (jobTerminateCheck t.now job).2) := by
  have retries := (awaited.check t.now).retries
  rw [jobStatusCheck, if_neg (by simp [awaited.unknown]), if_neg (by simp [awaited.unfinished]),
    if_neg (by simp [awaited.acked])]
  simp only [retries]

theorem Awaited.tick (awaited : Awaited j k job) (unreaped : t.reaped = none) :
    ∃ job', (timerTick t job).map Prod.fst = some job' ∧ (t.alive = true ∧ Awaited j k job' ∨
        t.alive = false ∧
          match sbdReadExitStatusFile t.exitFile with
          | none => k + 1 < 3 ∧ Awaited j (k + 1) job' ∨ 3 ≤ k + 1 ∧ Concluded j 1 job'
          | some (code, _) => Concluded j code job') := by
  have checked := awaited.check t.now
  rw [timerTick, unreaped]
  simp only
  rw [awaited.statusCheck]
  cases alive : t.alive with
  | true => exact ⟨_, rfl, .inl ⟨rfl, checked⟩⟩
  | false =>
    rw [if_neg Bool.false_ne_true]
    cases sbdReadExitStatusFile t.exitFile with
    | none =>
      dsimp only
      split_ifs with few
      · refine ⟨_, rfl, .inr ⟨rfl, .inl ⟨few, ?_⟩⟩⟩
        exact ⟨checked.jobId, checked.acked, checked.unfinished, checked.unknown, rfl⟩
      · refine ⟨_, rfl, .inr ⟨rfl, .inr ⟨by omega, ?_⟩⟩⟩
        exact ⟨checked.jobId, checked.acked, checked.unfinished, rfl, rfl⟩
    | some found =>
      refine ⟨_, rfl, .inr ⟨rfl, ?_⟩⟩
      exact ⟨checked.jobId, checked.acked, checked.unfinished, rfl, rfl⟩

theorem Concluded.tick (concluded : Concluded j status job) (unreaped : t.reaped = none) :
    (timerTick t job).map Prod.fst = some job := by
  rw [timerTick, unreaped]
  simp only
  rw [jobStatusCheck, if_pos concluded.known]
  rfl

theorem Concluded.runTicks (concluded : Concluded j status job) {ticks : List Tick}
    (unreaped : ∀ t ∈ ticks, t.reaped = none) : runTicks job ticks = some job := by
  induction ticks with
  | nil => rfl
  | cons first ticks ih =>
    have ticked := concluded.tick (unreaped first mem_cons_self)
    rw [Sbd.runTicks, foldlM_cons, ticked]
    exact ih fun later member => unreaped later (mem_cons_of_mem first member)

/-- The ticks of an sbd that did not start the job and finds the file its end left behind. -/
def Recovering (e : Ending) (date : Int) (ticks : List Tick) : Prop :=
  ∀ t ∈ ticks, t.reaped = none ∧ (t.alive = false → t.exitFile = e.exitFile date)

theorem Awaited.recovers {e : Ending} {date : Int} (fits : NumKind.long.Fits date)
    (awaited : Awaited j k job) (few : k < 3) {ticks : List Tick}
    (recovering : Recovering e date ticks) (enough : 3 ≤ k + ticks.countP fun t => !t.alive) :
    ∃ job', runTicks job ticks = some job' ∧ Concluded j e.recovered job' := by
  induction ticks generalizing job k with
  | nil => exact absurd enough (by simp; omega)
  | cons t ticks ih =>
    obtain ⟨unreaped, file⟩ := recovering t mem_cons_self
    have later : Recovering e date ticks :=
      fun t' member => recovering t' (mem_cons_of_mem t member)
    have quiet : ∀ t ∈ ticks, t.reaped = none := fun t' member => (later t' member).1
    obtain ⟨job', ticked, outcome⟩ := awaited.tick unreaped
    have run : runTicks job (t :: ticks) = runTicks job' ticks := by
      rw [runTicks, foldlM_cons, ticked]
      rfl
    rw [run]
    rw [countP_cons] at enough
    rcases outcome with ⟨alive, awaited'⟩ | ⟨dead, outcome⟩
    · rw [alive] at enough
      exact ih awaited' few later (by simpa using enough)
    · rw [dead] at enough
      rw [file dead] at outcome
      cases through : e.through with
      | true =>
        rw [Ending.exitFile, through, if_pos rfl,
          sbdReadExitStatusFile_text e.code_lt fits] at outcome
        have status : e.recovered = e.code := by rw [Ending.recovered, through, if_pos rfl]
        rw [status]
        exact ⟨job', outcome.runTicks quiet, outcome⟩
      | false =>
        rw [Ending.exitFile, through, if_neg Bool.false_ne_true] at outcome
        have status : e.recovered = 1 := by
          rw [Ending.recovered, through, if_neg Bool.false_ne_true]
        rcases outcome with ⟨few', awaited'⟩ | ⟨-, concluded⟩
        · exact ih awaited' few' later (by simp at enough; omega)
        · rw [status]
          exact ⟨job', concluded.runTicks quiet, concluded⟩

theorem Concluded.finish (concluded : Concluded j status job) :
    sbdJobFinish job = some (.jobFinish j (exitSuccess status) status) := by
  rw [sbdJobFinish, concluded.acked, concluded.unfinished, concluded.known, concluded.jobId,
    concluded.status_eq]
  simp

/-- The job of a new sbd process, as `sbd_job_state_load_all` makes it: no deadline is saved. -/
def TimedJob.restarted (job : TimedJob) : TimedJob :=
  { job with
    finishLastSend := 0
    retryExitCount := 0
    terminateTime := 0
    terminateKillTime := 0 }

/--
What an sbd that reaped the process reports, and what one reports that was started
while the job ran and found the process dead, are the same exactly when the command
ran into the end of the script with code 0.
-/
theorem recovered_report_iff {job : TimedJob} {j : JobId} {k : Nat} (awaited : Awaited j k job)
    (e : Ending) (now : Time) {date : Int} (fits : NumKind.long.Fits date) {ticks : List Tick}
    (recovering : Recovering e date ticks) (enough : 3 ≤ ticks.countP fun t => !t.alive) :
    ∃ reaped recovered, sbdJobFinish (sbdReap e.waitStatus now job) = some reaped ∧
      (runTicks job.restarted ticks).bind sbdJobFinish = some recovered ∧
      (reaped = recovered ↔ e.through = true ∧ e.code = 0) := by
  have again : Awaited j 0 job.restarted :=
    ⟨awaited.jobId, awaited.acked, awaited.unfinished, awaited.unknown, rfl⟩
  obtain ⟨job', run, concluded⟩ := again.recovers fits (by decide) recovering (by omega)
  have known : Concluded j e.waitStatus (sbdReap e.waitStatus now job) :=
    ⟨awaited.jobId, awaited.acked, awaited.unfinished, rfl, rfl⟩
  refine ⟨_, _, known.finish, by rw [run]; exact concluded.finish, ?_⟩
  have reports : (SbdMsg.jobFinish j (exitSuccess e.waitStatus) e.waitStatus =
      .jobFinish j (exitSuccess e.recovered) e.recovered) ↔ e.waitStatus = e.recovered := by
    constructor
    · intro same
      injection same
    · intro same
      rw [same]
  rw [reports, Ending.waitStatus, Ending.recovered]
  cases e.through with
  | true =>
    rw [if_pos rfl]
    constructor
    · intro same
      exact ⟨rfl, by omega⟩
    · rintro ⟨-, zero⟩
      rw [zero]
      rfl
  | false =>
    rw [if_neg Bool.false_ne_true]
    constructor
    · intro same
      omega
    · rintro ⟨through, -⟩
      cases through

def runningJob : TimedJob :=
  { jobId := 7, pid := 100, pidAcked := true, finishAcked := false, finishLastSend := 0
    retryExitCount := 0, exitStatus := 0, exitStatusValid := false, endTime := 0
    terminateTime := 0, terminateKillTime := 0 }

def lateTicks (e : Ending) : List Tick :=
  List.replicate 3 { now := 2000, reaped := none, alive := false, exitFile := e.exitFile 1990 }

def cleanEnding : Ending :=
  { code := 0, code_lt := by decide, through := true }

theorem recovered_report_iff_clean :
    ∃ report, sbdJobFinish (sbdReap cleanEnding.waitStatus 1990 runningJob) = some report ∧
      (runTicks runningJob.restarted (lateTicks cleanEnding)).bind sbdJobFinish = some report := by
  have awaited : Awaited 7 0 runningJob := ⟨rfl, rfl, rfl, rfl, rfl⟩
  have fits : NumKind.long.Fits 1990 := by decide
  have recovering : Recovering cleanEnding 1990 (lateTicks cleanEnding) := by
    intro t member
    rw [eq_of_mem_replicate member]
    exact ⟨rfl, fun _ => rfl⟩
  obtain ⟨reaped, recovered, first, second, same⟩ :=
    recovered_report_iff awaited cleanEnding 1990 fits recovering (by decide)
  exact ⟨reaped, first, same.mpr ⟨rfl, rfl⟩ ▸ second⟩

def signalLikeEnding : Ending :=
  { code := 128, code_lt := by decide, through := true }

theorem recovered_as_success :
    sbdJobFinish (sbdReap signalLikeEnding.waitStatus 1990 runningJob) =
        some (.jobFinish 7 false 32768) ∧
      (runTicks runningJob.restarted (lateTicks signalLikeEnding)).bind sbdJobFinish =
        some (.jobFinish 7 true 128) := by
  decide +kernel

/-! ### Deadlines -/

/-! ### What is due at a tick -/

/-- What the timer sends at a tick that comes after others. -/
def signalsAt (job : TimedJob) (before : List Tick) (t : Tick) : List TimerSignal :=
  (((runTicks job before).bind (timerTick t)).map Prod.snd).getD []

def StillRuns (job : TimedJob) (before : List Tick) (t : Tick) : Prop :=
  t.reaped = none ∧ ∃ job', runTicks job before = some job' ∧ job'.exitStatusValid = false

/-- The first tick at or after the deadline of a job that still runs. -/
def WarningDue (job : TimedJob) (before : List Tick) (t : Tick) : Prop :=
  (∀ earlier ∈ before, earlier.now < job.terminateTime) ∧ job.terminateTime ≤ t.now ∧
    StillRuns job before t

/-- The first tick at least a minute after the warning, if the job still runs. -/
def KillDue (job : TimedJob) (before : List Tick) (t : Tick) : Prop :=
  ∃ past warned since, before = past ++ warned :: since ∧ WarningDue job past warned ∧
    (∀ earlier ∈ since, earlier.now < warned.now + 60) ∧ warned.now + 60 ≤ t.now ∧
    StillRuns job before t

def DeadlineKept (job : TimedJob) (ticks : List Tick) : Prop :=
  ∀ before t after, ticks = before ++ t :: after →
    (WarningDue job before t → signalsAt job before t = [.usr2]) ∧
    (KillDue job before t → signalsAt job before t = [.kill]) ∧
    (¬WarningDue job before t → ¬KillDue job before t → signalsAt job before t = [])

/-! ### The stages the code goes through -/

/-- Where a job with a deadline stands after some ticks. -/
inductive Stage (deadline : Time) (before : List Tick) (job : TimedJob) : Prop where
  | ended (known : job.exitStatusValid = true)
  | waiting (unknown : job.exitStatusValid = false)
      (early : ∀ t ∈ before, t.now < deadline) (armed : job.terminateTime = deadline)
      (unset : job.terminateKillTime = 0)
  | warned (unknown : job.exitStatusValid = false) (late : ∃ t ∈ before, deadline ≤ t.now)
      (cleared : job.terminateTime = 0)

structure OnList (job : TimedJob) : Prop where
  acked : job.pidAcked = true
  unfinished : job.finishAcked = false

variable {deadline : Time} {before : List Tick}

theorem runTicks_concat (job : TimedJob) (before : List Tick) (t : Tick) :
    runTicks job (before ++ [t]) =
      (runTicks job before).bind fun job' => (timerTick t job').map Prod.fst := by
  rw [runTicks, foldlM_append]
  cases ran : runTicks job before with
  | none =>
    rw [runTicks] at ran
    rw [ran]
    rfl
  | some job' =>
    rw [runTicks] at ran
    rw [ran]
    change ((timerTick t job').map Prod.fst).bind some = (timerTick t job').map Prod.fst
    cases (timerTick t job').map Prod.fst <;> rfl

theorem jobTerminateCheck_early (armed : job.terminateTime = deadline)
    (unset : job.terminateKillTime = 0) (early : t.now < deadline) :
    jobTerminateCheck t.now job = (job, []) := by
  have notDue : ¬(job.terminateTime ≤ t.now ∧ job.terminateKillTime = 0) :=
    fun due => absurd (Int.lt_of_lt_of_le early (armed ▸ due.1)) (Int.lt_irrefl _)
  have notArmed : ¬(0 < job.terminateKillTime ∧ job.terminateKillTime ≤ t.now) :=
    fun due => absurd (unset ▸ due.1) (Int.lt_irrefl 0)
  rw [jobTerminateCheck, if_neg notDue, if_neg notArmed, ite_self, ite_self]

theorem jobTerminateCheck_due (positive : 0 < deadline) (armed : job.terminateTime = deadline)
    (unset : job.terminateKillTime = 0) (unknown : job.exitStatusValid = false)
    (due : deadline ≤ t.now) :
    jobTerminateCheck t.now job =
      ({ job with terminateTime := 0, terminateKillTime := t.now + 60 }, [.usr2]) := by
  have set : ¬job.terminateTime ≤ 0 := Int.not_le.mpr (armed.symm ▸ positive)
  have running : ¬job.exitStatusValid = true := by rw [unknown]; exact Bool.false_ne_true
  rw [jobTerminateCheck, if_neg set, if_neg running, if_pos ⟨armed.symm ▸ due, unset⟩]

theorem OnList.statusCheck (listed : OnList job) (unknown : job.exitStatusValid = false) :
    ∃ job', jobStatusCheck t job = some (job', (jobTerminateCheck t.now job).2) ∧ OnList job' ∧
      job'.terminateTime = (jobTerminateCheck t.now job).1.terminateTime ∧
      job'.terminateKillTime = (jobTerminateCheck t.now job).1.terminateKillTime := by
  have awaited : Awaited job.jobId job.retryExitCount job :=
    ⟨rfl, listed.acked, listed.unfinished, unknown, rfl⟩
  have checked := awaited.check t.now
  have still : OnList (jobTerminateCheck t.now job).1 := ⟨checked.acked, checked.unfinished⟩
  rw [awaited.statusCheck]
  cases t.alive with
  | true => exact ⟨_, rfl, still, rfl, rfl⟩
  | false =>
    rw [if_neg Bool.false_ne_true]
    cases sbdReadExitStatusFile t.exitFile with
    | none =>
      dsimp only
      split_ifs
      · exact ⟨_, rfl, ⟨still.acked, still.unfinished⟩, rfl, rfl⟩
      · exact ⟨_, rfl, ⟨still.acked, still.unfinished⟩, rfl, rfl⟩
    | some found => exact ⟨_, rfl, ⟨still.acked, still.unfinished⟩, rfl, rfl⟩

/-- One tick: the warning is sent when the stage before it ends, and never anything else. -/
theorem Stage.tick (positive : 0 < deadline) (stage : Stage deadline before job)
    (listed : OnList job) : ∃ job' sent, timerTick t job = some (job', sent) ∧ OnList job' ∧
      Stage deadline (before ++ [t]) job' ∧
      sent = if t.reaped = none ∧ job.exitStatusValid = false ∧
          (∀ earlier ∈ before, earlier.now < deadline) ∧ deadline ≤ t.now then [.usr2] else [] := by
  cases reaped : t.reaped with
  | some status =>
    have ended : (sbdReap status t.now job).exitStatusValid = true := rfl
    refine ⟨sbdReap status t.now job, [], ?_, ⟨listed.acked, listed.unfinished⟩, .ended ended, ?_⟩
    · rw [timerTick, reaped]
      simp only
      rw [jobStatusCheck, if_pos ended]
    · simp
  | none =>
    rw [timerTick, reaped]
    dsimp only
    cases stage with
    | ended known =>
      refine ⟨job, [], ?_, listed, .ended known, ?_⟩
      · rw [jobStatusCheck, if_pos known]
      · simp [known]
    | waiting unknown early armed unset =>
      obtain ⟨job', checked, listed', deadline', kill'⟩ := listed.statusCheck (t := t) unknown
      by_cases due : deadline ≤ t.now
      · rw [jobTerminateCheck_due positive armed unset unknown due] at checked deadline' kill'
        refine ⟨job', _, checked, listed', ?_, (if_pos ⟨rfl, unknown, early, due⟩).symm⟩
        cases known : job'.exitStatusValid with
        | true => exact .ended known
        | false => exact .warned known ⟨t, by simp, due⟩ deadline'
      · have soon : t.now < deadline := Int.not_le.mp due
        rw [jobTerminateCheck_early armed unset soon] at checked deadline' kill'
        refine ⟨job', _, checked, listed', ?_, ?_⟩
        · cases known : job'.exitStatusValid with
          | true => exact .ended known
          | false =>
            refine .waiting known ?_ (deadline'.trans armed) (kill'.trans unset)
            intro earlier member
            rcases mem_append.mp member with member | member
            · exact early earlier member
            · exact mem_singleton.mp member ▸ soon
        · rw [if_neg fun all => due all.2.2.2]
    | warned unknown late cleared =>
      obtain ⟨job', checked, listed', deadline', -⟩ := listed.statusCheck (t := t) unknown
      rw [jobTerminateCheck, if_pos (Int.le_of_eq cleared)] at checked deadline'
      obtain ⟨past, member, reached⟩ := late
      refine ⟨job', _, checked, listed', ?_, ?_⟩
      · cases known : job'.exitStatusValid with
        | true => exact .ended known
        | false =>
          exact .warned known ⟨past, mem_append_left _ member, reached⟩
            (deadline'.trans cleared)
      · rw [if_neg fun all => absurd (all.2.2.1 past member) (Int.not_lt.mpr reached)]

theorem stage_of_runTicks (positive : 0 < job.terminateTime) (unset : job.terminateKillTime = 0)
    (unknown : job.exitStatusValid = false) (listed : OnList job) (before : List Tick) :
    ∃ job', runTicks job before = some job' ∧ OnList job' ∧ Stage job.terminateTime before job' := by
  induction before using List.reverseRecOn with
  | nil => exact ⟨job, rfl, listed, .waiting unknown (by simp) rfl unset⟩
  | append_singleton before t ih =>
    obtain ⟨job', ran, listed', stage⟩ := ih
    obtain ⟨job'', sent, ticked, listed'', stage', -⟩ := stage.tick (t := t) positive listed'
    refine ⟨job'', ?_, listed'', stage'⟩
    rw [runTicks_concat, ran, Option.bind_some, ticked, Option.map_some]

theorem signalsAt_eq (positive : 0 < job.terminateTime) (unset : job.terminateKillTime = 0)
    (unknown : job.exitStatusValid = false) (listed : OnList job) (before : List Tick) (t : Tick) :
    (WarningDue job before t → signalsAt job before t = [.usr2]) ∧
      (¬WarningDue job before t → signalsAt job before t = []) := by
  obtain ⟨job', ran, listed', stage⟩ := stage_of_runTicks positive unset unknown listed before
  obtain ⟨job'', sent, ticked, -, -, sends⟩ := stage.tick (t := t) positive listed'
  have signals : signalsAt job before t = sent := by
    rw [signalsAt, ran, Option.bind_some, ticked]
    rfl
  have due : WarningDue job before t ↔ t.reaped = none ∧ job'.exitStatusValid = false ∧
      (∀ earlier ∈ before, earlier.now < job.terminateTime) ∧ job.terminateTime ≤ t.now := by
    constructor
    · rintro ⟨early, reached, unreaped, last, ran', running⟩
      cases ran.symm.trans ran'
      exact ⟨unreaped, running, early, reached⟩
    · rintro ⟨unreaped, running, early, reached⟩
      exact ⟨early, reached, unreaped, job', ran, running⟩
  rw [signals, sends, due]
  exact ⟨fun now => if_pos now, fun other => if_neg other⟩

/--
For every job with a deadline and every row of ticks, the timer does what it is meant
to do exactly when the job never runs on into a tick a minute after the warning.
-/
theorem deadlineKept_iff {job : TimedJob} (positive : 0 < job.terminateTime)
    (unset : job.terminateKillTime = 0) (unknown : job.exitStatusValid = false)
    (listed : OnList job) (ticks : List Tick) :
    DeadlineKept job ticks ↔
      ∀ before t after, ticks = before ++ t :: after → ¬KillDue job before t := by
  have sends := signalsAt_eq positive unset unknown listed
  constructor
  · intro kept before t after split due
    have killed := (kept before t after split).2.1 due
    by_cases warning : WarningDue job before t
    · rw [(sends before t).1 warning] at killed
      cases killed
    · rw [(sends before t).2 warning] at killed
      cases killed
  · intro never before t after split
    refine ⟨(sends before t).1, fun due => absurd due (never before t after split), ?_⟩
    exact fun quiet _ => (sends before t).2 quiet

def urgentJob : TimedJob :=
  { runningJob with terminateTime := 100 }

def aliveAt (now : Time) : Tick :=
  { now := now, reaped := none, alive := true, exitFile := none }

theorem deadlineKept_iff_inTime : DeadlineKept urgentJob [aliveAt 100, aliveAt 130] := by
  have positive : 0 < urgentJob.terminateTime := by decide
  refine (deadlineKept_iff positive rfl rfl ⟨rfl, rfl⟩ _).mpr ?_
  rintro before t after split ⟨past, warned, since, rfl, due, -, reached, -⟩
  -- no tick is a minute after one at or after the deadline
  have first : warned ∈ [aliveAt 100, aliveAt 130] := by rw [split]; simp
  have second : t ∈ [aliveAt 100, aliveAt 130] := by rw [split]; simp
  simp only [mem_cons, not_mem_nil, or_false] at first second
  rcases first with rfl | rfl
  · rcases second with rfl | rfl
    · exact absurd reached (by decide)
    · exact absurd reached (by decide)
  · rcases second with rfl | rfl
    · exact absurd reached (by decide)
    · exact absurd reached (by decide)

theorem urgentJob_not_killed : ¬DeadlineKept urgentJob [aliveAt 100, aliveAt 160] := by
  intro kept
  have due : KillDue urgentJob [aliveAt 100] (aliveAt 160) := by
    refine ⟨[], aliveAt 100, [], rfl, ?_, by simp, by decide, rfl, _, rfl, rfl⟩
    exact ⟨by simp, by decide, rfl, _, rfl, rfl⟩
  have silent : signalsAt urgentJob [aliveAt 100] (aliveAt 160) = [] := rfl
  have killed := (kept [aliveAt 100] (aliveAt 160) [] rfl).2.1 due
  rw [silent] at killed
  cases killed

end LavaLite.Sbd
