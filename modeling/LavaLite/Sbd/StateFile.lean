import LavaLite.Mbd.Files
import LavaLite.Sbd.Daemon

/-
The state file of a job on a host.  `sbd_job_state_write` prints the fields of the job into
a buffer of 4096 characters; after a restart `sbd_job_state_read` takes them from lines of
at most 511.  The deadline is not among them.
-/

namespace LavaLite.Sbd

open Base Batch List
open Mbd (sidecarLines foldl_sidecarLines mem_sidecarLines)

/-- The fields of `struct sbd_job` that a running job needs after a restart. -/
structure JobRecord where
  jobId : Int64
  pid : Int32
  pgid : Int32
  pidAcked : Bool
  timePidAcked : Int64
  finishAcked : Bool
  timeFinishAcked : Int64
  exitStatusValid : Bool
  exitStatus : Int32
  endTime : Int64
  userCwd : List Char
  userHome : List Char
  uid : UInt32
  gid : UInt32
  user : List Char
  terminateTime : Int64
  terminateKillTime : Int64
  deriving DecidableEq

/-- The keys of the file, in the order they are written. -/
inductive StateKey where
  | version | jobId | pid | pgid | pidAcked | timePidAcked | finishAcked | timeFinishAcked
  | exitStatusValid | exitStatus | endTime | userCwd | userHome | uid | group | user
  deriving DecidableEq

def StateKey.name : StateKey → String
  | .version => "version"
  | .jobId => "job_id"
  | .pid => "pid"
  | .pgid => "pgid"
  | .pidAcked => "pid_acked"
  | .timePidAcked => "time_pid_acked"
  | .finishAcked => "finish_acked"
  | .timeFinishAcked => "time_finish_acked"
  | .exitStatusValid => "exit_status_valid"
  | .exitStatus => "exit_status"
  | .endTime => "end_time"
  | .userCwd => "user_cwd"
  | .userHome => "user_home"
  | .uid => "uid"
  | .group => "group"
  | .user => "user"

def StateKey.all : List StateKey :=
  [.version, .jobId, .pid, .pgid, .pidAcked, .timePidAcked, .finishAcked, .timeFinishAcked,
    .exitStatusValid, .exitStatus, .endTime, .userCwd, .userHome, .uid, .group, .user]

def StateKey.value (job : JobRecord) : StateKey → List Char
  | .version => decimalDigits 1
  | .jobId => decimalDigits job.jobId.toInt
  | .pid => decimalDigits job.pid.toInt
  | .pgid => decimalDigits job.pgid.toInt
  | .pidAcked => decimalDigits job.pidAcked.toNat
  | .timePidAcked => decimalDigits job.timePidAcked.toInt
  | .finishAcked => decimalDigits job.finishAcked.toNat
  | .timeFinishAcked => decimalDigits job.timeFinishAcked.toInt
  | .exitStatusValid => decimalDigits job.exitStatusValid.toNat
  | .exitStatus => decimalDigits job.exitStatus.toInt
  | .endTime => decimalDigits job.endTime.toInt
  | .userCwd => job.userCwd
  | .userHome => job.userHome
  | .uid => decimalDigits job.uid.toNat
  | .group => decimalDigits job.gid.toNat
  | .user => job.user

def StateKey.line (job : JobRecord) (key : StateKey) : List Char :=
  key.name.toList ++ '=' :: key.value job

/-- The text `sbd_job_state_write` formats, if its buffer holds it. -/
def sbdJobStateWrite (job : JobRecord) : Option (List Char) :=
  let text := (StateKey.all.map (StateKey.line job)).flatMap (· ++ ['\n'])
  if text.length < 4096 then some text else none

/-- `atoi` of glibc. -/
def atoi (val : List Char) : Int32 :=
  Int32.ofInt (atol val)

/-- What `sbd_job_state_read` has so far. -/
structure StateReading where
  job : JobRecord
  version : Int32
  gotJobId : Bool

def StateKey.store (val : List Char) (s : StateReading) : StateKey → StateReading
  | .version => { s with version := atoi val }
  | .jobId => { s with job.jobId := Int64.ofInt (atol val), gotJobId := true }
  | .pid => { s with job.pid := Int32.ofInt (atol val) }
  | .pgid => { s with job.pgid := Int32.ofInt (atol val) }
  | .pidAcked => { s with job.pidAcked := atoi val != 0 }
  | .timePidAcked => { s with job.timePidAcked := Int64.ofInt (atol val) }
  | .finishAcked => { s with job.finishAcked := atoi val != 0 }
  | .timeFinishAcked => { s with job.timeFinishAcked := Int64.ofInt (atol val) }
  | .exitStatusValid => { s with job.exitStatusValid := atoi val != 0 }
  | .exitStatus => { s with job.exitStatus := atoi val }
  | .endTime => { s with job.endTime := Int64.ofInt (atol val) }
  | .userCwd => { s with job.userCwd := val.take 4095 }
  | .userHome => { s with job.userHome := val.take 4095 }
  | .uid => { s with job.uid := (atoi val).toUInt32 }
  | .group => { s with job.gid := (atoi val).toUInt32 }
  | .user => { s with job.user := val.take 63 }

def readStateLine (s : StateReading) (line : List Char) : StateReading :=
  if '=' ∉ line then s
  else
    let key := line.takeWhile (· ≠ '=')
    let val := (line.drop (key.length + 1)).takeWhile fun c => c ≠ '\r' && c ≠ '\n'
    match StateKey.all.find? fun k => k.name.toList = key with
    | some k => k.store val s
    | none => s

def freshRecord : JobRecord :=
  { jobId := 0, pid := -1, pgid := -1, pidAcked := false, timePidAcked := 0,
    finishAcked := false, timeFinishAcked := 0, exitStatusValid := false, exitStatus := 0,
    endTime := 0, userCwd := [], userHome := [], uid := 0, gid := 0, user := [],
    terminateTime := 0, terminateKillTime := 0 }

def readState (text : List Char) : StateReading :=
  (sidecarLines 512 (text.length + 1) text).foldl readStateLine ⟨freshRecord, 0, false⟩

def sbdJobStateRead (text : List Char) : Option JobRecord :=
  let s := readState text
  if s.version ≠ 1 ∨ s.gotJobId = false then none else some s.job

/-- What `sbd_job_state_load_all` inserts for one file. -/
def sbdJobStateLoad (text : List Char) : Option JobRecord := do
  let job ← sbdJobStateRead text
  if job.finishAcked then none else some job

/-! ### All files of a host -/

/-- The record of a job on the list; `rest` has the fields the messages do not depend on. -/
def SbdJob.record (rest : JobRecord) (job : SbdJob) : JobRecord :=
  { rest with
    jobId := Int64.ofInt job.jobId
    pid := Int32.ofInt job.pid
    pidAcked := job.savedAcked
    finishAcked := false
    exitStatusValid := job.savedExit.isSome
    exitStatus := Int32.ofInt (job.savedExit.getD 0) }

def JobRecord.job (record : JobRecord) : SbdJob :=
  let exit := if record.exitStatusValid then some record.exitStatus.toInt else none
  { jobId := record.jobId.toInt
    pid := record.pid.toInt
    pidAcked := record.pidAcked
    exitStatus := exit
    savedAcked := record.pidAcked
    savedExit := exit }

/-- What the state files of a host say besides, and the files of jobs that have left the list. -/
structure StateDir where
  rest : JobId → JobRecord
  left : List (List Char)

/-- `sbd_job_state_load_all` on the files themselves. -/
def StateDir.load (dir : StateDir) (s : SbdState) : SbdState where
  jobs := ((s.jobs.filterMap fun job => sbdJobStateWrite (job.record (dir.rest job.jobId))) ++
    dir.left).filterMap fun text => (sbdJobStateLoad text).map JobRecord.job

/-! ### What the reader can hold -/

def OneLine (text : List Char) : Prop :=
  ∀ c ∈ text, c ≠ '\r' ∧ c ≠ '\n'

structure Readable (job : JobRecord) : Prop where
  cwdLength : job.userCwd.length ≤ 502
  homeLength : job.userHome.length ≤ 501
  cwd : OneLine job.userCwd
  home : OneLine job.userHome
  user : OneLine job.user
  terminate : job.terminateTime = 0 ∧ job.terminateKillTime = 0

theorem readable_fresh : Readable freshRecord where
  cwdLength := by decide
  homeLength := by decide
  cwd := nofun
  home := nofun
  user := nofun
  terminate := ⟨rfl, rfl⟩

variable {text : List Char} {key : StateKey} {s : StateReading} {job : JobRecord}

theorem OneLine.take (oneLine : OneLine text) (n : Nat) : OneLine (text.take n) :=
  fun c member => oneLine c (mem_of_mem_take member)

theorem StateKey.readable_store {val : List Char} (readable : Readable s.job)
    (oneLine : OneLine val) (short : key.name.length + 1 + val.length ≤ 511) :
    Readable (key.store val s).job := by
  cases key with
  | userCwd =>
    have length : val.length ≤ 502 := Nat.le_of_add_le_add_left (a := 9) short
    exact { readable with
      cwdLength := Nat.le_trans (length_take_le' ..) length
      cwd := oneLine.take _ }
  | userHome =>
    have length : val.length ≤ 501 := Nat.le_of_add_le_add_left (a := 10) short
    exact { readable with
      homeLength := Nat.le_trans (length_take_le' ..) length
      home := oneLine.take _ }
  | user => exact { readable with user := oneLine.take _ }
  | _ => exact { readable with }

theorem readStateLine_eq {key : List Char} (fresh : '=' ∉ key) (rest : List Char)
    (s : StateReading) :
    readStateLine s (key ++ '=' :: rest) =
      match StateKey.all.find? fun k => k.name.toList = key with
      | some k => k.store (rest.takeWhile fun c => c ≠ '\r' && c ≠ '\n') s
      | none => s := by
  rw [readStateLine, if_neg (not_not_intro (mem_append_right _ mem_cons_self))]
  simp only [takeWhile_separator fresh, drop_separator]

theorem readable_readStateLine {line : List Char} (readable : Readable s.job)
    (short : line.length ≤ 511) : Readable (readStateLine s line).job := by
  by_cases member : '=' ∈ line
  · obtain ⟨key, rest, rfl, fresh⟩ := eq_append_cons_of_mem member
    rw [readStateLine_eq fresh]
    cases found : StateKey.all.find? fun k => k.name.toList = key with
    | none => exact readable
    | some k =>
      have name : k.name.toList = key := by simpa using find?_some found
      have length : k.name.length = key.length := by rw [← name, String.length_toList]
      have cut := (takeWhile_sublist (fun c => c ≠ '\r' && c ≠ '\n') (l := rest)).length_le
      rw [length_append, length_cons] at short
      refine k.readable_store readable (fun c inside => ?_) (by omega)
      have other := mem_takeWhile_imp inside
      simpa using other
  · rw [readStateLine, if_pos member]
    exact readable

theorem readable_readState (text : List Char) : Readable (readState text).job := by
  unfold readState
  have short : ∀ line ∈ sidecarLines 512 (text.length + 1) text, line.length ≤ 511 :=
    fun line member => (mem_sidecarLines member).2
  generalize sidecarLines 512 (text.length + 1) text = lines at short ⊢
  have start : Readable (StateReading.mk freshRecord 0 false).job := readable_fresh
  generalize StateReading.mk freshRecord 0 false = s at start ⊢
  induction lines generalizing s with
  | nil => exact start
  | cons line lines ih =>
    obtain ⟨here, later⟩ := forall_mem_cons.mp short
    exact ih later _ (readable_readStateLine start here)

/-! ### What was written is read -/

theorem mem_value_number (v : Int) : OneLine (decimalDigits v) := by
  intro c member
  rcases mem_decimalDigits member with rfl | digit
  · decide
  · refine ⟨?_, ?_⟩ <;> (rintro rfl; exact absurd digit (by decide))

theorem OneLine.takeWhile (oneLine : OneLine text) :
    (text.takeWhile fun c => c ≠ '\r' && c ≠ '\n') = text := by
  rw [takeWhile_eq_self_iff]
  intro c member
  simpa using oneLine c member

theorem StateKey.readStateLine_line (oneLine : OneLine (key.value job)) (s : StateReading) :
    readStateLine s (key.line job) = key.store (key.value job) s := by
  have fresh : '=' ∉ key.name.toList := by cases key <;> decide
  have found : (StateKey.all.find? fun k => k.name.toList = key.name.toList) = some key := by
    cases key <;> decide +kernel
  rw [line, readStateLine_eq fresh, found, oneLine.takeWhile]

theorem atol_int64 (v : Int64) : Int64.ofInt (atol (decimalDigits v.toInt)) = v := by
  have lower := v.le_toInt
  have upper := v.toInt_lt
  rw [atol_decimal (by omega) (by omega), Int64.ofInt_toInt]

theorem atol_int32 (v : Int32) : Int32.ofInt (atol (decimalDigits v.toInt)) = v := by
  have lower := v.le_toInt
  have upper := v.toInt_lt
  rw [atol_decimal (by omega) (by omega), Int32.ofInt_toInt]

theorem atoi_int32 (v : Int32) : atoi (decimalDigits v.toInt) = v :=
  atol_int32 v

theorem atoi_uint32 (v : UInt32) : (atoi (decimalDigits v.toNat)).toUInt32 = v := by
  have small := v.toNat_lt
  rw [atoi, atol_decimal (by omega) (by omega)]
  exact UInt32.toBitVec_inj.mp (BitVec.ofNat_toNat 32 v.toBitVec)

theorem atoi_flag (b : Bool) : (atoi (decimalDigits b.toNat) != 0) = b := by
  cases b <;> decide +kernel

theorem StateKey.oneLine_value (cwd : OneLine job.userCwd) (home : OneLine job.userHome)
    (user : OneLine job.user) (key : StateKey) : OneLine (key.value job) := by
  cases key with
  | userCwd => exact cwd
  | userHome => exact home
  | user => exact user
  | _ => exact mem_value_number _

theorem foldl_store (job : JobRecord) (cwd : job.userCwd.length ≤ 4095)
    (home : job.userHome.length ≤ 4095) (user : job.user.length ≤ 63) :
    StateKey.all.foldl (fun s key => key.store (key.value job) s) ⟨freshRecord, 0, false⟩ =
      ⟨{ job with terminateTime := 0, terminateKillTime := 0 }, 1, true⟩ := by
  have version : atoi (decimalDigits 1) = 1 := by decide +kernel
  simp only [StateKey.all, foldl_cons, foldl_nil, StateKey.store, StateKey.value,
    freshRecord, version, atol_int64, atol_int32, atoi_int32, atoi_uint32, atoi_flag,
    take_of_length_le cwd, take_of_length_le home, take_of_length_le user]

theorem length_decimalDigits_le {v : Int} (small : v.natAbs < 10 ^ 19) :
    (decimalDigits v).length ≤ 20 := by
  have digits : (natDigits (v.natAbs + 1) v.natAbs).length ≤ 19 :=
    length_natDigits_le small (by decide)
  unfold decimalDigits
  split
  · exact Nat.succ_le_succ digits
  · exact Nat.le_succ_of_le digits

def StateKey.bound : StateKey → Nat
  | .userCwd => 511
  | .userHome => 511
  | .user => 68
  | _ => 38

theorem StateKey.length_line_le (cwd : job.userCwd.length ≤ 502) (home : job.userHome.length ≤ 501)
    (user : job.user.length ≤ 63) (key : StateKey) : (key.line job).length ≤ key.bound := by
  have long : ∀ v : Int64, v.toInt.natAbs < 10 ^ 19 := fun v => by
    have lower := v.le_toInt
    have upper := v.toInt_lt
    omega
  have int : ∀ v : Int32, v.toInt.natAbs < 10 ^ 19 := fun v => by
    have lower := v.le_toInt
    have upper := v.toInt_lt
    omega
  have unsigned : ∀ v : UInt32, (v.toNat : Int).natAbs < 10 ^ 19 := fun v => by
    have small := v.toNat_lt
    omega
  have flag : ∀ b : Bool, (b.toNat : Int).natAbs < 10 ^ 19 := by decide
  have number : ∀ (k : StateKey) {v : Int}, v.natAbs < 10 ^ 19 → k.name.length ≤ 17 →
      (k.name.toList ++ '=' :: decimalDigits v).length ≤ 38 := by
    intro k v small name
    have digits := length_decimalDigits_le small
    rw [length_append, length_cons, String.length_toList]
    omega
  have text : ∀ (k : StateKey) (value : List Char),
      (k.name.toList ++ '=' :: value).length = k.name.length + value.length + 1 := by
    intro k value
    rw [length_append, length_cons, String.length_toList, Nat.add_assoc]
  cases key with
  | userCwd => exact (text .userCwd _).trans_le (Nat.add_le_add_right (Nat.add_le_add_left cwd 8) 1)
  | userHome =>
    exact (text .userHome _).trans_le (Nat.add_le_add_right (Nat.add_le_add_left home 9) 1)
  | user => exact (text .user _).trans_le (Nat.add_le_add_right (Nat.add_le_add_left user 4) 1)
  | version => exact number .version (by decide) (by decide)
  | jobId => exact number .jobId (long _) (by decide)
  | pid => exact number .pid (int _) (by decide)
  | pgid => exact number .pgid (int _) (by decide)
  | pidAcked => exact number .pidAcked (flag _) (by decide)
  | timePidAcked => exact number .timePidAcked (long _) (by decide)
  | finishAcked => exact number .finishAcked (flag _) (by decide)
  | timeFinishAcked => exact number .timeFinishAcked (long _) (by decide)
  | exitStatusValid => exact number .exitStatusValid (flag _) (by decide)
  | exitStatus => exact number .exitStatus (int _) (by decide)
  | endTime => exact number .endTime (long _) (by decide)
  | uid => exact number .uid (unsigned _) (by decide)
  | group => exact number .group (unsigned _) (by decide)

theorem length_lines_lt (bounded : ∀ key : StateKey, (key.line job).length ≤ key.bound) :
    ((StateKey.all.map (StateKey.line job)).flatMap (· ++ ['\n'])).length < 4096 := by
  have each : ∀ keys : List StateKey,
      ((keys.map (StateKey.line job)).flatMap (· ++ ['\n'])).length ≤
        (keys.map fun key => key.bound + 1).sum := by
    intro keys
    induction keys with
    | nil => exact Nat.le_refl 0
    | cons key keys ih =>
      rw [map_cons, flatMap_cons, length_append, length_append, map_cons, sum_cons]
      exact Nat.add_le_add (Nat.succ_le_succ (bounded key)) ih
  exact Nat.lt_of_le_of_lt (each _) (by decide)

theorem readState_written (readable : Readable job) (user : job.user.length ≤ 63) :
    readState ((StateKey.all.map (StateKey.line job)).flatMap (· ++ ['\n'])) = ⟨job, 1, true⟩ := by
  have oneLine := StateKey.oneLine_value readable.cwd readable.home readable.user
  have bounded := StateKey.length_line_le readable.cwdLength readable.homeLength user
  have plain : ∀ line ∈ StateKey.all.map (StateKey.line job), '\n' ∉ line := by
    intro line member
    obtain ⟨key, -, rfl⟩ := List.mem_map.mp member
    have name : '\n' ∉ key.name.toList := by cases key <;> decide
    rw [StateKey.line, mem_append, mem_cons, not_or, not_or]
    exact ⟨name, by decide, fun inside => (oneLine key _ inside).2 rfl⟩
  have short : ∀ line ∈ StateKey.all.map (StateKey.line job), line.length ≤ 512 - 1 := by
    intro line member
    obtain ⟨key, -, rfl⟩ := List.mem_map.mp member
    exact Nat.le_trans (bounded key) (by cases key <;> decide)
  have skips : ∀ s, readStateLine s [] = s := fun _ => rfl
  have stored := foldl_store job (Nat.le_trans readable.cwdLength (by decide))
    (Nat.le_trans readable.homeLength (by decide)) user
  rw [readState, foldl_sidecarLines skips plain short (Nat.lt_succ_self _) (by decide), foldl_map]
  simp only [StateKey.readStateLine_line (oneLine _)]
  obtain ⟨time, killTime⟩ := readable.terminate
  have same : { job with terminateTime := 0, terminateKillTime := 0 } = job := by
    cases job
    cases time
    cases killTime
    rfl
  rw [stored, same]

/--
A running job comes back from its state file exactly if its paths fit the lines that are
read, no text of it breaks a line, and it has no deadline.
-/
theorem state_restored_iff {job : JobRecord} (user : job.user.length ≤ 63)
    (running : job.finishAcked = false) :
    (∃ text, sbdJobStateWrite job = some text ∧ sbdJobStateLoad text = some job) ↔
      Readable job := by
  constructor
  · rintro ⟨text, -, loaded⟩
    rw [sbdJobStateLoad, Option.bind_eq_bind, Option.bind_eq_some_iff] at loaded
    obtain ⟨read, isRead, result⟩ := loaded
    obtain ⟨-, same⟩ := Option.ite_none_left_eq_some.mp result
    obtain ⟨-, job⟩ := Option.ite_none_left_eq_some.mp isRead
    cases same
    cases job
    exact readable_readState text
  · intro readable
    refine ⟨_, if_pos (length_lines_lt (StateKey.length_line_le readable.cwdLength
      readable.homeLength user)), ?_⟩
    have read := readState_written readable user
    rw [sbdJobStateLoad, sbdJobStateRead, read]
    simp [running]

def rootJob (terminateTime : Int64) : JobRecord :=
  { freshRecord with
    jobId := 1, pid := 100, pgid := 100, userCwd := ['/'], userHome := ['/'], user := ['u'],
    uid := 1000, gid := 1000, terminateTime := terminateTime }

theorem state_restored_iff_rootJob :
    ∃ text, sbdJobStateWrite (rootJob 0) = some text ∧ sbdJobStateLoad text = some (rootJob 0) := by
  have readable : Readable (rootJob 0) :=
    ⟨by decide, by decide, by simp [OneLine, rootJob], by simp [OneLine, rootJob],
      by simp [OneLine, rootJob], rfl, rfl⟩
  exact (state_restored_iff (by decide) rfl).mpr readable

/-- The deadline is gone after the restart. -/
theorem deadline_not_restored :
    ∃ text ∈ sbdJobStateWrite (rootJob 2000), ∃ job ∈ sbdJobStateLoad text,
      job = { rootJob 2000 with terminateTime := 0 } := by
  decide +kernel

end LavaLite.Sbd
