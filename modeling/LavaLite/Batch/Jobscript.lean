import LavaLite.Base.CText
import LavaLite.Kernel.Shell

/-
The job script.  The client writes its environment into the script, one assignment
and one export for each variable it passes on; sbd runs the script with the pairs
of the job set.
-/

namespace LavaLite.Batch

open Base Kernel List Option
open Kernel.Shell (singleQuoted exports interpret)

def isShIdent (name : List Char) : Bool :=
  Shell.isName name

def isBashFunc (name : List Char) : Bool :=
  12 ≤ name.length && name.take 10 == "BASH_FUNC_".toList && name.drop (name.length - 2) == ['%', '%']

/-- `struct env_rule`. -/
structure EnvRule where
  name : String
  len : Nat
  isPrefix : Bool

def envDenyTable : List EnvRule :=
  [⟨"LMOD_", 5, true⟩, ⟨"MODULEPATH", 10, true⟩, ⟨"LOADEDMODULES", 13, false⟩,
    ⟨"MODULESHOME", 11, false⟩, ⟨"_LMFILES_", 9, false⟩, ⟨"FPATH", 5, false⟩,
    ⟨"BASH_ENV", 8, false⟩, ⟨"__LMOD_REF_COUNT_", 17, true⟩, ⟨"_ModuleTable", 12, true⟩,
    ⟨"LL_JOB", 6, true⟩, ⟨"LL_QUEUE", 8, true⟩, ⟨"LL_HOSTS", 8, true⟩, ⟨"TERM", 4, false⟩,
    ⟨"TERMCAP", 7, false⟩, ⟨"LINES", 5, false⟩, ⟨"COLUMNS", 7, false⟩, ⟨"DISPLAY", 7, false⟩,
    ⟨"WAYLAND_DISPLAY", 15, false⟩, ⟨"XAUTHORITY", 10, false⟩,
    ⟨"DBUS_SESSION_BUS_ADDRESS", 24, false⟩, ⟨"SESSION_MANAGER", 15, false⟩,
    ⟨"WINDOWID", 8, false⟩, ⟨"XMODIFIERS", 10, false⟩, ⟨"GTK_MODULES", 11, false⟩,
    ⟨"QT_IM_MODULE", 12, false⟩, ⟨"QT_ACCESSIBILITY", 16, false⟩,
    ⟨"IM_CONFIG_CHECK_ENV", 19, false⟩, ⟨"IM_CONFIG_PHASE", 15, false⟩, ⟨"GDMSESSION", 10, false⟩,
    ⟨"DESKTOP_SESSION", 15, false⟩, ⟨"XDG_", 4, true⟩, ⟨"GNOME_", 6, true⟩, ⟨"GJS_", 4, true⟩,
    ⟨"JOURNAL_STREAM", 14, false⟩, ⟨"INVOCATION_ID", 13, false⟩, ⟨"SYSTEMD_EXEC_PID", 16, false⟩,
    ⟨"MANAGERPID", 10, false⟩, ⟨"MEMORY_PRESSURE_WRITE", 21, false⟩,
    ⟨"MEMORY_PRESSURE_WATCH", 21, false⟩, ⟨"PS1", 3, false⟩, ⟨"SHLVL", 5, false⟩,
    ⟨"OLDPWD", 6, false⟩, ⟨"_", 1, false⟩, ⟨"XTERM_VERSION", 13, false⟩,
    ⟨"XTERM_SHELL", 11, false⟩, ⟨"XTERM_LOCALE", 12, false⟩, ⟨"PAGER", 5, false⟩,
    ⟨"LS_COLORS", 9, false⟩, ⟨"CLUTTER_DISABLE_MIPMAPPED_TEXT", 30, false⟩,
    ⟨"GSM_SKIP_SSH_AGENT_WORKAROUND", 29, false⟩, ⟨"INSIDE_EMACS", 12, false⟩,
    ⟨"EDITOR", 6, false⟩, ⟨"SSH_AUTH_SOCK", 13, false⟩, ⟨"CFLAGS", 6, false⟩,
    ⟨"CPPFLAGS", 8, false⟩, ⟨"PKG_CONFIG", 10, false⟩, ⟨"PKG_CONFIG_PATH", 15, false⟩,
    ⟨"DEBUGINFOD_URLS", 15, false⟩, ⟨"MANPATH", 7, false⟩]

def ruleExact (name : List Char) (r : EnvRule) : Bool :=
  name.length == r.len && name.take name.length == r.name.toList.take name.length

def rulePrefix (name : List Char) (r : EnvRule) : Bool :=
  r.len ≤ name.length && name.take r.len == r.name.toList.take r.len

def envIsDenied (name : List Char) : Bool :=
  envDenyTable.any fun r => if r.isPrefix then rulePrefix name r else ruleExact name r

/-- The name and the value of an entry that `create_jobscript` writes. -/
def emitted (entry : List Char) : Option (List Char × List Char) :=
  if '=' ∉ entry then none
  else
    let name := entry.takeWhile (· ≠ '=')
    let val := entry.drop (name.length + 1)
    if isShIdent name = false then none
    else if isBashFunc name then none
    else if envIsDenied name then none
    else if '\n' ∈ val then none
    else some (name, val)

/-- `ll_buf_append_sh_export`. -/
def shExport (name value : List Char) : List Char :=
  name ++ "='".toList ++ singleQuoted value ++ "'; export ".toList ++ name ++ ['\n']

/-- `ll_buf_append_shebang`. -/
def shebang : List Char :=
  "#!/bin/sh\n".toList

/-- `ll_buf_append_env_start`. -/
def envStart : List Char :=
  "\n# LavaLite: environment\n".toList

/-- `ll_buf_append_env_end`. -/
def envEnd : List Char :=
  "# LavaLite: end environment\n".toList

/-- `ll_buf_append_cmd_start`. -/
def cmdStart : List Char :=
  "\n# LavaLite: user command\n".toList

/-- `ll_buf_append_exit_tail`. -/
def exitTail : List Char :=
  "\nExitStat=$?\necho \"$ExitStat $(date +%s)\" > \"$LL_JOBDIR/exit\"\nexit $ExitStat\n".toList

def envSection (environ : List (List Char)) : List Char :=
  envStart ++ (environ.filterMap emitted).flatMap (fun p => shExport p.1 p.2) ++ envEnd

def scriptHead (environ : List (List Char)) : List Char :=
  shebang ++ envSection environ ++ cmdStart

def createJobscript (command : List Char) (environ : List (List Char)) : List Char :=
  scriptHead environ ++ command ++ exitTail

/-! ### What the shell makes of it -/

theorem emitted_eq_some {entry name value : List Char}
    (written : emitted entry = some (name, value)) :
    Shell.isName name = true ∧ envIsDenied name = false ∧ name ++ '=' :: value = entry := by
  simp only [emitted, ite_none_left_eq_some, Option.some.injEq, Prod.mk.injEq, not_not,
    Bool.not_eq_true, Bool.not_eq_false] at written
  obtain ⟨member, ident, -, allowed, -, rfl, rfl⟩ := written
  refine ⟨ident, allowed, ?_⟩
  obtain ⟨front, behind, rfl, first⟩ := eq_append_cons_of_mem member
  rw [takeWhile_separator first, drop_separator]

theorem interpret_exports {pairs : List (List Char × List Char)}
    (named : ∀ p ∈ pairs, Shell.isName p.1 = true) (rest : List Char) :
    interpret (pairs.flatMap (fun p => shExport p.1 p.2) ++ rest) =
      (interpret rest).map (exports pairs ++ ·) := by
  induction pairs with
  | nil =>
    rw [flatMap_nil, nil_append]
    exact Option.map_id'.symm
  | cons p pairs ih =>
    obtain ⟨first, later⟩ := forall_mem_cons.mp named
    have line : shExport p.1 p.2 ++ (pairs.flatMap (fun p => shExport p.1 p.2) ++ rest) =
        p.1 ++ "='".toList ++ singleQuoted p.2 ++ "'; export ".toList ++ p.1 ++
          '\n' :: (pairs.flatMap (fun p => shExport p.1 p.2) ++ rest) := by
      rw [shExport, append_assoc _ ['\n'], singleton_append]
    rw [flatMap_cons, append_assoc, line, Shell.interpret_assign_export first, ih later,
      Option.map_map]
    rfl

theorem interpret_envSection (environ : List (List Char)) (rest : List Char) :
    interpret (envSection environ ++ rest) =
      (interpret rest).map (exports (environ.filterMap emitted) ++ ·) := by
  have named : ∀ p ∈ environ.filterMap emitted, Shell.isName p.1 = true := by
    intro p member
    obtain ⟨entry, -, written⟩ := mem_filterMap.mp member
    exact (emitted_eq_some written).1
  have start : ∀ tail, interpret (envStart ++ tail) = interpret tail := by
    intro tail
    have text : envStart ++ tail =
        '\n' :: ('#' :: " LavaLite: environment".toList ++ '\n' :: tail) := by
      unfold envStart
      simp
    rw [text, Shell.interpret_newline, Shell.interpret_comment (by simp)]
  have close : ∀ tail, interpret (envEnd ++ tail) = interpret tail := by
    intro tail
    have text : envEnd ++ tail = '#' :: " LavaLite: end environment".toList ++ '\n' :: tail := by
      unfold envEnd
      simp
    rw [text, Shell.interpret_comment (by simp)]
  rw [envSection, append_assoc, append_assoc, start, interpret_exports named, close]

/--
The section assigns and exports what was written, with the value it has in the
environment, and does nothing else.
-/
theorem envSection_safe (environ : List (List Char)) :
    interpret (envSection environ) = some (exports (environ.filterMap emitted)) ∧
      ∀ p ∈ environ.filterMap emitted, p.1 ++ '=' :: p.2 ∈ environ := by
  constructor
  · have all := interpret_envSection environ []
    have nothing : interpret [] = some [] := rfl
    rwa [append_nil, nothing, map_some, append_nil] at all
  · intro p member
    obtain ⟨entry, present, written⟩ := mem_filterMap.mp member
    rw [(emitted_eq_some written).2.2]
    exact present

theorem interpret_scriptHead (environ : List (List Char)) :
    interpret (scriptHead environ) = some (exports (environ.filterMap emitted)) := by
  have first : ∀ tail, interpret (shebang ++ tail) = interpret tail := by
    intro tail
    have text : shebang ++ tail = '#' :: "!/bin/sh".toList ++ '\n' :: tail := by
      unfold shebang
      simp
    rw [text, Shell.interpret_comment (by simp)]
  have last : interpret cmdStart = some [] := by
    have text : cmdStart = '\n' :: ('#' :: " LavaLite: user command".toList ++ ['\n']) := by
      unfold cmdStart
      simp
    rw [text, Shell.interpret_newline, Shell.interpret_comment (by simp)]
    rfl
  rw [scriptHead, append_assoc, first, interpret_envSection, last, map_some, append_nil]

/-! ### The variables of the job -/

/-- What `set_job_env` reads. -/
structure JobEnv where
  jobId : Int
  pid : Int
  jobName : List Char
  queue : List Char
  firstHost : List Char
  hosts : List Char
  gpuAssigned : List Char
  sbdJobDir : List Char
  confDir : List Char

/-- The variables `set_job_env` sets, in its order. -/
def JobEnv.settings (job : JobEnv) : List (List Char × List Char) :=
  [("LL_JOBID".toList, decimalDigits job.jobId), ("LL_JOBPID".toList, decimalDigits job.pid),
    ("LL_JOBNAME".toList, job.jobName), ("LL_QUEUE".toList, job.queue),
    ("LL_FIRST_HOST".toList, job.firstHost)] ++
  (if job.hosts = [] then [] else [("LL_HOSTS".toList, job.hosts)]) ++
  (if job.gpuAssigned = [] then [] else [("CUDA_VISIBLE_DEVICES".toList, job.gpuAssigned)]) ++
  [("LL_JOBDIR".toList, job.sbdJobDir ++ '/' :: decimalDigits job.jobId),
    ("LL_CONF_DIR".toList, job.confDir)]

/-- `set_job_env` on the environment of sbd. -/
def setJobEnv (job : JobEnv) (vars : Shell.Variables) : Shell.Variables :=
  job.settings.foldl (fun vars p => Function.update vars p.1 (some p.2)) vars

/-- The names that `set_job_env` sets and the client passes on. -/
def passedOn : List (List Char) :=
  ["LL_FIRST_HOST".toList, "CUDA_VISIBLE_DEVICES".toList, "LL_CONF_DIR".toList]

/-- The names of the variables of a job, with those that are not always set. -/
def jobNames : List (List Char) :=
  ["LL_JOBID".toList, "LL_JOBPID".toList, "LL_JOBNAME".toList, "LL_QUEUE".toList,
    "LL_FIRST_HOST".toList, "LL_HOSTS".toList, "CUDA_VISIBLE_DEVICES".toList,
    "LL_JOBDIR".toList, "LL_CONF_DIR".toList]

theorem JobEnv.names_sublist (job : JobEnv) : (job.settings.map Prod.fst).Sublist jobNames := by
  unfold settings jobNames
  split <;> split <;> simp

theorem setJobEnv_eq (job : JobEnv) (vars : Shell.Variables) {p : List Char × List Char}
    (member : p ∈ job.settings) : setJobEnv job vars p.1 = some p.2 := by
  have once : (job.settings.map Prod.fst).Nodup :=
    List.Nodup.sublist job.names_sublist (by decide +kernel)
  have kept : ∀ (pairs : List (List Char × List Char)) (vars : Shell.Variables),
      p.1 ∉ pairs.map Prod.fst →
        (pairs.foldl (fun vars q => Function.update vars q.1 (some q.2)) vars :
          Shell.Variables) p.1 = vars p.1 := by
    intro pairs
    induction pairs with
    | nil => exact fun _ _ => rfl
    | cons q pairs ih =>
      intro vars other
      rw [map_cons, mem_cons, not_or] at other
      exact (ih _ other.2).trans (Function.update_of_ne other.1 _ _)
  obtain ⟨before, after, split⟩ := append_of_mem member
  rw [split, map_append, map_cons, nodup_append, nodup_cons] at once
  rw [setJobEnv, split, foldl_append, foldl_cons, kept after _ once.2.1.1, Function.update_self]

theorem lastValue_denied {name : List Char} (denied : envIsDenied name = true)
    (environ : List (List Char)) : Shell.lastValue (environ.filterMap emitted) name = none := by
  rw [Shell.lastValue, map_eq_none_iff, find?_eq_none]
  intro p member same
  rw [mem_reverse] at member
  obtain ⟨entry, -, written⟩ := mem_filterMap.mp member
  have allowed := (emitted_eq_some written).2.1
  rw [of_decide_eq_true same, denied] at allowed
  cases allowed

theorem denied_or_passedOn {job : JobEnv} {p : List Char × List Char} (member : p ∈ job.settings) :
    envIsDenied p.1 = true ∨ p.1 ∈ passedOn := by
  have all : ∀ name ∈ jobNames, envIsDenied name = true ∨ name ∈ passedOn := by decide +kernel
  exact all p.1 (job.names_sublist.subset (List.mem_map_of_mem member))

def atCommand (environ : List (List Char)) (job : JobEnv) (vars : Shell.Variables) :
    Option Shell.Variables :=
  (interpret (scriptHead environ)).bind fun commands =>
    commands.foldlM Shell.Command.exec (setJobEnv job vars)

/--
The command of the user finds the variables of the job exactly if the client passes on
no other value for one of the three names that it does not hold back.
-/
theorem settings_kept_iff (environ : List (List Char)) (job : JobEnv) (vars : Shell.Variables) :
    ∃ after, atCommand environ job vars = some after ∧ ((∀ p ∈ job.settings, after p.1 = some p.2) ↔
        ∀ p ∈ job.settings, p.1 ∈ passedOn →
          ∀ value ∈ Shell.lastValue (environ.filterMap emitted) p.1, value = p.2) := by
  have ran := Shell.exec_exports (environ.filterMap emitted) (setJobEnv job vars)
  refine ⟨_, by rw [atCommand, interpret_scriptHead, bind_some, ran], ?_⟩
  refine forall₂_congr fun p member => ?_
  rw [setJobEnv_eq job vars member]
  cases last : Shell.lastValue (environ.filterMap emitted) p.1 with
  | none => exact iff_of_true rfl fun _ _ => nofun
  | some value =>
    have free : p.1 ∈ passedOn := by
      rcases denied_or_passedOn member with denied | free
      · rw [lastValue_denied denied] at last
        cases last
      · exact free
    simp [free]

/-- A client that has `CUDA_VISIBLE_DEVICES` set, and a job with the device 0. -/
def gpuJob : JobEnv :=
  { jobId := 1, pid := 100, jobName := ['j'], queue := ['q'], firstHost := ['h'], hosts := [],
    gpuAssigned := ['0'], sbdJobDir := [], confDir := [] }

theorem devices_overridden :
    ("CUDA_VISIBLE_DEVICES".toList, ['0']) ∈ gpuJob.settings ∧
      ∃ after ∈ atCommand ["CUDA_VISIBLE_DEVICES=7".toList] gpuJob fun _ => none,
        after "CUDA_VISIBLE_DEVICES".toList = some ['7'] := by
  decide +kernel

end LavaLite.Batch
