import LavaLite.Mbd.Conserving

/-
The files of a job.  `job_prepare` writes the script and the sidecar, each to a temporary file
that is then renamed; a cycle that dispatches the job reads both back and aborts when it
cannot.  What the system calls answer is a choice of the environment.
-/

namespace LavaLite.Mbd

open Base Batch Kernel Function List Option

abbrev Disk := List Char → Option (List Char)

def pathMax : Nat := 4096

def jobBuckets : Int := 10

/-- The files of a job directory that mbd writes before the job is known. -/
inductive JobFile where
  | script
  | scriptTmp
  | submit
  | submitTmp
  deriving DecidableEq, Repr

def JobFile.leaf : JobFile → String
  | .script => "script.sh"
  | .scriptTmp => "script.sh.tmp"
  | .submit => "submit"
  | .submitTmp => "submit.tmp"

/-- The path `"%s/%ld/%ld/..."` of a file of a job, if the buffer holds it. -/
def jobFilePath (dir : List Char) (j : JobId) (file : JobFile) : Option (List Char) :=
  let path := dir ++ '/' :: (decimalDigits (j.tmod jobBuckets) ++
    '/' :: (decimalDigits j ++ '/' :: file.leaf.toList))
  if path.length < pathMax then some path else none

/--
What only the files of a job hold: the fields of `struct wire_job_submit` that are not
part of the job, the whole flag word, and the script.
-/
structure SubmitFiles where
  comment : String
  inFile : String
  outFile : String
  errFile : String
  cwd : String
  command : String
  submitHost : String
  homeDir : String
  umask : Nat
  flagBits : Nat
  script : List Char
  deriving DecidableEq, Repr

def octalDigits (v : Nat) : List Char :=
  (Nat.toDigits 8 v)

/-- The lines of `write_sidecar`, in their order. -/
def sidecarFields (j : JobId) (uid gid : Nat) (ws : WireJobSubmit) (files : SubmitFiles) :
    List (String × List Char) :=
  [ ("JOB_ID", decimalDigits j), ("UID", decimalDigits uid), ("GID", decimalDigits gid),
    ("USERNAME", ws.username.toList),
    ("NAME", ws.name.toList),
    ("QUEUE", ws.queue.toList),
    ("PROJECT", ws.project.toList),
    ("SUBMIT_HOST", files.submitHost.toList),
    ("HOME_DIR", files.homeDir.toList),
    ("CWD", files.cwd.toList),
    ("COMMAND", files.command.toList),
    ("IN_FILE", files.inFile.toList),
    ("OUT_FILE", files.outFile.toList),
    ("ERR_FILE", files.errFile.toList),
    ("NUM_CPUS", decimalDigits ws.numCpus),
    ("NUM_NHOSTS", decimalDigits ws.numHosts),
    ("NUM_GPUS", decimalDigits ws.numGpus),
    ("MEM_MB", decimalDigits ws.memMb),
    ("UMASK", octalDigits files.umask),
    ("FLAGS", decimalDigits files.flagBits),
    ("BEGIN_TIME", decimalDigits ws.beginTime),
    ("TERM_TIME", decimalDigits ws.termTime),
    ("DEPEND_COND", ws.dependCond.toList),
    ("MACHINES", ws.machines.toList),
    ("GPU_MODEL", ws.gpuModel.toList),
    ("COMMENT", files.comment.toList),
    ("TOKENPOOL", ws.tokenpool.toList) ]

def sidecarText (j : JobId) (uid gid : Nat) (ws : WireJobSubmit) (files : SubmitFiles) :
    List Char :=
  (sidecarFields j uid gid ws files).flatMap fun (key, value) =>
    key.toList ++ '=' :: (value ++ ['\n'])

/-! ### Writing -/

/-- What the calls answer that write one file: how many characters reached it, and the rest. -/
structure WriteIo where
  opened : Bool
  reached : Nat
  synced : Bool
  renamed : Bool
  deriving DecidableEq, Repr

/-- What the calls of `write_script` and `write_sidecar` answer. -/
structure JobIo where
  mkdir : Bool
  script : WriteIo
  sidecar : WriteIo
  chmod : Bool
  deriving DecidableEq, Repr

def renameFile (disk : Disk) (old new : List Char) : Disk :=
  update (update disk new (disk old)) old none

/-- Write a temporary file and rename it; the flag is false when a call failed. -/
def replaceFile (io : WriteIo) (disk : Disk) (path tmp text : List Char) : Disk × Bool :=
  if io.opened then
    let disk := update disk tmp (some (text.take io.reached))
    if text.length ≤ io.reached ∧ io.synced = true ∧ io.renamed = true then
      (renameFile disk tmp path, true)
    else (disk, false)
  else (disk, false)

/-- The path of the directory is shorter than those of its files. -/
def writeScript (dir : List Char) (io : JobIo) (disk : Disk) (j : JobId) (script : List Char) :
    Disk × Bool :=
  match jobFilePath dir j .script, jobFilePath dir j .scriptTmp with
  | some path, some tmp =>
    if io.mkdir then replaceFile io.script disk path tmp script else (disk, false)
  | _, _ => (disk, false)

def writeSidecar (dir : List Char) (io : JobIo) (disk : Disk) (j : JobId) (uid gid : Nat)
    (ws : WireJobSubmit) (files : SubmitFiles) : Disk × Bool :=
  match jobFilePath dir j .submit, jobFilePath dir j .submitTmp with
  | some path, some tmp =>
    let (disk, ok) := replaceFile io.sidecar disk path tmp (sidecarText j uid gid ws files)
    (disk, ok && io.chmod)
  | _, _ => (disk, false)

/-- The two writes of `job_prepare`. -/
def writeJobFiles (dir : List Char) (io : JobIo) (disk : Disk) (j : JobId) (uid gid : Nat)
    (ws : WireJobSubmit) (files : SubmitFiles) : Disk × Bool :=
  match writeScript dir io disk j files.script with
  | (disk, true) => writeSidecar dir io disk j uid gid ws files
  | (disk, false) => (disk, false)

/-! ### Reading -/

/-- The fields of `struct wire_job_start` that `read_sidecar` fills. -/
structure Sidecar where
  inFile : String
  outFile : String
  errFile : String
  homeDir : String
  umask : Nat
  cwd : String
  command : String
  deriving DecidableEq, Repr

/-- The lines `fgets` goes through, without their newlines. -/
def sidecarLines (size : Nat) : Nat → List Char → List (List Char)
  | 0, _ => []
  | fuel + 1, text =>
    match fgets size text with
    | none => []
    | some (line, rest) => line.takeWhile (· ≠ '\n') :: sidecarLines size fuel rest

def afterKey (key : String) (line : List Char) : Option (List Char) :=
  if key.toList.isPrefixOf line then some (line.drop key.length) else none

def lineField (size : Nat) (value : List Char) : String :=
  String.ofList (value.take (size - 1))

/--
One turn of the loop of `read_sidecar`.  The text of the umask is read as a decimal number;
when it is none the variable keeps what it held, `stale`.
-/
def sidecarLine (stale : Int) (ws : Sidecar) (line : List Char) : Sidecar :=
  match afterKey "IN_FILE=" line with
  | some value => { ws with inFile := lineField pathMax value }
  | none =>
  match afterKey "OUT_FILE=" line with
  | some value => { ws with outFile := lineField pathMax value }
  | none =>
  match afterKey "ERR_FILE=" line with
  | some value => { ws with errFile := lineField pathMax value }
  | none =>
  match afterKey "HOME_DIR=" line with
  | some value => { ws with homeDir := lineField pathMax value }
  | none =>
  match afterKey "UMASK=" line with
  | some value => { ws with umask := ((llAtoi value).getD stale % 4294967296).toNat }
  | none =>
  match afterKey "CWD=" line with
  | some value => { ws with cwd := lineField pathMax value }
  | none =>
  match afterKey "COMMAND=" line with
  | some value => { ws with command := lineField 512 value }
  | none => ws

/-- `read_sidecar`; `none` when the file cannot be opened. -/
def readSidecar (dir : List Char) (disk : Disk) (stale : Int) (j : JobId) : Option Sidecar := do
  let path ← jobFilePath dir j .submit
  let text ← disk path
  some ((sidecarLines (pathMax + 16) (text.length + 1) text).foldl (sidecarLine stale)
    ⟨"", "", "", "", 0, "", ""⟩)

/-- `read_script`; `none` when there is no file or it is empty. -/
def readScript (dir : List Char) (disk : Disk) (j : JobId) : Option (List Char) := do
  let path ← jobFilePath dir j .script
  let data ← disk path
  if data.isEmpty then none else some data

/-! ### Lines of a file -/

variable {size fuel : Nat}

theorem sidecarLines_cons {line rest : List Char} (plain : '\n' ∉ line)
    (short : line.length < size - 1) :
    sidecarLines size (fuel + 1) (line ++ '\n' :: rest) = line :: sidecarLines size fuel rest := by
  have whole : (line ++ ['\n']).takeWhile (· ≠ '\n') = line := takeWhile_separator plain []
  have got : fgets size (line ++ '\n' :: rest) = some (line ++ ['\n'], rest) := by
    rw [fgets, if_neg (by simp), takeLine_line rest plain short]
  simp only [sidecarLines, got, whole]

/-- Every line that the buffer holds is seen whole, and nothing else but empty lines is seen. -/
theorem foldl_sidecarLines {σ : Type} {f : σ → List Char → σ} (skips : ∀ s, f s [] = s)
    {lines : List (List Char)} (plain : ∀ line ∈ lines, '\n' ∉ line)
    (short : ∀ line ∈ lines, line.length ≤ size - 1)
    (enough : (lines.flatMap (· ++ ['\n'])).length < fuel) (roomy : 1 < size) (s : σ) :
    (sidecarLines size fuel (lines.flatMap (· ++ ['\n']))).foldl f s = lines.foldl f s := by
  induction lines generalizing fuel s with
  | nil =>
    cases fuel with
    | zero | succ fuel => rfl
  | cons line lines ih =>
    obtain ⟨plain, plains⟩ := forall_mem_cons.mp plain
    obtain ⟨short, shorts⟩ := forall_mem_cons.mp short
    rw [flatMap_cons, append_assoc, singleton_append] at enough ⊢
    rw [length_append, length_cons] at enough
    obtain ⟨fuel, rfl⟩ := Nat.exists_eq_succ_of_ne_zero (Nat.ne_of_gt (Nat.zero_lt_of_lt enough))
    rcases Nat.lt_or_eq_of_le short with shorter | full
    · rw [sidecarLines_cons plain shorter, foldl_cons, foldl_cons]
      exact ih plains shorts (by omega) _
    · -- the line fills the buffer, and its newline is read on its own
      obtain ⟨fuel, rfl⟩ := Nat.exists_eq_succ_of_ne_zero (show fuel ≠ 0 by omega)
      have whole : line.takeWhile (· ≠ '\n') = line := by
        rw [takeWhile_eq_self_iff]
        exact fun c member => decide_eq_true fun same => plain (same ▸ member)
      have got : ∀ rest, fgets size (line ++ '\n' :: rest) = some (line, '\n' :: rest) := by
        intro rest
        rw [fgets, if_neg (by simp), takeLine_full _ plain (Nat.le_of_eq full.symm),
          take_of_length_le short, drop_of_length_le short, nil_append]
      rw [sidecarLines]
      simp only [got, whole]
      have newline : sidecarLines size (fuel + 1) ('\n' :: lines.flatMap (· ++ ['\n'])) =
          [] :: sidecarLines size fuel (lines.flatMap (· ++ ['\n'])) :=
        sidecarLines_cons not_mem_nil (Nat.sub_pos_of_lt roomy)
      rw [newline, foldl_cons, foldl_cons, skips, foldl_cons]
      exact ih plains shorts (by omega) _

theorem newline_notMem_takeWhile (text : List Char) : '\n' ∉ text.takeWhile (· ≠ '\n') := by
  intro present
  have other := mem_takeWhile_imp present
  exact of_decide_eq_true other rfl

theorem mem_sidecarLines {text line : List Char} (member : line ∈ sidecarLines size fuel text) :
    '\n' ∉ line ∧ line.length ≤ size - 1 := by
  induction fuel generalizing text with
  | zero => cases member
  | succ fuel ih =>
    rw [sidecarLines] at member
    cases got : fgets size text with
    | none =>
      rw [got] at member
      cases member
    | some part =>
      rw [got] at member
      rcases mem_cons.mp member with rfl | later
      · rw [fgets, ite_none_left_eq_some] at got
        obtain ⟨-, taken⟩ := got
        cases taken
        exact ⟨newline_notMem_takeWhile _,
          Nat.le_trans (takeWhile_sublist _).length_le (length_takeLine_le _ _)⟩
      · exact ih later

/-! ### What was written is read -/

structure FilesSaved (dir : List Char) (disk : Disk) (j : JobId) (ws : WireJobSubmit)
    (files : SubmitFiles) : Prop where
  script : (jobFilePath dir j .script).bind disk = some files.script
  submit : ∃ uid gid, (jobFilePath dir j .submit).bind disk = some (sidecarText j uid gid ws files)

variable {dir : List Char} {disk : Disk} {i j : JobId} {uid gid : Nat} {ws : WireJobSubmit}
  {files : SubmitFiles} {io : JobIo} {a b : JobFile} {path tmp text p : List Char} {w : WriteIo}

theorem JobFile.leaf_injective (same : a.leaf = b.leaf) : a = b := by
  revert same
  cases a <;> cases b <;> decide

theorem notMem_decimalDigits {c : Char} (sign : c ≠ '-') (digit : c.isDigit = false) (v : Int) :
    c ∉ decimalDigits v := by
  intro member
  rcases mem_decimalDigits member with same | isDigit
  · exact sign same
  · exact Bool.false_ne_true (digit.symm.trans isDigit)

theorem append_separator_inj {sep : Char} {a b c d : List Char} (left : sep ∉ a) (right : sep ∉ b)
    (same : a ++ sep :: c = b ++ sep :: d) : a = b ∧ c = d := by
  induction a generalizing b c d with
  | nil =>
    cases b with
    | nil => exact ⟨rfl, (List.cons.inj same).2⟩
    | cons x b => exact absurd ((List.cons.inj same).1 ▸ mem_cons_self) right
  | cons x a ih =>
    cases b with
    | nil => exact absurd ((List.cons.inj same).1 ▸ mem_cons_self) left
    | cons y b =>
      obtain ⟨head, tails⟩ := List.cons.inj same
      obtain ⟨first, rest⟩ := ih (not_mem_of_not_mem_cons left)
        (not_mem_of_not_mem_cons right) tails
      exact ⟨congrArg₂ List.cons head first, rest⟩

theorem jobFilePath_injective (first : jobFilePath dir i a = some p)
    (second : jobFilePath dir j b = some p) : i = j ∧ a = b := by
  obtain ⟨_, first⟩ := ite_none_right_eq_some.mp first
  obtain ⟨_, second⟩ := ite_none_right_eq_some.mp second
  have same := Option.some.inj (first.trans second.symm)
  have inside := (List.cons.inj (append_cancel_left same)).2
  have plain : ∀ v : Int, '/' ∉ decimalDigits v := notMem_decimalDigits (by decide) (by decide)
  have bucket := append_separator_inj (plain _) (plain _) inside
  have name := append_separator_inj (plain _) (plain _) bucket.2
  exact ⟨decimalDigits_injective name.1, JobFile.leaf_injective (String.toList_injective name.2)⟩

theorem replaceFile_other (notPath : p ≠ path) (notTmp : p ≠ tmp) :
    (replaceFile w disk path tmp text).1 p = disk p := by
  unfold replaceFile renameFile
  split
  · dsimp only
    split
    · dsimp only
      rw [update_of_ne notTmp, update_of_ne notPath, update_of_ne notTmp]
    · exact update_of_ne notTmp _ _
  · rfl

theorem replaceFile_done (apart : path ≠ tmp) (done : (replaceFile w disk path tmp text).2 = true) :
    (replaceFile w disk path tmp text).1 path = some text := by
  unfold replaceFile renameFile at done ⊢
  split
  next opened =>
    rw [if_pos opened] at done
    dsimp only at done ⊢
    split
    next whole =>
      dsimp only
      rw [update_of_ne apart, update_self, update_self, take_of_length_le whole.1]
    next failed =>
      rw [if_neg failed] at done
      cases done
  next closed =>
    rw [if_neg closed] at done
    cases done

theorem replaceFile_flag (disk disk' : Disk) :
    (replaceFile w disk path tmp text).2 = (replaceFile w disk' path tmp text).2 := by
  unfold replaceFile
  split
  · dsimp only
    split <;> rfl
  · rfl

def Elsewhere (dir : List Char) (j : JobId) (p : List Char) : Prop :=
  ∀ file, jobFilePath dir j file ≠ some p

theorem elsewhere_of_ne (other : i ≠ j) (isPath : jobFilePath dir i a = some p) :
    Elsewhere dir j p :=
  fun _ same => other (jobFilePath_injective isPath same).1

theorem writeScript_other (other : Elsewhere dir j p) {script : List Char} :
    (writeScript dir io disk j script).1 p = disk p := by
  unfold writeScript
  split
  next path tmp isPath isTmp =>
    split
    · apply replaceFile_other
      · rintro rfl
        exact other _ isPath
      · rintro rfl
        exact other _ isTmp
    · rfl
  next => rfl

theorem writeSidecar_other (notPath : jobFilePath dir j .submit ≠ some p)
    (notTmp : jobFilePath dir j .submitTmp ≠ some p) :
    (writeSidecar dir io disk j uid gid ws files).1 p = disk p := by
  unfold writeSidecar
  split
  next path tmp isPath isTmp =>
    apply replaceFile_other
    · rintro rfl
      exact notPath isPath
    · rintro rfl
      exact notTmp isTmp
  next => rfl

theorem writeJobFiles_other (other : Elsewhere dir j p) :
    (writeJobFiles dir io disk j uid gid ws files).1 p = disk p := by
  have script : (writeScript dir io disk j files.script).1 p = disk p := writeScript_other other
  unfold writeJobFiles
  split
  next disk' written =>
    rw [written] at script
    exact (writeSidecar_other (other _) (other _)).trans script
  next disk' failed =>
    rw [failed] at script
    exact script

theorem writeScript_done {script : List Char} (done : (writeScript dir io disk j script).2 = true) :
    (jobFilePath dir j .script).bind (writeScript dir io disk j script).1 = some script := by
  unfold writeScript at done ⊢
  split
  next path tmp isPath isTmp =>
    rw [isPath, isTmp] at done
    dsimp only at done
    split at done
    next made =>
      rw [if_pos made, isPath]
      apply replaceFile_done _ done
      rintro rfl
      exact absurd (jobFilePath_injective isPath isTmp).2 (by decide)
    next => cases done
  next none =>
    split at done
    next path tmp isPath isTmp => exact absurd isTmp (none path tmp isPath)
    next => cases done

theorem writeSidecar_done (done : (writeSidecar dir io disk j uid gid ws files).2 = true) :
    (jobFilePath dir j .submit).bind (writeSidecar dir io disk j uid gid ws files).1 =
      some (sidecarText j uid gid ws files) := by
  unfold writeSidecar at done ⊢
  split
  next path tmp isPath isTmp =>
    rw [isPath, isTmp] at done
    rw [isPath, bind_some, replaceFile_done _ (Bool.and_eq_true_iff.mp done).1]
    rintro rfl
    exact absurd (jobFilePath_injective isPath isTmp).2 (by decide)
  next none =>
    split at done
    next path tmp isPath isTmp => exact absurd isTmp (none path tmp isPath)
    next => cases done

theorem writeJobFiles_done (done : (writeJobFiles dir io disk j uid gid ws files).2 = true) :
    FilesSaved dir (writeJobFiles dir io disk j uid gid ws files).1 j ws files := by
  unfold writeJobFiles at done ⊢
  split
  next disk' written =>
    rw [written] at done
    refine ⟨?_, uid, gid, writeSidecar_done done⟩
    have script := writeScript_done (congrArg Prod.snd written)
    rw [written] at script
    obtain ⟨path, isPath, content⟩ := bind_eq_some_iff.mp script
    rw [isPath, bind_some, writeSidecar_other]
    · exact content
    · exact fun same => absurd (jobFilePath_injective isPath same).2 (by decide)
    · exact fun same => absurd (jobFilePath_injective isPath same).2 (by decide)
  next disk' failed =>
    rw [failed] at done
    cases done

theorem FilesSaved.congr {disk' : Disk} (saved : FilesSaved dir disk j ws files)
    (same : ∀ file p, jobFilePath dir j file = some p → disk' p = disk p) :
    FilesSaved dir disk' j ws files := by
  have bind : ∀ file, (jobFilePath dir j file).bind disk' = (jobFilePath dir j file).bind disk := by
    intro file
    cases isPath : jobFilePath dir j file with
    | none => rfl
    | some p => exact same file p isPath
  exact ⟨(bind _).trans saved.script, bind .submit ▸ saved.submit⟩

theorem FilesSaved.readScript (saved : FilesSaved dir disk j ws files) :
    readScript dir disk j = if files.script.isEmpty then none else some files.script := by
  obtain ⟨path, isPath, content⟩ := bind_eq_some_iff.mp saved.script
  unfold Mbd.readScript
  rw [isPath, bind_eq_bind, bind_some, content]
  rfl

theorem FilesSaved.readSidecar (saved : FilesSaved dir disk j ws files) (stale : Int) :
    (readSidecar dir disk stale j).isSome = true := by
  obtain ⟨uid, gid, found⟩ := saved.submit
  obtain ⟨path, isPath, content⟩ := bind_eq_some_iff.mp found
  unfold Mbd.readSidecar
  rw [isPath, bind_eq_bind, bind_some, content]
  rfl

theorem writeJobFiles_flag (disk disk' : Disk) : (writeJobFiles dir io disk j uid gid ws files).2 =
      (writeJobFiles dir io disk' j uid gid ws files).2 := by
  have script : (writeScript dir io disk j files.script).2 =
      (writeScript dir io disk' j files.script).2 := by
    unfold writeScript
    split
    · split
      · exact replaceFile_flag disk disk'
      · rfl
    · rfl
  have sidecar : ∀ disk disk', (writeSidecar dir io disk j uid gid ws files).2 =
      (writeSidecar dir io disk' j uid gid ws files).2 := by
    intro disk disk'
    unfold writeSidecar
    split
    · exact congrArg (· && io.chmod) (replaceFile_flag disk disk')
    · rfl
  unfold writeJobFiles
  split
  next first written =>
    rw [written] at script
    split
    next => exact sidecar _ _
    next failed =>
      rw [failed] at script
      cases script
  next first failed =>
    rw [failed] at script
    split
    next written =>
      rw [written] at script
      cases script
    next => rfl

/-! ### The files of a submission -/

/-- The environment of a request whose files are written as `io` says. -/
def filedEnv (dir : List Char) (io : JobId → JobIo) (uid gid : Nat) (ws : WireJobSubmit)
    (files : SubmitFiles) (env : SubmitEnv) : SubmitEnv :=
  { env with
    filesOk := fun id => (writeJobFiles dir (io id) (fun _ => none) id uid gid ws files).2 }

/-- The disk after `job_prepare`, which writes nothing for a job it cannot allocate. -/
def prepareFiles (conf : Conf) (dir : List Char) (env : SubmitEnv) (io : JobId → JobIo)
    (uid gid : Nat) (ws : WireJobSubmit) (files : SubmitFiles) (disk : Disk) (id : JobId) : Disk :=
  match jobAlloc conf env.now id uid gid ws with
  | .error _ => disk
  | .ok _ => (writeJobFiles dir (io id) disk id uid gid ws files).1

/-- The preparation loop of `job_register`, for the files. -/
def prepareLoopFiles (conf : Conf) (dir : List Char) (env : SubmitEnv) (io : JobId → JobIo)
    (m : MbdState) (uid gid : Nat) (ws : WireJobSubmit) (files : SubmitFiles) (last stride : Int) :
    Nat → Int → JobId → List JobData → Disk → Disk
  | 0, _, _, _, disk => disk
  | fuel + 1, index, seq, prepared, disk =>
    if last < index then disk
    else
      let id := nextJobId m.jobs (m.pend.length + m.run.length + m.finish.length) seq
      let disk := prepareFiles conf dir env io uid gid ws files disk id
      match jobPrepare conf env m.jobs id uid gid ws with
      | .error _ => disk
      | .ok job =>
        let arrayId := (prepared.getLast?.map JobData.jobId).getD id
        if followsOn prepared id ∧ index + stride ≤ intMax then
          prepareLoopFiles conf dir env io m uid gid ws files last stride fuel (index + stride)
            id (setArrayFields ws arrayId index job :: prepared) disk
        else disk

def registerDisk (conf : Conf) (dir : List Char) (env : SubmitEnv) (io : JobId → JobIo)
    (m : MbdState) (uid gid : Nat) (request : WireJobSubmit) (files : SubmitFiles) (disk : Disk) :
    Disk :=
  let ws := normalizeSubmit conf request
  let (first, last, stride) :=
    if ws.flags.array then (ws.arrayStart, ws.arrayEnd, ws.arrayStride) else (0, 0, 1)
  if ws.flags.array ∧ (ws.arrayStride ≤ 0 ∨ ws.arrayEnd < ws.arrayStart) then disk
  else
    prepareLoopFiles conf dir env io m uid gid ws files last stride ((last - first).toNat + 2) first
      m.jobIdSeq [] disk

/-- `job_register` with the files it writes. -/
def jobRegisterFiles (conf : Conf) (dir : List Char) (env : SubmitEnv) (io : JobId → JobIo)
    (m : MbdState) (uid gid : Nat) (request : WireJobSubmit) (files : SubmitFiles) (disk : Disk) :
    Option ((MbdState × Except Status JobId) × Disk) :=
  let env := filedEnv dir io uid gid (normalizeSubmit conf request) files env
  (jobRegister conf env m uid gid request).map fun result =>
    (result, registerDisk conf dir env io m uid gid request files disk)

section Submission

variable {conf : Conf} {env : SubmitEnv} {io : JobId → JobIo} {m m' : MbdState}
  {last stride index : Int} {id seq : JobId} {jobs prepared : List JobData}

theorem jobPrepare_files {jobs : JobId → Option JobData} {job : JobData}
    (done : jobPrepare conf env jobs id uid gid ws = .ok job) :
    (∃ first, jobAlloc conf env.now id uid gid ws = .ok first) ∧ env.filesOk id = true := by
  unfold jobPrepare at done
  split at done
  · cases done
  next first allocated =>
    split at done
    next written => exact ⟨⟨first, allocated⟩, written⟩
    next => cases done

theorem prepareFiles_other (conf : Conf) (env : SubmitEnv) (io : JobId → JobIo) (uid gid : Nat)
    (ws : WireJobSubmit) (files : SubmitFiles) (disk : Disk) (other : Elsewhere dir id p) :
    prepareFiles conf dir env io uid gid ws files disk id p = disk p := by
  unfold prepareFiles
  cases jobAlloc conf env.now id uid gid ws with
  | error => rfl
  | ok => exact writeJobFiles_other other

theorem prepareLoopFiles_other {file : JobFile} (isPath : jobFilePath dir i file = some p)
    (low : i ≤ seq) :
    prepareLoopFiles conf dir env io m uid gid ws files last stride fuel index seq prepared disk p =
      disk p := by
  induction fuel generalizing index seq prepared disk with
  | zero => rfl
  | succ fuel ih =>
    have grows := lt_nextJobId m.jobs (m.pend.length + m.run.length + m.finish.length) seq
    have above := Int.lt_of_le_of_lt low grows
    have written := prepareFiles_other conf env io uid gid ws files disk
      (elsewhere_of_ne (Int.ne_of_lt above) isPath)
    unfold prepareLoopFiles
    split
    next => rfl
    next =>
      dsimp only
      generalize nextJobId m.jobs (m.pend.length + m.run.length + m.finish.length) seq = id at *
      cases jobPrepare conf env m.jobs id uid gid ws with
      | error => exact written
      | ok job =>
        dsimp only
        split
        · exact (ih (Int.le_of_lt above)).trans written
        · exact written

theorem prepareLoopFiles_saved (outcome : ∀ id, env.filesOk id =
      (writeJobFiles dir (io id) (fun _ => none) id uid gid ws files).2) {seq' : JobId}
    (saved : ∀ job ∈ prepared, job.jobId ≤ seq ∧ FilesSaved dir disk job.jobId ws files)
    (done : prepareLoop conf env m uid gid ws last stride fuel index seq prepared =
      some (seq', .ok jobs)) : ∀ job ∈ jobs, FilesSaved dir
      (prepareLoopFiles conf dir env io m uid gid ws files last stride fuel index seq prepared disk)
      job.jobId ws files := by
  induction fuel generalizing index seq seq' prepared jobs disk with
  | zero => cases done
  | succ fuel ih =>
    unfold prepareLoop at done
    unfold prepareLoopFiles
    split at done
    next over_ =>
      cases done
      rw [if_pos over_]
      exact fun job member => (saved job (mem_reverse.mp member)).2
    next more =>
      rw [if_neg more]
      dsimp only at done ⊢
      have grows := lt_nextJobId m.jobs (m.pend.length + m.run.length + m.finish.length) seq
      generalize nextJobId m.jobs (m.pend.length + m.run.length + m.finish.length) seq = id at *
      cases made : jobPrepare conf env m.jobs id uid gid ws with
      | error e =>
        rw [made] at done
        cases done
      | ok job =>
        rw [made] at done
        dsimp only at done ⊢
        obtain ⟨⟨first, allocated⟩, written⟩ := jobPrepare_files made
        rw [outcome id, writeJobFiles_flag _ disk] at written
        split at done
        next goesOn =>
          rw [if_pos goesOn]
          refine ih (fun other member => ?_) done
          rcases mem_cons.mp member with same | earlier
          · have isId : other.jobId = id := by
              rw [same, jobId_setArrayFields]
              exact (jobPrepare_spec made).1
            rw [isId, prepareFiles, allocated]
            exact ⟨Int.le_refl _, writeJobFiles_done written⟩
          · obtain ⟨below, before⟩ := saved other earlier
            have apart := Int.ne_of_lt (Int.lt_of_le_of_lt below grows)
            refine ⟨Int.le_trans below (Int.le_of_lt grows), before.congr ?_⟩
            exact fun file p isPath =>
              prepareFiles_other conf env io uid gid ws files disk
                (elsewhere_of_ne apart isPath)
        next => cases done

variable {request : WireJobSubmit} {answer : Except Status JobId} {disk' : Disk}

theorem jobRegisterFiles_spec (done : jobRegisterFiles conf dir env io m uid gid request files disk =
      some ((m', answer), disk')) :
    (∀ {i file p}, i ≤ m.jobIdSeq → jobFilePath dir i file = some p → disk' p = disk p) ∧
    ∀ {j}, (m'.jobs j).isSome = true → (m.jobs j).isSome = true ∨
      FilesSaved dir disk' j (normalizeSubmit conf request) files := by
  obtain ⟨⟨_, _⟩, registered, same⟩ := map_eq_some_iff.mp done
  cases same
  constructor
  · intro i file p low isPath
    unfold registerDisk
    dsimp only
    split
    · rfl
    · exact prepareLoopFiles_other isPath low
  · intro j known
    rcases jobRegister_inversion registered with ⟨_, _, _, rfl, _⟩ |
      ⟨first, last, stride, seq, jobs, m₂, spans, loop, _, committed, rfl, _⟩
    · exact .inl known
    · refine ((jobCommitPrepared_adds committed).2.2.2.2 j known).imp_right ?_
      rintro ⟨job, member, rfl⟩
      unfold registerDisk
      simp only [spans.range]
      rw [if_neg spans.accepted]
      exact prepareLoopFiles_saved (fun _ => rfl) (fun _ member => by cases member) loop job member

end Submission

/-! ### A cycle that reads the files -/

/-- The plan with which the turn of a job gets to `mbd_dispatch_job`. -/
def plannedHosts (conf : Conf) (now : Time) (m : MbdState) (j : JobId) :
    Option (List HostName) := do
  let job ← m.jobs j
  if !jobIsReady now job then none
  else
    let queue ← job.queue
    if (m.queues queue).closed then none
    else if !tokensAvailable conf m job then none
    else
      let satisfied ← jobDepSatisfied m job
      if !satisfied then none else buildHostPlan conf m job queue

def opensFiles (dir : List Char) (disk : Disk) (stale : Int) (j : JobId) : Bool :=
  (readSidecar dir disk stale j).isSome && (readScript dir disk j).isSome

/-- The body of the loop of `schedule`; `none` is also one of the aborts of `mbd_dispatch_job`. -/
def scheduleJobFiles (conf : Conf) (dir : List Char) (disk : Disk) (stale : Int) (now : Time)
    (sendOk : JobId → Bool) (m : MbdState) (j : JobId) (freeSlots : Int) : Option Turn :=
  if (plannedHosts conf now m j).isSome && !opensFiles dir disk stale j then none
  else scheduleJob conf now sendOk m j freeSlots

/-- `scheduleJobFiles` on the state and the free slots. -/
def scheduleTurnFiles (conf : Conf) (dir : List Char) (disk : Disk) (stale : Int) (now : Time)
    (sendOk : JobId → Bool) (s : MbdState × Int) (j : JobId) : Option ((MbdState × Int) × Bool) :=
  (scheduleJobFiles conf dir disk stale now sendOk s.1 j s.2).map fun turn =>
    ((turn.state, turn.freeSlots), turn.stop)

/-- `schedule`, reading the files of the jobs it dispatches. -/
def scheduleFiles (conf : Conf) (dir : List Char) (disk : Disk) (stale : Int) (m : MbdState)
    (now : Time) (sendOk : JobId → Bool) : Option MbdState :=
  if m.pend.isEmpty then some m
  else
    let (m, freeSlots) := markCandidates conf m
    if freeSlots = 0 then some m
    else if schedSortBufMax < m.pend.length then none
    else
      let sorted := conf.qsort (pendJobCmp conf m) m.pend
      (walk (scheduleTurnFiles conf dir disk stale now sendOk) sorted
        ({ m with pend := sorted }, freeSlots)).map Prod.fst

variable {stale : Int} {now : Time} {sendOk : JobId → Bool} {job : JobData} {queue : QueueName}
  {plan : List HostName} {freeSlots : Int} {turn : Turn}

theorem schedule_of_files (done : scheduleFiles conf dir disk stale m now sendOk = some m') :
    schedule conf m now sendOk = some m' := by
  unfold scheduleFiles at done
  unfold schedule
  split at done
  next empty =>
    rw [if_pos empty]
    exact done
  next waiting =>
    rw [if_neg waiting]
    dsimp only at done ⊢
    split at done
    next none =>
      rw [if_pos none]
      exact done
    next slots =>
      rw [if_neg slots]
      split at done
      · cases done
      next fits =>
        obtain ⟨end_, walked, same⟩ := map_eq_some_iff.mp done
        rw [if_neg fits, scheduleLoop_eq_walk, map_eq_some_iff]
        refine ⟨end_, walk_of_stricter (fun {s a next} turned => ?_) walked, same⟩
        obtain ⟨turn, one, isNext⟩ := map_eq_some_iff.mp turned
        rw [scheduleTurn, (ite_none_left_eq_some.mp one).2]
        exact congrArg some isNext

theorem plannedHosts_eq_some (planned : plannedHosts conf now m j = some plan) :
    ∃ job queue, m.jobs j = some job ∧ Runnable conf now m job queue ∧
      buildHostPlan conf m job queue = some plan := by
  unfold plannedHosts at planned
  obtain ⟨job, found, planned⟩ := bind_eq_some_iff.mp planned
  obtain ⟨ready, planned⟩ := ite_none_left_eq_some.mp planned
  obtain ⟨queue, ofQueue, planned⟩ := bind_eq_some_iff.mp planned
  obtain ⟨opened, planned⟩ := ite_none_left_eq_some.mp planned
  obtain ⟨tokens, planned⟩ := ite_none_left_eq_some.mp planned
  obtain ⟨satisfied, evaluated, planned⟩ := bind_eq_some_iff.mp planned
  obtain ⟨met, planned⟩ := ite_none_left_eq_some.mp planned
  refine ⟨job, queue, found, ⟨?_, ofQueue, ?_, ?_, ?_⟩, planned⟩
  · simpa using ready
  · simpa using opened
  · simpa using tokens
  · rw [evaluated]
    simpa using met

theorem scheduleJob_of_plan (found : m.jobs j = some job) (runnable : Runnable conf now m job queue)
    (built : buildHostPlan conf m job queue = some plan) :
    scheduleJob conf now sendOk m j freeSlots =
      startPlanned conf m now j job queue plan (sendOk j) freeSlots := by
  unfold scheduleJob
  simp only [found, bind_eq_bind, bind_some, runnable.ready, Bool.not_true,
    Bool.false_eq_true, if_false, runnable.ofQueue, runnable.opened, runnable.tokens,
    runnable.dependency, built]

theorem scheduleJob_isSome_iff (once : NamesOnce m) (marked : Marked m) (channels : NoneOnZero m)
    (found : m.jobs j = some job) (runnable : Runnable conf now m job queue)
    (built : buildHostPlan conf m job queue = some plan) :
    (scheduleJob conf now sendOk m j freeSlots).isSome = true ↔ AsksHost job.res := by
  obtain ⟨isPlan, enough⟩ := buildHostPlan_eq_some built
  have first := head_chosenHosts_isSome enough
  rw [scheduleJob_of_plan found runnable built]
  rw [← isPlan] at first
  change _ ↔ 0 < hostsNeeded job
  rw [← first]
  constructor
  · intro some
    obtain ⟨turn, done⟩ := isSome_iff_exists.mp some
    obtain ⟨_, dispatched, _⟩ := bind_eq_some_iff.mp done
    obtain ⟨h, isFirst, _⟩ := bind_eq_some_iff.mp dispatched
    exact isSome_iff_exists.mpr ⟨h, isFirst⟩
  · intro some
    obtain ⟨h, isFirst⟩ := isSome_iff_exists.mp some
    have fits := fits_of_plan marked (once.machines found) built isFirst
    have suits := fits.suitable h (List.mem_of_mem_head? isFirst)
    have linked : 0 < (m.hosts h).sbdChan :=
      lt_of_le_of_ne suits.connected (Ne.symm (channels h))
    have devices : 0 < job.res.numGpus → job.res.numGpus.toNat ≤ (m.hosts h).gpus.length := by
      intro asked
      have free := suits.gpus asked
      have all := gpuIdsCountFree_le (m.hosts h).gpus
      omega
    exact isSome_iff_exists.mpr (startPlanned_isSome isFirst linked devices fits.distinct)

/-! ### What a turn finds -/

theorem TurnComes.known {m₁ : MbdState} {job' : JobData}
    (comes : TurnComes conf m now sendOk j m₁ freeSlots) {i : JobId}
    (found : m₁.jobs i = some job') : ∃ job, m.jobs i = some job ∧ job'.res = job.res := by
  have kept : ∀ job', m₁.jobs i = some job' → ∃ job, m.jobs i = some job ∧ job'.res = job.res := by
    refine comes.2.invariant (fun s => ∀ job', s.1.jobs i = some job' →
      ∃ job, m.jobs i = some job ∧ job'.res = job.res)
      (fun {s k s' stop} (_ : True) turned before job' found => ?_) (fun _ _ => trivial)
      (fun job' found => ⟨job', found, rfl⟩)
    obtain ⟨middle, was, same⟩ := (scheduleJob_acts (scheduleTurn_eq_some turned)).known found
    obtain ⟨job, first, kept⟩ := before middle was
    exact ⟨job, first, (congrArg Prod.snd same).trans kept⟩
  exact kept job' found

end LavaLite.Mbd
