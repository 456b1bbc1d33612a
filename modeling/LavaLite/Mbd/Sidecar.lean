import LavaLite.Mbd.Files

/-
What `read_sidecar` makes of the file `write_sidecar` left.  The umask is printed in octal
and read as a decimal number, and the command has a shorter field on the way to the host
than on the way from the client.
-/

namespace LavaLite.Mbd

open Base Batch Kernel List Option

/-- What the client sent, of what `read_sidecar` returns. -/
def SubmitFiles.sidecar (files : SubmitFiles) : Sidecar :=
  ⟨files.inFile, files.outFile, files.errFile, files.homeDir, files.umask, files.cwd, files.command⟩

/-! ### The umask -/

/-- The octal digits of a number, read as decimal ones. -/
def octalAsDecimal (v : Nat) : Nat :=
  digitsNat (octalDigits v)

theorem octalDigits_isDigits (v : Nat) : IsDigits (octalDigits v) := by
  refine ⟨?_, fun c => Nat.isDigit_of_mem_toDigits (by decide) (by decide)⟩
  rcases Nat.lt_or_ge v 8 with small | large
  · rw [octalDigits, Nat.toDigits_of_lt_base small]
    exact cons_ne_nil _ _
  · rw [octalDigits, Nat.toDigits_of_base_le (by decide) large]
    exact append_ne_nil_of_right_ne_nil _ (cons_ne_nil _ _)

theorem octalAsDecimal_small {v : Nat} (small : v < 8) : octalAsDecimal v = v := by
  have each : ∀ v : Fin 8, octalAsDecimal v = v := by decide
  exact each ⟨v, small⟩

theorem octalAsDecimal_large {v : Nat} (large : 8 ≤ v) :
    octalAsDecimal v = octalAsDecimal (v / 8) * 10 + v % 8 := by
  have last : ∀ (acc : Nat) (d : Fin 8), (digitsValue acc [Nat.digitChar d]).1 = acc * 10 + d := by
    intro acc d
    have digit : (Nat.digitChar d).isDigit = true ∧ (Nat.digitChar d).toNat - '0'.toNat = d := by
      revert d
      decide
    rw [digitsValue, if_pos digit.1, digit.2]
    rfl
  have text : octalDigits v = octalDigits (v / 8) ++ [(v % 8).digitChar] :=
    Nat.toDigits_of_base_le (by decide) large
  rw [octalAsDecimal, text, digitsNat, digitsValue_append (octalDigits_isDigits (v / 8)).2]
  exact last _ ⟨v % 8, Nat.mod_lt v (by decide)⟩

theorem le_octalAsDecimal (v : Nat) : v ≤ octalAsDecimal v := by
  induction v using Nat.strong_induction_on with
  | _ v ih =>
    rcases Nat.lt_or_ge v 8 with small | large
    · exact Nat.le_of_eq (octalAsDecimal_small small).symm
    · have before := ih (v / 8) (by omega)
      rw [octalAsDecimal_large large]
      omega

theorem octalAsDecimal_eq_iff {v : Nat} : octalAsDecimal v = v ↔ v < 8 := by
  constructor
  · intro same
    by_contra large
    have before := le_octalAsDecimal (v / 8)
    rw [octalAsDecimal_large (by omega)] at same
    omega
  · exact octalAsDecimal_small

def umaskRead (stale : Int) (umask : Nat) : Nat :=
  ((llAtoi (octalDigits umask)).getD stale % 4294967296).toNat

theorem umaskRead_eq_iff {umask : Nat} : (∀ stale, umaskRead stale umask = umask) ↔ umask < 8 := by
  have read : llAtoi (octalDigits umask) =
      if intMin ≤ (octalAsDecimal umask : Int) ∧ (octalAsDecimal umask : Int) ≤ intMax then
        some (octalAsDecimal umask : Int) else none :=
    llAtoi_of_isInteger (.plain (octalDigits_isDigits umask))
  have lower : intMin ≤ (octalAsDecimal umask : Int) := Int.le_trans (by decide) (Int.natCast_nonneg _)
  rw [← octalAsDecimal_eq_iff]
  by_cases fits : (octalAsDecimal umask : Int) ≤ intMax
  · rw [if_pos ⟨lower, fits⟩] at read
    have small : (octalAsDecimal umask : Int) ≤ 2147483647 := fits
    have value : ∀ stale, umaskRead stale umask = octalAsDecimal umask := by
      intro stale
      rw [umaskRead, read, getD_some]
      omega
    simp only [value, forall_const]
  · rw [if_neg fun both => fits both.2] at read
    have large : ¬ (octalAsDecimal umask : Int) ≤ 2147483647 := fits
    have value : ∀ stale, umaskRead stale umask = (stale % 4294967296).toNat := by
      intro stale
      rw [umaskRead, read, getD_none]
    simp only [value]
    constructor
    · intro all
      have other := all (umask + 1)
      omega
    · intro same
      rw [octalAsDecimal_eq_iff] at same
      rw [octalAsDecimal_small same] at large
      omega

/-! ### The lines -/

theorem afterKey_field {name key : String} (plain : '=' ∉ name.toList) (plain' : '=' ∉ key.toList)
    (value : List Char) :
    afterKey (name ++ "=") (key.toList ++ '=' :: value) = if key = name then some value else none := by
  have text : (name ++ "=").toList = name.toList ++ ['='] := String.toList_append
  have length : (name ++ "=").length = name.toList.length + 1 := by
    rw [← String.length_toList, text, length_append, length_singleton]
  unfold afterKey
  rw [text, length]
  by_cases same : key = name
  · subst same
    have isPrefix : (key.toList ++ ['=']).isPrefixOf (key.toList ++ '=' :: value) = true :=
      isPrefixOf_iff_prefix.mpr ⟨value, by simp⟩
    rw [if_pos isPrefix, if_pos rfl, drop_separator]
  · rw [if_neg same, if_neg]
    intro isPrefix
    obtain ⟨rest, whole⟩ := isPrefixOf_iff_prefix.mp isPrefix
    rw [append_assoc, singleton_append] at whole
    exact same (String.toList_injective (append_separator_inj plain plain' whole).1.symm)

theorem sidecarLine_field (stale : Int) (ws : Sidecar) {key : String} (plain : '=' ∉ key.toList)
    (value : List Char) :
    sidecarLine stale ws (key.toList ++ '=' :: value) =
      if key = "IN_FILE" then { ws with inFile := lineField pathMax value }
      else if key = "OUT_FILE" then { ws with outFile := lineField pathMax value }
      else if key = "ERR_FILE" then { ws with errFile := lineField pathMax value }
      else if key = "HOME_DIR" then { ws with homeDir := lineField pathMax value }
      else if key = "UMASK" then { ws with umask := ((llAtoi value).getD stale % 4294967296).toNat }
      else if key = "CWD" then { ws with cwd := lineField pathMax value }
      else if key = "COMMAND" then { ws with command := lineField 512 value }
      else ws := by
  have named : ∀ name : String, '=' ∉ name.toList →
      afterKey (name ++ "=") (key.toList ++ '=' :: value) = if key = name then some value else none :=
    fun name plain' => afterKey_field plain' plain value
  have inFile := named "IN_FILE" (by decide)
  have outFile := named "OUT_FILE" (by decide)
  have errFile := named "ERR_FILE" (by decide)
  have homeDir := named "HOME_DIR" (by decide)
  have umask := named "UMASK" (by decide)
  have cwd := named "CWD" (by decide)
  have command := named "COMMAND" (by decide)
  simp only [String.reduceAppend] at inFile outFile errFile homeDir umask cwd command
  simp only [sidecarLine, inFile, outFile, errFile, homeDir, umask, cwd, command]
  split_ifs <;> rfl

theorem sidecarFields_name {j : JobId} {uid gid : Nat} {ws : WireJobSubmit} {files : SubmitFiles}
    {field : String × List Char} (member : field ∈ sidecarFields j uid gid ws files) :
    '=' ∉ field.1.toList ∧ '\n' ∉ field.1.toList ∧ field.1.length ≤ 11 := by
  have names : (sidecarFields j uid gid ws files).map Prod.fst =
      ["JOB_ID", "UID", "GID", "USERNAME", "NAME", "QUEUE", "PROJECT", "SUBMIT_HOST", "HOME_DIR",
        "CWD", "COMMAND", "IN_FILE", "OUT_FILE", "ERR_FILE", "NUM_CPUS", "NUM_NHOSTS", "NUM_GPUS",
        "MEM_MB", "UMASK", "FLAGS", "BEGIN_TIME", "TERM_TIME", "DEPEND_COND", "MACHINES",
        "GPU_MODEL", "COMMENT", "TOKENPOOL"] := rfl
  have named : field.1 ∈ (sidecarFields j uid gid ws files).map Prod.fst :=
    List.mem_map_of_mem member
  rw [names] at named
  revert named
  generalize field.1 = name
  revert name
  decide +kernel

/-! ### Line breaks -/

/-- The lines of a text behind its first one. -/
def laterLines : List Char → List (List Char)
  | [] => []
  | c :: text =>
    if c = '\n' then text.takeWhile (· ≠ '\n') :: laterLines text else laterLines text

theorem flatMap_lines (text : List Char) :
    (text.takeWhile (· ≠ '\n') :: laterLines text).flatMap (· ++ ['\n']) = text ++ ['\n'] := by
  induction text with
  | nil => rfl
  | cons c text ih =>
    by_cases breaks : c = '\n'
    · subst breaks
      simpa [laterLines] using ih
    · simpa [laterLines, breaks] using ih

theorem laterLines_append {line : List Char} (plain : '\n' ∉ line) (text : List Char) :
    laterLines (line ++ text) = laterLines text := by
  induction line with
  | nil => rfl
  | cons c line ih =>
    rw [mem_cons, not_or] at plain
    rw [cons_append, laterLines, if_neg fun same => plain.1 same.symm, ih plain.2]

theorem laterLines_plain {text : List Char} (plain : '\n' ∉ text) : laterLines text = [] := by
  have all := laterLines_append plain []
  rwa [append_nil] at all

theorem mem_laterLines {text line : List Char} (member : line ∈ laterLines text) :
    '\n' ∉ line ∧ line.length ≤ text.length := by
  induction text with
  | nil => cases member
  | cons c text ih =>
    rw [length_cons]
    have later : line ∈ laterLines text → '\n' ∉ line ∧ line.length ≤ text.length + 1 :=
      fun inside => ⟨(ih inside).1, Nat.le_succ_of_le (ih inside).2⟩
    rw [laterLines] at member
    split at member
    · rcases mem_cons.mp member with rfl | inside
      · exact ⟨newline_notMem_takeWhile text, Nat.le_succ_of_le (takeWhile_sublist _).length_le⟩
      · exact later inside
    · exact later member

/-- The lines of one field of the sidecar. -/
def fieldLines (field : String × List Char) : List (List Char) :=
  (field.1.toList ++ '=' :: field.2.takeWhile (· ≠ '\n')) :: laterLines field.2

/-- The lines that line breaks add behind the last of the seven lines that are read. -/
def addedLines (ws : WireJobSubmit) (files : SubmitFiles) : List (List Char) :=
  [ws.dependCond, ws.machines, ws.gpuModel, files.comment, ws.tokenpool].flatMap fun text =>
    laterLines text.toList

def Sidecar.OneLine (s : Sidecar) : Prop :=
  ∀ text ∈ [s.inFile, s.outFile, s.errFile, s.homeDir, s.cwd, s.command], '\n' ∉ text.toList

instance decidableOneLine (s : Sidecar) : Decidable s.OneLine :=
  inferInstanceAs (Decidable (∀ _ ∈ _, _))

theorem Sidecar.OneLine.read {s : Sidecar} (stale : Int) {line : List Char} (oneLine : s.OneLine)
    (plain : '\n' ∉ line) : (sidecarLine stale s line).OneLine := by
  have kept : ∀ {key value} size, afterKey key line = some value →
      '\n' ∉ (lineField size value).toList := by
    intro key value size found present
    obtain ⟨-, found⟩ := ite_none_right_eq_some.mp found
    cases found
    rw [lineField, String.toList_ofList] at present
    exact plain (mem_of_mem_drop (mem_of_mem_take present))
  unfold sidecarLine Sidecar.OneLine at *
  simp only [mem_cons, not_mem_nil, or_false, forall_eq_or_imp, forall_eq] at oneLine ⊢
  repeat' split
  all_goals simp_all only [not_false_eq_true, and_self, and_true, true_and]
  all_goals exact kept _ ‹_›

/-- What the seven lines alone would give. -/
def SubmitFiles.linesRead (files : SubmitFiles) (stale : Int) : Sidecar :=
  { files.sidecar with
    umask := umaskRead stale files.umask
    command := lineField 512 files.command.toList }

variable {dir : List Char} {disk : Disk} {j : JobId} {uid gid : Nat} {ws : WireJobSubmit}
  {files : SubmitFiles}

/-- Line breaks in front of the seven lines do not matter: each of the lines is read later. -/
theorem foldl_fieldLines
    (fits : ∀ field ∈ sidecarFields j uid gid ws files, field.2.length ≤ 4095)
    (oneLine : files.sidecar.OneLine) (stale : Int) (s : Sidecar) :
    ((sidecarFields j uid gid ws files).flatMap fieldLines).foldl (sidecarLine stale) s =
      (addedLines ws files).foldl (sidecarLine stale) (files.linesRead stale) := by
  have number : ∀ v : Int, '\n' ∉ decimalDigits v :=
    notMem_decimalDigits (by decide) (by decide)
  have octal : '\n' ∉ octalDigits files.umask := fun present =>
    absurd ((octalDigits_isDigits files.umask).2 _ present) (by decide)
  have whole : ∀ {value : List Char}, '\n' ∉ value →
      value.takeWhile (fun c => !decide (c = '\n')) = value := fun plain =>
    takeWhile_eq_self_iff.mpr fun c member => by
      rw [decide_eq_false fun same : c = '\n' => plain (same ▸ member)]
      rfl
  have fitting : ∀ field ∈ sidecarFields j uid gid ws files,
      lineField pathMax field.2 = String.ofList field.2 := fun field member =>
    congrArg String.ofList (take_of_length_le (fits field member))
  simp only [sidecarFields, forall_mem_cons, String.ofList_toList] at fitting
  simp only [Sidecar.OneLine, SubmitFiles.sidecar, mem_cons, not_mem_nil, or_false,
    forall_eq_or_imp, forall_eq] at oneLine
  obtain ⟨inFile, outFile, errFile, homeDir, cwd, command⟩ := oneLine
  rw [flatMap_def, foldl_flatten, foldl_map]
  refine (foldl_ext _ _ _ fun s field member =>
    congrArg (fun t => (laterLines field.2).foldl (sidecarLine stale) t)
      (sidecarLine_field stale s (sidecarFields_name member).1 _)).trans ?_
  simp [sidecarFields, addedLines, SubmitFiles.linesRead, SubmitFiles.sidecar, umaskRead,
    laterLines_plain, *]

theorem length_le_sidecarText {field : String × List Char}
    (member : field ∈ sidecarFields j uid gid ws files) :
    field.2.length ≤ (sidecarText j uid gid ws files).length := by
  obtain ⟨front, back, split⟩ := append_of_mem member
  simp only [sidecarText, split, flatMap_append, flatMap_cons, length_append, length_cons]
  omega

theorem sidecarLines_plain
    (fits : ∀ field ∈ sidecarFields j uid gid ws files, field.2.length ≤ 4095) :
    ∀ line ∈ (sidecarFields j uid gid ws files).flatMap fieldLines,
      '\n' ∉ line ∧ line.length ≤ pathMax + 16 - 1 := by
  intro line member
  obtain ⟨field, isField, inside⟩ := mem_flatMap.mp member
  have length := fits field isField
  obtain ⟨-, name, short⟩ := sidecarFields_name isField
  rcases mem_cons.mp inside with rfl | later
  · have first := (takeWhile_sublist (l := field.2) (· ≠ '\n')).length_le
    rw [mem_append, mem_cons, not_or, not_or, length_append, length_cons, String.length_toList]
    exact ⟨⟨name, by decide, newline_notMem_takeWhile _⟩, by unfold pathMax; omega⟩
  · obtain ⟨plain, bounded⟩ := mem_laterLines later
    exact ⟨plain, by unfold pathMax; omega⟩

theorem readSidecar_eq (fits : ∀ field ∈ sidecarFields j uid gid ws files, field.2.length ≤ 4095)
    (stored : (jobFilePath dir j .submit).bind disk = some (sidecarText j uid gid ws files))
    (stale : Int) :
    readSidecar dir disk stale j =
      some (((sidecarFields j uid gid ws files).flatMap fieldLines).foldl (sidecarLine stale)
        ⟨"", "", "", "", 0, "", ""⟩) := by
  obtain ⟨path, isPath, content⟩ := bind_eq_some_iff.mp stored
  have lines : sidecarText j uid gid ws files =
      ((sidecarFields j uid gid ws files).flatMap fieldLines).flatMap (· ++ ['\n']) := by
    rw [sidecarText, flatMap_assoc]
    refine flatMap_congr fun ⟨key, value⟩ _ => ?_
    simp [fieldLines, ← flatMap_lines value]
  unfold readSidecar
  rw [isPath, bind_eq_bind, bind_some, content]
  simp only [bind_some]
  rw [lines, foldl_sidecarLines (fun _ => rfl)
    (fun line member => (sidecarLines_plain fits line member).1)
    (fun line member => (sidecarLines_plain fits line member).2) (Nat.lt_succ_self _) (by decide)]

theorem linesRead_eq_iff :
    (∀ stale, files.linesRead stale = files.sidecar) ↔
      files.umask < 8 ∧ files.command.length ≤ 511 := by
  rw [← umaskRead_eq_iff]
  have command : lineField 512 files.command.toList = files.command ↔
      files.command.length ≤ 511 := by
    rw [← String.toList_inj, lineField, String.toList_ofList, ← String.length_toList]
    refine ⟨fun same => ?_, take_of_length_le⟩
    have length := congrArg List.length same
    rw [length_take] at length
    omega
  rw [← command]
  simp only [SubmitFiles.linesRead, SubmitFiles.sidecar, Sidecar.mk.injEq, true_and]
  exact ⟨fun all => ⟨fun stale => (all stale).1, (all 0).2⟩,
    fun both stale => ⟨both.1 stale, both.2⟩⟩

/--
What was sent comes back exactly if none of the six texts breaks a line, and the lines that
the texts behind them add, read over what the seven lines give, leave what was sent.
-/
theorem readSidecar_returns_iff
    (fits : ∀ field ∈ sidecarFields j uid gid ws files, field.2.length ≤ 4095)
    (stored : (jobFilePath dir j .submit).bind disk = some (sidecarText j uid gid ws files)) :
    (∀ stale, readSidecar dir disk stale j = some files.sidecar) ↔
      files.sidecar.OneLine ∧ ∀ stale,
        (addedLines ws files).foldl (sidecarLine stale) (files.linesRead stale) = files.sidecar := by
  simp only [readSidecar_eq fits stored, Option.some.injEq]
  constructor
  · intro all
    have oneLine : files.sidecar.OneLine := by
      rw [← all 0]
      refine List.foldlRecOn _ _ (by simp [Sidecar.OneLine]) fun s oneLine line member => oneLine.read 0 ?_
      exact (sidecarLines_plain fits line member).1
    exact ⟨oneLine, fun stale => (foldl_fieldLines fits oneLine stale _).symm.trans (all stale)⟩
  · exact fun ⟨oneLine, added⟩ stale => (foldl_fieldLines fits oneLine stale _).trans (added stale)

end LavaLite.Mbd
