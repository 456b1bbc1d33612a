import Mathlib.Data.List.ReduceOption
import LavaLite.Batch.LogReading

/-
A manifest with one damaged line.  The loop of `jobs_replay` takes a line without a header
for the end of the file, and a record that a crash has cut has no newline of its own, so the
next record that is appended continues its line.
-/

namespace LavaLite.Batch

open Base List

/-! ### Places in a file -/

/-- The loop comes to a place: what is left of the file when it has read some lines. -/
inductive Reaches : List Char → List Char → Prop
  | here (file : List Char) : Reaches file file
  | next {file rest place : List Char} {header : EventRec}
      (read : logReadHdr file = some (header, rest)) (later : Reaches rest place) :
      Reaches file place

variable {file rest place place' : List Char} {header : EventRec}

theorem Reaches.length_le (reached : Reaches file place) : place.length ≤ file.length := by
  induction reached with
  | here => exact Nat.le_refl _
  | next read _ ih => exact Nat.le_trans ih (Nat.le_of_lt (logReadHdr_shorter read))

theorem Reaches.trans (first : Reaches file place) (second : Reaches place place') :
    Reaches file place' := by
  induction first with
  | here => exact second
  | next read _ ih => exact .next read (ih second)

theorem Reaches.between (first : Reaches file place) (second : Reaches file place')
    (later : place'.length ≤ place.length) : Reaches place place' := by
  induction first with
  | here => exact second
  | next read reached ih =>
    cases second with
    | here =>
      have shorter := logReadHdr_shorter read
      have bound := reached.length_le
      omega
    | next read' later' =>
      cases read.symm.trans read'
      exact ih later' later

theorem Reaches.afterLine (read : logReadHdr file = some (header, rest)) (reached : Reaches file place)
    (shorter : place.length < file.length) : Reaches rest place := by
  cases reached with
  | here => exact absurd shorter (Nat.lt_irrefl _)
  | next read' later =>
    cases read.symm.trans read'
    exact later

theorem Reaches.stuck (stops : logReadHdr file = none) (reached : Reaches file place) :
    place = file := by
  cases reached with
  | here => rfl
  | next read _ =>
    rw [stops] at read
    cases read

theorem Reaches.readAll (reached : Reaches file place) :
    ∃ lines, Batch.readAll file = lines ++ Batch.readAll place := by
  induction reached with
  | here => exact ⟨[], rfl⟩
  | @next _ _ _ header read _ ih =>
    obtain ⟨lines, same⟩ := ih
    refine ⟨parseEvent header :: lines, ?_⟩
    rw [readAll_cons read, same]
    rfl

theorem reaches_manifestText {records : List Event} (plain : ∀ e ∈ records, Plain e)
    (file : List Char) : Reaches (manifestText records ++ file) file := by
  induction records with
  | nil => exact .here file
  | cons e records ih =>
    have first := plain e mem_cons_self
    have others := ih fun e' member => plain e' (mem_cons_of_mem e member)
    have split : manifestText (e :: records) ++ file =
        writeEvent e ++ (manifestText records ++ file) := by
      simp [manifestText]
    rw [split]
    exact .next (first.logReadHdr _) others

/-! ### Headers -/

def Headed (line : List Char) : Prop :=
  let word := ((skipWs line).take 63).takeWhile fun c => !isSpace c
  word ≠ [] ∧ ((scanInteger ((skipWs line).drop word.length)).any fun version =>
    (scanInteger version.2).isSome) = true

instance decidableHeaded (line : List Char) : Decidable (Headed line) :=
  inferInstanceAs (Decidable (_ ∧ _))

variable {line : List Char} {e : Event}

theorem headed_iff_scanHdr : Headed line ↔ ∃ header, scanHdr line = some header := by
  unfold Headed scanHdr
  dsimp only
  generalize skipWs line = line
  generalize (line.take 63).takeWhile (fun c => !isSpace c) = word
  cases word with
  | nil => simp
  | cons c word =>
    cases scanInteger (line.drop (c :: word).length) with
    | none => simp
    | some version => cases second : scanInteger version.2 <;> simp [second]

/-- The parts in which `fgets` reads a line of any length. -/
def pieces (line : List Char) : List (List Char) :=
  if line.length < 4095 then [line ++ ['\n']]
  else line.take 4095 :: pieces (line.drop 4095)
termination_by line.length
decreasing_by
  rw [length_drop]
  omega

theorem logReadHdr_of_takeLine (filled : file ≠ []) (taken : takeLine 4095 file = (line, rest)) :
    logReadHdr file = (scanHdr line).map fun header => (header, rest) := by
  have nonempty : file.isEmpty = false := by simpa using filled
  rw [logReadHdr, fgets, nonempty]
  simp only [Bool.false_eq_true, if_false, Option.bind_eq_bind, Option.bind_some, taken]
  cases scanHdr line <;> rfl

theorem reaches_line_iff (one : '\n' ∉ line) (file : List Char) :
    Reaches (line ++ '\n' :: file) file ↔ ∀ piece ∈ pieces line, Headed piece := by
  induction line using pieces.induct with
  | case1 line short =>
    have filled : line ++ '\n' :: file ≠ [] := by simp
    have read := logReadHdr_of_takeLine filled (takeLine_line file one short)
    rw [pieces, if_pos short]
    simp only [mem_singleton, forall_eq, headed_iff_scanHdr]
    constructor
    · intro reached
      cases header : scanHdr (line ++ ['\n']) with
      | none =>
        rw [header] at read
        have same := congrArg List.length (reached.stuck read)
        rw [length_append, length_cons] at same
        omega
      | some found => exact ⟨found, rfl⟩
    · rintro ⟨header, found⟩
      rw [found] at read
      exact .next read (.here file)
  | case2 line long ih =>
    have filled : line ++ '\n' :: file ≠ [] := by simp
    have long : 4095 ≤ line.length := Nat.le_of_not_lt long
    have read := logReadHdr_of_takeLine filled (takeLine_full ('\n' :: file) one long)
    have shorter : file.length < (line ++ '\n' :: file).length := by
      rw [length_append, length_cons]
      omega
    have ih := ih fun member => one (mem_of_mem_drop member)
    rw [pieces, if_neg (Nat.not_lt.mpr long), forall_mem_cons, ← ih, headed_iff_scanHdr]
    constructor
    · intro reached
      cases header : scanHdr (line.take 4095) with
      | none =>
        rw [header] at read
        have same := congrArg List.length (reached.stuck read)
        omega
      | some found =>
        rw [header] at read
        exact ⟨⟨found, rfl⟩, reached.afterLine read shorter⟩
    · rintro ⟨⟨header, found⟩, later⟩
      rw [found] at read
      exact .next read later

theorem readAll_line (one : '\n' ∉ line) :
    (∃ first lines, ∀ file, readAll (line ++ '\n' :: file) = first :: lines ++ readAll file) ∨
      ∃ lines, ∀ file, readAll (line ++ '\n' :: file) = lines := by
  have filled (line file : List Char) : line ++ '\n' :: file ≠ [] := by simp
  induction line using pieces.induct with
  | case1 line short =>
    have read file := logReadHdr_of_takeLine (filled line file) (takeLine_line file one short)
    cases found : scanHdr (line ++ ['\n']) with
    | none =>
      right
      refine ⟨[], fun file => readAll_stop ?_⟩
      rw [read, found]
      rfl
    | some header =>
      left
      refine ⟨parseEvent header, [], fun file => readAll_cons ?_⟩
      rw [read, found]
      rfl
  | case2 line long ih =>
    have long : 4095 ≤ line.length := Nat.le_of_not_lt long
    have ih := ih fun member => one (mem_of_mem_drop member)
    have read file := logReadHdr_of_takeLine (filled line file)
      (takeLine_full ('\n' :: file) one long)
    cases found : scanHdr (line.take 4095) with
    | none =>
      right
      refine ⟨[], fun file => readAll_stop ?_⟩
      rw [read, found]
      rfl
    | some header =>
      have step file : readAll (line ++ '\n' :: file) =
          parseEvent header :: readAll (line.drop 4095 ++ '\n' :: file) := by
        apply readAll_cons
        rw [read, found]
        rfl
      rcases ih with ⟨first, lines, past⟩ | ⟨lines, stuck⟩
      · left
        refine ⟨parseEvent header, first :: lines, fun file => ?_⟩
        rw [step, past]
        rfl
      · right
        refine ⟨parseEvent header :: lines, fun file => ?_⟩
        rw [step, stuck]

/-- A line the loop gets past is read as the same records whatever follows. -/
theorem readAll_line_past (one : '\n' ∉ line)
    (past : ∀ file, ∃ lines, readAll (line ++ '\n' :: file) = lines ++ readAll file) :
    ∃ first lines, ∀ file, readAll (line ++ '\n' :: file) = first :: lines ++ readAll file := by
  rcases readAll_line one with split | ⟨lines, stuck⟩
  · exact split
  · -- what is read before the end does not depend on what follows, but the file may be long
    obtain ⟨records, long, many⟩ : ∃ records : List Event, lines.length < records.length ∧
        ∀ e ∈ records, Plain e := by
      refine ⟨List.replicate (lines.length + 1) (.jobPend 1 1), ?_, fun e member => ?_⟩
      · rw [length_replicate]
        exact Nat.lt_succ_self _
      · rw [eq_of_mem_replicate member]
        decide +kernel
    have read := readAll_manifestText many []
    obtain ⟨before, same⟩ := past (manifestText records ++ [])
    rw [stuck, read, readAll_nil, append_nil] at same
    have length := congrArg List.length same
    rw [length_append, length_map] at length
    omega

theorem readAll_line_ne (one : '\n' ∉ line) :
    ¬ ∀ file, readAll (line ++ '\n' :: file) = readAll file := by
  intro same
  obtain ⟨first, lines, split⟩ := readAll_line_past one fun file => ⟨[], same file⟩
  have length := congrArg List.length ((split []).symm.trans (same []))
  rw [readAll_nil, append_nil] at length
  cases length

/-! ### Damage -/

/-- One damaged line: a record of which only the first bytes were written, or any other line. -/
inductive Damage where
  | cut (record : Event) (bytes : Nat) (plain : Plain record) (begun : 0 < bytes)
      (unfinished : bytes < (writeEvent record).length)
  | line (text : List Char) (one : '\n' ∉ text)

def Damage.text : Damage → List Char
  | .cut record bytes _ _ _ => (writeEvent record).take bytes
  | .line text _ => text ++ ['\n']

def damagedText (before : List Event) (damage : Damage) (after : List Event) : List Char :=
  manifestText before ++ (damage.text ++ manifestText after)

/-- Each part of the damaged line has a header; a cut record has no line of its own. -/
def Damage.Passable : Damage → Prop
  | .cut _ _ _ _ _ => False
  | .line text _ => ∀ piece ∈ pieces text, Headed piece

/-- The record a crash has cut; another line was no record. -/
def Damage.records : Damage → List Event
  | .cut record _ _ _ _ => [record]
  | .line _ _ => []

/-- What the damaged line is read as. -/
def Damage.events (damage : Damage) : List Event :=
  readManifest damage.text

variable {before after : List Event} {damage : Damage}

theorem cut_open {record : Event} {bytes : Nat} (plain : Plain record)
    (unfinished : bytes < (writeEvent record).length) :
    '\n' ∉ (writeEvent record).take bytes ∧ ((writeEvent record).take bytes).length < 4095 := by
  have short := plain.short
  rw [writeEvent_eq, writeRecord_eq] at *
  rw [length_append, length_singleton] at short unfinished
  rw [take_append_of_le_length (by omega)]
  constructor
  · intro newline
    obtain ⟨text, member, here⟩ := newline_mem_recordBody.mp (mem_of_mem_take newline)
    exact (plain.unbroken text member '\n' here).2 rfl
  · rw [length_take]
    omega

theorem manifestText_ne_nil (some_ : after ≠ []) : manifestText after ≠ [] := by
  cases after with
  | nil => exact absurd rfl some_
  | cons e after =>
    intro empty
    have head : writeEvent e = [] := (append_eq_nil_iff.mp empty).1
    rw [writeEvent_eq, writeRecord_eq] at head
    exact append_ne_nil_of_right_ne_nil _ (cons_ne_nil _ _) head

theorem cut_not_reaches {record : Event} {bytes : Nat} (plain : Plain record) (begun : 0 < bytes)
    (unfinished : bytes < (writeEvent record).length) (some_ : after ≠ []) :
    ¬ Reaches ((writeEvent record).take bytes ++ manifestText after) (manifestText after) := by
  obtain ⟨one, short⟩ := cut_open plain unfinished
  have filled := manifestText_ne_nil some_
  have whole : (writeEvent record).take bytes ++ manifestText after ≠ [] :=
    append_ne_nil_of_right_ne_nil _ filled
  have longer : (manifestText after).length <
      ((writeEvent record).take bytes ++ manifestText after).length := by
    rw [length_append, length_take]
    omega
  intro reached
  have read := logReadHdr_of_takeLine whole rfl
  have past := length_takeLine_append_lt one short filled
  cases found : scanHdr (takeLine 4095 ((writeEvent record).take bytes ++ manifestText after)).1 with
  | none =>
    rw [found] at read
    have same := congrArg List.length (reached.stuck read)
    omega
  | some header =>
    rw [found] at read
    have bound := (reached.afterLine read longer).length_le
    omega

theorem Damage.reaches_iff (some_ : after ≠ []) :
    Reaches (damage.text ++ manifestText after) (manifestText after) ↔ damage.Passable := by
  cases damage with
  | cut record bytes plain begun unfinished =>
    exact iff_of_false (cut_not_reaches plain begun unfinished some_) id
  | line text one =>
    have split : (Damage.line text one).text ++ manifestText after =
        text ++ '\n' :: manifestText after := by
      simp [Damage.text]
    rw [split]
    exact reaches_line_iff one (manifestText after)

theorem Damage.reaches_end (plain : ∀ e ∈ before, Plain e) :
    Reaches (damagedText before damage after) (damage.text ++ manifestText after) :=
  reaches_manifestText plain _

theorem readManifest_damaged (plain : ∀ e ∈ before, Plain e) (plain' : ∀ e ∈ after, Plain e)
    (passed : after = [] ∨ damage.Passable) :
    readManifest (damagedText before damage after) = before ++ damage.events ++ after := by
  have text : readAll (damage.text ++ manifestText after) =
      readAll damage.text ++ readAll (manifestText after) := by
    cases after with
    | nil => rw [manifestText, flatMap_nil, append_nil, readAll_nil, append_nil]
    | cons e after =>
      cases damage with
      | cut => exact absurd (passed.resolve_left (cons_ne_nil e after)) id
      | line text one =>
        obtain ⟨first, lines, split⟩ := readAll_line_past one fun file =>
          ((reaches_line_iff one file).mpr (passed.resolve_left (cons_ne_nil e after))).readAll
        rw [Damage.text, append_assoc, singleton_append, split, split, readAll_nil, append_nil]
  have rest := readAll_manifestText plain' []
  rw [append_nil, readAll_nil, append_nil] at rest
  rw [Damage.events, readManifest, damagedText, readAll_manifestText plain, text, rest, readManifest]
  simp only [reduceOption_append, append_assoc, reduceOption_map_some]

end LavaLite.Batch
