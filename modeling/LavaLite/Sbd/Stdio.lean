import Mathlib.Logic.Function.Basic
import LavaLite.Base.CText

/-
The paths of a job's output files.  The memory is given from the buffer on, so that
a byte behind the buffer can be seen to be written.  A buffer is an object of C, and
sums of its offsets stay within `size_t`.
-/

namespace LavaLite.Sbd

open Base List

/-- The byte at each offset from `out`. -/
abbrev Memory := Nat → Char

def store (mem : Memory) : Nat → List Char → Memory
  | _, [] => mem
  | pos, c :: text => store (Function.update mem pos c) (pos + 1) text

/-- `snprintf(out + pos, size, "%s", text)`, with the terminator. -/
def snprintf (mem : Memory) (pos size : Nat) (text : List Char) : Memory :=
  if size = 0 then mem else store mem pos (text.take (size - 1) ++ ['\x00'])

/-- The loop of `expand_stdio_path`: the position it reaches, `none` where it returns -1. -/
def expandLoop (jobId : Int) (outsz : Nat) : List Char → Nat → Memory → Memory × Option Nat
  | [], pos, mem => (mem, some pos)
  | c :: rest, pos, mem =>
    if c ≠ '%' then
      if pos + 1 ≥ outsz then (mem, none)
      else expandLoop jobId outsz rest (pos + 1) (store mem pos [c])
    else
      match rest with
      | [] =>
        if pos + 1 ≥ outsz then (mem, none)
        else expandLoop jobId outsz [] (pos + 1) (store mem pos ['%'])
      | d :: rest =>
        if d = 'J' ∨ d = 'I' then
          let n := (decimalDigits jobId).length
          let mem := snprintf mem pos (outsz - pos) (decimalDigits jobId)
          if n ≥ outsz - pos then (mem, none) else expandLoop jobId outsz rest (pos + n) mem
        else if pos + 2 ≥ outsz then (mem, none)
        else expandLoop jobId outsz rest (pos + 2) (store mem pos ['%', d])

/-- The memory afterwards, and whether the result is 0; both pointers are set. -/
def expandStdioPath (jobId : Int) (tmpl : List Char) (outsz : Nat) (mem : Memory) : Memory × Bool :=
  if outsz = 0 then (mem, false)
  else
    match expandLoop jobId outsz tmpl 0 mem with
    | (mem, none) => (mem, false)
    | (mem, some pos) => if pos ≥ outsz then (mem, false) else (store mem pos ['\x00'], true)

/-- The path a template stands for: a `%` takes the next character along. -/
def expansion (jobId : Int) : List Char → List Char
  | '%' :: d :: rest =>
    (if d = 'J' ∨ d = 'I' then decimalDigits jobId else ['%', d]) ++ expansion jobId rest
  | c :: rest => c :: expansion jobId rest
  | [] => []

def TextAt (mem : Memory) : Nat → List Char → Prop
  | _, [] => True
  | pos, c :: text => mem pos = c ∧ TextAt mem (pos + 1) text

variable {mem mem' : Memory} {pos outsz i : Nat} {text rest : List Char} {jobId : Int}

theorem store_outside (outside : i < pos ∨ pos + text.length ≤ i) :
    store mem pos text i = mem i := by
  induction text generalizing mem pos with
  | nil => rfl
  | cons c text ih =>
    rw [length_cons] at outside
    have elsewhere : i ≠ pos := by omega
    rw [store, ih (by omega), Function.update_of_ne elsewhere]

theorem textAt_store : TextAt (store mem pos text) pos text := by
  induction text generalizing mem pos with
  | nil => trivial
  | cons c text ih =>
    refine ⟨?_, ih⟩
    rw [store, store_outside (Or.inl (Nat.lt_succ_self pos)), Function.update_self]

theorem TextAt.congr (holds : TextAt mem pos text)
    (same : ∀ i, pos ≤ i → i < pos + text.length → mem' i = mem i) : TextAt mem' pos text := by
  induction text generalizing pos with
  | nil => trivial
  | cons c text ih =>
    rw [length_cons] at same
    refine ⟨(same pos (Nat.le_refl pos) (by omega)).trans holds.1, ih holds.2 ?_⟩
    exact fun i above below => same i (by omega) (by omega)

theorem textAt_append :
    TextAt mem pos (text ++ rest) ↔ TextAt mem pos text ∧ TextAt mem (pos + text.length) rest := by
  induction text generalizing pos with
  | nil => exact (and_iff_right trivial).symm
  | cons c text ih =>
    have next : pos + (c :: text).length = pos + 1 + text.length := by
      rw [length_cons]
      omega
    rw [next, cons_append, TextAt, TextAt, ih, and_assoc]

theorem snprintf_outside (outside : i < pos ∨ outsz ≤ i) :
    snprintf mem pos (outsz - pos) text i = mem i := by
  unfold snprintf
  split
  · rfl
  · refine store_outside ?_
    rw [length_append, length_take, length_singleton]
    omega

theorem textAt_snprintf (fits : text.length < outsz - pos) :
    TextAt (snprintf mem pos (outsz - pos) text) pos text := by
  have room : ¬ outsz - pos = 0 := by omega
  have whole : text.take (outsz - pos - 1) = text := take_of_length_le (by omega)
  rw [snprintf, if_neg room, whole]
  exact (textAt_append.mp textAt_store).1

/-- What a run of the loop over a template with the expansion `text` leaves. -/
structure PathExpanded (outsz : Nat) (mem : Memory) (pos : Nat) (text : List Char)
    (result : Memory × Option Nat) : Prop where
  outside : ∀ i, i < pos ∨ outsz ≤ i → result.1 i = mem i
  reached : result.2 = if pos + text.length < outsz then some (pos + text.length) else none
  holds : pos + text.length < outsz → TextAt result.1 pos text

variable {piece : List Char} {result : Memory × Option Nat}

theorem PathExpanded.stop (outside : ∀ i, i < pos ∨ outsz ≤ i → mem' i = mem i)
    (full : outsz ≤ pos + piece.length) :
    PathExpanded outsz mem pos (piece ++ text) (mem', none) := by
  have long : ¬ pos + (piece ++ text).length < outsz := by
    rw [length_append]
    omega
  exact ⟨outside, (if_neg long).symm, fun fits => absurd fits long⟩

theorem PathExpanded.next (outside : ∀ i, i < pos ∨ outsz ≤ i → mem' i = mem i)
    (written : TextAt mem' pos piece)
    (later : PathExpanded outsz mem' (pos + piece.length) text result) :
    PathExpanded outsz mem pos (piece ++ text) result := by
  have sum : pos + (piece ++ text).length = pos + piece.length + text.length := by
    rw [length_append, Nat.add_assoc]
  constructor
  · intro i away
    rw [later.outside i (away.imp_left fun before => Nat.lt_add_right _ before), outside i away]
  · rw [sum]
    exact later.reached
  · intro fits
    rw [sum] at fits
    refine textAt_append.mpr ⟨written.congr fun i _ below => ?_, later.holds fits⟩
    exact later.outside i (Or.inl below)

theorem PathExpanded.stored (piece : List Char) (later : pos + piece.length < outsz →
      PathExpanded outsz (store mem pos piece) (pos + piece.length) text result) :
    PathExpanded outsz mem pos (piece ++ text)
      (if pos + piece.length ≥ outsz then (mem, none) else result) := by
  split
  next full => exact .stop (fun _ _ => rfl) full
  next room =>
    refine .next (fun i away => store_outside ?_) textAt_store (later (Nat.lt_of_not_le room))
    omega

theorem expandLoop_pathExpanded (jobId : Int) (tmpl : List Char) (mem : Memory)
    (inside : pos < outsz) :
    PathExpanded outsz mem pos (expansion jobId tmpl) (expandLoop jobId outsz tmpl pos mem) := by
  fun_induction expansion jobId tmpl generalizing pos mem with
  | case1 d rest ih =>
    rw [expandLoop, if_neg (not_not_intro rfl)]
    by_cases wild : d = 'J' ∨ d = 'I'
    · simp only [if_pos wild]
      split
      next full => exact .stop (fun _ away => snprintf_outside away) (by omega)
      next room =>
        have fits : (decimalDigits jobId).length < outsz - pos := Nat.lt_of_not_le room
        exact .next (fun _ away => snprintf_outside away) (textAt_snprintf fits) (ih _ (by omega))
    · simp only [if_neg wild]
      exact .stored ['%', d] (ih _)
  | case2 c rest alone ih =>
    by_cases percent : c = '%'
    · cases rest with
      | nil =>
        rw [expandLoop, if_neg (not_not_intro percent), percent]
        exact .stored ['%'] (ih _)
      | cons d rest => exact absurd rfl (alone d rest percent)
    · rw [expandLoop.eq_def]
      simp only [if_pos percent]
      exact .stored [c] (ih _)
  | case3 => exact ⟨fun _ _ => rfl, (if_pos inside).symm, fun _ => trivial⟩

theorem path_expanded_iff (jobId : Int) (tmpl : List Char) (outsz : Nat) (mem : Memory) :
    ((expandStdioPath jobId tmpl outsz mem).2 = true ↔ (expansion jobId tmpl).length + 1 ≤ outsz) ∧
      ((expandStdioPath jobId tmpl outsz mem).2 = true →
        TextAt (expandStdioPath jobId tmpl outsz mem).1 0 (expansion jobId tmpl ++ ['\x00'])) ∧
      ∀ i, outsz ≤ i → (expandStdioPath jobId tmpl outsz mem).1 i = mem i := by
  unfold expandStdioPath
  by_cases none_ : outsz = 0
  · simp [none_]
  · rw [if_neg none_]
    have expanded := expandLoop_pathExpanded jobId tmpl mem (Nat.pos_of_ne_zero none_)
    generalize expandLoop jobId outsz tmpl 0 mem = result at expanded
    obtain ⟨outside, reached, holds⟩ := expanded
    rw [Nat.zero_add] at reached holds
    obtain ⟨mem', end_⟩ := result
    by_cases fits : (expansion jobId tmpl).length < outsz
    · rw [if_pos fits] at reached
      cases reached
      simp only [if_neg (Nat.not_le_of_lt fits), true_iff, true_implies]
      refine ⟨fits, textAt_append.mpr ⟨(holds fits).congr ?_, ?_⟩, fun i behind => ?_⟩
      · exact fun i _ below => store_outside (Or.inl (by omega))
      · rw [Nat.zero_add]
        exact textAt_store
      · rw [store_outside (Or.inr (Nat.le_trans fits behind))]
        exact outside i (Or.inr behind)
    · rw [if_neg fits] at reached
      cases reached
      refine ⟨⟨nofun, fun short => absurd short fits⟩, nofun, fun i behind => ?_⟩
      exact outside i (Or.inr behind)

end LavaLite.Sbd
