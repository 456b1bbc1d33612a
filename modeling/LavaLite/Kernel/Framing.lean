import Mathlib.Data.List.Basic

/-
Streams cut into frames.  The first items of a frame, its header, say how many more
belong to it; some headers say nothing and are refused.  A stream has one way only
to be read as frames.
-/

namespace LavaLite.Kernel

open List

/-- Headers of one size, and the number of items behind each. -/
structure Framing (B : Type) where
  size : Nat
  size_pos : 0 < size
  body : List B → Option Nat

namespace Framing

variable {B : Type} (f : Framing B) {frame rest tail : List B} {frames : List (List B)}

def IsFrame (frame : List B) : Prop :=
  ∃ n, f.body (frame.take f.size) = some n ∧ frame.length = f.size + n

/-- The beginning of a frame that is not there yet; it may be empty. -/
def Unfinished (part : List B) : Prop :=
  part.length < f.size ∨ ∃ n, f.body (part.take f.size) = some n ∧ part.length < f.size + n

/-- A whole header is there, and it is refused. -/
def Refused (part : List B) : Prop :=
  f.size ≤ part.length ∧ f.body (part.take f.size) = none

variable {f}

theorem IsFrame.size_le (isFrame : f.IsFrame frame) : f.size ≤ frame.length := by
  obtain ⟨n, -, length⟩ := isFrame
  omega

theorem take_size_append {front : List B} (rest : List B) (enough : f.size ≤ front.length) :
    (front ++ rest).take f.size = front.take f.size :=
  take_append_of_le_length enough

theorem IsFrame.eq_of_append {frame' rest' : List B} (isFrame : f.IsFrame frame)
    (isFrame' : f.IsFrame frame') (same : frame ++ rest = frame' ++ rest') :
    frame = frame' ∧ rest = rest' := by
  have headers : frame.take f.size = frame'.take f.size := by
    rw [← take_size_append rest isFrame.size_le, same, take_size_append rest' isFrame'.size_le]
  obtain ⟨n, body, length⟩ := isFrame
  obtain ⟨n', body', length'⟩ := isFrame'
  rw [headers, body'] at body
  cases body
  exact append_inj same (length.trans length'.symm)

theorem Unfinished.not_frame {part : List B} (unfinished : f.Unfinished part)
    (isFrame : f.IsFrame frame) : part ≠ frame ++ rest := by
  rintro rfl
  have enough := isFrame.size_le
  rcases unfinished with short | ⟨n, body, short⟩
  · rw [length_append] at short
    omega
  · obtain ⟨n', body', length⟩ := isFrame
    rw [take_size_append rest enough, body'] at body
    cases body
    rw [length_append] at short
    omega

theorem frames_split {frames' : List (List B)} (isFrame : ∀ x ∈ frames, f.IsFrame x)
    (isFrame' : ∀ x ∈ frames', f.IsFrame x) (unfinished : f.Unfinished tail)
    (same : frames.flatten ++ rest = frames'.flatten ++ tail) :
    ∃ more, frames' = frames ++ more ∧ rest = more.flatten ++ tail := by
  induction frames generalizing frames' with
  | nil => exact ⟨frames', rfl, same⟩
  | cons x frames ih =>
    have head := isFrame x mem_cons_self
    rw [flatten_cons, append_assoc] at same
    cases frames' with
    | nil => exact absurd same.symm (unfinished.not_frame head)
    | cons x' frames' =>
      rw [flatten_cons, append_assoc] at same
      obtain ⟨rfl, behind⟩ := head.eq_of_append (isFrame' x' mem_cons_self) same
      obtain ⟨more, rfl, rest⟩ := ih (fun y member => isFrame y (mem_cons_of_mem x member))
        (fun y member => isFrame' y (mem_cons_of_mem x member)) behind
      exact ⟨more, rfl, rest⟩

theorem not_refused (isFrame : ∀ x ∈ frames, f.IsFrame x) (unfinished : f.Unfinished tail) :
    ¬f.Refused (frames.flatten ++ tail) := by
  rintro ⟨enough, refused⟩
  cases frames with
  | nil =>
    rcases unfinished with short | ⟨n, body, -⟩
    · exact absurd enough (Nat.not_le.mpr short)
    · exact absurd (refused.symm.trans body) (by simp)
  | cons x frames =>
    obtain ⟨n, body, length⟩ := isFrame x mem_cons_self
    rw [flatten_cons, append_assoc, take_size_append _ (by omega), body] at refused
    cases refused

end Framing

end LavaLite.Kernel
