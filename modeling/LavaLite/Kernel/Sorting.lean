import Mathlib.Data.List.Sort

/-
What a sort with a comparator function promises: a comparator in the style of C answers
below, at or above zero, and only one that orders the entries of the list at hand binds the
sort to anything.
-/

namespace LavaLite.Kernel

open List

variable {α : Type*}

/-- On the entries of the list, the comparator is a total preorder. -/
structure ConsistentOn (cmp : α → α → Int) (l : List α) : Prop where
  total : ∀ a ∈ l, ∀ b ∈ l, cmp a b ≤ 0 ∨ cmp b a ≤ 0
  trans : ∀ a ∈ l, ∀ b ∈ l, ∀ c ∈ l, cmp a b ≤ 0 → cmp b c ≤ 0 → cmp a c ≤ 0

/-- A sort that keeps its promise wherever the comparator is consistent. -/
def Sorts (sort : (α → α → Int) → List α → List α) : Prop :=
  ∀ cmp l, ConsistentOn cmp l → (sort cmp l).Pairwise fun a b => cmp a b ≤ 0

theorem consistentOn_key (key : α → Int) (l : List α) :
    ConsistentOn (fun a b => key a - key b) l where
  total := by
    intro a _ b _
    omega
  trans := by
    intro a _ b _ c _ first second
    omega

theorem le_of_mem_take {le : α → α → Prop} {l : List α} {k : Nat} {a b : α}
    (sorted : l.Pairwise le) (taken : a ∈ l.take k) (member : b ∈ l) (left : b ∉ l.take k) :
    le a b := by
  rw [← take_append_drop k l] at sorted member
  have behind := (mem_append.mp member).resolve_left left
  exact (pairwise_append.mp sorted).2.2 a taken b behind

section Insertion

variable {le : α → α → Prop} [DecidableRel le]

theorem pairwise_orderedInsert {a : α} {l : List α} (total : ∀ b ∈ l, le a b ∨ le b a)
    (trans : ∀ b ∈ l, ∀ c ∈ l, le a b → le b c → le a c) (sorted : l.Pairwise le) :
    (l.orderedInsert le a).Pairwise le := by
  induction l with
  | nil => exact pairwise_singleton le a
  | cons b l ih =>
    obtain ⟨least, sorted⟩ := pairwise_cons.mp sorted
    rw [List.orderedInsert]
    split
    next before =>
      refine pairwise_cons.mpr ⟨fun c member => ?_, pairwise_cons.mpr ⟨least, sorted⟩⟩
      rcases mem_cons.mp member with rfl | later
      · exact before
      · exact trans b mem_cons_self c (mem_cons_of_mem b later) before (least c later)
    next notBefore =>
      have rest := ih (fun c member => total c (mem_cons_of_mem b member))
        (fun c hc d hd => trans c (mem_cons_of_mem b hc) d (mem_cons_of_mem b hd))
        sorted
      refine pairwise_cons.mpr ⟨fun c member => ?_, rest⟩
      rcases (mem_orderedInsert le).mp member with rfl | later
      · exact (total b mem_cons_self).resolve_left notBefore
      · exact least c later

theorem sorts_insertionSort :
    Sorts fun (cmp : α → α → Int) l => l.insertionSort fun a b => cmp a b ≤ 0 := by
  intro cmp l
  induction l with
  | nil => exact fun _ => List.Pairwise.nil
  | cons a l ih =>
    intro consistent
    have inside : ∀ {b}, b ∈ l.insertionSort (fun a b => cmp a b ≤ 0) → b ∈ a :: l :=
      fun member => mem_cons_of_mem a ((mem_insertionSort _).mp member)
    apply pairwise_orderedInsert
    · exact fun b hb => consistent.total a mem_cons_self b (inside hb)
    · exact fun b hb c hc => consistent.trans a mem_cons_self b (inside hb) c (inside hc)
    · apply ih
      constructor
      · exact fun b hb c hc => consistent.total b (mem_cons_of_mem a hb) c
          (mem_cons_of_mem a hc)
      · exact fun b hb c hc d hd => consistent.trans b (mem_cons_of_mem a hb) c
          (mem_cons_of_mem a hc) d (mem_cons_of_mem a hd)

end Insertion

end LavaLite.Kernel
