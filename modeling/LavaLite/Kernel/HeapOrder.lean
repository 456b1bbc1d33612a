import Mathlib.Logic.Equiv.Basic

/-
The order of a binary heap in an array, with at most one place at which it is broken.
The comparator answers below, at or above zero, as those of C do.
-/

namespace LavaLite.Kernel

open Function

variable {β : Type*} {cmp : β → β → Int} {f g : Nat → β} {n m i s : Nat} {a b c : β}

/-- The comparator tells a total preorder. -/
structure TellsPreorder (cmp : β → β → Int) : Prop where
  flip : ∀ {a b}, 0 ≤ cmp a b → cmp b a ≤ 0
  unflip : ∀ {a b}, cmp a b ≤ 0 → 0 ≤ cmp b a
  trans : ∀ {a b c}, cmp a b ≤ 0 → cmp b c ≤ 0 → cmp a c ≤ 0

theorem TellsPreorder.refl (order : TellsPreorder cmp) (a : β) : cmp a a ≤ 0 := by
  rcases Int.le_total 0 (cmp a a) with above | below
  · exact order.flip above
  · exact below

def parent (k : Nat) : Nat := (k - 1) / 2

/-- No entry comes before its parent. -/
def HeapOrdered (cmp : β → β → Int) (f : Nat → β) (n : Nat) : Prop :=
  ∀ k, 0 < k → k < n → cmp (f (parent k)) (f k) ≤ 0

def Above (cmp : β → β → Int) (f : Nat → β) (i : Nat) : Prop :=
  0 < i → cmp (f (parent i)) (f i) ≤ 0

def Below (cmp : β → β → Int) (f : Nat → β) (n i : Nat) : Prop :=
  ∀ k, 0 < k → k < n → parent k = i → cmp (f i) (f k) ≤ 0

/-- The order may be broken at `i`, but nowhere else, also when `i` is passed over. -/
structure Gap (cmp : β → β → Int) (f : Nat → β) (n i : Nat) : Prop where
  off : ∀ k, 0 < k → k < n → k ≠ i → parent k ≠ i → cmp (f (parent k)) (f k) ≤ 0
  past : 0 < i → ∀ k, 0 < k → k < n → parent k = i → cmp (f (parent i)) (f k) ≤ 0

theorem parent_lt (pos : 0 < i) : parent i < i := by
  unfold parent
  omega

theorem Gap.ordered (gap : Gap cmp f n i) (above : Above cmp f i) (below : Below cmp f n i) :
    HeapOrdered cmp f n := by
  intro k pos inside
  by_cases here : k = i
  · exact here ▸ above (here ▸ pos)
  · by_cases child : parent k = i
    · rw [child]
      exact below k pos inside child
    · exact gap.off k pos inside here child

section Preorder

variable (order : TellsPreorder cmp)
include order

theorem HeapOrdered.gap (ordered : HeapOrdered cmp f n) (fewer : m ≤ n) (inside : i < n)
    (same : ∀ k, k ≠ i → g k = f k) : Gap cmp g m i where
  off := by
    intro k pos within here child
    rw [same k here, same _ child]
    exact ordered k pos (by omega)
  past := by
    intro pos k below within child
    have up := parent_lt pos
    have down := parent_lt below
    rw [same _ (Nat.ne_of_lt up), same k (by omega)]
    exact order.trans (ordered i pos inside) (child ▸ ordered k below (by omega))

theorem HeapOrdered.root (ordered : HeapOrdered cmp f n) (k : Nat) (inside : k < n) :
    cmp (f 0) (f k) ≤ 0 := by
  induction k using Nat.strongRecOn with
  | ind k ih =>
    rcases Nat.eq_zero_or_pos k with rfl | pos
    · exact order.refl _
    · have up := parent_lt pos
      exact order.trans (ih (parent k) up (by omega)) (ordered k pos inside)

/-- The entry at the gap changes places with its parent, which does not come before it. -/
theorem Gap.up (gap : Gap cmp f n i) (pos : 0 < i) (inside : i < n)
    (less : cmp (f i) (f (parent i)) ≤ 0) : Gap cmp (f ∘ Equiv.swap i (parent i)) n (parent i) ∧
      Below cmp (f ∘ Equiv.swap i (parent i)) n (parent i) := by
  have up := parent_lt pos
  have other : ∀ k, k ≠ i → k ≠ parent i → (f ∘ Equiv.swap i (parent i)) k = f k :=
    fun k away off => congrArg f (Equiv.swap_apply_of_ne_of_ne away off)
  have sibling : ∀ k, 0 < k → k < n → parent k = parent i → k ≠ i → cmp (f (parent i)) (f k) ≤ 0 :=
    fun k kpos within child away => child ▸ gap.off k kpos within away (by omega)
  refine ⟨⟨fun k kpos within off apart => ?_, fun ppos k kpos within child => ?_⟩,
    fun k kpos within child => ?_⟩
  · have away : k ≠ i := fun same => apart (congrArg parent same)
    rw [other k away off]
    by_cases child : parent k = i
    · rw [child, comp_apply, Equiv.swap_apply_left]
      exact gap.past pos k kpos within child
    · rw [other _ child apart]
      exact gap.off k kpos within away child
  · have high := parent_lt ppos
    have chain := gap.off _ ppos (by omega) (Nat.ne_of_lt up) (by omega)
    rw [other (parent (parent i)) (by omega) (by omega)]
    by_cases here : k = i
    · rw [here, comp_apply, Equiv.swap_apply_left]
      exact chain
    · rw [other k here (by have := parent_lt kpos; omega)]
      exact order.trans chain (sibling k kpos within child here)
  · rw [comp_apply, Equiv.swap_apply_right]
    by_cases here : k = i
    · rw [here, comp_apply, Equiv.swap_apply_left]
      exact less
    · rw [other k here (by have := parent_lt kpos; omega)]
      exact order.trans less (sibling k kpos within child here)

omit order in
/-- The entry at the gap changes places with the child that comes first. -/
theorem Gap.down (gap : Gap cmp f n i) (pos : 0 < s) (inside : s < n) (child : parent s = i)
    (least : ∀ k, 0 < k → k < n → parent k = i → cmp (f s) (f k) ≤ 0) (less : cmp (f s) (f i) ≤ 0) :
    Gap cmp (f ∘ Equiv.swap i s) n s ∧ Above cmp (f ∘ Equiv.swap i s) s := by
  have low := parent_lt pos
  have other : ∀ k, k ≠ i → k ≠ s → (f ∘ Equiv.swap i s) k = f k :=
    fun k away off => congrArg f (Equiv.swap_apply_of_ne_of_ne away off)
  refine ⟨⟨fun k kpos within off apart => ?_, fun _ k kpos within grand => ?_⟩, fun _ => ?_⟩
  · have high := parent_lt kpos
    by_cases here : k = i
    · subst here
      rw [other _ (Nat.ne_of_lt high) apart, comp_apply, Equiv.swap_apply_left]
      exact gap.past kpos s pos inside child
    · rw [other k here off]
      by_cases mine : parent k = i
      · rw [mine, comp_apply, Equiv.swap_apply_left]
        exact least k kpos within mine
      · rw [other _ mine apart]
        exact gap.off k kpos within here mine
  · have high := parent_lt kpos
    rw [child, other k (by omega) (by omega), comp_apply, Equiv.swap_apply_left]
    exact grand ▸ gap.off k kpos within (by omega) (by omega)
  · rw [child, comp_apply, comp_apply, Equiv.swap_apply_left, Equiv.swap_apply_right]
    exact less

end Preorder

end LavaLite.Kernel
