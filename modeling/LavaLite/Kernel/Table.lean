import Mathlib.Data.List.Nodup

/-
Partial pointwise updates of a table along a list of keys: what a loop over
distinct keys that rewrites one entry at a time leaves behind.  Two tables that
are inverse to each other, and how both change together.
-/

namespace LavaLite.Kernel

open Function List

variable {K V : Type} [DecidableEq K] {f : V → Option V} {keys : List K} {table result : K → V}

/-- Rewrite the entries of the listed keys one after the other. -/
def updateEach (f : V → Option V) : List K → (K → V) → Option (K → V)
  | [], table => some table
  | k :: keys, table =>
    match f (table k) with
    | none => none
    | some v => updateEach f keys (update table k v)

theorem updateEach_spec (distinct : keys.Nodup) (updated : updateEach f keys table = some result) :
    (∀ k ∈ keys, f (table k) = some (result k)) ∧ ∀ k, k ∉ keys → result k = table k := by
  induction keys generalizing table result with
  | nil =>
    cases updated
    exact ⟨fun k member => absurd member not_mem_nil, fun _ _ => rfl⟩
  | cons k keys ih =>
    obtain ⟨fresh, distinct⟩ := nodup_cons.mp distinct
    unfold updateEach at updated
    cases head : f (table k) with
    | none => simp [head] at updated
    | some v =>
      simp only [head] at updated
      obtain ⟨listed, others⟩ := ih distinct updated
      have atKey : result k = v := by
        rw [others k fresh, update_self]
      constructor
      · intro k' member
        rcases mem_cons.mp member with same | member
        · rw [same, atKey, head]
        · have other : k' ≠ k := fun same => fresh (same ▸ member)
          rw [← listed k' member, update_of_ne other]
      · intro k' absent
        have other : k' ≠ k := fun same => absent (same ▸ mem_cons_self)
        rw [others k' fun member => absent (mem_cons_of_mem k member), update_of_ne other]

theorem updateEach_keeps (holds : K → V → Prop)
    (kept : ∀ {k a b}, f a = some b → holds k a → holds k b) (all : ∀ k, holds k (table k))
    (updated : updateEach f keys table = some result) : ∀ k, holds k (result k) := by
  induction keys generalizing table result with
  | nil =>
    cases updated
    exact all
  | cons k keys ih =>
    unfold updateEach at updated
    split at updated
    · cases updated
    next v head =>
      refine ih (fun k' => ?_) updated
      by_cases same : k' = k
      · subst same
        rw [update_self]
        exact kept head (all k')
      · rw [update_of_ne same]
        exact all k'

theorem updateEach_isSome (distinct : keys.Nodup) (each : ∀ k ∈ keys, (f (table k)).isSome) :
    ∃ result, updateEach f keys table = some result := by
  induction keys generalizing table with
  | nil => exact ⟨_, rfl⟩
  | cons k keys ih =>
    obtain ⟨fresh, distinct⟩ := nodup_cons.mp distinct
    obtain ⟨v, head⟩ := Option.isSome_iff_exists.mp (each k mem_cons_self)
    have rest : ∀ k' ∈ keys, (f (update table k v k')).isSome := by
      intro k' member
      have other : k' ≠ k := fun same => fresh (same ▸ member)
      rw [update_of_ne other]
      exact each k' (mem_cons_of_mem k member)
    obtain ⟨result, updated⟩ := ih distinct rest
    exact ⟨result, by simp [updateEach, head, updated]⟩

/-! ### Two tables that name each other -/

section Paired

variable {A B : Type} [DecidableEq A] [DecidableEq B] {f : A → Option B} {g : B → Option A}
  {a : A} {b : B}

/-- Each table is the inverse of the other. -/
def Paired (f : A → Option B) (g : B → Option A) : Prop :=
  ∀ a b, f a = some b ↔ g b = some a

theorem Paired.bind (paired : Paired f g) (freeA : f a = none) (freeB : g b = none) :
    Paired (update f a (some b)) (update g b (some a)) := by
  intro x y
  by_cases sameX : x = a <;> by_cases sameY : y = b
  · rw [sameX, sameY, update_self, update_self]
    exact ⟨fun _ => rfl, fun _ => rfl⟩
  · rw [sameX, update_self, update_of_ne sameY, ← paired a y, freeA]
    exact ⟨fun same => absurd (Option.some.inj same).symm sameY, nofun⟩
  · rw [sameY, update_of_ne sameX, update_self, paired x b, freeB]
    exact ⟨nofun, fun same => absurd (Option.some.inj same).symm sameX⟩
  · rw [update_of_ne sameX, update_of_ne sameY]
    exact paired x y

theorem Paired.unbind (paired : Paired f g) (bound : f a = some b) :
    Paired (update f a none) (update g b none) := by
  have back := (paired a b).mp bound
  intro x y
  by_cases sameX : x = a <;> by_cases sameY : y = b
  · rw [sameX, sameY, update_self, update_self]
    exact ⟨nofun, nofun⟩
  · rw [sameX, update_self, update_of_ne sameY, ← paired a y, bound]
    exact ⟨nofun, fun same => absurd (Option.some.inj same).symm sameY⟩
  · rw [sameY, update_of_ne sameX, update_self, paired x b, back]
    exact ⟨fun same => absurd (Option.some.inj same).symm sameX, nofun⟩
  · rw [update_of_ne sameX, update_of_ne sameY]
    exact paired x y

end Paired

end LavaLite.Kernel
