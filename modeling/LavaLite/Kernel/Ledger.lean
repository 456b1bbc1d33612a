import Mathlib.Algebra.BigOperators.Group.List.Basic
import Mathlib.Algebra.Order.BigOperators.Group.List
import Mathlib.Data.List.Nodup
import Mathlib.Data.List.Perm.Basic
import Mathlib.Tactic.Abel

/-
Sums over the entries of a list, and how they follow a list that gains, loses or
re-weighs one entry.  A counter that is updated at the same moments stays equal
to the sum.
-/

namespace LavaLite.Kernel

open List

variable {K A : Type} [AddCommGroup A]

def tally (weight : K → A) (l : List K) : A :=
  (l.map weight).sum

section Tally

variable {weight weight' : K → A} {l l' : List K} {k : K}

@[simp] theorem tally_nil : tally weight [] = 0 :=
  rfl

@[simp] theorem tally_cons : tally weight (k :: l) = weight k + tally weight l := by
  simp [tally]

@[simp] theorem tally_append : tally weight (l ++ l') = tally weight l + tally weight l' := by
  simp [tally]

theorem tally_perm (same : l.Perm l') : tally weight l = tally weight l' :=
  (same.map weight).sum_eq

theorem tally_congr (same : ∀ i ∈ l, weight' i = weight i) : tally weight' l = tally weight l := by
  unfold tally
  rw [map_congr_left same]

theorem tally_filter (kept : K → Bool) :
    tally weight (l.filter kept) = tally (fun i => if kept i then weight i else 0) l := by
  induction l with
  | nil => rfl
  | cons i rest ih =>
    by_cases keeps : kept i = true
    · rw [filter_cons_of_pos keeps, tally_cons, tally_cons, ih, if_pos keeps]
    · rw [filter_cons_of_neg keeps, tally_cons, ih, if_neg keeps, zero_add]

theorem tally_filterMap {J : Type} {table : J → Option K} {l : List J}
    (known : ∀ j ∈ l, (table j).isSome = true) :
    tally weight (l.filterMap table) = tally (fun j => (table j).elim 0 weight) l := by
  induction l with
  | nil => rfl
  | cons j rest ih =>
    obtain ⟨k, found⟩ := Option.isSome_iff_exists.mp (known j mem_cons_self)
    rw [filterMap_cons_some found, tally_cons, tally_cons, found, Option.elim_some,
      ih fun i member => known i (mem_cons_of_mem j member)]

variable [DecidableEq K]

theorem tally_erase (member : k ∈ l) : tally weight (l.erase k) = tally weight l - weight k := by
  rw [tally_perm (perm_cons_erase member), tally_cons]
  abel

theorem tally_reweigh (distinct : l.Nodup) (others : ∀ i ∈ l, i ≠ k → weight' i = weight i) :
    tally weight' l = tally weight l + if k ∈ l then weight' k - weight k else 0 := by
  by_cases member : k ∈ l
  · have rest : tally weight' (l.erase k) = tally weight (l.erase k) := by
      refine tally_congr fun i inRest => ?_
      obtain ⟨other, inList⟩ := (distinct.mem_erase_iff).mp inRest
      exact others i inList other
    rw [if_pos member]
    rw [tally_erase member, tally_erase member] at rest
    rw [← sub_add_cancel (tally weight' l) (weight' k), rest]
    abel
  · rw [if_neg member, add_zero]
    exact tally_congr fun i inList => others i inList fun same => member (same ▸ inList)

end Tally

variable {S : Type*} {weight : K → Int} {l : List K}

theorem foldl_tally_of (holds : S → Prop) (measure : S → Int) {body : S → K → S} {s : S}
    (adds : ∀ k ∈ l, ∀ s, holds s →
      holds (body s k) ∧ measure (body s k) = measure s + weight k) (start : holds s) :
    measure (l.foldl body s) = measure s + tally weight l := by
  induction l generalizing s with
  | nil => simp
  | cons k rest ih =>
    obtain ⟨after, first⟩ := adds k mem_cons_self s start
    rw [foldl_cons, ih (fun i member => adds i (mem_cons_of_mem k member)) after, first, tally_cons]
    omega

theorem foldl_tally (measure : S → Int) {body : S → K → S}
    (adds : ∀ k ∈ l, ∀ s, measure (body s k) = measure s + weight k) (s : S) :
    measure (l.foldl body s) = measure s + tally weight l :=
  foldl_tally_of (fun _ => True) measure (fun k member s _ => ⟨trivial, adds k member s⟩) trivial

theorem tally_eq_zero (each : ∀ k ∈ l, weight k = 0) : tally weight l = 0 := by
  induction l with
  | nil => simp
  | cons k rest ih =>
    rw [tally_cons, each k mem_cons_self, ih fun i member => each i (mem_cons_of_mem k member)]
    rfl

variable {k : K}

theorem tally_neg : tally (fun i => -weight i) l = -tally weight l := by
  induction l with
  | nil => simp
  | cons i rest ih =>
    rw [tally_cons, tally_cons, ih]
    omega

theorem tally_nonneg (each : ∀ i ∈ l, 0 ≤ weight i) : 0 ≤ tally weight l :=
  sum_nonneg fun w member => by
    obtain ⟨i, inList, rfl⟩ := List.mem_map.mp member
    exact each i inList

theorem le_tally [DecidableEq K] (each : ∀ i ∈ l, 0 ≤ weight i) (member : k ∈ l) :
    weight k ≤ tally weight l := by
  have rest : 0 ≤ tally weight (l.erase k) :=
    tally_nonneg fun i inRest => each i (mem_of_mem_erase inRest)
  rw [tally_erase member] at rest
  omega

theorem tally_deduct [DecidableEq K] {amount : Int} (distinct : l.Nodup) {part : List K}
    {weight' : K → Int} (apart : part.Nodup) (within : part ⊆ l)
    (deducted : ∀ i ∈ l, weight' i = weight i - if i ∈ part then amount else 0) :
    tally weight' l = tally weight l - amount * part.length := by
  induction part generalizing weight' with
  | nil =>
    have same : tally weight' l = tally weight l := by
      refine tally_congr fun i member => ?_
      rw [deducted i member, if_neg not_mem_nil, Int.sub_zero]
    rw [same, length_nil]
    omega
  | cons k part ih =>
    obtain ⟨fresh, apart⟩ := nodup_cons.mp apart
    have member : k ∈ l := within mem_cons_self
    have before := ih apart (fun i inPart => within (mem_cons_of_mem k inPart))
      (fun i _ => Eq.refl (weight i - if i ∈ part then amount else 0))
    have last : tally weight' l = tally (fun i => weight i - if i ∈ part then amount else 0) l +
          if k ∈ l then weight' k - (weight k - if k ∈ part then amount else 0) else 0 := by
      refine tally_reweigh distinct fun i inList other => ?_
      rw [deducted i inList]
      simp only [mem_cons, other, false_or]
    rw [last, before, if_pos member, deducted k member, if_pos mem_cons_self, if_neg fresh,
      length_cons, Int.natCast_add, Int.mul_add]
    omega

theorem tally_le_of_subset [DecidableEq K] {part : List K} (distinct : part.Nodup)
    (within : part ⊆ l) (each : ∀ i ∈ l, 0 ≤ weight i) : tally weight part ≤ tally weight l := by
  induction part generalizing l with
  | nil =>
    rw [tally_nil]
    exact tally_nonneg each
  | cons k part ih =>
    obtain ⟨fresh, distinct⟩ := nodup_cons.mp distinct
    have member : k ∈ l := within mem_cons_self
    have rest : part ⊆ l.erase k := by
      intro i inPart
      have other : i ≠ k := fun same => fresh (same ▸ inPart)
      exact (mem_erase_of_ne other).mpr (within (mem_cons_of_mem k inPart))
    have later := ih distinct rest fun i inRest => each i (mem_of_mem_erase inRest)
    rw [tally_erase member] at later
    rw [tally_cons]
    omega

end LavaLite.Kernel
