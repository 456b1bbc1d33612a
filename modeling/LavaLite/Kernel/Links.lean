import Mathlib.Data.List.Basic
import Mathlib.Logic.Function.Basic

/-
Paths along the links of entries in memory, in either direction of a list.
-/

namespace LavaLite.Kernel

open Function List

variable {E : Type*} {step step' : E → Option E} {cur first stop : Option E} {a b l : List E}
  {e : E}

/-- From `cur` the links lead through the entries of the list and then to `stop`. -/
def LinkPath (step : E → Option E) : Option E → List E → Option E → Prop
  | cur, [], stop => cur = stop
  | cur, e :: rest, stop => cur = some e ∧ LinkPath step (step e) rest stop

theorem LinkPath.head_eq (path : LinkPath step cur l none) : cur = l.head? := by
  cases l with
  | nil => exact path
  | cons e rest => exact path.1

theorem linkPath_append : LinkPath step cur (a ++ b) stop ↔ ∃ mid, LinkPath step cur a mid ∧
      LinkPath step mid b stop := by
  induction a generalizing cur with
  | nil => simp [LinkPath]
  | cons e rest ih => simp [LinkPath, ih, and_assoc]

theorem LinkPath.congr (path : LinkPath step cur l stop) (same : ∀ e ∈ l, step' e = step e) :
    LinkPath step' cur l stop := by
  induction l generalizing cur with
  | nil => exact path
  | cons e rest ih =>
    refine ⟨path.1, ?_⟩
    rw [same e mem_cons_self]
    exact ih path.2 fun x later => same x (mem_cons_of_mem e later)

variable [DecidableEq E]

theorem LinkPath.update (path : LinkPath step cur l stop) (off : e ∉ l) (link : Option E) :
    LinkPath (update step e link) cur l stop :=
  path.congr fun _ member => update_of_ne (ne_of_mem_of_not_mem member off) _ _

/-- Make the link behind `before`, or the first link of all, lead to `target`. -/
def redirect (step : E → Option E) (first before target : Option E) : (E → Option E) × Option E :=
  match before with
  | some p => (update step p target, first)
  | none => (step, target)

theorem redirect_off {target : Option E} (off : e ∉ l) :
    (redirect step first l.getLast? target).1 e = step e := by
  cases last : l.getLast? with
  | none => rfl
  | some p =>
    have other : p ≠ e := ne_of_mem_of_not_mem (mem_of_getLast? last) off
    exact update_of_ne other.symm _ _

theorem linkPath_redirect {mid target : Option E} (path : LinkPath step first a mid)
    (rest : LinkPath step target b none) (apart : (a ++ b).Nodup) :
    LinkPath (redirect step first a.getLast? target).1 (redirect step first a.getLast? target).2
      (a ++ b) none := by
  rcases eq_nil_or_concat a with rfl | ⟨front, p, rfl⟩
  · exact rest
  · rw [concat_eq_append] at path apart ⊢
    obtain ⟨stop, path, last, -⟩ := linkPath_append.mp path
    subst last
    rw [append_assoc] at apart ⊢
    have distinct := nodup_append.mp apart
    have inFront : p ∉ front := fun member => distinct.2.2 p member p (by simp) rfl
    have inRest : p ∉ b := (nodup_cons.mp distinct.2.1).1
    rw [getLast?_concat, redirect]
    refine linkPath_append.mpr ⟨some p, path.update inFront _, rfl, ?_⟩
    change LinkPath _ (update step p target p) b none
    rw [update_self]
    exact rest.update inRest _

def collect (step : E → Option E) : Nat → Option E → Option (List E)
  | 0, _ => some []
  | _ + 1, none => none
  | n + 1, some e => (collect step n (step e)).map (e :: ·)

omit [DecidableEq E] in
theorem LinkPath.collect_eq (path : LinkPath step cur l stop) :
    collect step l.length cur = some l := by
  induction l generalizing cur with
  | nil => rfl
  | cons e rest ih =>
    rw [path.1, length_cons, collect, ih path.2]
    rfl

end LavaLite.Kernel
