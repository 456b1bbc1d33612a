import Mathlib.Data.List.Basic

/-
Partial folds along the events of one key.  A log mixes the events of many objects;
what it says about one of them is a fold over the events with its key.
-/

namespace LavaLite.Kernel

open List

variable {E K S : Type} [DecidableEq K] {key : E → K} {step : S → E → Option S} {k : K}

/-- Take the events of the key one after the other. -/
def along (key : E → K) (step : S → E → Option S) (k : K) : List E → S → Option S
  | [], s => some s
  | e :: rest, s =>
    if key e = k then (step s e).bind (along key step k rest) else along key step k rest s

theorem along_append (first rest : List E) : ∀ s : S,
    along key step k (first ++ rest) s = (along key step k first s).bind
      (along key step k rest) := by
  induction first with
  | nil => exact fun _ => rfl
  | cons e first ih =>
    intro s
    simp only [cons_append, along]
    split
    · cases step s e with
      | none => rfl
      | some next => exact ih next
    · exact ih s

theorem along_invariant (holds : S → Prop) {events : List E}
    (keeps : ∀ e ∈ events, key e = k → ∀ s s', step s e = some s' → holds s → holds s') {s s' : S}
    (start : holds s) (done : along key step k events s = some s') : holds s' := by
  induction events generalizing s with
  | nil =>
    cases done
    exact start
  | cons e rest ih =>
    have others := fun e' member => keeps e' (mem_cons_of_mem e member)
    rw [along] at done
    split at done
    next mine =>
      obtain ⟨next, first, done⟩ := Option.bind_eq_some_iff.mp done
      exact ih others (keeps e mem_cons_self mine s next first start) done
    next => exact ih others start done

theorem along_of_ne {events : List E} (others : ∀ e ∈ events, key e ≠ k) (s : S) :
    along key step k events s = some s := by
  induction events with
  | nil => rfl
  | cons e rest ih =>
    rw [along, if_neg (others e mem_cons_self)]
    exact ih fun e' member => others e' (mem_cons_of_mem e member)

theorem along_filter (events : List E) : ∀ s : S,
    along key step k (events.filter fun e => key e = k) s = along key step k events s := by
  induction events with
  | nil => exact fun _ => rfl
  | cons e rest ih =>
    intro s
    by_cases same : key e = k
    · rw [filter_cons_of_pos (by simpa using same)]
      simp only [along, if_pos same]
      cases step s e with
      | none => rfl
      | some next => exact ih next
    · rw [filter_cons_of_neg (by simpa using same)]
      simp only [along, if_neg same]
      exact ih s

end LavaLite.Kernel
