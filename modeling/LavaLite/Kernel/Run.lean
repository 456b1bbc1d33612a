import Mathlib.Logic.Relation

/-
Runs of a partial step function.  A guard restricts the steps a run may take; an
invariant is proved once for a step and holds in every state a run reaches.
-/

namespace LavaLite.Kernel

variable {State Label : Type} {s t : State}

def GuardedStep (step : State → Label → Option State) (guard : State → Label → Prop)
    (s t : State) : Prop :=
  ∃ label, guard s label ∧ step s label = some t

/-- `Steps step guard s t`: some run from `s` whose steps all meet the guard ends in `t`. -/
abbrev Steps (step : State → Label → Option State) (guard : State → Label → Prop) :
    State → State → Prop :=
  Relation.ReflTransGen (GuardedStep step guard)

variable {step : State → Label → Option State} {guard : State → Label → Prop}

def anyStep (_ : State) (_ : Label) : Prop :=
  True

theorem Steps.mono {weaker : State → Label → Prop}
    (implies : ∀ s label, guard s label → weaker s label) (run : Steps step guard s t) :
    Steps step weaker s t :=
  Relation.ReflTransGen.mono
    (fun _ _ ⟨label, allowed, taken⟩ => ⟨label, implies _ _ allowed, taken⟩) _ _ run

theorem Steps.invariant (holds : State → Prop) (start : holds s)
    (kept : ∀ {t u : State} {label : Label},
      holds t → guard t label → step t label = some u → holds u) (run : Steps step guard s t) :
    holds t := by
  induction run with
  | refl => exact start
  | tail _ last ih =>
    obtain ⟨label, allowed, taken⟩ := last
    exact kept ih allowed taken

/--
An invariant proved on top of another one: the step may use what `base` says
about the state it starts from.
-/
theorem Steps.invariant_over (base holds : State → Prop)
    (known : ∀ {t : State}, Steps step guard s t → base t) (start : holds s)
    (kept : ∀ {t u : State} {label : Label},
      base t → holds t → guard t label → step t label = some u → holds u)
    (run : Steps step guard s t) : holds t := by
  induction run with
  | refl => exact start
  | tail before last ih =>
    obtain ⟨label, allowed, taken⟩ := last
    exact kept (known before) ih allowed taken

/-- Execute a list of labels, checking the guard before every step. -/
def execute (step : State → Label → Option State) (guard : State → Label → Bool) :
    State → List Label → Option State
  | s, [] => some s
  | s, label :: rest =>
    if guard s label then
      match step s label with
      | none => none
      | some t => execute step guard t rest
    else none

theorem steps_of_execute {check : State → Label → Bool} {labels : List Label}
    (sound : ∀ label ∈ labels, ∀ s, check s label = true → guard s label)
    (executed : execute step check s labels = some t) : Steps step guard s t := by
  induction labels generalizing s t with
  | nil =>
    cases executed
    exact .refl
  | cons label rest ih =>
    unfold execute at executed
    by_cases allowed : check s label = true
    · cases taken : step s label with
      | none => simp [allowed, taken] at executed
      | some next =>
        simp only [allowed, taken, if_true] at executed
        exact Relation.ReflTransGen.head
          ⟨label, sound label List.mem_cons_self s allowed, taken⟩
          (ih (fun other member => sound other (List.mem_cons_of_mem label member)) executed)
    · simp [allowed] at executed

end LavaLite.Kernel
