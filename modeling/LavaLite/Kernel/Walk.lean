import Mathlib.Data.List.Perm.Basic

/-
A walk over a list that may end early.  Each turn changes a state and says whether the
walk is to stop there.  The rules say what holds at a turn, what holds of every entry
once the walk is over, and when stopping early makes no difference.
-/

namespace LavaLite.Kernel

open List

variable {σ α : Type*}

/-- Take the entries one after the other until a turn says to stop. -/
def walk (turn : σ → α → Option (σ × Bool)) : List α → σ → Option σ
  | [], s => some s
  | a :: rest, s =>
    match turn s a with
    | none => none
    | some (s, true) => some s
    | some (s, false) => walk turn rest s

/-- The same turns, but the walk goes on to the end of the list. -/
def walkThrough (turn : σ → α → Option (σ × Bool)) (s : σ) (a : α) : Option (σ × Bool) :=
  (turn s a).map fun next => (next.1, false)

/-- In the walk over the list from the first state, the turn of the entry comes in the second. -/
inductive Visits (turn : σ → α → Option (σ × Bool)) : List α → σ → α → σ → Prop where
  | here {a : α} {rest : List α} {s : σ} : Visits turn (a :: rest) s a s
  | later {a b : α} {rest : List α} {s s' t : σ} (went : turn s b = some (s', false))
      (visits : Visits turn rest s' a t) : Visits turn (b :: rest) s a t

variable {turn : σ → α → Option (σ × Bool)} {among : α → Prop} {l : List α} {s t s' : σ} {a : α}

theorem Visits.mem (visits : Visits turn l s a t) : a ∈ l := by
  induction visits with
  | here => exact mem_cons_self
  | later _ _ ih => exact mem_cons_of_mem _ ih

theorem Visits.invariant (holds : σ → Prop)
    (kept : ∀ {s a s' stop}, among a → turn s a = some (s', stop) → holds s → holds s')
    (visits : Visits turn l s a t) : (∀ a ∈ l, among a) → holds s → holds t := by
  induction visits with
  | here => exact fun _ start => start
  | later went _ ih =>
    intro all start
    obtain ⟨first, rest⟩ := forall_mem_cons.mp all
    exact ih rest (kept first went start)

theorem walk_invariant (holds : σ → Prop)
    (kept : ∀ {s a s' stop}, among a → turn s a = some (s', stop) → holds s → holds s')
    (all : ∀ a ∈ l, among a) (done : walk turn l s = some s') (start : holds s) : holds s' := by
  induction l generalizing s s' with
  | nil =>
    cases done
    exact start
  | cons a rest ih =>
    obtain ⟨first, all⟩ := forall_mem_cons.mp all
    rw [walk] at done
    split at done
    · cases done
    next next turned =>
      cases done
      exact kept first turned start
    next next turned => exact ih all done (kept first turned start)

theorem walk_of_stricter {stricter : σ → α → Option (σ × Bool)}
    (same : ∀ {s a next}, stricter s a = some next → turn s a = some next)
    (done : walk stricter l s = some s') : walk turn l s = some s' := by
  induction l generalizing s s' with
  | nil => exact done
  | cons a rest ih =>
    rw [walk] at done ⊢
    split at done
    · cases done
    next next turned =>
      rw [same turned]
      exact done
    next next turned =>
      rw [same turned]
      exact ih done

/--
If a turn settles its entry, no later turn unsettles it, and a stop settles all the
entries left, then the walk settles the whole list.
-/
theorem walk_settles (holds : σ → Prop) (settled : α → σ → Prop)
    (kept : ∀ {s a s' stop}, among a → turn s a = some (s', stop) → holds s → holds s')
    (lasts : ∀ {s a s' stop b}, among a → turn s a = some (s', stop) → holds s → settled b s →
      settled b s')
    (stops : ∀ {s a s'}, among a → turn s a = some (s', true) → holds s → ∀ b, settled b s')
    (all : ∀ a ∈ l, among a) (start : holds s)
    (own : ∀ {a t t' stop}, Visits turn l s a t → holds t → turn t a = some (t', stop) →
      settled a t') (done : walk turn l s = some s') : ∀ a ∈ l, settled a s' := by
  induction l generalizing s s' with
  | nil => exact fun a member => absurd member not_mem_nil
  | cons b rest ih =>
    intro a member
    obtain ⟨first, others⟩ := forall_mem_cons.mp all
    rw [walk] at done
    split at done
    · cases done
    next next turned =>
      cases done
      exact stops first turned start a
    next next turned =>
      have after := kept first turned start
      rcases mem_cons.mp member with rfl | later
      · have settledNow := own .here start turned
        -- from its own turn on, the entry stays settled
        have stays := walk_invariant (fun t => holds t ∧ settled a t)
          (fun one turned both => ⟨kept one turned both.1, lasts one turned both.1 both.2⟩)
          others done ⟨after, settledNow⟩
        exact stays.2
      · exact ih others after (fun visits => own (.later turned visits)) done a later

theorem Visits.settled (holds : σ → Prop) (settled : α → σ → Prop) {b : α}
    (kept : ∀ {s a s' stop}, among a → turn s a = some (s', stop) → holds s → holds s')
    (lasts : ∀ {s a s' stop b}, among a → turn s a = some (s', stop) → holds s → settled b s →
      settled b s') (visits : Visits turn l s b t) {front : List α} (order : front ++ [b] <+: l)
    (before : a ∈ front) (fresh : b ∉ front) (all : ∀ a ∈ l, among a) (start : holds s)
    (own : ∀ {a t t' stop}, Visits turn l s a t → holds t → turn t a = some (t', stop) →
      settled a t') : settled a t := by
  induction visits generalizing front with
  | here =>
    cases front with
    | nil => cases before
    | cons c front =>
      have same := (cons_prefix_cons.mp order).1
      exact absurd (same ▸ mem_cons_self) fresh
  | later went visits ih =>
    obtain ⟨first, others⟩ := forall_mem_cons.mp all
    have after := kept first went start
    cases front with
    | nil => cases before
    | cons c front =>
      obtain ⟨rfl, behind⟩ := cons_prefix_cons.mp order
      rcases mem_cons.mp before with rfl | before
      · have stays := visits.invariant (fun t => holds t ∧ settled _ t)
          (fun one turned both => ⟨kept one turned both.1, lasts one turned both.1 both.2⟩)
          others ⟨after, own .here start went⟩
        exact stays.2
      · exact ih behind before (fun later => fresh (mem_cons_of_mem _ later)) others after
          fun visits => own (.later went visits)

theorem walkThrough_rests (holds idle : σ → Prop) (same : σ → σ → Prop)
    (kept : ∀ {s a s' stop}, among a → turn s a = some (s', stop) → holds s → holds s')
    (rests : ∀ {s a s' stop}, among a → turn s a = some (s', stop) → holds s → idle s →
      idle s' ∧ same s s')
    (reflexive : ∀ s, same s s) (transitive : ∀ {s t u}, same s t → same t u → same s u)
    (all : ∀ a ∈ l, among a) (start : holds s) (resting : idle s)
    (done : walk (walkThrough turn) l s = some t) : same s t := by
  have keeps : ∀ {u a u' stop}, among a → walkThrough turn u a = some (u', stop) →
      holds u ∧ idle u ∧ same s u → holds u' ∧ idle u' ∧ same s u' := by
    intro u a u' stop one turned before
    obtain ⟨next, taken, went⟩ := Option.map_eq_some_iff.mp turned
    cases went
    obtain ⟨still, alike⟩ := rests one taken before.1 before.2.1
    exact ⟨kept one taken before.1, still, transitive before.2.2 alike⟩
  exact (walk_invariant (fun u => holds u ∧ idle u ∧ same s u) keeps all done
    ⟨start, resting, reflexive s⟩).2.2

theorem walk_walkThrough (holds idle : σ → Prop) (same : σ → σ → Prop)
    (kept : ∀ {s a s' stop}, among a → turn s a = some (s', stop) → holds s → holds s')
    (stops : ∀ {s a s'}, among a → turn s a = some (s', true) → holds s → idle s')
    (rests : ∀ {s a s' stop}, among a → turn s a = some (s', stop) → holds s → idle s →
      idle s' ∧ same s s') (reflexive : ∀ s, same s s)
    (transitive : ∀ {s t u}, same s t → same t u → same s u) (all : ∀ a ∈ l, among a)
    (start : holds s) (done : walk turn l s = some s')
    (whole : walk (walkThrough turn) l s = some t) : same s' t := by
  induction l generalizing s s' t with
  | nil =>
    cases done
    cases whole
    exact reflexive s
  | cons a rest ih =>
    obtain ⟨first, all⟩ := forall_mem_cons.mp all
    rw [walk] at done whole
    unfold walkThrough at whole
    cases taken : turn s a with
    | none =>
      rw [taken] at done
      cases done
    | some next =>
      obtain ⟨next, stop⟩ := next
      rw [taken] at done whole
      cases stop with
      | true =>
        cases done
        exact walkThrough_rests holds idle same kept rests reflexive transitive all
          (kept first taken start) (stops first taken start) whole
      | false => exact ih all (kept first taken start) done whole

theorem walkThrough_isSome (holds : σ → Prop)
    (kept : ∀ {s a s' stop}, among a → turn s a = some (s', stop) → holds s → holds s')
    (goes : ∀ {s a}, among a → holds s → ∃ next, turn s a = some next) (all : ∀ a ∈ l, among a)
    (start : holds s) : ∃ t, walk (walkThrough turn) l s = some t := by
  induction l generalizing s with
  | nil => exact ⟨_, rfl⟩
  | cons a rest ih =>
    obtain ⟨first, others⟩ := forall_mem_cons.mp all
    obtain ⟨⟨next, stop⟩, taken⟩ := goes first start
    obtain ⟨t, done⟩ := ih others (kept first taken start)
    refine ⟨t, ?_⟩
    rw [walk, walkThrough, taken]
    exact done

theorem walk_walkThrough_isSome (holds idle : σ → Prop)
    (kept : ∀ {s a s' stop}, among a → turn s a = some (s', stop) → holds s → holds s')
    (stops : ∀ {s a s'}, among a → turn s a = some (s', true) → holds s → idle s')
    (rests : ∀ {s a s' stop}, among a → turn s a = some (s', stop) → holds s → idle s → idle s')
    (goes : ∀ {s a}, among a → holds s → idle s → ∃ next, turn s a = some next)
    (all : ∀ a ∈ l, among a) (start : holds s) (done : walk turn l s = some s') :
    ∃ t, walk (walkThrough turn) l s = some t := by
  induction l generalizing s s' with
  | nil => exact ⟨_, rfl⟩
  | cons a rest ih =>
    obtain ⟨first, others⟩ := forall_mem_cons.mp all
    rw [walk] at done
    cases taken : turn s a with
    | none =>
      rw [taken] at done
      cases done
    | some next =>
      obtain ⟨next, stop⟩ := next
      rw [taken] at done
      have after := kept first taken start
      have later : ∃ t, walk (walkThrough turn) rest next = some t := by
        cases stop with
        | true =>
          exact walkThrough_isSome (fun s => holds s ∧ idle s)
            (fun one turned both => ⟨kept one turned both.1, rests one turned both.1 both.2⟩)
            (fun one both => goes one both.1 both.2) others ⟨after, stops first taken start⟩
        | false => exact ih others after done
      obtain ⟨t, done⟩ := later
      refine ⟨t, ?_⟩
      rw [walk, walkThrough, taken]
      exact done

end LavaLite.Kernel
