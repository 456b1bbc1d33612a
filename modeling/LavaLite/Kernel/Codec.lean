import Mathlib.Data.List.Basic

/-
Serialisers built from smaller ones.  A codec carries the proof that what it
writes is read back with nothing left over and nothing taken from what follows,
so every codec put together from others has it too.
-/

namespace LavaLite.Kernel

open List Option

abbrev Block (B : Type) (n : Nat) := { l : List B // l.length = n }

structure Codec (B α : Type) where
  encode : α → List B
  decode : List B → Option (α × List B)
  decode_encode : ∀ a rest, decode (encode a ++ rest) = some (a, rest)

namespace Codec

variable {B α β : Type}

def map (c : Codec B α) (make : α → β) (view : β → α) (make_view : ∀ b, make (view b) = b) :
    Codec B β where
  encode b := c.encode (view b)
  decode input := (c.decode input).map fun (a, rest) => (make a, rest)
  decode_encode := by
    intro b rest
    simp only [c.decode_encode, map_some, make_view]

def restrict (c : Codec B α) (p : α → Prop) [DecidablePred p] : Codec B { a // p a } where
  encode a := c.encode a.val
  decode input := do
    let (a, rest) ← c.decode input
    if valid : p a then some (⟨a, valid⟩, rest) else none
  decode_encode := by
    intro a rest
    rw [c.decode_encode, bind_eq_bind, bind_some]
    exact dif_pos a.property

def filled (c : Codec B α) (filler : List B) : Codec B α where
  encode a := c.encode a ++ filler
  decode input := do
    let (a, rest) ← c.decode input
    if filler.length ≤ rest.length then some (a, rest.drop filler.length) else none
  decode_encode := by
    intro a rest
    rw [append_assoc, c.decode_encode, bind_eq_bind, bind_some]
    simp

def raw (n : Nat) : Codec B (Block B n) where
  encode l := l.val
  decode input :=
    if enough : n ≤ input.length then
      some (⟨input.take n, length_take_of_le enough⟩, input.drop n)
    else none
  decode_encode := by
    rintro ⟨l, rfl⟩ rest
    simp

def sigma {ι : Type} {γ : ι → Type} (tag : Codec B ι) (body : (i : ι) → Codec B (γ i)) :
    Codec B (Σ i, γ i) where
  encode v := tag.encode v.1 ++ (body v.1).encode v.2
  decode input := do
    let (i, input) ← tag.decode input
    let (b, input) ← (body i).decode input
    return (⟨i, b⟩, input)
  decode_encode := by
    intro v rest
    simp only [append_assoc, tag.decode_encode, (body v.1).decode_encode,
      bind_eq_bind, bind_some, Option.pure_def]

def decodeItems (c : Codec B α) : (n : Nat) → List B → Option (Block α n × List B)
  | 0, input => some (⟨[], rfl⟩, input)
  | n + 1, input => do
      let (a, input) ← c.decode input
      let (l, input) ← c.decodeItems n input
      return (⟨a :: l.val, congrArg Nat.succ l.property⟩, input)

theorem decodeItems_flatMap (c : Codec B α) {n : Nat} (l : Block α n) (rest : List B) :
    c.decodeItems n (l.val.flatMap c.encode ++ rest) = some (l, rest) := by
  obtain ⟨l, rfl⟩ := l
  induction l with
  | nil => rfl
  | cons a l ih =>
    rw [flatMap_cons, append_assoc]
    change c.decodeItems (l.length + 1) _ = _
    rw [decodeItems, c.decode_encode]
    simp only [bind_eq_bind, bind_some, ih, Option.pure_def]

def items (c : Codec B α) (n : Nat) : Codec B (Block α n) where
  encode l := l.val.flatMap c.encode
  decode := c.decodeItems n
  decode_encode := c.decodeItems_flatMap

/-- A block behind its length, which may be at most `limit`. -/
def counted {limit : Nat} (count : Codec B { n // n ≤ limit })
    (body : (n : Nat) → Codec B (Block α n)) : Codec B { l : List α // l.length ≤ limit } :=
  (sigma count fun n => body n.val).map
    (fun v => ⟨v.2.val, v.2.property.symm ▸ v.1.property⟩)
    (fun l => ⟨⟨l.val.length, l.property⟩, l.val, rfl⟩)
    fun _ => rfl

/-- The reader takes the next `n` items, whatever they are. -/
def Takes (c : Codec B α) (n : Nat) : Prop :=
  ∀ input, n ≤ input.length → ∃ a, c.decode input = some (a, input.drop n)

theorem raw_takes (n : Nat) : (raw n : Codec B _).Takes n := by
  intro input enough
  exact ⟨_, dif_pos enough⟩

theorem Takes.map {c : Codec B α} {n : Nat} (takes : c.Takes n) (make : α → β) (view : β → α)
    (make_view : ∀ b, make (view b) = b) : (c.map make view make_view).Takes n := by
  intro input enough
  obtain ⟨a, decoded⟩ := takes input enough
  exact ⟨make a, congrArg (Option.map _) decoded⟩

theorem Takes.filled {c : Codec B α} {n : Nat} (takes : c.Takes n) (filler : List B) :
    (c.filled filler).Takes (n + filler.length) := by
  intro input enough
  obtain ⟨a, decoded⟩ := takes input (by omega)
  refine ⟨a, ?_⟩
  have left : filler.length ≤ (input.drop n).length := by
    rw [length_drop]
    omega
  simp only [Codec.filled, decoded, bind_eq_bind, bind_some, if_pos left, drop_drop]

end Codec

/-!
### Records

A record is written field by field; what is read so far is a function that waits
for the fields still to come.
-/

structure Fields (B σ τ : Type) where
  encode : σ → List B
  decode : List B → Option (τ × List B)
  value : σ → τ
  decode_encode : ∀ s rest, decode (encode s ++ rest) = some (value s, rest)

namespace Fields

variable {σ τ : Type}

def start (make : τ) : Fields B σ τ where
  encode _ := []
  decode input := some (make, input)
  value _ := make
  decode_encode _ _ := rfl

def field (front : Fields B σ (α → τ)) (c : Codec B α) (get : σ → α) : Fields B σ τ where
  encode s := front.encode s ++ c.encode (get s)
  decode input := do
    let (make, input) ← front.decode input
    let (a, input) ← c.decode input
    return (make a, input)
  value s := front.value s (get s)
  decode_encode := by
    intro s rest
    simp only [append_assoc, front.decode_encode, c.decode_encode, bind_eq_bind,
      bind_some, Option.pure_def]

def codec (all : Fields B σ σ) (whole : ∀ s, all.value s = s) : Codec B σ where
  encode := all.encode
  decode := all.decode
  decode_encode s rest := by rw [all.decode_encode, whole]

def Takes (p : Fields B σ τ) (n : Nat) : Prop :=
  ∀ input, n ≤ input.length → ∃ a, p.decode input = some (a, input.drop n)

theorem start_takes (make : τ) : (start make : Fields B σ τ).Takes 0 :=
  fun _ _ => ⟨make, rfl⟩

theorem Takes.field {front : Fields B σ (α → τ)} {c : Codec B α} {m n : Nat}
    (first : front.Takes m) (next : c.Takes n) (get : σ → α) :
    (front.field c get).Takes (m + n) := by
  intro input enough
  obtain ⟨make, decoded⟩ := first input (by omega)
  obtain ⟨a, behind⟩ := next (input.drop m) (by rw [length_drop]; omega)
  refine ⟨make a, ?_⟩
  rw [drop_drop] at behind
  simp only [Fields.field, decoded, behind, bind_eq_bind, bind_some, Option.pure_def]

theorem Takes.codec {all : Fields B σ σ} {n : Nat} (takes : all.Takes n)
    (whole : ∀ s, all.value s = s) : (all.codec whole).Takes n :=
  takes

end Fields

end LavaLite.Kernel
