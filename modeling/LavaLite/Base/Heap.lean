import LavaLite.Base.CText
import LavaLite.Kernel.HeapOrder
import Mathlib.Data.List.Induction

/-
The intrusive heaps of the base library: an array of pointers to entries, each of
which knows its place in the array and the object it is part of.
-/

namespace LavaLite.Base

open Kernel Function

/-- The heap, with the two fields of every entry in memory. -/
structure LlHeap (E β : Type*) where
  data : Nat → E
  size : Nat
  cap : Nat
  idx : E → Int
  owner : E → β

variable {E β : Type*} [DecidableEq E] {cmp : β → β → Int} {h h' h'' : LlHeap E β} {e : E}
  {i j : Nat}

/-- What the comparator is given for the entry at a position. -/
def LlHeap.ownerAt (h : LlHeap E β) (i : Nat) : β := h.owner (h.data i)

def LlHeap.place (h : LlHeap E β) (i : Nat) (e : E) : LlHeap E β :=
  { h with data := update h.data i e, idx := update h.idx e i }

def llHeapInit (h : LlHeap E β) : LlHeap E β :=
  { h with size := 0, cap := 0 }

def llHeapSwap (h : LlHeap E β) (i j : Nat) : LlHeap E β :=
  let data := update (update h.data i (h.data j)) j (h.data i)
  { h with
    data := data
    idx := update (update h.idx (data i) i) (data j) j }

def llHeapSiftUp (cmp : β → β → Int) (h : LlHeap E β) (i : Nat) : LlHeap E β :=
  if _ : i = 0 then h
  else if cmp (h.ownerAt (parent i)) (h.ownerAt i) ≤ 0 then h
  else llHeapSiftUp cmp (llHeapSwap h i (parent i)) (parent i)
termination_by i
decreasing_by exact parent_lt (by omega)

def smaller (cmp : β → β → Int) (h : LlHeap E β) (child smallest : Nat) : Nat :=
  if child < h.size ∧ cmp (h.ownerAt child) (h.ownerAt smallest) < 0 then child else smallest

def llHeapSmallest (cmp : β → β → Int) (h : LlHeap E β) (i : Nat) : Nat :=
  smaller cmp h (2 * i + 2) (smaller cmp h (2 * i + 1) i)

omit [DecidableEq E] in
theorem smallest_cases (cmp : β → β → Int) (h : LlHeap E β) (i : Nat) :
    llHeapSmallest cmp h i = i ∨ i < llHeapSmallest cmp h i ∧ llHeapSmallest cmp h i < h.size ∧
      parent (llHeapSmallest cmp h i) = i := by
  unfold llHeapSmallest smaller parent
  split <;> split <;> omega

def llHeapSiftDown (cmp : β → β → Int) (h : LlHeap E β) (i : Nat) : LlHeap E β :=
  if llHeapSmallest cmp h i = i then h
  else llHeapSiftDown cmp (llHeapSwap h i (llHeapSmallest cmp h i)) (llHeapSmallest cmp h i)
termination_by h.size - i
decreasing_by
  have cases := smallest_cases cmp h i
  change h.size - _ < _
  omega

def LlHeap.grown (h : LlHeap E β) : Nat :=
  if h.size = h.cap then (if h.cap ≠ 0 then h.cap * 2 else 64) else h.cap

/-- The result `none` is the overflow of the capacity. -/
def llHeapPush (cmp : β → β → Int) (h : LlHeap E β) (e : E) (owner : β) : Option (LlHeap E β) :=
  if intMax < h.grown then none
  else
    let owned := { h with
      size := h.size + 1
      cap := h.grown
      owner := update h.owner e owner }
    some (llHeapSiftUp cmp (owned.place h.size e) h.size)

def LlHeap.shortened (h : LlHeap E β) (e : E) : LlHeap E β :=
  { h with size := h.size - 1, idx := update h.idx e (-1) }

def llHeapPop (cmp : β → β → Int) (h : LlHeap E β) : LlHeap E β × Option β :=
  if h.size = 0 then (h, none)
  else
    let e := h.data 0
    let popped := h.shortened e
    if h.size - 1 > 0 then
      (llHeapSiftDown cmp (popped.place 0 (h.data (h.size - 1))) 0, some (h.owner e))
    else (popped, some (h.owner e))

def llHeapRemove (cmp : β → β → Int) (h : LlHeap E β) (e : E) : LlHeap E β :=
  if h.idx e < 0 then h
  else
    let i := (h.idx e).toNat
    let removed := h.shortened e
    if i = h.size - 1 then removed
    else llHeapSiftUp cmp (llHeapSiftDown cmp (removed.place i (h.data (h.size - 1))) i) i

/-! ### Moving entries inside the array -/

def LlHeap.Linked (h : LlHeap E β) : Prop :=
  ∀ k < h.size, h.idx (h.data k) = k

def LlHeap.Member (h : LlHeap E β) (e : E) : Prop :=
  ∃ k < h.size, h.data k = e

structure Rearranged (h h' : LlHeap E β) : Prop where
  size : h'.size = h.size
  cap : h'.cap = h.cap
  owner : h'.owner = h.owner
  member : ∀ e, h'.Member e ↔ h.Member e
  linked : h.Linked → h'.Linked

omit [DecidableEq E] in
theorem Rearranged.refl (h : LlHeap E β) : Rearranged h h :=
  ⟨rfl, rfl, rfl, fun _ => Iff.rfl, id⟩

omit [DecidableEq E] in
theorem Rearranged.trans (first : Rearranged h h') (second : Rearranged h' h'') :
    Rearranged h h'' :=
  ⟨second.size.trans first.size, second.cap.trans first.cap, second.owner.trans first.owner,
    fun e => (second.member e).trans (first.member e),
    fun linked => second.linked (first.linked linked)⟩

omit [DecidableEq E] in
theorem LlHeap.Linked.inj (linked : h.Linked) (first : i < h.size) (second : j < h.size)
    (same : h.data i = h.data j) : i = j := by
  have places := linked i first
  rw [same, linked j second] at places
  exact (Int.ofNat_inj.mp places).symm

theorem linked_place (rest : ∀ k < h.size, k ≠ i → h.idx (h.data k) = k ∧ h.data k ≠ e) :
    (h.place i e).Linked := by
  intro k within
  change update h.idx e i (update h.data i e k) = k
  by_cases here : k = i
  · rw [here, update_self, update_self]
  · obtain ⟨place, other⟩ := rest k within here
    rw [update_of_ne here, update_of_ne other]
    exact place

theorem data_swap (h : LlHeap E β) (i j : Nat) :
    (llHeapSwap h i j).data = h.data ∘ Equiv.swap i j := by
  rw [Equiv.swap_comm, Equiv.comp_swap_eq_update]
  rfl

theorem ownerAt_swap (h : LlHeap E β) (i j : Nat) :
    (llHeapSwap h i j).ownerAt = h.ownerAt ∘ Equiv.swap i j := by
  funext k
  change h.owner ((llHeapSwap h i j).data k) = _
  rw [data_swap]
  rfl

theorem swap_lt {n k : Nat} (first : i < n) (second : j < n) (inside : k < n) :
    Equiv.swap i j k < n := by
  rw [Equiv.swap_apply_def]
  split
  · exact second
  · split
    · exact first
    · exact inside

theorem swap_rearranged (first : i < h.size) (second : j < h.size) :
    Rearranged h (llHeapSwap h i j) where
  size := rfl
  cap := rfl
  owner := rfl
  member := by
    intro e
    constructor
    · rintro ⟨k, inside, here⟩
      rw [data_swap] at here
      exact ⟨_, swap_lt first second inside, here⟩
    · rintro ⟨k, inside, here⟩
      refine ⟨_, swap_lt first second inside, ?_⟩
      rw [data_swap, comp_apply, Equiv.swap_apply_self, here]
  linked := by
    intro linked k inside
    have apart : ∀ l < h.size, k ≠ l → (llHeapSwap h i j).data k ≠ (llHeapSwap h i j).data l := by
      intro l within differ same
      rw [data_swap] at same
      exact differ ((Equiv.swap i j).injective (linked.inj (swap_lt first second inside)
        (swap_lt first second within) same))
    change update (update h.idx ((llHeapSwap h i j).data i) i)
      ((llHeapSwap h i j).data j) j ((llHeapSwap h i j).data k) = k
    by_cases atJ : k = j
    · rw [atJ, update_self]
    · rw [update_of_ne (apart j second atJ)]
      by_cases atI : k = i
      · rw [atI, update_self]
      · rw [update_of_ne (apart i first atI), data_swap, comp_apply,
          Equiv.swap_apply_of_ne_of_ne atI atJ]
        exact linked k inside

/-! ### The two ways to mend the order -/

theorem siftUp_of_above (above : Above cmp h.ownerAt i) : llHeapSiftUp cmp h i = h := by
  rw [llHeapSiftUp]
  split
  · rfl
  · exact if_pos (above (by omega))

theorem siftUp_rearranged (inside : i < h.size) : Rearranged h (llHeapSiftUp cmp h i) := by
  fun_induction llHeapSiftUp cmp h i with
  | case1 | case2 => exact .refl _
  | case3 h i root _ ih =>
    have up := parent_lt (Nat.pos_of_ne_zero root)
    exact (swap_rearranged inside (by omega)).trans (ih (Nat.lt_trans up inside))

theorem siftDown_rearranged (inside : i < h.size) : Rearranged h (llHeapSiftDown cmp h i) := by
  fun_induction llHeapSiftDown cmp h i with
  | case1 => exact .refl _
  | case2 h i moves ih =>
    obtain ⟨_, within, _⟩ := (smallest_cases cmp h i).resolve_left moves
    exact (swap_rearranged inside within).trans (ih within)

section Sift

variable (order : TellsPreorder cmp)
include order

theorem siftUp_ordered (inside : i < h.size) (gap : Gap cmp h.ownerAt h.size i)
    (below : Below cmp h.ownerAt h.size i) :
    HeapOrdered cmp (llHeapSiftUp cmp h i).ownerAt h.size := by
  fun_induction llHeapSiftUp cmp h i with
  | case1 h => exact gap.ordered nofun below
  | case2 h i _ sorted => exact gap.ordered (fun _ => sorted) below
  | case3 h i root greater ih =>
    have pos := Nat.pos_of_ne_zero root
    have up := parent_lt pos
    have less : cmp (h.ownerAt i) (h.ownerAt (parent i)) ≤ 0 := order.flip (by omega)
    obtain ⟨gap, below⟩ := gap.up order pos inside less
    rw [← ownerAt_swap] at gap below
    exact ih (Nat.lt_trans up inside) gap below

omit [DecidableEq E] in
theorem smaller_le (h : LlHeap E β) (child smallest : Nat) :
    cmp (h.ownerAt (smaller cmp h child smallest)) (h.ownerAt smallest) ≤ 0 ∧
      (child < h.size → cmp (h.ownerAt (smaller cmp h child smallest)) (h.ownerAt child) ≤ 0) := by
  unfold smaller
  split
  next less => exact ⟨Int.le_of_lt less.2, fun _ => order.refl _⟩
  next not_less =>
    refine ⟨order.refl _, fun inside => order.flip (Int.not_lt.mp fun less => ?_)⟩
    exact not_less ⟨inside, less⟩

omit [DecidableEq E] in
theorem smallest_least (child : parent j = i) (pos : 0 < j) (inside : j < h.size) :
    cmp (h.ownerAt (llHeapSmallest cmp h i)) (h.ownerAt j) ≤ 0 ∧
      cmp (h.ownerAt (llHeapSmallest cmp h i)) (h.ownerAt i) ≤ 0 := by
  have first := smaller_le order h (2 * i + 1) i
  have second := smaller_le order h (2 * i + 2) (smaller cmp h (2 * i + 1) i)
  refine ⟨?_, order.trans second.1 first.1⟩
  obtain rfl | rfl : j = 2 * i + 1 ∨ j = 2 * i + 2 := by
    unfold parent at child
    omega
  · exact order.trans second.1 (first.2 inside)
  · exact second.2 inside

theorem siftDown_of_below (below : Below cmp h.ownerAt h.size i) : llHeapSiftDown cmp h i = h := by
  have stays : ∀ child, 0 < child → parent child = i → smaller cmp h child i = i := by
    intro child pos of
    refine if_neg fun less => Int.not_le.mpr less.2 ?_
    exact order.unflip (below child pos less.1 of)
  have root : llHeapSmallest cmp h i = i := by
    rw [llHeapSmallest, stays (2 * i + 1) (by omega) (by unfold parent; omega),
      stays (2 * i + 2) (by omega) (by unfold parent; omega)]
  rw [llHeapSiftDown, if_pos root]

theorem siftDown_ordered (inside : i < h.size) (gap : Gap cmp h.ownerAt h.size i)
    (above : Above cmp h.ownerAt i) : HeapOrdered cmp (llHeapSiftDown cmp h i).ownerAt h.size := by
  fun_induction llHeapSiftDown cmp h i with
  | case1 h i stays =>
    refine gap.ordered above fun k pos within child => ?_
    have least := (smallest_least order child pos within).1
    rwa [stays] at least
  | case2 h i moves ih =>
    obtain ⟨further, within, child⟩ := (smallest_cases cmp h i).resolve_left moves
    obtain ⟨gap, above⟩ := gap.down (by omega) within child
      (fun k pos within child => (smallest_least order child pos within).1)
      (smallest_least order child (by omega) within).2
    rw [← ownerAt_swap] at gap above
    exact ih within gap above

/-- Both sifts after each other: one of them finds nothing to do. -/
theorem sifts_ordered (inside : i < h.size) (gap : Gap cmp h.ownerAt h.size i) :
    HeapOrdered cmp (llHeapSiftUp cmp (llHeapSiftDown cmp h i) i).ownerAt h.size := by
  by_cases above : Above cmp h.ownerAt i
  · have ordered := siftDown_ordered order inside gap above
    rwa [siftUp_of_above fun pos => ordered i pos inside]
  · obtain ⟨pos, greater⟩ := Classical.not_imp.mp above
    have less : cmp (h.ownerAt i) (h.ownerAt (parent i)) ≤ 0 := order.flip (by omega)
    have below : Below cmp h.ownerAt h.size i := fun k kpos within child =>
      order.trans less (gap.past pos k kpos within child)
    rw [siftDown_of_below order below]
    exact siftUp_ordered order inside gap below

end Sift

/-! ### The operations -/

/-- The capacity is an `int` that comes from doublings. -/
structure LlHeap.Roomy (h : LlHeap E β) : Prop where
  room : h.size ≤ h.cap
  power : h.cap = 0 ∨ ∃ k, h.cap = 2 ^ (k + 6)
  counted : (h.cap : Int) ≤ intMax

structure LlHeap.Valid (cmp : β → β → Int) (h : LlHeap E β) : Prop extends h.Roomy where
  ordered : HeapOrdered cmp h.ownerAt h.size
  linked : h.Linked

omit [DecidableEq E] in
theorem LlHeap.Roomy.fewer (roomy : h.Roomy) (cap : h'.cap = h.cap) (fewer : h'.size ≤ h.size) :
    h'.Roomy :=
  ⟨cap ▸ Nat.le_trans fewer roomy.room, cap ▸ roomy.power, cap ▸ roomy.counted⟩

structure Removed (h h' : LlHeap E β) (e : E) : Prop where
  owner : h'.owner = h.owner
  member : ∀ x, h'.Member x ↔ h.Member x ∧ x ≠ e

omit [DecidableEq E] in
theorem member_filled (linked : h.Linked) (inside : i < h.size) (size : h'.size = h.size - 1)
    (data : ∀ k < h'.size, h'.data k = if k = i then h.data (h.size - 1) else h.data k) (x : E) :
    h'.Member x ↔ h.Member x ∧ x ≠ h.data i := by
  constructor
  · rintro ⟨k, within, rfl⟩
    rw [data k within]
    by_cases filled : k = i
    · rw [if_pos filled]
      exact ⟨⟨_, by omega, rfl⟩, fun same => absurd (linked.inj (by omega) inside same) (by omega)⟩
    · rw [if_neg filled]
      exact ⟨⟨k, by omega, rfl⟩, fun same => filled (linked.inj (by omega) inside same)⟩
  · rintro ⟨⟨k, within, rfl⟩, other⟩
    have away : k ≠ i := fun same => other (congrArg h.data same)
    by_cases last : k = h.size - 1
    · exact ⟨i, by omega, by rw [data i (by omega), if_pos rfl, last]⟩
    · exact ⟨k, by omega, by rw [data k (by omega), if_neg away]⟩

section Operations

variable (order : TellsPreorder cmp)
include order

theorem LlHeap.Valid.remove (valid : h.Valid cmp) (member : h.Member e) :
    (llHeapRemove cmp h e).Valid cmp ∧ Removed h (llHeapRemove cmp h e) e := by
  obtain ⟨i, inside, rfl⟩ := member
  have rest : ∀ k < h.size - 1, k ≠ i → (h.shortened (h.data i)).idx (h.data k) = k := by
    intro k within away
    have other : h.data k ≠ h.data i := fun same => away (valid.linked.inj (by omega) inside same)
    exact (update_of_ne other ..).trans (valid.linked k (by omega))
  rw [llHeapRemove, valid.linked i inside, if_neg (by omega), Int.toNat_natCast]
  simp only
  by_cases last : i = h.size - 1
  · rw [if_pos last]
    have gone : ∀ k < h.size - 1, k ≠ i := fun k within => by omega
    refine ⟨⟨valid.fewer rfl (Nat.sub_le _ _), fun k pos within => ?_, fun k within => ?_⟩, rfl,
      member_filled valid.linked inside rfl fun k within => (if_neg (gone k within)).symm⟩
    · exact valid.ordered k pos (Nat.lt_of_lt_of_le within (Nat.sub_le _ _))
    · exact rest k within (gone k within)
  · rw [if_neg last]
    generalize filled : (h.shortened (h.data i)).place i (h.data (h.size - 1)) = g
    have size : g.size = h.size - 1 := filled ▸ rfl
    have data : ∀ k, g.data k = if k = i then h.data (h.size - 1) else h.data k :=
      fun k => filled ▸ update_apply ..
    have inside' : i < g.size := by omega
    have linked : g.Linked := by
      rw [← filled]
      refine linked_place fun k within away => ⟨rest k within away, fun same => ?_⟩
      change k < h.size - 1 at within
      exact absurd (valid.linked.inj (by omega) (by omega) same) (by omega)
    have gap : Gap cmp g.ownerAt g.size i := by
      refine valid.ordered.gap order (by omega) inside fun k away => ?_
      rw [LlHeap.ownerAt, data, if_neg away, ← filled]
      rfl
    have down : Rearranged g (llHeapSiftDown cmp g i) := siftDown_rearranged inside'
    have moved : Rearranged g (llHeapSiftUp cmp (llHeapSiftDown cmp g i) i) :=
      down.trans (siftUp_rearranged (by rwa [down.size]))
    refine ⟨⟨valid.fewer (moved.cap.trans (filled ▸ rfl)) (by rw [moved.size]; omega), ?_,
      moved.linked linked⟩, moved.owner.trans (filled ▸ rfl), fun x => ?_⟩
    · rw [moved.size]
      exact sifts_ordered order inside' gap
    · exact (moved.member x).trans (member_filled valid.linked inside size (fun k _ => data k) x)

omit order in
theorem pop_eq (valid : h.Valid cmp) (filled : 0 < h.size) :
    llHeapPop cmp h = (llHeapRemove cmp h (h.data 0), some (h.owner (h.data 0))) := by
  have place := valid.linked 0 filled
  rw [llHeapPop, if_neg (by omega), llHeapRemove, place]
  simp only [Int.toNat_natCast]
  by_cases last : 0 = h.size - 1
  · rw [if_neg (by omega), if_neg (by omega), if_pos last]
  · rw [if_pos (by omega), if_neg (by omega), if_neg last,
      siftUp_of_above fun pos => absurd pos (Nat.lt_irrefl 0)]

omit order [DecidableEq E] in
theorem grown_le (roomy : h.Roomy) (few : h.size < 2 ^ 30) : ¬ intMax < h.grown := by
  have counted := roomy.counted
  unfold intMax at *
  unfold LlHeap.grown
  split
  · split <;> omega
  · omega

omit order [DecidableEq E] in
theorem LlHeap.Roomy.grow (roomy : h.Roomy) (size : h'.size = h.size + 1)
    (grown : h'.cap = h.grown) (counted : ¬ intMax < h.grown) : h'.Roomy := by
  have room := roomy.room
  refine ⟨?_, ?_, by rw [grown]; omega⟩
  · rw [size, grown, LlHeap.grown]
    split
    · split <;> omega
    · omega
  · rw [grown, LlHeap.grown]
    rcases roomy.power with empty | ⟨k, power⟩
    · exact Or.inr ⟨0, by simp [empty]; omega⟩
    · split
      · have positive : 2 ^ (k + 6) ≠ 0 := Nat.ne_of_gt (Nat.two_pow_pos _)
        exact Or.inr ⟨k + 1, by rw [power, if_pos positive]; exact (Nat.pow_succ ..).symm⟩
      · exact Or.inr ⟨k, power⟩

theorem LlHeap.Valid.push (valid : h.Valid cmp) (new : ¬ h.Member e) (few : h.size < 2 ^ 30)
    (owner : β) : ∃ h', llHeapPush cmp h e owner = some h' ∧ h'.Valid cmp ∧ h'.size = h.size + 1 ∧
      h'.owner = update h.owner e owner ∧ ∀ x, h'.Member x ↔ x = e ∨ h.Member x := by
  have apart : ∀ k < h.size, h.data k ≠ e := fun k within same => new ⟨k, within, same⟩
  have fits := grown_le valid.toRoomy few
  rw [llHeapPush, if_neg fits]
  simp only
  generalize placed : LlHeap.place { h with
      size := h.size + 1
      cap := h.grown
      owner := update h.owner e owner } h.size e = g
  have size : g.size = h.size + 1 := placed ▸ rfl
  have owners : g.owner = update h.owner e owner := placed ▸ rfl
  have data : ∀ k, g.data k = if k = h.size then e else h.data k :=
    fun k => placed ▸ update_apply ..
  have linked : g.Linked := by
    rw [← placed]
    refine linked_place fun k within away => ?_
    have before : k < h.size := by
      change k < h.size + 1 at within
      omega
    exact ⟨valid.linked k before, apart k before⟩
  have same : ∀ k < h.size, g.ownerAt k = h.ownerAt k := by
    intro k within
    rw [LlHeap.ownerAt, data, if_neg (Nat.ne_of_lt within), owners, update_of_ne (apart k within)]
    rfl
  have childless : ∀ k, 0 < k → k < g.size → parent k ≠ h.size := by
    intro k pos within
    have up := parent_lt pos
    omega
  have gap : Gap cmp g.ownerAt g.size h.size := by
    refine ⟨fun k pos within away _ => ?_, fun _ k pos within child => ?_⟩
    · have up := parent_lt pos
      rw [same k (by omega), same _ (by omega)]
      exact valid.ordered k pos (by omega)
    · exact absurd child (childless k pos within)
  have inside : h.size < g.size := by omega
  have moved : Rearranged g (llHeapSiftUp cmp g h.size) := siftUp_rearranged inside
  have more := moved.size.trans size
  refine ⟨_, rfl, ⟨?_, ?_, moved.linked linked⟩, more, moved.owner.trans owners, fun x => ?_⟩
  · exact valid.grow more (moved.cap.trans (placed ▸ rfl)) fits
  · rw [moved.size]
    exact siftUp_ordered order inside gap fun k pos within child =>
      absurd child (childless k pos within)
  · rw [moved.member]
    constructor
    · rintro ⟨k, within, rfl⟩
      rw [data]
      split
      · exact Or.inl rfl
      · exact Or.inr ⟨k, by omega, rfl⟩
    · rintro (rfl | ⟨k, within, rfl⟩)
      · exact ⟨h.size, inside, by rw [data, if_pos rfl]⟩
      · exact ⟨k, by omega, by rw [data, if_neg (Nat.ne_of_lt within)]⟩

end Operations

omit [DecidableEq E] in
theorem valid_init (cmp : β → β → Int) (h : LlHeap E β) : (llHeapInit h).Valid cmp :=
  ⟨⟨Nat.le_refl 0, Or.inl rfl, by simp [llHeapInit, intMax]⟩, nofun, nofun⟩

/-- The heaps that sequences of operations lead to, with at most `2 ^ 30` members each. -/
inductive HeapReached (cmp : β → β → Int) : LlHeap E β → Prop where
  | init (memory : LlHeap E β) : HeapReached cmp (llHeapInit memory)
  | push {h h' : LlHeap E β} {e : E} {owner : β} (before : HeapReached cmp h)
      (new : ¬ h.Member e) (few : h.size < 2 ^ 30) (pushed : llHeapPush cmp h e owner = some h') :
      HeapReached cmp h'
  | pop {h : LlHeap E β} (before : HeapReached cmp h) : HeapReached cmp (llHeapPop cmp h).1
  | remove {h : LlHeap E β} {e : E} (before : HeapReached cmp h) (member : h.Member e) :
      HeapReached cmp (llHeapRemove cmp h e)

theorem HeapReached.valid (order : TellsPreorder cmp) (reached : HeapReached cmp h) :
    h.Valid cmp := by
  induction reached with
  | init memory => exact valid_init cmp memory
  | @push h h' e owner _ new few pushed ih =>
    obtain ⟨h₁, done, valid, _⟩ := ih.push order new few owner
    rw [pushed] at done
    exact Option.some.inj done ▸ valid
  | @pop h _ ih =>
    rcases Nat.eq_zero_or_pos h.size with empty | filled
    · rwa [llHeapPop, if_pos empty]
    · rw [pop_eq ih filled]
      exact (ih.remove order ⟨0, filled, rfl⟩).1
  | remove _ member ih => exact (ih.remove order member).1

/-- What the operations make of the members of a heap. -/
structure PriorityQueue (cmp : β → β → Int) (h : LlHeap E β) : Prop where
  push : ∀ e owner, ¬ h.Member e → h.size < 2 ^ 30 → ∃ h', llHeapPush cmp h e owner = some h' ∧
    h'.owner = update h.owner e owner ∧ ∀ x, h'.Member x ↔ x = e ∨ h.Member x
  remove : ∀ e, h.Member e → Removed h (llHeapRemove cmp h e) e
  empty : (∀ e, ¬ h.Member e) → llHeapPop cmp h = (h, none)
  pop : (∃ e, h.Member e) → ∃ e, h.Member e ∧ (llHeapPop cmp h).2 = some (h.owner e) ∧
    (∀ x, h.Member x → ¬ cmp (h.owner x) (h.owner e) < 0) ∧ Removed h (llHeapPop cmp h).1 e

theorem heap_is_queue (order : TellsPreorder cmp) (reached : HeapReached cmp h) :
    HeapOrdered cmp h.ownerAt h.size ∧ h.Linked ∧ PriorityQueue cmp h := by
  have valid := reached.valid order
  refine ⟨valid.ordered, valid.linked, ⟨fun e owner new few => ?_, fun e member => ?_,
    fun none_ => ?_, fun some_ => ?_⟩⟩
  · obtain ⟨h', pushed, _, _, after⟩ := valid.push order new few owner
    exact ⟨h', pushed, after⟩
  · exact (valid.remove order member).2
  · rcases Nat.eq_zero_or_pos h.size with empty | filled
    · rw [llHeapPop, if_pos empty]
    · exact absurd ⟨0, filled, rfl⟩ (none_ (h.data 0))
  · obtain ⟨_, k, within, _⟩ := some_
    have filled : 0 < h.size := Nat.zero_lt_of_lt within
    have first : h.Member (h.data 0) := ⟨0, filled, rfl⟩
    rw [pop_eq valid filled]
    refine ⟨h.data 0, first, rfl, ?_, (valid.remove order first).2⟩
    rintro _ ⟨k, within, rfl⟩
    exact Int.not_lt.mpr (order.unflip (valid.ordered.root order k within))

/-- Entries that are their own owners, compared by their difference. -/
def difference (a b : Nat) : Int := a - b

theorem tellsPreorder_difference : TellsPreorder difference := by
  constructor <;> intros <;> unfold difference at * <;> omega

theorem pushes_reached {entries : List Nat} (distinct : entries.Nodup)
    (few : entries.length ≤ 2 ^ 30) (memory : LlHeap Nat Nat) :
    ∃ h, entries.foldlM (fun h e => llHeapPush difference h e e) (llHeapInit memory) = some h ∧
      HeapReached difference h ∧ h.size = entries.length ∧ ∀ e, h.Member e → e ∈ entries := by
  induction entries using List.reverseRecOn with
  | nil => exact ⟨_, rfl, .init memory, rfl, fun _ member => absurd member nofun⟩
  | append_singleton entries e ih =>
    obtain ⟨before, -, other⟩ := List.nodup_append.mp distinct
    rw [List.length_append, List.length_singleton] at few ⊢
    obtain ⟨mid, ran, reached, size, members⟩ := ih before (by omega)
    have new : ¬ mid.Member e := fun member => other e (members e member) e (List.mem_singleton_self e) rfl
    have room : mid.size < 2 ^ 30 := by omega
    obtain ⟨h, pushed, _, more, _, member⟩ :=
      (reached.valid tellsPreorder_difference).push tellsPreorder_difference new room e
    refine ⟨h, ?_, reached.push new room pushed, by omega, fun x there => ?_⟩
    · rw [List.foldlM_append, ran]
      change llHeapPush difference mid e e >>= _ = _
      rw [pushed]
      rfl
    · rw [List.mem_append, List.mem_singleton]
      exact ((member x).mp there).symm.imp_left (members x)

/-- Six entries out of order, and then the one at position 1 leaves: the last one takes its
place and is sifted down. -/
theorem heap_is_queue_removed : ∃ h,
    [5, 3, 8, 1, 4, 9].foldlM (fun h e => llHeapPush difference h e e)
        (llHeapInit ⟨id, 0, 0, fun _ => 0, id⟩) = some h ∧
      h.idx 3 = 1 ∧ (llHeapRemove difference h 3).idx 9 = 4 ∧
      HeapOrdered difference (llHeapRemove difference h 3).ownerAt 5 ∧
      (llHeapRemove difference h 3).Linked ∧
      PriorityQueue difference (llHeapRemove difference h 3) ∧
      (llHeapPop difference (llHeapRemove difference h 3)).2 = some 1 ∧
      (llHeapPop difference (llHeapPop difference (llHeapRemove difference h 3)).1).2 = some 4 := by
  obtain ⟨h, pushed, within, there, index, moved, size, first, second⟩ :
      ∃ h ∈ [5, 3, 8, 1, 4, 9].foldlM (fun h e => llHeapPush difference h e e)
          (llHeapInit ⟨id, 0, 0, fun _ => 0, id⟩),
        1 < h.size ∧ h.data 1 = 3 ∧ h.idx 3 = 1 ∧ (llHeapRemove difference h 3).idx 9 = 4 ∧
          (llHeapRemove difference h 3).size = 5 ∧
          (llHeapPop difference (llHeapRemove difference h 3)).2 = some 1 ∧
          (llHeapPop difference (llHeapPop difference (llHeapRemove difference h 3)).1).2 = some 4 := by
    decide +kernel
  have distinct : [5, 3, 8, 1, 4, 9].Nodup := by decide
  obtain ⟨_, same, reached, _⟩ := pushes_reached distinct (by decide) ⟨id, 0, 0, fun _ => 0, id⟩
  cases Option.some.inj (pushed.symm.trans same)
  obtain ⟨ordered, linked, queue⟩ :=
    heap_is_queue tellsPreorder_difference (reached.remove ⟨1, within, there⟩)
  exact ⟨h, pushed, index, moved, size ▸ ordered, linked, queue, first, second⟩

theorem push_overflows (valid : h.Valid cmp) (full : h.size = 2 ^ 30) (e : E) (owner : β) :
    llHeapPush cmp h e owner = none := by
  have room := valid.room
  have counted := valid.counted
  unfold intMax at counted
  obtain ⟨k, power⟩ := valid.power.resolve_left (by omega)
  have lower : 30 ≤ k + 6 := (Nat.pow_le_pow_iff_right Nat.one_lt_two).mp (by omega)
  have upper : k + 6 < 31 := (Nat.pow_lt_pow_iff_right Nat.one_lt_two).mp (by omega)
  have same : h.cap = 2 ^ 30 := by
    rw [power]
    congr 1
    omega
  rw [llHeapPush, LlHeap.grown, full, same]
  rfl

/-- The capacity cannot be doubled any more. -/
theorem full_heap_overflows :
    (List.range 1073741825).foldlM (fun h e => llHeapPush difference h e e)
      (llHeapInit ⟨id, 0, 0, fun _ => 0, id⟩) = none := by
  obtain ⟨h, ran, reached, size, _⟩ := pushes_reached (List.nodup_range (n := 2 ^ 30))
    (Nat.le_of_eq List.length_range) ⟨id, 0, 0, fun _ => 0, id⟩
  rw [List.length_range] at size
  have all : 1073741825 = 2 ^ 30 + 1 := rfl
  rw [all, List.range_succ, List.foldlM_append, ran]
  change llHeapPush difference h _ _ >>= _ = none
  rw [push_overflows (reached.valid tellsPreorder_difference) size]
  rfl

end LavaLite.Base
