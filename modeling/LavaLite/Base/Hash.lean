import Mathlib.Data.Nat.Prime.Infinite
import Mathlib.Data.Set.Card

/-
The hash tables of the base library: chains of entries in an array of buckets, which is
replaced by a larger one as the table fills.  A chain is the list of its entries.
-/

namespace LavaLite.Base

open Function List Option

/-! ### The number of buckets -/

/-- The loop of `ll_is_prime`, from the divisor `i` on. -/
def trialDivision (n i : Nat) : Bool :=
  if i * i ≤ n then
    if n % i = 0 ∨ n % (i + 2) = 0 then false else trialDivision n (i + 6)
  else true
termination_by n + 1 - i
decreasing_by
  have := Nat.le_mul_self i
  omega

def llIsPrime (n : Nat) : Bool :=
  if n < 2 then false
  else if n = 2 ∨ n = 3 then true
  else if n % 2 = 0 ∨ n % 3 = 0 then false
  else trialDivision n 5

theorem mod_ne_zero_of_prime {n i : Nat} (prime : n.Prime) (low : 1 < i) (high : i < n) :
    n % i ≠ 0 := by
  intro divides
  rcases (Nat.dvd_prime prime).mp (Nat.dvd_of_mod_eq_zero divides) with one | whole <;> omega

theorem trialDivision_prime {n i : Nat} (prime : n.Prime) (low : 5 ≤ i) :
    trialDivision n i = true := by
  fun_induction trialDivision n i with
  | case1 i small divides =>
    have more : 5 * i ≤ i * i := Nat.mul_le_mul_right i low
    rcases divides with first | second
    · exact absurd first (mod_ne_zero_of_prime prime (by omega) (by omega))
    · exact absurd second (mod_ne_zero_of_prime prime (by omega) (by omega))
  | case2 i _ _ ih => exact ih (by omega)
  | case3 => rfl

theorem llIsPrime_prime {n : Nat} (prime : n.Prime) : llIsPrime n = true := by
  have two := prime.two_le
  unfold llIsPrime
  split
  · omega
  · split
    · rfl
    · rw [if_neg, trialDivision_prime prime (Nat.le_refl 5)]
      rintro (even | third)
      · exact mod_ne_zero_of_prime prime (by decide) (by omega) even
      · exact mod_ne_zero_of_prime prime (by decide) (by omega) third

theorem exists_llIsPrime (n : Nat) : ∃ p, max n 2 ≤ p ∧ llIsPrime p = true := by
  obtain ⟨p, above, prime⟩ := Nat.exists_infinite_primes (max n 2)
  exact ⟨p, above, llIsPrime_prime prime⟩

/-- The first number the loop of `ll_next_prime` stops at. -/
def llNextPrime (n : Nat) : Nat :=
  Nat.find (exists_llIsPrime n)

theorem llNextPrime_pos (n : Nat) : 0 < llNextPrime n := by
  have above := (Nat.find_spec (exists_llIsPrime n)).1
  exact Nat.lt_of_lt_of_le Nat.two_pos (Nat.le_trans (Nat.le_max_right n 2) above)

/-! ### The table -/

def llHashStr (key : String) : Nat :=
  (key.toUTF8.foldl (fun (h : UInt32) c => (h ^^^ c.toUInt32) * 16777619) 2166136261).toNat

def llBucketIndex (key : String) (nbuckets : Nat) : Nat :=
  llHashStr key % nbuckets

structure LlHash (V : Type*) where
  buckets : Nat → List (String × V)
  nbuckets : Nat
  nentries : Nat
  maxLoadFactor : Float

variable {V : Type*}

def insertFront (nbuckets : Nat) (buckets : Nat → List (String × V)) (ent : String × V) :
    Nat → List (String × V) :=
  let idx := llBucketIndex ent.1 nbuckets
  update buckets idx (ent :: buckets idx)

def llHashResize (ht : LlHash V) (newBuckets : Nat) : LlHash V :=
  let newBuckets := llNextPrime newBuckets
  { ht with
    buckets := (List.range ht.nbuckets).foldl
      (fun array i => (ht.buckets i).foldl (insertFront newBuckets) array) fun _ => []
    nbuckets := newBuckets }

def llHashMaybeGrow (ht : LlHash V) : LlHash V :=
  if ht.nbuckets = 0 then ht
  else if Float.ofNat ht.nentries / Float.ofNat ht.nbuckets ≤ ht.maxLoadFactor then ht
  else llHashResize ht (ht.nbuckets * 2)

def llHashInit (initialBuckets : Nat) : LlHash V :=
  ⟨fun _ => [], llNextPrime (if initialBuckets = 0 then 11 else initialBuckets), 0, 0.75⟩

inductive HashStatus where
  | inserted | updated | exists
  deriving DecidableEq, Repr

def setValue (key : String) (value : V) : List (String × V) → List (String × V)
  | [] => []
  | ent :: rest => if ent.1 = key then (ent.1, value) :: rest else ent :: setValue key value rest

def llHashInsert (ht : LlHash V) (key : String) (value : V) (allowUpdate : Bool) :
    LlHash V × HashStatus :=
  let ht := llHashMaybeGrow ht
  let idx := llBucketIndex key ht.nbuckets
  let chain := ht.buckets idx
  if (chain.find? (·.1 = key)).isSome then
    if allowUpdate then
      ({ ht with buckets := update ht.buckets idx (setValue key value chain) }, .updated)
    else (ht, .exists)
  else
    ({ ht with
        buckets := insertFront ht.nbuckets ht.buckets (key, value)
        nentries := ht.nentries + 1 }, .inserted)

/-- The value stored under the key; `none` stands for the `NULL` of a key that is not there. -/
def llHashSearch (ht : LlHash V) (key : String) : Option V :=
  ((ht.buckets (llBucketIndex key ht.nbuckets)).find? (·.1 = key)).map (·.2)

def llHashContains (ht : LlHash V) (key : String) : Bool :=
  ((ht.buckets (llBucketIndex key ht.nbuckets)).find? (·.1 = key)).isSome

def llHashRemove (ht : LlHash V) (key : String) : LlHash V × Option V :=
  let idx := llBucketIndex key ht.nbuckets
  let chain := ht.buckets idx
  match chain.find? (·.1 = key) with
  | none => (ht, none)
  | some ent =>
    ({ ht with
        buckets := update ht.buckets idx (chain.eraseP (·.1 = key))
        nentries := ht.nentries - 1 }, some ent.2)

/-- The next bucket to look at, and the chain from the current entry on. -/
structure HashIter (V : Type*) where
  bucket : Nat
  entry : List (String × V)

/-- The loop of `ll_hash_iter_next`: the buckets up to one that is not empty. -/
def iterSkip (ht : LlHash V) (it : HashIter V) : Option ((String × V) × HashIter V) :=
  match it.entry with
  | ent :: _ => some (ent, it)
  | [] =>
    if it.bucket ≥ ht.nbuckets then none
    else iterSkip ht ⟨it.bucket + 1, ht.buckets it.bucket⟩
termination_by ht.nbuckets - it.bucket

def llHashIterNext (ht : LlHash V) (it : HashIter V) : Option ((String × V) × HashIter V) :=
  iterSkip ht { it with entry := it.entry.tail }

/-- The entries that calls of `ll_hash_iter_next` return before `NULL`. -/
inductive Yields (ht : LlHash V) : HashIter V → List (String × V) → Prop where
  | done {it : HashIter V} (ended : llHashIterNext ht it = none) : Yields ht it []
  | more {it it' : HashIter V} {ent : String × V} {rest : List (String × V)}
      (next : llHashIterNext ht it = some (ent, it')) (later : Yields ht it' rest) :
      Yields ht it (ent :: rest)

/-! ### Operations and their meaning on a map -/

inductive HashOp (V : Type*) where
  | insert (key : String) (value : V) (allowUpdate : Bool)
  | remove (key : String)
  | search (key : String)
  | contains (key : String)

inductive HashResult (V : Type*) where
  | status (s : HashStatus)
  | value (v : Option V)
  | flag (b : Bool)

def hashStep (ht : LlHash V) : HashOp V → LlHash V × HashResult V
  | .insert key value allowUpdate =>
    ((llHashInsert ht key value allowUpdate).1, .status (llHashInsert ht key value allowUpdate).2)
  | .remove key => ((llHashRemove ht key).1, .value (llHashRemove ht key).2)
  | .search key => (ht, .value (llHashSearch ht key))
  | .contains key => (ht, .flag (llHashContains ht key))

/-- What the operations mean for a map; a key without a value is not there. -/
def mapStep (map : String → Option V) : HashOp V → (String → Option V) × HashResult V
  | .insert key value allowUpdate =>
    if (map key).isSome then
      if allowUpdate then (update map key (some value), .status .updated)
      else (map, .status .exists)
    else (update map key (some value), .status .inserted)
  | .remove key => (update map key none, .value (map key))
  | .search key => (map, .value (map key))
  | .contains key => (map, .flag (map key).isSome)

def runOps {S : Type*} (step : S → HashOp V → S × HashResult V) :
    S → List (HashOp V) → S × List (HashResult V)
  | s, [] => (s, [])
  | s, op :: ops =>
    let rest := runOps step (step s op).1 ops
    (rest.1, (step s op).2 :: rest.2)

def LlHash.entries (ht : LlHash V) : List (String × V) :=
  (List.range ht.nbuckets).flatMap ht.buckets

def ChainsPlaced (nbuckets : Nat) (buckets : Nat → List (String × V)) : Prop :=
  ∀ b, ∀ ent ∈ buckets b, llBucketIndex ent.1 nbuckets = b

structure LlHash.Represents (ht : LlHash V) (map : String → Option V) : Prop where
  filled : 0 < ht.nbuckets
  placed : ChainsPlaced ht.nbuckets ht.buckets
  distinct : (ht.entries.map Prod.fst).Nodup
  lookup : ∀ k v, map k = some v ↔ (k, v) ∈ ht.entries
  count : ht.nentries = ht.entries.length

variable {ht ht' : LlHash V} {map : String → Option V} {n b : Nat} {key : String} {value : V}
  {buckets : Nat → List (String × V)} {ent : String × V}

theorem bucketIndex_lt (filled : 0 < n) (key : String) : llBucketIndex key n < n :=
  Nat.mod_lt _ filled

theorem entries_update (inside : b < n) (buckets : Nat → List (String × V)) (chain) :
    ((List.range n).flatMap (update buckets b chain)).Perm
      (chain ++ ((List.range n).erase b).flatMap buckets) := by
  have others : ((List.range n).erase b).flatMap (update buckets b chain) =
      ((List.range n).erase b).flatMap buckets := by
    refine flatMap_congr fun i member => update_of_ne ?_ _ _
    exact ((nodup_range.mem_erase_iff).mp member).1
  refine ((perm_cons_erase (mem_range.mpr inside)).flatMap_right _).trans ?_
  rw [flatMap_cons, update_self, others]

theorem entries_insertFront (filled : 0 < n) (buckets : Nat → List (String × V)) (ent) :
    ((List.range n).flatMap (insertFront n buckets ent)).Perm
      (ent :: (List.range n).flatMap buckets) := by
  have inside := bucketIndex_lt filled ent.1
  have before := entries_update inside buckets (buckets (llBucketIndex ent.1 n))
  rw [update_eq_self] at before
  exact (entries_update inside buckets _).trans (before.symm.cons ent)

theorem ChainsPlaced.insertFront (placed : ChainsPlaced n buckets) (ent : String × V) :
    ChainsPlaced n (insertFront n buckets ent) := by
  intro b other member
  unfold Base.insertFront at member
  by_cases here : b = llBucketIndex ent.1 n
  · rw [here, update_self] at member
    rcases mem_cons.mp member with rfl | old
    · exact here.symm
    · exact here ▸ placed _ other old
  · rw [update_of_ne here] at member
    exact placed b other member

theorem insertAll (filled : 0 < n) (ents : List (String × V)) (placed : ChainsPlaced n buckets) :
    ChainsPlaced n (ents.foldl (insertFront n) buckets) ∧
      ((List.range n).flatMap (ents.foldl (insertFront n) buckets)).Perm
        (ents ++ (List.range n).flatMap buckets) := by
  induction ents generalizing buckets with
  | nil => exact ⟨placed, .refl _⟩
  | cons ent ents ih =>
    obtain ⟨now, same⟩ := ih (placed.insertFront ent)
    refine ⟨now, same.trans ?_⟩
    exact ((entries_insertFront filled buckets ent).append_left ents).trans perm_middle

theorem ChainsPlaced.replace {chain : List (String × V)} (placed : ChainsPlaced n buckets)
    (same : ∀ ent ∈ chain, llBucketIndex ent.1 n = b) :
    ChainsPlaced n (update buckets b chain) := by
  intro i ent member
  by_cases here : i = b
  · rw [here, update_self] at member
    exact here ▸ same ent member
  · rw [update_of_ne here] at member
    exact placed i ent member

theorem setValue_append {a c : List (String × V)} {old : V} (first : ∀ ent ∈ a, ¬ ent.1 = key) :
    setValue key value (a ++ (key, old) :: c) = a ++ (key, value) :: c := by
  induction a with
  | nil => exact if_pos rfl
  | cons ent a ih =>
    rw [cons_append, setValue, if_neg (first ent mem_cons_self)]
    rw [ih fun other member => first other (mem_cons_of_mem ent member), cons_append]

theorem eraseP_append {a c : List (String × V)} (first : ∀ ent ∈ a, ¬ ent.1 = key) :
    (a ++ (key, value) :: c).eraseP (·.1 = key) = a ++ c := by
  rw [eraseP_append_right _ (by simpa using first), eraseP_cons_of_pos (by simp)]

section Represents

variable (represents : ht.Represents map)
include represents

theorem LlHash.Represents.of_perm (filled : 0 < ht'.nbuckets)
    (placed : ChainsPlaced ht'.nbuckets ht'.buckets) (same : ht'.entries.Perm ht.entries)
    (count : ht'.nentries = ht.nentries) : ht'.Represents map where
  filled := filled
  placed := placed
  distinct := (same.map _).nodup_iff.mpr represents.distinct
  lookup := fun k v => (represents.lookup k v).trans same.mem_iff.symm
  count := by rw [count, represents.count, same.length_eq]

theorem LlHash.Represents.resize (newBuckets : Nat) :
    (llHashResize ht newBuckets).Represents map := by
  have filled := llNextPrime_pos newBuckets
  have start : ChainsPlaced (llNextPrime newBuckets) fun _ => ([] : List (String × V)) :=
    fun _ _ member => by cases member
  obtain ⟨placed, same⟩ := insertAll filled ht.entries start
  rw [flatMap_eq_nil_iff.mpr fun _ _ => rfl, append_nil] at same
  rw [LlHash.entries, foldl_flatMap] at placed
  nth_rewrite 1 [LlHash.entries] at same
  rw [foldl_flatMap] at same
  exact represents.of_perm filled placed same rfl

theorem LlHash.Represents.maybeGrow : (llHashMaybeGrow ht).Represents map := by
  unfold llHashMaybeGrow
  split
  · exact represents
  · split
    · exact represents
    · exact represents.resize _

theorem LlHash.Represents.find_eq (key : String) :
    (ht.buckets (llBucketIndex key ht.nbuckets)).find? (·.1 = key) = (map key).map (key, ·) := by
  have inside := bucketIndex_lt represents.filled key
  cases found : (ht.buckets (llBucketIndex key ht.nbuckets)).find? (·.1 = key) with
  | none =>
    cases stored : map key with
    | none => rfl
    | some v =>
      obtain ⟨b, _, member⟩ := mem_flatMap.mp ((represents.lookup key v).mp stored)
      rw [← represents.placed b _ member] at member
      exact absurd (find?_eq_none.mp found _ member) (by simp)
  | some ent =>
    obtain ⟨k, v⟩ := ent
    obtain rfl : k = key := by simpa using find?_some found
    have member := mem_flatMap.mpr
      ⟨_, mem_range.mpr inside, mem_of_find?_eq_some found⟩
    rw [(represents.lookup k v).mpr member]
    rfl

theorem LlHash.Represents.set {new : Option V}
    (rest : List (String × V)) (filled : 0 < ht'.nbuckets)
    (placed : ChainsPlaced ht'.nbuckets ht'.buckets)
    (before : ht.entries.Perm ((map key).toList.map (key, ·) ++ rest))
    (after : ht'.entries.Perm (new.toList.map (key, ·) ++ rest))
    (count : ht'.nentries = new.toList.length + rest.length) :
    ht'.Represents (update map key new) := by
  have distinct := (before.map Prod.fst).nodup_iff.mp represents.distinct
  rw [map_append, nodup_append] at distinct
  have off : ∀ v, (key, v) ∉ rest := by
    intro v member
    have stored := (represents.lookup key v).mpr
      (before.mem_iff.mpr (mem_append_right _ member))
    refine distinct.2.2 key ?_ key (List.mem_map.mpr ⟨_, member, rfl⟩) rfl
    simp [stored]
  refine ⟨filled, placed, (after.map Prod.fst).nodup_iff.mpr ?_, fun k v => ?_, ?_⟩
  · rw [map_append, nodup_append]
    refine ⟨by cases new <;> simp, distinct.2.1, fun k first other second same => ?_⟩
    obtain ⟨⟨_, v⟩, member, rfl⟩ := List.mem_map.mp second
    obtain rfl : k = key := by
      cases new <;> simp at first
      exact first
    exact off v (same ▸ member)
  · rw [after.mem_iff, mem_append]
    by_cases same : k = key
    · subst same
      simp [off v]
    · rw [update_of_ne same, represents.lookup, before.mem_iff, mem_append]
      simp [Ne.symm same]
  · rw [count, after.length_eq]
    simp

theorem LlHash.Represents.split (stored : map key = some value) :
    ∃ a c, ht.buckets (llBucketIndex key ht.nbuckets) = a ++ (key, value) :: c ∧
      ∀ ent ∈ a, ¬ ent.1 = key := by
  have found := represents.find_eq key
  rw [stored] at found
  obtain ⟨_, a, c, chain, first⟩ := find?_eq_some_iff_append.mp found
  exact ⟨a, c, chain, by simpa using first⟩

/-- The entry of a stored key is given another value, or taken out of its chain. -/
theorem LlHash.Represents.replace {a c : List (String × V)}
    (stored : map key = some value)
    (chain : ht.buckets (llBucketIndex key ht.nbuckets) = a ++ (key, value) :: c)
    (new : Option V) :
    LlHash.Represents
      { ht with
        buckets := update ht.buckets (llBucketIndex key ht.nbuckets)
          (a ++ (new.toList.map (key, ·) ++ c))
        nentries := new.toList.length + (ht.nentries - 1) } (update map key new) := by
  have inside := bucketIndex_lt represents.filled key
  have placed := represents.placed (llBucketIndex key ht.nbuckets)
  rw [chain] at placed
  have before := entries_update inside ht.buckets (a ++ (key, value) :: c)
  rw [← chain, update_eq_self, chain, append_assoc] at before
  have first := before.trans perm_middle
  refine represents.set (a ++ (c ++ ((List.range ht.nbuckets).erase
    (llBucketIndex key ht.nbuckets)).flatMap ht.buckets)) represents.filled ?_ ?_ ?_ ?_
  · refine represents.placed.replace fun ent member => ?_
    simp only [mem_append, List.mem_map] at member
    rcases member with earlier | ⟨v, _, rfl⟩ | later
    · exact placed ent (by simp [earlier])
    · rfl
    · exact placed ent (by simp [later])
  · rw [stored]
    exact first
  · refine (entries_update inside ht.buckets _).trans ?_
    simp only [append_assoc]
    exact perm_append_comm_assoc ..
  · rw [represents.count, LlHash.entries, first.length_eq]
    rfl

theorem LlHash.Represents.insert (key : String) (value : V) (allowUpdate : Bool) :
    (llHashInsert ht key value allowUpdate).1.Represents
        (mapStep map (.insert key value allowUpdate)).1 ∧
      .status (llHashInsert ht key value allowUpdate).2 =
        (mapStep map (.insert key value allowUpdate)).2 := by
  have grown := represents.maybeGrow
  simp only [llHashInsert, mapStep, grown.find_eq, isSome_map]
  cases stored : map key with
  | none =>
    refine ⟨grown.set _ grown.filled (grown.placed.insertFront _) ?_
      (entries_insertFront grown.filled _ _) ?_, rfl⟩
    · rw [stored]
      exact .refl _
    · rw [toList_some, length_singleton, Nat.add_comm]
      exact congrArg _ grown.count
  | some old =>
    cases allowUpdate with
    | false => exact ⟨grown, rfl⟩
    | true =>
      obtain ⟨a, c, chain, first⟩ := grown.split stored
      have some_ : 0 < (llHashMaybeGrow ht).nentries := by
        rw [grown.count]
        exact length_pos_of_mem ((grown.lookup key old).mp stored)
      have replaced := grown.replace stored chain (some value)
      rw [toList_some, length_singleton, Nat.add_sub_cancel' some_] at replaced
      simp only [chain, setValue_append first]
      exact ⟨replaced, rfl⟩

theorem LlHash.Represents.remove (key : String) :
    (llHashRemove ht key).1.Represents (mapStep map (.remove key)).1 ∧
      .value (llHashRemove ht key).2 = (mapStep map (.remove key)).2 := by
  simp only [llHashRemove, mapStep, represents.find_eq]
  cases stored : map key with
  | none =>
    have same : update map key none = map := by rw [← stored, update_eq_self]
    exact ⟨by rw [same]; exact represents, rfl⟩
  | some old =>
    obtain ⟨a, c, chain, first⟩ := represents.split stored
    have removed := represents.replace stored chain none
    rw [toList_none, length_nil, Nat.zero_add] at removed
    simp only [chain, map_some, eraseP_append first]
    exact ⟨removed, trivial⟩

theorem LlHash.Represents.step (op : HashOp V) :
    (hashStep ht op).1.Represents (mapStep map op).1 ∧ (hashStep ht op).2 = (mapStep map op).2 := by
  cases op with
  | insert key value allowUpdate => exact represents.insert key value allowUpdate
  | remove key => exact represents.remove key
  | search key =>
    refine ⟨represents, congrArg HashResult.value ?_⟩
    rw [llHashSearch, represents.find_eq, Option.map_map]
    exact Option.map_id'
  | contains key =>
    refine ⟨represents, congrArg HashResult.flag ?_⟩
    rw [llHashContains, represents.find_eq, isSome_map]

theorem LlHash.Represents.run (ops : List (HashOp V)) :
    (runOps hashStep ht ops).1.Represents (runOps mapStep map ops).1 ∧
      (runOps hashStep ht ops).2 = (runOps mapStep map ops).2 := by
  induction ops generalizing ht map with
  | nil => exact ⟨represents, rfl⟩
  | cons op ops ih =>
    obtain ⟨next, answer⟩ := represents.step op
    obtain ⟨last, answers⟩ := ih next
    exact ⟨last, congrArg₂ List.cons answer answers⟩

theorem LlHash.Represents.count_eq : ht.nentries = {k | (map k).isSome}.ncard := by
  have keys : {k | (map k).isSome} = ((ht.entries.map Prod.fst).toFinset : Set String) := by
    ext k
    simp [isSome_iff_exists, represents.lookup]
  rw [keys, Set.ncard_coe_finset, toFinset_card_of_nodup represents.distinct, length_map]
  exact represents.count

end Represents

theorem represents_empty (initialBuckets : Nat) :
    (llHashInit initialBuckets : LlHash V).Represents fun _ => none := by
  have empty : (llHashInit initialBuckets : LlHash V).entries = [] :=
    flatMap_eq_nil_iff.mpr fun _ _ => rfl
  refine ⟨llNextPrime_pos _, fun _ _ => nofun, ?_, fun k v => ?_, ?_⟩
  · rw [empty]
    exact nodup_nil
  · rw [empty]
    exact ⟨nofun, nofun⟩
  · rw [empty]
    rfl

/-- What remains to be returned when the next call looks at the chain and then at bucket `b`. -/
theorem yields_of_skip (ht : LlHash V) (left : Nat) (chain : List (String × V)) (it : HashIter V)
    (sum : b + left = ht.nbuckets) (next : llHashIterNext ht it = iterSkip ht ⟨b, chain⟩) :
    Yields ht it (chain ++ (List.range' b left).flatMap ht.buckets) := by
  -- Outside over the buckets that are left, inside over the chain that is being read.
  induction left generalizing b chain it with
  | zero =>
    induction chain generalizing it with
    | nil =>
      refine .done (next.trans ?_)
      rw [iterSkip]
      exact if_pos sum.ge
    | cons ent chain ih => exact .more (next.trans (by rw [iterSkip])) (ih ⟨b, ent :: chain⟩ rfl)
  | succ left outer =>
    induction chain generalizing it with
    | nil =>
      refine outer (ht.buckets b) it (by omega) (next.trans ?_)
      rw [iterSkip]
      exact if_neg (show ¬ ht.nbuckets ≤ b by omega)
    | cons ent chain ih => exact .more (next.trans (by rw [iterSkip])) (ih ⟨b, ent :: chain⟩ rfl)

theorem hash_refines_map (initialBuckets : Nat) (ops : List (HashOp V)) :
    (runOps hashStep (llHashInit initialBuckets) ops).2 = (runOps mapStep (fun _ => none) ops).2 ∧
      (runOps hashStep (llHashInit initialBuckets) ops).1.nentries =
        {k | ((runOps mapStep (fun _ => none) ops).1 k).isSome}.ncard ∧
      ∃ l, Yields (runOps hashStep (llHashInit initialBuckets) ops).1 ⟨0, []⟩ l ∧
        (l.map Prod.fst).Nodup ∧
          ∀ k v, (k, v) ∈ l ↔ (runOps mapStep (fun _ => none) ops).1 k = some v := by
  obtain ⟨represents, answers⟩ := (represents_empty initialBuckets).run ops
  refine ⟨answers, represents.count_eq, _, ?_, represents.distinct,
    fun k v => (represents.lookup k v).symm⟩
  have yields := yields_of_skip (runOps hashStep (llHashInit initialBuckets) ops).1 _ [] ⟨0, []⟩
    (Nat.zero_add _) rfl
  rwa [nil_append, ← range_eq_range'] at yields

end LavaLite.Base
