import LavaLite.Base.CText
import LavaLite.Kernel.Links
import LavaLite.Kernel.Sorting

/-
The intrusive lists of the base library.  The links of all entries are part of the
state, whatever they hold, and a list is the two ends and a count.
-/

namespace LavaLite.Base

open Kernel Function List

structure LlList (E : Type*) where
  next : E → Option E
  prev : E → Option E
  head : Option E
  tail : Option E
  count : Int

variable {E : Type*} [DecidableEq E]

def llListInit (lst : LlList E) : LlList E :=
  { lst with head := none, tail := none, count := 0 }

/-- The result `none` is the overflow of the count. -/
def llListAppend (lst : LlList E) (ent : E) : Option (LlList E) :=
  let next := update lst.next ent none
  let prev := update lst.prev ent lst.tail
  -- `if (lst->tail) lst->tail->next = ent; else lst->head = ent;`
  let linked := redirect next lst.head lst.tail (some ent)
  if lst.count = intMax then none
  else some ⟨linked.1, prev, linked.2, some ent, lst.count + 1⟩

def llListRemove (lst : LlList E) (ent : E) : Option (LlList E) :=
  let forward := redirect lst.next lst.head (lst.prev ent) (lst.next ent)
  let backward := redirect lst.prev lst.tail (forward.1 ent) (lst.prev ent)
  if lst.count = intMin then none
  else some ⟨update forward.1 ent none, update backward.1 ent none, forward.2,
    backward.2, lst.count - 1⟩

/-- `ll_list_sort_buf` with a buffer of `room` pointers; `none` is an access outside of it. -/
def llListSortBuf (qsort : (E → E → Int) → List E → List E) (lst : LlList E) (room : Nat)
    (cmp : E → E → Int) : Option (LlList E) :=
  if lst.count < 2 then some lst
  else if room < lst.count then none
  else do
    let buf ← collect lst.next lst.count.toNat lst.head
    (qsort cmp buf).foldlM llListAppend (llListInit lst)

inductive ListOp (E : Type*) where
  | append (ent : E)
  | remove (ent : E)
  | sort (room : Nat) (cmp : E → E → Int)

def listStep (qsort : (E → E → Int) → List E → List E) (lst : LlList E) :
    ListOp E → Option (LlList E)
  | .append ent => llListAppend lst ent
  | .remove ent => llListRemove lst ent
  | .sort room cmp => llListSortBuf qsort lst room cmp

/-! ### The sequence a list stands for -/

/-- What an operation makes of a sequence. -/
inductive SequenceStep : List E → ListOp E → List E → Prop where
  | append (l : List E) (ent : E) : SequenceStep l (.append ent) (l ++ [ent])
  | remove {a b : List E} {ent : E} (first : ent ∉ a) :
      SequenceStep (a ++ ent :: b) (.remove ent) (a ++ b)
  | sort {l sorted : List E} {room : Nat} {cmp : E → E → Int} (same : sorted.Perm l)
      (ordered : ConsistentOn cmp l → sorted.Pairwise fun a b => cmp a b ≤ 0) :
      SequenceStep l (.sort room cmp) sorted

inductive SequenceRun : List E → List (ListOp E) → List E → Prop where
  | done (l : List E) : SequenceRun l [] l
  | next {l mid l' : List E} {op : ListOp E} {ops : List (ListOp E)}
      (step : SequenceStep l op mid) (rest : SequenceRun mid ops l') : SequenceRun l (op :: ops) l'

/-- The list stands for the sequence, whichever way its links are followed. -/
structure LlList.Represents (lst : LlList E) (l : List E) : Prop where
  forward : LinkPath lst.next lst.head l none
  backward : LinkPath lst.prev lst.tail l.reverse none
  count : lst.count = l.length
  distinct : l.Nodup

/--
The sequences of operations the interface allows when `present` are the entries on the
list: an entry is appended that is not there, one is removed that is, and a list is sorted
in a buffer that holds it.  No list is longer than an `int` can count.
-/
def Legal : List E → List (ListOp E) → Prop
  | _, [] => True
  | present, .append ent :: ops =>
    ent ∉ present ∧ (present.length : Int) < intMax ∧ Legal (ent :: present) ops
  | present, .remove ent :: ops => ent ∈ present ∧ Legal (present.erase ent) ops
  | present, .sort room _ :: ops => present.length ≤ room ∧ Legal present ops

variable {lst : LlList E} {a b l xs : List E} {ent : E}

omit [DecidableEq E] in
theorem represents_init (lst : LlList E) : (llListInit lst).Represents [] :=
  ⟨rfl, rfl, rfl, nodup_nil⟩

theorem LlList.Represents.append (represents : lst.Represents l) (new : ent ∉ l)
    (short : (l.length : Int) < intMax) :
    ∃ lst', llListAppend lst ent = some lst' ∧ lst'.Represents (l ++ [ent]) := by
  have distinct : (l ++ [ent]).Nodup := by
    rw [← concat_eq_append]
    exact represents.distinct.concat new
  have room : ¬ lst.count = intMax := by
    rw [represents.count]
    exact Int.ne_of_lt short
  refine ⟨_, if_neg room, ?_, ?_, ?_, distinct⟩
  · rw [represents.backward.head_eq, head?_reverse]
    exact linkPath_redirect (represents.forward.update new none) ⟨rfl, by simp [LinkPath]⟩ distinct
  · rw [reverse_append]
    refine ⟨rfl, ?_⟩
    change LinkPath _ (update lst.prev ent lst.tail ent) l.reverse none
    rw [update_self]
    exact represents.backward.update (by simpa using new) _
  · rw [represents.count]
    simp

theorem LlList.Represents.remove (represents : lst.Represents (a ++ ent :: b)) :
    ∃ lst', llListRemove lst ent = some lst' ∧ lst'.Represents (a ++ b) := by
  obtain ⟨forward, backward, count, distinct⟩ := represents
  rw [reverse_append, reverse_cons, append_assoc, singleton_append] at backward
  obtain ⟨_, before, rfl, after⟩ := linkPath_append.mp forward
  obtain ⟨_, behind, rfl, ahead⟩ := linkPath_append.mp backward
  have prevEq : lst.prev ent = a.getLast? := by rw [ahead.head_eq, head?_reverse]
  have nextEq : lst.next ent = b.reverse.getLast? := by rw [after.head_eq, getLast?_reverse]
  obtain ⟨off, apart⟩ := nodup_cons.mp (nodup_middle.mp distinct)
  have offA : ent ∉ a := fun member => off (mem_append_left b member)
  have room : ¬ lst.count = intMin := by
    rw [count, intMin]
    omega
  refine ⟨_, if_neg room, ?_, ?_, ?_, apart⟩
  · rw [prevEq]
    exact (linkPath_redirect before after apart).update off none
  · -- the same the other way round, after the forward links were changed
    rw [prevEq, redirect_off offA, nextEq, ← prevEq, reverse_append]
    refine (linkPath_redirect behind ahead ?_).update ?_ none
    · rw [← reverse_append]
      exact nodup_reverse.mpr apart
    · rw [← reverse_append, mem_reverse]
      exact off
  · rw [count]
    simp only [length_append, length_cons]
    omega

theorem LlList.Represents.appendAll (represents : lst.Represents l) (distinct : (l ++ xs).Nodup)
    (short : ((l ++ xs).length : Int) ≤ intMax) :
    ∃ lst', xs.foldlM llListAppend lst = some lst' ∧ lst'.Represents (l ++ xs) := by
  induction xs generalizing lst l with
  | nil => exact ⟨lst, rfl, by rwa [append_nil]⟩
  | cons ent xs ih =>
    have new : ent ∉ l := fun member =>
      (nodup_append.mp distinct).2.2 ent member ent mem_cons_self rfl
    obtain ⟨mid, appended, represents⟩ := represents.append new (by
      rw [length_append, length_cons] at short
      omega)
    rw [append_cons] at distinct short ⊢
    obtain ⟨lst', rest, represents⟩ := ih represents distinct short
    exact ⟨lst', by rw [foldlM_cons, appended]; exact rest, represents⟩

section Sorted

variable {qsort : (E → E → Int) → List E → List E} {room : Nat}
  (perm : ∀ cmp l, (qsort cmp l).Perm l) (sorts : Sorts qsort)
include perm sorts

theorem LlList.Represents.sort (cmp : E → E → Int) (represents : lst.Represents l)
    (short : (l.length : Int) ≤ intMax) (fits : l.length ≤ room) :
    ∃ lst' sorted, llListSortBuf qsort lst room cmp = some lst' ∧
      SequenceStep l (.sort room cmp) sorted ∧ lst'.Represents sorted := by
  unfold llListSortBuf
  rw [represents.count]
  by_cases few : (l.length : Int) < 2
  · refine ⟨lst, l, if_pos few, .sort (.refl l) fun _ => ?_, represents⟩
    cases l with
    | nil => exact .nil
    | cons x rest =>
      have alone : rest = [] := by
        rw [← length_eq_zero_iff]
        rw [length_cons] at few
        omega
      rw [alone]
      exact pairwise_singleton _ x
  · have same := perm cmp l
    obtain ⟨lst', appended, sorted⟩ := (represents_init lst).appendAll
      (same.nodup_iff.mpr represents.distinct) (by rwa [nil_append, same.length_eq])
    refine ⟨lst', qsort cmp l, ?_, .sort same (sorts cmp l), sorted⟩
    rw [if_neg few, if_neg (by omega), Int.toNat_natCast, represents.forward.collect_eq]
    exact appended

theorem LlList.Represents.step {op : ListOp E} {ops : List (ListOp E)} {present : List E}
    (represents : lst.Represents l) (same : present.Perm l)
    (short : (present.length : Int) ≤ intMax) (legal : Legal present (op :: ops)) :
    ∃ lst' l' present', listStep qsort lst op = some lst' ∧ SequenceStep l op l' ∧
      lst'.Represents l' ∧ present'.Perm l' ∧ (present'.length : Int) ≤ intMax ∧
        Legal present' ops := by
  cases op with
  | append ent =>
    obtain ⟨new, room, later⟩ := legal
    have off : ent ∉ l := fun member => new (same.mem_iff.mpr member)
    obtain ⟨lst', appended, now⟩ := represents.append off (same.length_eq ▸ room)
    refine ⟨lst', _, _, appended, .append l ent, now, ?_, ?_, later⟩
    · exact (same.cons ent).trans (perm_append_singleton ent l).symm
    · rw [length_cons]
      exact room
  | remove ent =>
    obtain ⟨member, later⟩ := legal
    obtain ⟨a, b, rfl⟩ := append_of_mem (same.mem_iff.mp member)
    obtain ⟨lst', removed, now⟩ := represents.remove
    have first : ent ∉ a := fun earlier =>
      (nodup_append.mp represents.distinct).2.2 ent earlier ent mem_cons_self rfl
    refine ⟨lst', _, _, removed, .remove first, now, ?_, ?_, later⟩
    · have erased := same.erase ent
      rwa [erase_append_right _ first, erase_cons_head] at erased
    · exact Int.le_trans (Int.ofNat_le.mpr length_erase_le) short
  | sort room cmp =>
    obtain ⟨fits, later⟩ := legal
    rw [same.length_eq] at fits
    obtain ⟨lst', sorted, done, ordered, now⟩ :=
      represents.sort perm sorts cmp (same.length_eq ▸ short) fits
    refine ⟨lst', sorted, present, done, ordered, now, ?_, short, later⟩
    cases ordered with
    | sort kept _ => exact same.trans kept.symm

theorem listRun_represents {ops : List (ListOp E)} {present : List E}
    (represents : lst.Represents l) (same : present.Perm l)
    (short : (present.length : Int) ≤ intMax) (legal : Legal present ops) :
    ∃ lst' l', ops.foldlM (listStep qsort) lst = some lst' ∧ SequenceRun l ops l' ∧
      lst'.Represents l' := by
  induction ops generalizing lst l present with
  | nil => exact ⟨lst, l, rfl, .done l, represents⟩
  | cons op ops ih =>
    obtain ⟨mid, l₁, present₁, stepped, specified, represents, same, short, legal⟩ :=
      represents.step perm sorts same short legal
    obtain ⟨lst', l', rest, run, represents⟩ := ih represents same short legal
    refine ⟨lst', l', ?_, .next specified run, represents⟩
    rw [foldlM_cons, stepped]
    exact rest

end Sorted

theorem sequence_refined {qsort : (E → E → Int) → List E → List E}
    (perm : ∀ cmp l, (qsort cmp l).Perm l) (sorts : Sorts qsort) (memory : LlList E)
    {ops : List (ListOp E)} (legal : Legal [] ops) :
    ∃ lst l, ops.foldlM (listStep qsort) (llListInit memory) = some lst ∧ SequenceRun [] ops l ∧
      lst.Represents l :=
  listRun_represents perm sorts (represents_init memory) .rfl (by simp [intMax]) legal

/-- Two entries are appended, sorted and one of them removed. -/
theorem sequence_refined_pair :
    ∃ lst l, [.append 2, .append 1, .sort 2 fun a b => a - b, .remove 2].foldlM
        (listStep fun cmp l => l.insertionSort fun a b => cmp a b ≤ 0)
        (llListInit ⟨fun _ => none, fun _ => none, none, none, 0⟩) = some lst ∧
      SequenceRun [] [.append 2, .append 1, .sort 2 fun a b => a - b, .remove (2 : Int)] l ∧
        lst.Represents l :=
  sequence_refined (fun _ => perm_insertionSort _) sorts_insertionSort _
    (by simp [Legal, intMax])

theorem append_overflows {n : Nat} (full : (n : Int) = intMax) (memory : LlList Nat)
    (qsort : (Nat → Nat → Int) → List Nat → List Nat) :
    ((List.range (n + 1)).map ListOp.append).foldlM (listStep qsort) (llListInit memory) =
      none := by
  have distinct : ([] ++ List.range n).Nodup := nodup_range
  obtain ⟨lst, appended, represents⟩ :=
    (represents_init memory).appendAll distinct (by simpa using Int.le_of_eq full)
  have counted : lst.count = intMax := by
    rw [represents.count, ← full]
    simp
  have before : ((List.range n).map ListOp.append).foldlM (listStep qsort) (llListInit memory) =
      some lst := by
    rw [foldlM_map]
    exact appended
  rw [range_succ, map_append, foldlM_append, before]
  change llListAppend lst n >>= _ = none
  rw [llListAppend, if_pos counted]
  rfl

/-- The count of a list cannot tell the number of more entries than an `int` does. -/
theorem long_list_overflows :
    ((List.range 2147483648).map ListOp.append).foldlM (listStep fun _ l => l)
      (llListInit ⟨fun _ => none, fun _ => none, none, none, 0⟩) = none :=
  append_overflows (by rfl : ((2147483647 : Nat) : Int) = intMax) _ _

end LavaLite.Base
