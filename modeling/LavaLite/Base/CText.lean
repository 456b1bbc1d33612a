import Mathlib.Algebra.GroupWithZero.Nat
import Mathlib.Algebra.Ring.Int.Defs

/-
The string helpers the daemons call, as functions on character lists.  A C string is the list
of its bytes before the terminating zero; a buffer of `size` bytes holds `size - 1` of them.
-/

namespace LavaLite.Base

open List

/-- The signed 32-bit range of C `int`. -/
def intMax : Int := 2147483647

def intMin : Int := -2147483648

/-- The conversion `(int32_t) v` of a wider integer. -/
def toInt32 (v : Int) : Int :=
  (v + 2147483648) % 4294967296 - 2147483648

variable {v : Int} {a b size d fuel n : Nat} {sep c : Char} {isSep : Char → Bool}

theorem toInt32_of_fits (lower : intMin ≤ v) (upper : v ≤ intMax) : toInt32 v = v := by
  unfold intMin at lower
  unfold intMax at upper
  unfold toInt32
  omega

def u64Modulus : Nat := 18446744073709551616

def addU64 (a b : Nat) : Nat :=
  (a + b) % u64Modulus

def subU64 (a b : Nat) : Nat :=
  (a + (u64Modulus - b % u64Modulus)) % u64Modulus

theorem addU64_eq_add (fits : a + b < u64Modulus) : addU64 a b = a + b :=
  Nat.mod_eq_of_lt fits

theorem subU64_eq_sub (enough : b ≤ a) (fits : a < u64Modulus) : subU64 a b = a - b := by
  unfold subU64 u64Modulus at *
  omega

/-- `ll_strlcpy(dst, src, size)`: what `dst` holds afterwards. -/
def strlcpy (size : Nat) (src : String) : String :=
  String.ofList (src.toList.take (size - 1))

/-- `ll_strlcat(dst, src, size)`: what `dst` holds afterwards. -/
def strlcat (size : Nat) (dst src : String) : String :=
  String.ofList ((dst.toList ++ src.toList).take (size - 1))

theorem strlcpy_of_fits {src : String} (fits : src.toList.length < size) :
    strlcpy size src = src := by
  have whole : src.toList.take (size - 1) = src.toList :=
    take_of_length_le (by omega)
  rw [strlcpy, whole, String.ofList_toList]

theorem strlcpy_strlcpy (a b : Nat) (src : String) :
    strlcpy a (strlcpy b src) = strlcpy (min a b) src := by
  have least : min (a - 1) (b - 1) = min a b - 1 := by omega
  rw [strlcpy, strlcpy, strlcpy, String.toList_ofList, take_take, least]

theorem length_strlcpy_lt (src : String) (positive : 0 < size) :
    (strlcpy size src).toList.length < size := by
  rw [strlcpy, String.toList_ofList, length_take]
  omega

/-- `isspace` in the C locale. -/
def isSpace (c : Char) : Bool :=
  c = ' ' || c = '\t' || c = '\n' || c = '\r' || c.toNat = 11 || c.toNat = 12

def skipWs (s : List Char) : List Char :=
  s.dropWhile isSpace

/-- One pass of `strtok` over the whole text: `current` is the token being read. -/
def strtokAux (isSep : Char → Bool) : List Char → List Char → List (List Char)
  | current, [] => if current.isEmpty then [] else [current.reverse]
  | current, c :: rest =>
    if isSep c then
      if current.isEmpty then strtokAux isSep [] rest
      else current.reverse :: strtokAux isSep [] rest
    else strtokAux isSep (c :: current) rest

/-- The tokens a `strtok` loop with the separators of `isSep` goes through. -/
def strtok (isSep : Char → Bool) (s : String) : List String :=
  (strtokAux isSep [] s.toList).map String.ofList

@[simp] theorem strtok_empty (isSep : Char → Bool) : strtok isSep "" = [] :=
  rfl

/-- The value of a run of decimal digits, on top of what was already read. -/
def digitsValue (acc : Nat) : List Char → Nat × List Char
  | [] => (acc, [])
  | c :: rest =>
    if c.isDigit then digitsValue (acc * 10 + (c.toNat - '0'.toNat)) rest
    else (acc, c :: rest)

/-- Clamp to the range of a 64-bit `long`; the flag is `errno == ERANGE`. -/
def clampLong (v : Int) : Int × Bool :=
  if 9223372036854775807 < v then (9223372036854775807, true)
  else if v < -9223372036854775808 then (-9223372036854775808, true)
  else (v, false)

/--
`strtol(s, &end, 10)`: the value, whether it was out of range, and the text
from `end` on; `none` when no digit was read (`end == s`).
-/
def strtol (s : List Char) : Option (Int × Bool × List Char) :=
  let number (sign : Int) (digits : List Char) :=
    match digits with
    | [] => none
    | c :: _ =>
      if c.isDigit then
        let (value, rest) := digitsValue 0 digits
        let (clamped, range) := clampLong (sign * value)
        some (clamped, range, rest)
      else none
  match skipWs s with
  | '-' :: digits => number (-1) digits
  | '+' :: digits => number 1 digits
  | digits => number 1 digits

/--
`ll_atoi(s, &out)`: the integer stored in `out` when the call returns 1, and
`none` when it returns 0 and leaves `out` untouched.
-/
def llAtoi (s : List Char) : Option Int :=
  match strtol s with
  | none => none
  | some (v, range, rest) =>
    if (skipWs rest).isEmpty && !range && decide (intMin ≤ v) && decide (v ≤ intMax) then
      some v
    else none

def digitChar (d : Nat) : Char :=
  Char.ofNat ('0'.toNat + d)

def natDigits : Nat → Nat → List Char
  | 0, _ => []
  | fuel + 1, n =>
    if n < 10 then [digitChar n] else natDigits fuel (n / 10) ++ [digitChar (n % 10)]

/-- What `%d` prints. -/
def decimalDigits (v : Int) : List Char :=
  if v < 0 then '-' :: natDigits (v.natAbs + 1) v.natAbs else natDigits (v.natAbs + 1) v.natAbs

def decimalText (v : Int) : String :=
  String.ofList (decimalDigits v)

/-! ### Up to a separator -/

theorem takeWhile_separator {front : List Char} (fresh : sep ∉ front) (behind : List Char) :
    (front ++ sep :: behind).takeWhile (· ≠ sep) = front := by
  rw [takeWhile_append_of_pos, takeWhile_cons_of_neg (by simp), append_nil]
  exact fun c member => decide_eq_true fun same => fresh (same ▸ member)

theorem drop_separator (sep : Char) (front behind : List Char) :
    (front ++ sep :: behind).drop (front.length + 1) = behind := by
  rw [← drop_drop, drop_left]
  rfl

/-! ### Decimal text -/

theorem digitChar_spec (small : d < 10) :
    (digitChar d).isDigit = true ∧ (digitChar d).toNat - '0'.toNat = d := by
  have each : ∀ d : Fin 10, (digitChar d).isDigit = true ∧
      (digitChar d).toNat - '0'.toNat = d := by decide
  exact each ⟨d, small⟩

theorem digitsValue_natDigits (below : n < fuel) :
    ∀ rest : List Char, digitsValue 0 (natDigits fuel n ++ rest) = digitsValue n rest := by
  induction fuel generalizing n with
  | zero => exact absurd below (Nat.not_lt_zero _)
  | succ fuel ih =>
    intro rest
    rw [natDigits]
    split
    · next small =>
      obtain ⟨isDigit, value⟩ := digitChar_spec small
      rw [singleton_append, digitsValue, if_pos isDigit, value, Nat.zero_mul, Nat.zero_add]
    · next large =>
      obtain ⟨isDigit, value⟩ := digitChar_spec (Nat.mod_lt n (by decide : 0 < 10))
      have fewer : n / 10 < fuel := by omega
      rw [append_assoc, ih fewer, singleton_append, digitsValue, if_pos isDigit, value]
      congr 1
      omega

theorem natDigits_isDigit (member : c ∈ natDigits fuel n) : c.isDigit = true := by
  induction fuel generalizing n c with
  | zero => exact absurd member not_mem_nil
  | succ fuel ih =>
    rw [natDigits] at member
    split at member
    · next small =>
      rw [mem_singleton.mp member]
      exact (digitChar_spec small).1
    · rcases mem_append.mp member with earlier | last
      · exact ih earlier
      · rw [mem_singleton.mp last]
        exact (digitChar_spec (Nat.mod_lt n (by decide))).1

theorem natDigits_ne_nil (fuel n : Nat) : natDigits (fuel + 1) n ≠ [] := by
  rw [natDigits]
  split
  · exact cons_ne_nil _ _
  · exact append_ne_nil_of_right_ne_nil _ (cons_ne_nil _ _)

theorem length_natDigits_le (small : n < 10 ^ d) (positive : 0 < d) :
    (natDigits fuel n).length ≤ d := by
  induction fuel generalizing n d with
  | zero => exact Nat.zero_le d
  | succ fuel ih =>
    rw [natDigits]
    split
    · exact positive
    · next large =>
      cases d with
      | zero => exact absurd positive (Nat.lt_irrefl 0)
      | succ d =>
        have tenth : n / 10 < 10 ^ d := Nat.div_lt_of_lt_mul (Nat.pow_succ' ▸ small)
        have more : 0 < d := by
          apply Nat.pos_of_ne_zero
          rintro rfl
          omega
        rw [length_append, length_singleton]
        exact Nat.succ_le_succ (ih tenth more)

theorem natDigits_injective (same : natDigits (a + 1) a = natDigits (b + 1) b) : a = b := by
  have left := digitsValue_natDigits (Nat.lt_succ_self a) []
  have right := digitsValue_natDigits (Nat.lt_succ_self b) []
  rw [same, right] at left
  exact (congrArg Prod.fst left).symm

theorem decimalDigits_ne_nil (v : Int) : decimalDigits v ≠ [] := by
  unfold decimalDigits
  split
  · exact cons_ne_nil _ _
  · exact natDigits_ne_nil _ _

theorem mem_decimalDigits (member : c ∈ decimalDigits v) : c = '-' ∨ c.isDigit = true := by
  unfold decimalDigits at member
  split at member
  · rcases mem_cons.mp member with sign | digit
    · exact .inl sign
    · exact .inr (natDigits_isDigit digit)
  · exact .inr (natDigits_isDigit member)

theorem decimalDigits_injective {a b : Int} (same : decimalDigits a = decimalDigits b) : a = b := by
  -- a minus sign is not a digit, so the two numbers have the same sign
  have signed : ∀ {n : Nat} {l : List Char}, natDigits (n + 1) n ≠ '-' :: l := by
    intro n l same
    have isDigit : ('-' : Char).isDigit = true :=
      natDigits_isDigit (same ▸ mem_cons_self)
    exact absurd isDigit (by decide)
  unfold decimalDigits at same
  split at same
  · split at same
    · have abs := natDigits_injective (List.cons.inj same).2
      omega
    · exact absurd same.symm signed
  · split at same
    · exact absurd same signed
    · have abs := natDigits_injective same
      omega

theorem decimalText_injective {a b : Int} (same : decimalText a = decimalText b) : a = b :=
  decimalDigits_injective (String.ofList_injective same)

/-! ### Joined and split text -/

theorem strtokAux_token {token : List Char} (plain : ∀ c ∈ token, isSep c = false)
    (current rest : List Char) :
    strtokAux isSep current (token ++ rest) = strtokAux isSep (token.reverse ++ current) rest := by
  induction token generalizing current with
  | nil => rfl
  | cons c token ih =>
    have notSep : ¬ isSep c = true := by simp [plain c mem_cons_self]
    rw [cons_append, strtokAux, if_neg notSep,
      ih (fun d member => plain d (mem_cons_of_mem c member))]
    simp

theorem strtokAux_intercalate (separates : isSep sep = true) {tokens : List (List Char)}
    (proper : ∀ t ∈ tokens, t ≠ [] ∧ ∀ c ∈ t, isSep c = false) :
    strtokAux isSep [] ([sep].intercalate tokens) = tokens := by
  induction tokens with
  | nil => rfl
  | cons t rest ih =>
    obtain ⟨nonempty, plain⟩ := proper t mem_cons_self
    have tail := ih fun u member => proper u (mem_cons_of_mem t member)
    have filled : (t.reverse ++ []).isEmpty = false := by simpa using nonempty
    cases rest with
    | nil =>
      have alone := strtokAux_token plain [] []
      rw [append_nil] at alone
      rw [intercalate_singleton, alone, strtokAux, filled]
      simp
    | cons u more =>
      rw [intercalate_cons_cons, append_assoc, strtokAux_token plain,
        singleton_append, strtokAux, if_pos separates, filled, tail]
      simp

end LavaLite.Base
