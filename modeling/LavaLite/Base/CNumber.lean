import Mathlib.Data.List.Forall2
import LavaLite.Base.CText
import Mathlib.Data.List.TakeWhile

/-
Reading text: `fgets` with a buffer of a fixed size, the conversions of `sscanf`, and the
texts that the number readers of the C library take.
-/

namespace LavaLite.Base

open List Option

section

/-! ### Lines -/

/-- The characters `fgets` stores when the buffer has room for `room`, and the rest of the file. -/
def takeLine : Nat → List Char → List Char × List Char
  | 0, file => ([], file)
  | _ + 1, [] => ([], [])
  | room + 1, c :: file =>
    if c = '\n' then ([c], file)
    else
      let (line, rest) := takeLine room file
      (c :: line, rest)

/-- `fgets(line, size, fp)`; `none` is `NULL` at the end of the file. -/
def fgets (size : Nat) (file : List Char) : Option (List Char × List Char) :=
  if file.isEmpty then none else some (takeLine (size - 1) file)

theorem takeLine_append (room : Nat) (file : List Char) :
    (takeLine room file).1 ++ (takeLine room file).2 = file := by
  induction room generalizing file with
  | zero => rfl
  | succ room ih =>
    cases file with
    | nil => rfl
    | cons c file =>
      rw [takeLine]
      split
      · rfl
      · exact congrArg (c :: ·) (ih file)

variable {room : Nat} {body s : List Char} {c : Char}

theorem takeLine_line (rest : List Char) (plain : '\n' ∉ body) (fits : body.length < room) :
    takeLine room (body ++ '\n' :: rest) = (body ++ ['\n'], rest) := by
  induction body generalizing room with
  | nil =>
    cases room with
    | zero => exact absurd fits (Nat.not_lt_zero _)
    | succ room => simp [takeLine]
  | cons c body ih =>
    have other := ne_of_not_mem_cons plain
    have plain := not_mem_of_not_mem_cons plain
    cases room with
    | zero => exact absurd fits (Nat.not_lt_zero _)
    | succ room =>
      have shorter : body.length < room := Nat.lt_of_succ_lt_succ fits
      rw [cons_append, takeLine, if_neg (Ne.symm other), ih plain shorter]
      rfl

theorem takeLine_full (rest : List Char) (plain : '\n' ∉ body) (long : room ≤ body.length) :
    takeLine room (body ++ rest) = (body.take room, body.drop room ++ rest) := by
  induction body generalizing room with
  | nil =>
    cases Nat.le_zero.mp long
    rfl
  | cons c body ih =>
    have other := ne_of_not_mem_cons plain
    have plain := not_mem_of_not_mem_cons plain
    cases room with
    | zero => rfl
    | succ room =>
      have longer : room ≤ body.length := Nat.le_of_succ_le_succ long
      rw [cons_append, takeLine, if_neg (Ne.symm other), ih plain longer]
      rfl

theorem length_takeLine_lt {file : List Char} (filled : file ≠ []) (some_ : 0 < room) :
    (takeLine room file).2.length < file.length := by
  have whole := congrArg List.length (takeLine_append room file)
  rw [length_append] at whole
  have taken : 0 < (takeLine room file).1.length := by
    cases room with
    | zero => exact absurd some_ (Nat.lt_irrefl 0)
    | succ room =>
      cases file with
      | nil => exact absurd rfl filled
      | cons c file =>
        rw [takeLine]
        split <;> exact Nat.succ_pos _
  omega

theorem length_takeLine_le (room : Nat) (file : List Char) :
    (takeLine room file).1.length ≤ room := by
  induction room generalizing file with
  | zero => exact Nat.le_refl 0
  | succ room ih =>
    cases file with
    | nil => exact Nat.zero_le _
    | cons c file =>
      rw [takeLine]
      split
      · exact Nat.succ_le_succ (Nat.zero_le room)
      · exact Nat.succ_le_succ (ih file)

theorem length_takeLine_append_lt {front rest : List Char} (plain : '\n' ∉ front)
    (fits : front.length < room) (filled : rest ≠ []) :
    (takeLine room (front ++ rest)).2.length < rest.length := by
  induction front generalizing room with
  | nil => exact length_takeLine_lt filled fits
  | cons c front ih =>
    have other := ne_of_not_mem_cons plain
    have plain := not_mem_of_not_mem_cons plain
    cases room with
    | zero => exact absurd fits (Nat.not_lt_zero _)
    | succ room =>
      rw [cons_append, takeLine, if_neg (Ne.symm other)]
      exact ih plain (Nat.lt_of_succ_lt_succ fits)

/-! ### Numbers -/

/-- The integer conversions `%d`, `%u`, `%ld` and `%lu`. -/
inductive NumKind where
  | int
  | uint
  | long
  | ulong
  deriving DecidableEq, Repr

/-- `strtoul` on a number that was read: out of range gives `ULONG_MAX`, a sign wraps around. -/
def clampUlong (v : Int) : Int :=
  if v.natAbs < u64Modulus then v % u64Modulus else u64Modulus - 1

def NumKind.store : NumKind → Int → Int
  | .int, v => toInt32 (clampLong v).1
  | .uint, v => clampUlong v % 4294967296
  | .long, v => (clampLong v).1
  | .ulong, v => clampUlong v

/-- The values of the C type a conversion is used for. -/
def NumKind.Fits : NumKind → Int → Prop
  | .int, v => intMin ≤ v ∧ v ≤ intMax
  | .uint, v => 0 ≤ v ∧ v < 4294967296
  | .long, v => -9223372036854775808 ≤ v ∧ v ≤ 9223372036854775807
  | .ulong, v => 0 ≤ v ∧ v < u64Modulus

instance NumKind.decidableFits (k : NumKind) (v : Int) : Decidable (k.Fits v) := by
  cases k <;> exact instDecidableAnd

theorem NumKind.store_of_fits {k : NumKind} {v : Int} (fits : k.Fits v) : k.store v = v := by
  cases k with
  | int =>
    obtain ⟨lower, upper⟩ := fits
    have inLong : (clampLong v).1 = v := by
      unfold intMin at lower
      unfold intMax at upper
      unfold clampLong
      rw [if_neg (by omega), if_neg (by omega)]
    rw [store, inLong, toInt32_of_fits lower upper]
  | uint =>
    obtain ⟨lower, upper⟩ := fits
    have small : v.natAbs < u64Modulus := by
      unfold u64Modulus
      omega
    rw [store, clampUlong, if_pos small]
    unfold u64Modulus
    omega
  | long =>
    obtain ⟨lower, upper⟩ := fits
    rw [store, clampLong, if_neg (by omega), if_neg (by omega)]
  | ulong =>
    obtain ⟨lower, upper⟩ := fits
    have small : v.natAbs < u64Modulus := by omega
    rw [store, clampUlong, if_pos small]
    exact Int.emod_eq_of_lt lower upper

def scanDigits (s : List Char) : Option (Nat × List Char) :=
  match s with
  | [] => none
  | c :: _ => if c.isDigit then some (digitsValue 0 s) else none

def scanSign : List Char → Int × List Char
  | '-' :: digits => (-1, digits)
  | '+' :: digits => (1, digits)
  | digits => (1, digits)

/-- The number an integer conversion reads after white space, and what follows it. -/
def scanInteger (s : List Char) : Option (Int × List Char) :=
  let (sign, digits) := scanSign (skipWs s)
  (scanDigits digits).map fun (v, rest) => (sign * v, rest)

/-- A row of integer conversions; `none` when one of them fails. -/
def scanNumbers : List NumKind → List Char → Option (List Int × List Char)
  | [], s => some ([], s)
  | k :: kinds, s => do
      let (v, s) ← scanInteger s
      let (vs, s) ← scanNumbers kinds s
      some (k.store v :: vs, s)

/-- A row of numbers as `fprintf` prints them, each behind a blank. -/
def writeNumbers (vs : List Int) : List Char :=
  vs.flatMap fun v => ' ' :: decimalDigits v

def NoDigit (s : List Char) : Prop :=
  ∀ c ∈ s.head?, c.isDigit = false

theorem digitsValue_stop (stops : NoDigit s) (n : Nat) : digitsValue n s = (n, s) := by
  cases s with
  | nil => rfl
  | cons c s =>
    have notDigit : ¬ c.isDigit = true := by simp [stops c rfl]
    rw [digitsValue, if_neg notDigit]

theorem scanDigits_natDigits (n : Nat) (stops : NoDigit s) :
    scanDigits (natDigits (n + 1) n ++ s) = some (n, s) := by
  have value := digitsValue_natDigits (Nat.lt_succ_self n) s
  have filled := natDigits_ne_nil n n
  have digit : ∀ c ∈ natDigits (n + 1) n, c.isDigit = true := fun c => natDigits_isDigit
  cases text : natDigits (n + 1) n with
  | nil => exact absurd text filled
  | cons c rest =>
    rw [text] at value digit
    rw [cons_append] at value ⊢
    rw [scanDigits, if_pos (digit c mem_cons_self), value, digitsValue_stop stops]

theorem isSpace_of_isDigit (digit : c.isDigit = true) : isSpace c = false := by
  have range : 48 ≤ c.toNat ∧ c.toNat ≤ 57 := by
    simpa [Char.isDigit, UInt32.le_iff_toNat_le] using digit
  have other : ∀ d : Char, d.toNat < 48 → c ≠ d := by
    rintro d below rfl
    omega
  simp only [isSpace, Bool.or_eq_false_iff, decide_eq_false_iff_not]
  refine ⟨⟨⟨⟨⟨?_, ?_⟩, ?_⟩, ?_⟩, by omega⟩, by omega⟩ <;> exact other _ (by decide)

theorem scanSign_digit (digit : c.isDigit = true) : scanSign (c :: s) = (1, c :: s) := by
  unfold scanSign
  split
  · next same =>
    rw [(List.cons.inj same).1] at digit
    exact absurd digit (by decide)
  · next same =>
    rw [(List.cons.inj same).1] at digit
    exact absurd digit (by decide)
  · rfl

theorem skipWs_of_not_space (visible : isSpace c = false) : skipWs (c :: s) = c :: s :=
  dropWhile_cons_of_neg (by simp [visible])

theorem scanInteger_decimal (v : Int) (stops : NoDigit s) :
    scanInteger (' ' :: decimalDigits v ++ s) = some (v, s) := by
  have value := scanDigits_natDigits v.natAbs stops
  have blank : skipWs (' ' :: decimalDigits v ++ s) = skipWs (decimalDigits v ++ s) :=
    dropWhile_cons_of_pos (by decide)
  rw [scanInteger, blank]
  by_cases negative : v < 0
  · rw [decimalDigits, if_pos negative, cons_append, skipWs_of_not_space (by decide), scanSign]
    simp only [value, Option.map_some]
    congr 2
    omega
  · rw [decimalDigits, if_neg negative]
    have digit : ∀ c ∈ natDigits (v.natAbs + 1) v.natAbs, c.isDigit = true :=
      fun c => natDigits_isDigit
    cases text : natDigits (v.natAbs + 1) v.natAbs with
    | nil => exact absurd text (natDigits_ne_nil _ _)
    | cons c rest =>
      rw [text] at value digit
      have isDigit := digit c mem_cons_self
      rw [cons_append] at value ⊢
      rw [skipWs_of_not_space (isSpace_of_isDigit isDigit), scanSign_digit isDigit]
      simp only [value, Option.map_some]
      congr 2
      omega

theorem noDigit_writeNumbers (vs : List Int) (stops : NoDigit s) :
    NoDigit (writeNumbers vs ++ s) := by
  cases vs with
  | nil => exact stops
  | cons v vs =>
    intro c isFirst
    have blank : ' ' = c := by simpa [writeNumbers] using isFirst
    subst blank
    decide

theorem scanNumbers_writeNumbers (stops : NoDigit s) : ∀ {kinds : List NumKind}
    {vs : List Int}, List.Forall₂ NumKind.Fits kinds vs →
      scanNumbers kinds (writeNumbers vs ++ s) = some (vs, s) := by
  intro kinds vs fit
  induction fit with
  | nil => rfl
  | @cons k v kinds vs fits _ ih =>
    have split : writeNumbers (v :: vs) ++ s = ' ' :: decimalDigits v ++ (writeNumbers vs ++ s) := by
      simp [writeNumbers]
    rw [split, scanNumbers, scanInteger_decimal v (noDigit_writeNumbers vs stops)]
    simp only [Option.bind_eq_bind, Option.bind_some, ih]
    rw [NumKind.store_of_fits fits]

end

/-! ### `strtol` -/

def AllBlank (s : List Char) : Prop :=
  ∀ c ∈ s, isSpace c = true

def IsDigits (s : List Char) : Prop :=
  s ≠ [] ∧ ∀ c ∈ s, c.isDigit = true

def digitsNat (s : List Char) : Nat :=
  (digitsValue 0 s).1

/-- An optional sign and digits, with the number they write. -/
inductive IsInteger : List Char → Int → Prop where
  | plain {d : List Char} (digits : IsDigits d) : IsInteger d (digitsNat d)
  | plus {d : List Char} (digits : IsDigits d) : IsInteger ('+' :: d) (digitsNat d)
  | minus {d : List Char} (digits : IsDigits d) : IsInteger ('-' :: d) (-(digitsNat d : Int))

/-! ### White space -/

variable {b s rest d : List Char} {c : Char} {n v : Int} {range : Bool}

theorem skipWs_append (blank : AllBlank b) (s : List Char) : skipWs (b ++ s) = skipWs s := by
  induction b with
  | nil => rfl
  | cons c b ih =>
    have first : isSpace c = true := blank c mem_cons_self
    rw [cons_append, skipWs, dropWhile_cons_of_pos first]
    exact ih fun d member => blank d (mem_cons_of_mem c member)

theorem exists_blank (s : List Char) : ∃ b, AllBlank b ∧ s = b ++ skipWs s := by
  refine ⟨s.takeWhile isSpace, ?_, (takeWhile_append_dropWhile).symm⟩
  intro c member
  exact mem_takeWhile_imp member

theorem head_skipWs (same : skipWs s = c :: rest) : isSpace c = false := by
  have filled : s.dropWhile isSpace ≠ [] := by
    change skipWs s ≠ []
    rw [same]
    exact cons_ne_nil _ _
  have first := head_dropWhile_not isSpace filled
  have isHead : (s.dropWhile isSpace).head filled = c := by
    have same : s.dropWhile isSpace = c :: rest := same
    simp only [same, head_cons]
  rw [isHead] at first
  simpa using first

@[simp] theorem skipWs_skipWs (s : List Char) : skipWs (skipWs s) = skipWs s := by
  cases same : skipWs s with
  | nil => rfl
  | cons c rest => exact skipWs_of_not_space (head_skipWs same)

theorem length_skipWs_le (s : List Char) : (skipWs s).length ≤ s.length :=
  (dropWhile_suffix _).length_le

/-! ### Digits -/

theorem digitsValue_append (digits : ∀ c ∈ d, c.isDigit = true) (acc : Nat) (s : List Char) :
    digitsValue acc (d ++ s) = digitsValue (digitsValue acc d).1 s := by
  induction d generalizing acc with
  | nil => rfl
  | cons c d ih =>
    have first : c.isDigit = true := digits c mem_cons_self
    rw [cons_append, digitsValue, if_pos first, digitsValue, if_pos first]
    exact ih (fun e member => digits e (mem_cons_of_mem c member)) _

theorem digitsValue_split (acc : Nat) (s : List Char) :
    ∃ d, (∀ c ∈ d, c.isDigit = true) ∧ s = d ++ (digitsValue acc s).2 ∧
      NoDigit (digitsValue acc s).2 := by
  induction s generalizing acc with
  | nil => exact ⟨[], forall_mem_nil _, rfl, fun _ member => by cases member⟩
  | cons c s ih =>
    rw [digitsValue]
    split
    next first =>
      obtain ⟨d, digits, same, stops⟩ := ih (acc * 10 + (c.toNat - '0'.toNat))
      refine ⟨c :: d, forall_mem_cons.mpr ⟨first, digits⟩, ?_, stops⟩
      rw [cons_append, ← same]
    next other =>
      refine ⟨[], forall_mem_nil _, rfl, ?_⟩
      intro e isFirst
      cases isFirst
      simpa using other

theorem scanDigits_iff {n : Nat} : scanDigits s = some (n, rest) ↔
      ∃ d, IsDigits d ∧ s = d ++ rest ∧ NoDigit rest ∧ n = digitsNat d := by
  constructor
  · intro scanned
    cases s with
    | nil => cases scanned
    | cons c s =>
      unfold scanDigits at scanned
      dsimp only at scanned
      split at scanned
      next first =>
        obtain ⟨d, digits, same, stops⟩ := digitsValue_split 0 (c :: s)
        have both := Option.some.inj scanned
        have after : (digitsValue 0 (c :: s)).2 = rest := congrArg Prod.snd both
        rw [after] at same stops
        have filled : d ≠ [] := by
          rintro rfl
          rw [nil_append] at same
          have last := stops c (by rw [← same]; rfl)
          rw [first] at last
          cases last
        refine ⟨d, ⟨filled, digits⟩, same, stops, ?_⟩
        have value := congrArg Prod.fst both
        rw [same, digitsValue_append digits, digitsValue_stop stops] at value
        exact value.symm
      next => cases scanned
  · rintro ⟨d, ⟨filled, digits⟩, rfl, stops, rfl⟩
    cases d with
    | nil => exact absurd rfl filled
    | cons c d =>
      rw [cons_append, scanDigits, if_pos (digits c mem_cons_self), ← cons_append,
        digitsValue_append digits, digitsValue_stop stops]
      rfl

/-! ### Signed numbers -/

theorem IsDigits.visible (digits : IsDigits d) (s : List Char) : skipWs (d ++ s) = d ++ s := by
  obtain ⟨filled, all⟩ := digits
  cases d with
  | nil => exact absurd rfl filled
  | cons c d =>
    exact skipWs_of_not_space (isSpace_of_isDigit (all c mem_cons_self))

theorem IsDigits.scanSign (digits : IsDigits d) (s : List Char) :
    scanSign (d ++ s) = (1, d ++ s) := by
  obtain ⟨filled, all⟩ := digits
  cases d with
  | nil => exact absurd rfl filled
  | cons c d => exact scanSign_digit (all c mem_cons_self)

theorem scanSign_cases (s : List Char) :
    (∃ d, s = '-' :: d ∧ scanSign s = (-1, d)) ∨ (∃ d, s = '+' :: d ∧ scanSign s = (1, d)) ∨
      ((∀ d, s ≠ '-' :: d) ∧ (∀ d, s ≠ '+' :: d) ∧ scanSign s = (1, s)) := by
  unfold scanSign
  split
  next d => exact .inl ⟨d, rfl, rfl⟩
  next d => exact .inr (.inl ⟨d, rfl, rfl⟩)
  next minus plus => exact .inr (.inr ⟨minus, plus, rfl⟩)

theorem scanInteger_of_sign {u : List Char} {sign : Int}
    (begins : scanSign (skipWs s) = (sign, u)) :
    scanInteger s = (scanDigits u).map fun p => (sign * p.1, p.2) := by
  rw [scanInteger, begins]

theorem scanInteger_iff : scanInteger s = some (n, rest) ↔
      ∃ b t, AllBlank b ∧ IsInteger t n ∧ s = b ++ (t ++ rest) ∧ NoDigit rest := by
  constructor
  · intro scanned
    obtain ⟨b, blank, split⟩ := exists_blank s
    -- whatever the sign, digits follow it
    have digits : ∀ {sign u}, scanSign (skipWs s) = (sign, u) →
        ∃ d, IsDigits d ∧ u = d ++ rest ∧ NoDigit rest ∧ n = sign * digitsNat d := by
      intro sign u begins
      rw [scanInteger_of_sign begins] at scanned
      obtain ⟨⟨v, after⟩, read, result⟩ := map_eq_some_iff.mp scanned
      obtain ⟨d, isDigits, text, stops, value⟩ := scanDigits_iff.mp read
      cases result
      exact ⟨d, isDigits, text, stops, by rw [value]⟩
    rcases scanSign_cases (skipWs s) with ⟨u, begins, sign⟩ | ⟨u, begins, sign⟩ | ⟨_, _, sign⟩
    · obtain ⟨d, isDigits, text, stops, value⟩ := digits sign
      rw [Int.neg_one_mul] at value
      exact ⟨b, '-' :: d, blank, value ▸ .minus isDigits, by rw [split, begins, text]; rfl, stops⟩
    · obtain ⟨d, isDigits, text, stops, value⟩ := digits sign
      rw [Int.one_mul] at value
      exact ⟨b, '+' :: d, blank, value ▸ .plus isDigits, by rw [split, begins, text]; rfl, stops⟩
    · obtain ⟨d, isDigits, text, stops, value⟩ := digits sign
      rw [Int.one_mul] at value
      exact ⟨b, d, blank, value ▸ .plain isDigits, by rw [← text]; exact split, stops⟩
  · rintro ⟨b, t, blank, isInteger, rfl, stops⟩
    rw [scanInteger, skipWs_append blank]
    cases isInteger with
    | plain digits =>
      have read := scanDigits_iff.mpr ⟨t, digits, rfl, stops, rfl⟩
      rw [digits.visible, digits.scanSign]
      simp only [read, map_some, Int.one_mul]
    | @plus d digits =>
      have read := scanDigits_iff.mpr ⟨d, digits, rfl, stops, rfl⟩
      rw [cons_append, skipWs_of_not_space (by decide), scanSign]
      simp only [read, map_some, Int.one_mul]
    | @minus d digits =>
      have read := scanDigits_iff.mpr ⟨d, digits, rfl, stops, rfl⟩
      rw [cons_append, skipWs_of_not_space (by decide), scanSign]
      simp only [read, map_some, Int.neg_one_mul]

theorem strtol_eq (s : List Char) :
    strtol s = (scanInteger s).map fun p => ((clampLong p.1).1, (clampLong p.1).2, p.2) := by
  -- the reader's inner function is `scanDigits` and the clamping
  have number (sign : Int) (read : List Char → Option (Int × Bool × List Char))
      (none_ : read [] = none)
      (some_ : ∀ c digits, read (c :: digits) =
        if c.isDigit then
          let value := digitsValue 0 (c :: digits)
          let clamped := clampLong (sign * value.1)
          some (clamped.1, clamped.2, value.2)
        else none) (digits : List Char) :
      read digits = ((scanDigits digits).map fun p => (sign * (p.1 : Int), p.2)).map fun p =>
        ((clampLong p.1).1, (clampLong p.1).2, p.2) := by
    cases digits with
    | nil => exact none_
    | cons c digits =>
      rw [some_]
      dsimp only [scanDigits]
      by_cases first : c.isDigit = true
      · rw [if_pos first, if_pos first]
        rfl
      · rw [if_neg first, if_neg first]
        rfl
  unfold strtol
  rcases scanSign_cases (skipWs s) with ⟨u, begins, sign⟩ | ⟨u, begins, sign⟩ | ⟨noMinus, noPlus, sign⟩
  · rw [scanInteger_of_sign sign, begins]
    exact number (-1) (fun u => strtol ('-' :: u)) rfl (fun _ _ => rfl) u
  · rw [scanInteger_of_sign sign, begins]
    exact number 1 (fun u => strtol ('+' :: u)) rfl (fun _ _ => rfl) u
  · rw [scanInteger_of_sign sign]
    split
    next d same => exact absurd same (noMinus d)
    next d same => exact absurd same (noPlus d)
    next => exact number 1 (fun u => strtol ('+' :: u)) rfl (fun _ _ => rfl) (skipWs s)

theorem strtol_iff : strtol s = some (v, range, rest) ↔
      ∃ b t n, AllBlank b ∧ IsInteger t n ∧ s = b ++ (t ++ rest) ∧ NoDigit rest ∧
        clampLong n = (v, range) := by
  rw [strtol_eq, map_eq_some_iff]
  constructor
  · rintro ⟨⟨n, after⟩, scanned, result⟩
    obtain ⟨b, t, blank, isInteger, text, stops⟩ := scanInteger_iff.mp scanned
    cases result
    exact ⟨b, t, n, blank, isInteger, text, stops, rfl⟩
  · rintro ⟨b, t, n, blank, isInteger, text, stops, clamped⟩
    refine ⟨(n, rest), scanInteger_iff.mpr ⟨b, t, blank, isInteger, text, stops⟩, ?_⟩
    rw [clamped]

theorem strtol_skipWs (s : List Char) : strtol (skipWs s) = strtol s := by
  rw [strtol_eq, strtol_eq, scanInteger, scanInteger, skipWs_skipWs]

theorem strtol_decimal (v : Int) (stops : NoDigit rest) :
    strtol (decimalDigits v ++ rest) = some ((clampLong v).1, (clampLong v).2, rest) := by
  have blank : skipWs (' ' :: decimalDigits v ++ rest) = skipWs (decimalDigits v ++ rest) :=
    dropWhile_cons_of_pos (by decide)
  rw [← strtol_skipWs, ← blank, strtol_skipWs, strtol_eq, scanInteger_decimal v stops]
  rfl

/-- `atol`, and `strtoll` where the end is not asked for. -/
def atol (s : List Char) : Int :=
  match strtol s with
  | some (v, _, _) => v
  | none => 0

theorem atol_decimal (lower : -9223372036854775808 ≤ v) (upper : v ≤ 9223372036854775807) :
    atol (decimalDigits v) = v := by
  have read : strtol (decimalDigits v ++ []) = _ := strtol_decimal v nofun
  rw [append_nil, clampLong, if_neg (Int.not_lt.mpr upper), if_neg (Int.not_lt.mpr lower)]
    at read
  rw [atol, read]

theorem llAtoi_of_isInteger {value : List Char} (number : IsInteger value n) :
    llAtoi value = if intMin ≤ n ∧ n ≤ intMax then some n else none := by
  have nothing : NoDigit [] := nofun
  have read : strtol value = some ((clampLong n).1, (clampLong n).2, []) :=
    strtol_iff.mpr ⟨[], value, n, forall_mem_nil _, number, by simp, nothing, rfl⟩
  rw [llAtoi, read]
  unfold clampLong intMin intMax
  split_ifs <;> simp [skipWs] <;> omega

theorem length_strtol (read : strtol s = some (v, range, rest)) : rest.length ≤ s.length := by
  obtain ⟨b, t, n, _, _, text, _⟩ := strtol_iff.mp read
  rw [text, length_append, length_append]
  omega

end LavaLite.Base
