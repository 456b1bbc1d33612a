import LavaLite.Base.CNumber

/-
Dependency expressions: the recursive-descent parser that turns
`done(3) && !(exit(4) || ended(5))` into a postfix list, and the evaluator with
its fixed stack.
-/

namespace LavaLite.Batch

open Base List

inductive DepType where
  | done
  | exit
  | ended
  | and
  | or
  | not
  deriving DecidableEq, Repr

/-- One node of a parsed expression; `jobId` is read only for the conditions. -/
structure JobDep where
  type : DepType
  jobId : Int
  deriving DecidableEq, Repr

def JobDep.isCondition (d : JobDep) : Bool :=
  d.type = .done || d.type = .exit || d.type = .ended

/-- The two error codes of `dep_parse`. -/
inductive DepParseError where
  | syntactic
  | unknownJob
  deriving DecidableEq, Repr

/-- The productions of the grammar; the `Rest` ones are the two `while` loops. -/
inductive DepGoal where
  | expr
  | exprRest
  | term
  | termRest
  | factor
  deriving DecidableEq, Repr

def stripKeyword : List Char → List Char → Option (List Char)
  | [], s => some s
  | k :: keyword, c :: s => if k = c then stripKeyword keyword s else none
  | _ :: _, [] => none

/-- The keyword of `parse_funccall`, tried in the source's order. -/
def parseKeyword (s : List Char) : Option (DepType × List Char) :=
  match stripKeyword ['d', 'o', 'n', 'e'] s with
  | some rest => some (.done, rest)
  | none =>
    match stripKeyword ['e', 'x', 'i', 't'] s with
    | some rest => some (.exit, rest)
    | none =>
      match stripKeyword ['e', 'n', 'd', 'e', 'd'] s with
      | some rest => some (.ended, rest)
      | none => none

def expectChar (c : Char) (s : List Char) : Except DepParseError (List Char) :=
  match skipWs s with
  | d :: rest => if c = d then .ok rest else .error .syntactic
  | [] => .error .syntactic

/-- The text of `NAME ( NUMBER )`, before the job id is resolved. -/
def parseCall (s : List Char) : Except DepParseError (JobDep × List Char) :=
  match parseKeyword s with
  | none => .error .syntactic
  | some (type, rest) => do
      let rest ← expectChar '(' rest
      match strtol (skipWs rest) with
      | none => .error .syntactic
      | some (jobId, _, rest) => do
          let rest ← expectChar ')' rest
          .ok ({ type := type, jobId := jobId }, rest)

/--
`parse_funccall`; `resolve` is `none` when existence of the job is not checked.
-/
def parseFunccall (resolve : Option (Int → Bool)) (s : List Char) :
    Except DepParseError (List JobDep × List Char) := do
  let (dep, rest) ← parseCall s
  match resolve with
  | some known => if known dep.jobId then .ok ([dep], rest) else .error .unknownJob
  | none => .ok ([dep], rest)

/--
The mutually recursive productions as one function; every production costs one
unit of `fuel`, and the result is the emitted postfix list with the rest of the
text.
-/
def parseDep (resolve : Option (Int → Bool)) :
    Nat → DepGoal → List Char → Except DepParseError (List JobDep × List Char)
  | 0, _, _ => .error .syntactic
  | fuel + 1, .expr, s => do
      let (first, s) ← parseDep resolve fuel .term s
      let (rest, s) ← parseDep resolve fuel .exprRest (skipWs s)
      .ok (first ++ rest, s)
  | fuel + 1, .exprRest, s =>
    match s with
    | '|' :: '|' :: s => do
        let (next, s) ← parseDep resolve fuel .term s
        let (rest, s) ← parseDep resolve fuel .exprRest (skipWs s)
        .ok (next ++ { type := .or, jobId := 0 } :: rest, s)
    | s => .ok ([], s)
  | fuel + 1, .term, s => do
      let (first, s) ← parseDep resolve fuel .factor s
      let (rest, s) ← parseDep resolve fuel .termRest (skipWs s)
      .ok (first ++ rest, s)
  | fuel + 1, .termRest, s =>
    match s with
    | '&' :: '&' :: s => do
        let (next, s) ← parseDep resolve fuel .factor s
        let (rest, s) ← parseDep resolve fuel .termRest (skipWs s)
        .ok (next ++ { type := .and, jobId := 0 } :: rest, s)
    | s => .ok ([], s)
  | fuel + 1, .factor, s =>
    match skipWs s with
    | '!' :: s => do
        let (operand, s) ← parseDep resolve fuel .factor s
        .ok (operand ++ [{ type := .not, jobId := 0 }], s)
    | '(' :: s => do
        let (inner, s) ← parseDep resolve fuel .expr s
        let s ← expectChar ')' s
        .ok (inner, s)
    | s => parseFunccall resolve s

/-- The whole text must be consumed. -/
def depParse (resolve : Option (Int → Bool)) (text : String) :
    Except DepParseError (List JobDep) := do
  let s := text.toList
  let (deps, rest) ← parseDep resolve (4 * s.length + 4) .expr s
  if (skipWs rest).isEmpty then .ok deps else .error .syntactic

def depMaxStack : Nat := 16

/--
One step of `dep_list_eval` on the stack (top first); `none` is an access
outside the array.
-/
def depEvalStep (check : DepType → Int → Bool) (stack : List Bool) (d : JobDep) :
    Option (List Bool) :=
  match d.type with
  | .and =>
    match stack with
    | b :: a :: rest => some ((a && b) :: rest)
    | _ => none
  | .or =>
    match stack with
    | b :: a :: rest => some ((a || b) :: rest)
    | _ => none
  | .not =>
    match stack with
    | a :: rest => some ((!a) :: rest)
    | _ => none
  | condition =>
    if stack.length < depMaxStack then some (check condition d.jobId :: stack)
    else none

def depListEval (check : DepType → Int → Bool) (deps : List JobDep) : Option Bool := do
  let stack ← deps.foldlM (depEvalStep check) []
  stack.head?

/-! ### Calls -/

theorem bind_eq_ok_iff {α β : Type} {a : Except DepParseError α} {f : α → Except DepParseError β}
    {result : β} : (a >>= f) = .ok result ↔ ∃ x, a = .ok x ∧ f x = .ok result := by
  cases a with
  | error e =>
    constructor
    · nofun
    · nofun
  | ok x =>
    constructor
    · exact fun returned => ⟨x, rfl, returned⟩
    · rintro ⟨_, ⟨⟩, returned⟩
      exact returned

def Accepts (resolve : Option (Int → Bool)) (jobId : Int) : Prop :=
  ∀ known ∈ resolve, known jobId = true

variable {resolve : Option (Int → Bool)} {s s₁ rest : List Char} {deps more : List JobDep}
  {goal : DepGoal} {n a b : Nat} {text : String} {known : Int → Bool}

theorem parseFunccall_iff :
    parseFunccall resolve s = .ok (deps, rest) ↔
      ∃ type opened inner jobId range after, parseKeyword s = some (type, opened) ∧
        expectChar '(' opened = .ok inner ∧ strtol (skipWs inner) = some (jobId, range, after) ∧
        expectChar ')' after = .ok rest ∧ Accepts resolve jobId ∧
        deps = [{ type := type, jobId := jobId }] := by
  constructor
  · intro parsed
    unfold parseFunccall parseCall at parsed
    cases keyword : parseKeyword s with
    | none => simp [keyword, bind, Except.bind] at parsed
    | some found =>
      obtain ⟨type, opened⟩ := found
      cases paren : expectChar '(' opened with
      | error e => simp [keyword, paren, bind, Except.bind] at parsed
      | ok inner =>
        cases number : strtol (skipWs inner) with
        | none => simp [keyword, paren, number, bind, Except.bind] at parsed
        | some found =>
          obtain ⟨jobId, range, after⟩ := found
          cases closed : expectChar ')' after with
          | error e => simp [keyword, paren, number, closed, bind, Except.bind] at parsed
          | ok last =>
            simp only [keyword, paren, number, closed, bind, Except.bind] at parsed
            cases resolve with
            | none =>
              cases parsed
              exact ⟨type, opened, inner, jobId, range, after, rfl, paren, number, closed,
                nofun, rfl⟩
            | some known =>
              dsimp only at parsed
              split at parsed
              next found =>
                cases parsed
                refine ⟨type, opened, inner, jobId, range, after, rfl, paren, number,
                  closed, ?_, rfl⟩
                intro other member
                cases member
                exact found
              next => cases parsed
  · rintro ⟨type, opened, inner, jobId, range, after, keyword, paren, number, closed, accepts, rfl⟩
    unfold parseFunccall parseCall
    simp only [keyword, paren, number, closed, bind, Except.bind]
    cases resolve with
    | none => rfl
    | some known =>
      dsimp only
      rw [if_pos (accepts known rfl)]

theorem length_stripKeyword {keyword : List Char} (stripped : stripKeyword keyword s = some rest) :
    rest.length ≤ s.length := by
  induction keyword generalizing s with
  | nil =>
    cases stripped
    exact Nat.le_refl _
  | cons k keyword ih =>
    cases s with
    | nil => cases stripped
    | cons c s =>
      rw [stripKeyword] at stripped
      split at stripped
      · exact Nat.le_succ_of_le (ih stripped)
      · cases stripped

theorem length_parseKeyword {type : DepType} (parsed : parseKeyword s = some (type, rest)) :
    rest.length ≤ s.length := by
  unfold parseKeyword at parsed
  split at parsed
  next stripped =>
    cases parsed
    exact length_stripKeyword stripped
  next =>
    split at parsed
    next stripped =>
      cases parsed
      exact length_stripKeyword stripped
    next =>
      split at parsed
      next stripped =>
        cases parsed
        exact length_stripKeyword stripped
      next => cases parsed

theorem length_expectChar {c : Char} (expected : expectChar c s = .ok rest) :
    rest.length ≤ s.length := by
  have shorter := length_skipWs_le s
  unfold expectChar at expected
  split at expected
  next same =>
    rw [same, length_cons] at shorter
    split at expected
    · cases expected
      omega
    · cases expected
  next => cases expected

theorem length_parseFunccall (parsed : parseFunccall resolve s = .ok (deps, rest)) :
    rest.length ≤ s.length := by
  obtain ⟨_, opened, inner, _, _, after, keyword, paren, number, closed, _⟩ :=
    parseFunccall_iff.mp parsed
  calc rest.length ≤ after.length := length_expectChar closed
    _ ≤ (skipWs inner).length := length_strtol number
    _ ≤ inner.length := length_skipWs_le inner
    _ ≤ opened.length := length_expectChar paren
    _ ≤ s.length := length_parseKeyword keyword

/-! ### What the productions read -/

/-- The two operators between operands; `parse_expr` and `parse_term` differ in them only. -/
inductive DepChain where
  | or
  | and

namespace DepChain

def whole : DepChain → DepGoal
  | or => .expr
  | and => .term

def loop : DepChain → DepGoal
  | or => .exprRest
  | and => .termRest

def part : DepChain → DepGoal
  | or => .term
  | and => .factor

def mark : DepChain → Char
  | or => '|'
  | and => '&'

def type : DepChain → DepType
  | or => .or
  | and => .and

end DepChain

theorem DepGoal.byChain {motive : DepGoal → Prop} (goal : DepGoal)
    (whole : ∀ c : DepChain, motive c.whole) (loop : ∀ c : DepChain, motive c.loop)
    (factor : motive .factor) : motive goal := by
  cases goal with
  | expr => exact whole .or
  | exprRest => exact loop .or
  | term => exact whole .and
  | termRest => exact loop .and
  | factor => exact factor

def Stops (op : Char) (s : List Char) : Prop :=
  ∀ rest, s ≠ op :: op :: rest

/-- An operand and the loop after it; `ops` is what the code emits between the two. -/
def parseChain (resolve : Option (Int → Bool)) (fuel : Nat) (c : DepChain) (ops : List JobDep)
    (s : List Char) : Except DepParseError (List JobDep × List Char) := do
  let (front, s) ← parseDep resolve fuel c.part s
  let (more, s) ← parseDep resolve fuel c.loop (skipWs s)
  .ok (front ++ (ops ++ more), s)

variable {fuel : Nat} {c : DepChain} {ops : List JobDep}

theorem parseDep_whole :
    parseDep resolve (fuel + 1) c.whole s = parseChain resolve fuel c [] s := by
  cases c <;> rfl

theorem parseDep_turn : parseDep resolve (fuel + 1) c.loop (c.mark :: c.mark :: s) =
    parseChain resolve fuel c [{ type := c.type, jobId := 0 }] s := by
  cases c <;> rfl

theorem parseDep_stop (stops : Stops c.mark s) :
    parseDep resolve (fuel + 1) c.loop s = .ok ([], s) := by
  cases c with
  | or | and =>
    unfold DepChain.loop parseDep
    split
    next u => exact absurd rfl (stops u)
    next => rfl

theorem parseChain_iff : parseChain resolve fuel c ops s = .ok (deps, rest) ↔
    ∃ front s₁ more, parseDep resolve fuel c.part s = .ok (front, s₁) ∧
      parseDep resolve fuel c.loop (skipWs s₁) = .ok (more, rest) ∧
      deps = front ++ (ops ++ more) := by
  constructor
  · intro parsed
    obtain ⟨⟨front, s₁⟩, one, parsed⟩ := bind_eq_ok_iff.mp parsed
    obtain ⟨⟨more, s₂⟩, two, parsed⟩ := bind_eq_ok_iff.mp parsed
    cases parsed
    exact ⟨front, s₁, more, one, two, rfl⟩
  · rintro ⟨front, s₁, more, one, two, rfl⟩
    exact bind_eq_ok_iff.mpr ⟨_, one, bind_eq_ok_iff.mpr ⟨_, two, rfl⟩⟩

/-- A production reads a part of the text, emits the list and leaves the rest. -/
inductive Reads (resolve : Option (Int → Bool)) :
    DepGoal → List Char → List JobDep → List Char → Prop where
  | whole (c : DepChain) {s s₁ rest : List Char} {front more : List JobDep}
      (operand : Reads resolve c.part s front s₁)
      (others : Reads resolve c.loop (skipWs s₁) more rest) :
      Reads resolve c.whole s (front ++ more) rest
  | turn (c : DepChain) {s s₁ rest : List Char} {front more : List JobDep}
      (operand : Reads resolve c.part s front s₁)
      (others : Reads resolve c.loop (skipWs s₁) more rest) :
      Reads resolve c.loop (c.mark :: c.mark :: s)
        (front ++ { type := c.type, jobId := 0 } :: more) rest
  | stop (c : DepChain) {s : List Char} (stops : Stops c.mark s) : Reads resolve c.loop s [] s
  | not {s u rest : List Char} {deps : List JobDep} (begins : skipWs s = '!' :: u)
      (operand : Reads resolve .factor u deps rest) :
      Reads resolve .factor s (deps ++ [{ type := .not, jobId := 0 }]) rest
  | parens {s u after rest : List Char} {deps : List JobDep} (begins : skipWs s = '(' :: u)
      (inner : Reads resolve .expr u deps after) (closed : expectChar ')' after = .ok rest) :
      Reads resolve .factor s deps rest
  | call {s rest : List Char} {deps : List JobDep} (notBang : ∀ u, skipWs s ≠ '!' :: u)
      (notOpen : ∀ u, skipWs s ≠ '(' :: u)
      (called : parseFunccall resolve (skipWs s) = .ok (deps, rest)) :
      Reads resolve .factor s deps rest

theorem reads_of_parseDep (parsed : parseDep resolve fuel goal s = .ok (deps, rest)) :
    Reads resolve goal s deps rest := by
  induction fuel generalizing goal s deps rest with
  | zero => cases goal <;> cases parsed
  | succ fuel ih =>
    cases goal using DepGoal.byChain with
    | whole c =>
      rw [parseDep_whole] at parsed
      obtain ⟨front, s₁, more, operand, others, rfl⟩ := parseChain_iff.mp parsed
      exact .whole c (ih operand) (ih others)
    | loop c =>
      by_cases goes : ∃ u, s = c.mark :: c.mark :: u
      · obtain ⟨u, rfl⟩ := goes
        rw [parseDep_turn] at parsed
        obtain ⟨front, s₁, more, operand, others, rfl⟩ := parseChain_iff.mp parsed
        exact .turn c (ih operand) (ih others)
      · have stops : Stops c.mark s := fun u same => goes ⟨u, same⟩
        rw [parseDep_stop stops] at parsed
        cases parsed
        exact .stop c stops
    | factor =>
      unfold parseDep at parsed
      split at parsed
      next u begins =>
        obtain ⟨⟨operand, s₁⟩, one, parsed⟩ := bind_eq_ok_iff.mp parsed
        cases parsed
        exact .not begins (ih one)
      next u begins =>
        obtain ⟨⟨inner, s₁⟩, one, parsed⟩ := bind_eq_ok_iff.mp parsed
        obtain ⟨s₂, closed, parsed⟩ := bind_eq_ok_iff.mp parsed
        cases parsed
        exact .parens begins (ih one) closed
      next notBang notOpen => exact .call notBang notOpen parsed

theorem Reads.length (reads : Reads resolve goal s deps rest) : rest.length ≤ s.length := by
  induction reads with
  | whole c _ _ one two => exact Nat.le_trans two (Nat.le_trans (length_skipWs_le _) one)
  | turn c _ _ one two =>
    have shorter := Nat.le_trans two (Nat.le_trans (length_skipWs_le _) one)
    exact Nat.le_succ_of_le (Nat.le_succ_of_le shorter)
  | stop c _ => exact Nat.le_refl _
  | @not s u _ _ begins _ ih =>
    have visible := length_skipWs_le s
    rw [begins, length_cons] at visible
    omega
  | @parens s u _ _ _ begins _ closed ih =>
    have visible := length_skipWs_le s
    have last := length_expectChar closed
    rw [begins, length_cons] at visible
    omega
  | call _ _ called => exact Nat.le_trans (length_parseFunccall called) (length_skipWs_le _)

/-- The productions a text of the given length may have to go through. -/
def fuelFor : DepGoal → Nat → Nat
  | .expr, n => 3 * n + 3
  | .term, n => 3 * n + 2
  | .factor, n => 3 * n + 1
  | .exprRest, n => 3 * n + 1
  | .termRest, n => 3 * n + 1

theorem exists_succ_of_fuelFor {k : Nat} (enough : fuelFor goal k ≤ n) : ∃ m, n = m + 1 := by
  refine ⟨n - 1, ?_⟩
  cases goal <;> simp only [fuelFor] at enough <;> omega

theorem fuelFor_whole (shorter : a ≤ b) (enough : fuelFor c.whole b ≤ n + 1) :
    fuelFor c.part a ≤ n ∧ fuelFor c.loop a ≤ n := by
  cases c <;> simp only [fuelFor, DepChain.whole, DepChain.part, DepChain.loop] at enough ⊢ <;> omega

theorem fuelFor_turn (shorter : a ≤ b) (enough : fuelFor c.loop (b + 2) ≤ n + 1) :
    fuelFor c.part a ≤ n ∧ fuelFor c.loop a ≤ n := by
  apply fuelFor_whole shorter (Nat.le_trans _ enough)
  cases c <;> simp only [fuelFor, DepChain.whole, DepChain.loop] <;> omega

theorem Reads.parseDep_eq (reads : Reads resolve goal s deps rest)
    (enough : fuelFor goal s.length ≤ n) : parseDep resolve n goal s = .ok (deps, rest) := by
  induction reads generalizing n with
  | whole c operand _ one two =>
    obtain ⟨n, rfl⟩ := exists_succ_of_fuelFor enough
    have shorter := Nat.le_trans (length_skipWs_le _) operand.length
    rw [parseDep_whole]
    exact parseChain_iff.mpr ⟨_, _, _, one (fuelFor_whole (Nat.le_refl _) enough).1,
      two (fuelFor_whole shorter enough).2, rfl⟩
  | turn c operand _ one two =>
    obtain ⟨n, rfl⟩ := exists_succ_of_fuelFor enough
    have shorter := Nat.le_trans (length_skipWs_le _) operand.length
    rw [parseDep_turn]
    exact parseChain_iff.mpr ⟨_, _, _, one (fuelFor_turn (Nat.le_refl _) enough).1,
      two (fuelFor_turn shorter enough).2, rfl⟩
  | stop c stops =>
    obtain ⟨n, rfl⟩ := exists_succ_of_fuelFor enough
    exact parseDep_stop stops
  | @not s u _ _ begins _ ih =>
    obtain ⟨n, rfl⟩ := exists_succ_of_fuelFor enough
    have visible := length_skipWs_le s
    rw [begins, length_cons] at visible
    simp only [fuelFor] at enough ih
    unfold parseDep
    rw [begins]
    exact bind_eq_ok_iff.mpr ⟨_, ih (by omega), rfl⟩
  | @parens s u _ _ _ begins _ closed ih =>
    obtain ⟨n, rfl⟩ := exists_succ_of_fuelFor enough
    have visible := length_skipWs_le s
    rw [begins, length_cons] at visible
    simp only [fuelFor] at enough ih
    unfold parseDep
    rw [begins]
    exact bind_eq_ok_iff.mpr ⟨_, ih (by omega), bind_eq_ok_iff.mpr ⟨_, closed, rfl⟩⟩
  | call notBang notOpen called =>
    obtain ⟨n, rfl⟩ := exists_succ_of_fuelFor enough
    unfold parseDep
    split
    next begins => exact absurd begins (notBang _)
    next begins => exact absurd begins (notOpen _)
    next => exact called

theorem depParse_iff_reads : depParse resolve text = .ok deps ↔
    ∃ rest, Reads resolve .expr text.toList deps rest ∧ skipWs rest = [] := by
  constructor
  · intro parsed
    obtain ⟨⟨found, rest⟩, read, parsed⟩ := bind_eq_ok_iff.mp parsed
    dsimp only at parsed
    split at parsed
    next ended =>
      cases parsed
      exact ⟨rest, reads_of_parseDep read, List.isEmpty_iff.mp ended⟩
    next => cases parsed
  · rintro ⟨rest, reads, ended⟩
    have enough : fuelFor .expr text.toList.length ≤ 4 * text.toList.length + 4 := by
      simp only [fuelFor]
      omega
    refine bind_eq_ok_iff.mpr ⟨_, reads.parseDep_eq enough, ?_⟩
    dsimp only
    rw [ended]
    rfl

/-! ### The resolver -/

theorem Reads.forget (reads : Reads resolve goal s deps rest) : Reads none goal s deps rest := by
  induction reads with
  | whole c _ _ one two => exact .whole c one two
  | turn c _ _ one two => exact .turn c one two
  | stop c stops => exact .stop c stops
  | not begins _ ih => exact .not begins ih
  | parens begins _ closed ih => exact .parens begins ih closed
  | call notBang notOpen called =>
    obtain ⟨_, _, _, _, _, _, keyword, paren, number, closed, _, same⟩ :=
      parseFunccall_iff.mp called
    exact .call notBang notOpen
      (parseFunccall_iff.mpr ⟨_, _, _, _, _, _, keyword, paren, number, closed, nofun, same⟩)

theorem depParse_forget (parsed : depParse resolve text = .ok deps) :
    depParse none text = .ok deps := by
  obtain ⟨rest, reads, ended⟩ := depParse_iff_reads.mp parsed
  exact depParse_iff_reads.mpr ⟨rest, reads.forget, ended⟩

def Resolved (known : Int → Bool) (deps : List JobDep) : Prop :=
  ∀ d ∈ deps, d.isCondition = true → known d.jobId = true

theorem Resolved.append {first : List JobDep} (one : Resolved known first)
    (two : Resolved known more) : Resolved known (first ++ more) := by
  intro d member
  rcases mem_append.mp member with inFirst | inRest
  · exact one d inFirst
  · exact two d inRest

theorem Resolved.cons_operator {type : DepType} (operator : JobDep.isCondition ⟨type, 0⟩ = false)
    (two : Resolved known more) : Resolved known (⟨type, 0⟩ :: more) := by
  intro d member condition
  rcases mem_cons.mp member with same | inRest
  · rw [same, operator] at condition
    cases condition
  · exact two d inRest condition

theorem Reads.resolved (reads : Reads (some known) goal s deps rest) : Resolved known deps := by
  induction reads with
  | whole c _ _ one two => exact one.append two
  | turn c _ _ one two =>
    refine one.append (Resolved.cons_operator ?_ two)
    cases c <;> rfl
  | stop => exact forall_mem_nil _
  | not _ _ ih => exact ih.append (Resolved.cons_operator rfl (forall_mem_nil _))
  | parens _ _ _ ih => exact ih
  | call _ _ called =>
    obtain ⟨_, _, _, _, _, _, _, _, _, _, accepts, rfl⟩ := parseFunccall_iff.mp called
    intro d member _
    rw [mem_singleton.mp member]
    exact accepts known rfl

theorem depParse_resolved (parsed : depParse (some known) text = .ok deps) :
    Resolved known deps := by
  obtain ⟨_, reads, _⟩ := depParse_iff_reads.mp parsed
  exact reads.resolved

end LavaLite.Batch
