import Mathlib.Data.List.Basic
import Mathlib.Logic.Function.Basic

/-
Shell text without expansions.  The lexer follows the quoting rules of the POSIX shell:
words, single and double quotes, backslashes, comments and the ends of commands.  It has
no result where an unquoted or double-quoted character asks for an expansion, a
redirection or a compound command, so what it does read is read by those rules alone.
-/

namespace LavaLite.Kernel.Shell

open Function List Option

/-- The characters of a word before quote removal, each with whether it is quoted. -/
abbrev Word := List (Char × Bool)

inductive Token where
  | word (w : Word)
  | semicolon
  | newline
  deriving DecidableEq, Repr

inductive Mode where
  | plain
  | escaped
  | single
  | double
  | doubleEscaped
  | comment
  deriving DecidableEq, Repr

/-- Outside of quotes these stand for an expansion, an operator or a pattern. -/
def isSpecial (c : Char) : Bool :=
  c ∈ ['$', '\x60', '&', '|', '<', '>', '(', ')', '*', '?', '[', '~']

def isOrdinary (c : Char) : Bool :=
  !isSpecial c && c ∉ ['\'', '"', '\\', '\n', ';', ' ', '\t']

def endWord (word : Option Word) (rest : Option (List Token)) : Option (List Token) :=
  match word with
  | none => rest
  | some w => rest.map (.word w :: ·)

/-- The tokens of a text, in a mode and with the word that was begun. -/
def lex : Mode → Option Word → List Char → Option (List Token)
  | .plain, word, [] => endWord word (some [])
  | .comment, _, [] => some []
  | _, _, [] => none
  | .plain, word, c :: rest =>
    if c = '\'' then lex .single (some (word.getD [])) rest
    else if c = '"' then lex .double (some (word.getD [])) rest
    else if c = '\\' then lex .escaped word rest
    else if c = '\n' then endWord word ((lex .plain none rest).map (.newline :: ·))
    else if c = ';' then endWord word ((lex .plain none rest).map (.semicolon :: ·))
    else if c = ' ' ∨ c = '\t' then endWord word (lex .plain none rest)
    else if c = '#' ∧ word = none then lex .comment none rest
    else if isSpecial c then none
    else lex .plain (some (word.getD [] ++ [(c, false)])) rest
  | .escaped, word, c :: rest =>
    -- an escaped newline is removed
    if c = '\n' then lex .plain word rest
    else lex .plain (some (word.getD [] ++ [(c, true)])) rest
  | .single, word, c :: rest =>
    if c = '\'' then lex .plain word rest
    else lex .single (some (word.getD [] ++ [(c, true)])) rest
  | .double, word, c :: rest =>
    if c = '"' then lex .plain word rest
    else if c = '\\' then lex .doubleEscaped word rest
    else if c = '$' ∨ c = '\x60' then none
    else lex .double (some (word.getD [] ++ [(c, true)])) rest
  | .doubleEscaped, word, c :: rest =>
    if c = '\n' then lex .double word rest
    else if c = '$' ∨ c = '\x60' ∨ c = '"' ∨ c = '\\' then
      lex .double (some (word.getD [] ++ [(c, true)])) rest
    else lex .double (some (word.getD [] ++ [('\\', true), (c, true)])) rest
  | .comment, _, c :: rest =>
    if c = '\n' then (lex .plain none rest).map (.newline :: ·) else lex .comment none rest

def isNameStart (c : Char) : Bool :=
  (decide ('A' ≤ c) && decide (c ≤ 'Z')) || (decide ('a' ≤ c) && decide (c ≤ 'z')) || c == '_'

def isNameChar (c : Char) : Bool :=
  isNameStart c || (decide ('0' ≤ c) && decide (c ≤ '9'))

def isName : List Char → Bool
  | [] => false
  | c :: rest => isNameStart c && rest.all isNameChar

/-- The name and the value of a word that assigns; neither name nor sign is quoted. -/
def assignment (w : Word) : Option (List Char × List Char) :=
  let front := w.takeWhile fun p => p ≠ ('=', false)
  if front.all (fun p => !p.2) && isName (front.map Prod.fst) && front.length < w.length then
    some (front.map Prod.fst, (w.drop (front.length + 1)).map Prod.fst)
  else none

/-- What a simple command does: assignments alone, or a command with its arguments. -/
inductive Command where
  | assign (name value : List Char)
  | run (assignments : List (List Char × List Char)) (words : List (List Char))
  deriving DecidableEq, Repr

/-- Words that begin a compound command when they are not quoted. -/
def reserved : List String :=
  ["if", "then", "else", "elif", "fi", "do", "done", "case", "esac", "while", "until", "for",
    "in", "\x7b", "\x7d", "!"]

def isReserved (w : Word) : Bool :=
  w.all (fun p => !p.2) && reserved.contains (String.ofList (w.map Prod.fst))

def simpleCommand (words : List Word) : Option (List Command) :=
  let assigning := words.takeWhile fun w => (assignment w).isSome
  let assigned := assigning.filterMap assignment
  match words.drop assigning.length with
  | [] => some (assigned.map fun p => .assign p.1 p.2)
  | w :: rest =>
    if isReserved w then none
    else some [.run assigned ((w :: rest).map fun w => w.map Prod.fst)]

def commands : List Word → List Token → Option (List Command)
  | words, [] => if words = [] then some [] else simpleCommand words
  | words, .word w :: rest => commands (words ++ [w]) rest
  | words, .semicolon :: rest =>
    if words = [] then none
    else (simpleCommand words).bind fun first => (commands [] rest).map (first ++ ·)
  | words, .newline :: rest =>
    if words = [] then commands [] rest
    else (simpleCommand words).bind fun first => (commands [] rest).map (first ++ ·)

def interpret (text : List Char) : Option (List Command) :=
  (lex .plain none text).bind (commands [])

/-! ### Words and quotes -/

/-- A text between single quotes: each quote of its own is written outside of them. -/
def singleQuoted (v : List Char) : List Char :=
  v.flatMap fun c => if c = '\'' then ['\'', '\\', '\'', '\''] else [c]

variable {c : Char} {name : List Char}

theorem isOrdinary_of_isNameChar (name : isNameChar c = true) :
    isOrdinary c = true ∧ c ≠ '#' ∧ c ≠ '=' := by
  have ne : ∀ d : Char, isNameChar d = false → c ≠ d := by
    rintro d other rfl
    exact Bool.false_ne_true (other.symm.trans name)
  refine ⟨?_, ne _ (by decide), ne _ (by decide)⟩
  simp only [isOrdinary, isSpecial, mem_cons, not_mem_nil, or_false, Bool.and_eq_true,
    Bool.not_eq_true', decide_eq_false_iff_not, decide_eq_true_eq, not_or]
  refine ⟨⟨?_, ?_, ?_, ?_, ?_, ?_, ?_, ?_, ?_, ?_, ?_, ?_⟩, ?_, ?_, ?_, ?_, ?_, ?_, ?_⟩ <;>
    exact ne _ (by decide)

theorem isNameChar_of_mem (named : isName name = true) (member : c ∈ name) :
    isNameChar c = true := by
  cases name with
  | nil => cases member
  | cons first rest =>
    rw [isName, Bool.and_eq_true, List.all_eq_true] at named
    rcases mem_cons.mp member with rfl | later
    · rw [isNameChar, named.1, Bool.true_or]
    · exact named.2 c later

theorem lex_ordinary (ordinary : isOrdinary c = true) {word : Option Word}
    (noComment : c = '#' → word ≠ none) (rest : List Char) :
    lex .plain word (c :: rest) = lex .plain (some (word.getD [] ++ [(c, false)])) rest := by
  simp only [isOrdinary, mem_cons, not_mem_nil, or_false, Bool.and_eq_true,
    Bool.not_eq_true', decide_eq_true_eq, not_or] at ordinary
  obtain ⟨special, quote, double, backslash, newline, semicolon, space, tab⟩ := ordinary
  rw [lex, if_neg quote, if_neg double, if_neg backslash, if_neg newline, if_neg semicolon,
    if_neg (not_or.mpr ⟨space, tab⟩), if_neg fun both => noComment both.1 both.2,
    if_neg (Bool.eq_false_iff.mp special)]

theorem lex_ordinaries {cs : List Char} (ordinary : ∀ c ∈ cs, isOrdinary c = true) (w : Word)
    (rest : List Char) :
    lex .plain (some w) (cs ++ rest) = lex .plain (some (w ++ cs.map (·, false))) rest := by
  induction cs generalizing w with
  | nil => rw [map_nil, append_nil, nil_append]
  | cons c cs ih =>
    obtain ⟨first, later⟩ := forall_mem_cons.mp ordinary
    rw [cons_append, lex_ordinary first (fun _ => some_ne_none w), getD_some,
      ih later, map_cons, append_assoc, singleton_append]

theorem lex_name (named : isName name = true) (rest : List Char) :
    lex .plain none (name ++ rest) = lex .plain (some (name.map (·, false))) rest := by
  have all := fun c member => isOrdinary_of_isNameChar (isNameChar_of_mem named (c := c) member)
  cases name with
  | nil => exact absurd named Bool.false_ne_true
  | cons c cs =>
    obtain ⟨⟨ordinary, noHash, -⟩, later⟩ := forall_mem_cons.mp all
    rw [cons_append, lex_ordinary ordinary fun hash => absurd hash noHash,
      lex_ordinaries fun d member => (later d member).1]
    rfl

/-- Nothing in a text between single quotes means anything but itself. -/
theorem lex_singleQuoted (v : List Char) (w : Word) (rest : List Char) :
    lex .single (some w) (singleQuoted v ++ '\'' :: rest) =
      lex .plain (some (w ++ v.map (·, true))) rest := by
  induction v generalizing w with
  | nil =>
    rw [map_nil, append_nil]
    rfl
  | cons c v ih =>
    rw [singleQuoted, flatMap_cons, map_cons, ← singleQuoted, append_assoc]
    by_cases quote : c = '\''
    · subst quote
      have reopened : lex .single (some w)
          (['\'', '\\', '\'', '\''] ++ (singleQuoted v ++ '\'' :: rest)) =
            lex .single (some (w ++ [('\'', true)])) (singleQuoted v ++ '\'' :: rest) := rfl
      rw [if_pos rfl, reopened, ih, append_assoc, singleton_append]
    · rw [if_neg quote, singleton_append, lex, if_neg quote, getD_some, ih,
        append_assoc, singleton_append]

theorem assignment_of_name (named : isName name = true) (value : Word) :
    assignment (name.map (·, false) ++ ('=', false) :: value) =
      some (name, value.map Prod.fst) := by
  have front : (name.map (·, false) ++ ('=', false) :: value).takeWhile
      (fun p => p ≠ ('=', false)) = name.map (·, false) := by
    rw [takeWhile_append_of_pos, takeWhile_cons_of_neg (by simp), append_nil]
    intro p member
    obtain ⟨c, inName, rfl⟩ := List.mem_map.mp member
    have other := (isOrdinary_of_isNameChar (isNameChar_of_mem named inName)).2.2
    simpa using other
  have names : (name.map (·, false)).map Prod.fst = name := by simp [comp_def]
  have behind : (name.map (·, false) ++ ('=', false) :: value).drop
      ((name.map (·, false)).length + 1) = value := by
    rw [← singleton_append, ← append_assoc]
    exact drop_left' (length_append ..)
  have unquoted : (name.map (·, false)).all (fun p => !p.2) = true := by
    rw [List.all_map, List.all_eq_true]
    exact fun _ _ => rfl
  dsimp only [assignment]
  rw [front, names, behind, unquoted, named, if_pos]
  simp

/-! ### Lines -/

theorem interpret_newline (rest : List Char) : interpret ('\n' :: rest) = interpret rest := by
  have tokens : lex .plain none ('\n' :: rest) = (lex .plain none rest).map (.newline :: ·) := rfl
  rw [interpret, tokens, bind_map]
  rfl

theorem interpret_comment {text : List Char} (line : '\n' ∉ text) (rest : List Char) :
    interpret ('#' :: text ++ '\n' :: rest) = interpret rest := by
  have skipped : lex .comment none (text ++ '\n' :: rest) = lex .plain none ('\n' :: rest) := by
    induction text with
    | nil => rfl
    | cons c text ih =>
      rw [mem_cons, not_or] at line
      exact (if_neg (Ne.symm line.1)).trans (ih line.2)
  have begun : lex .plain none ('#' :: text ++ '\n' :: rest) =
      lex .comment none (text ++ '\n' :: rest) := rfl
  rw [interpret, begun, skipped, ← interpret, interpret_newline]

def exportName : List Char :=
  ['e', 'x', 'p', 'o', 'r', 't']

def exportTokens (name value : List Char) : List Token :=
  [.word (name.map (·, false) ++ ('=', false) :: value.map (·, true)), .semicolon,
    .word (exportName.map (·, false)), .word (name.map (·, false)), .newline]

theorem lex_assign_export (named : isName name = true) (value rest : List Char) :
    lex .plain none (name ++ "='".toList ++ singleQuoted value ++ "'; export ".toList ++ name ++
        '\n' :: rest) =
      (lex .plain none rest).map (exportTokens name value ++ ·) := by
  have opened : ∀ (w : Word) (tail : List Char), lex .plain (some w) ("='".toList ++ tail) =
      lex .single (some (w ++ [('=', false)])) tail := fun _ _ => rfl
  have between : ∀ (w : Word) (tail : List Char), lex .plain (some w) ("; export ".toList ++ tail) =
      (((lex .plain none tail).map (.word (exportName.map (·, false)) :: ·)).map
        (.semicolon :: ·)).map (.word w :: ·) := fun _ _ => rfl
  have ended : ∀ (w : Word) (tail : List Char), lex .plain (some w) ('\n' :: tail) =
      ((lex .plain none tail).map (.newline :: ·)).map (.word w :: ·) := fun _ _ => rfl
  have quote : "'; export ".toList = '\'' :: "; export ".toList := rfl
  rw [quote]
  simp only [append_assoc, cons_append]
  rw [lex_name named, opened, lex_singleQuoted, between, lex_name named, ended]
  simp only [Option.map_map, comp_def, exportTokens, append_assoc, cons_append, nil_append]

theorem simpleCommand_assign (named : isName name = true) (value : Word) :
    simpleCommand [name.map (·, false) ++ ('=', false) :: value] =
      some [.assign name (value.map Prod.fst)] := by
  simp [simpleCommand, assignment_of_name named]

theorem simpleCommand_export (w : Word) :
    simpleCommand [exportName.map (·, false), w] =
      some [.run [] [exportName, w.map Prod.fst]] := by
  have command : assignment (exportName.map (·, false)) = none := by decide
  have free : isReserved (exportName.map (·, false)) = false := by decide
  have here : ([exportName.map (·, false), w] : List Word).takeWhile
      (fun w => (assignment w).isSome) = [] :=
    takeWhile_cons_of_neg (by rw [command]; exact Bool.false_ne_true)
  dsimp only [simpleCommand]
  rw [here, length_nil, drop_zero]
  exact if_neg (Bool.eq_false_iff.mp free)

theorem interpret_assign_export (named : isName name = true) (value rest : List Char) :
    interpret (name ++ "='".toList ++ singleQuoted value ++ "'; export ".toList ++ name ++
        '\n' :: rest) =
      (interpret rest).map ([.assign name value, .run [] [exportName, name]] ++ ·) := by
  have fst : ∀ (quoted : Bool) (text : List Char), (text.map (·, quoted)).map Prod.fst = text := by
    intro quoted text
    simp [comp_def]
  have read : ∀ tokens, commands [] (exportTokens name value ++ tokens) = (commands [] tokens).map
        ([.assign name value, .run [] [exportName, name]] ++ ·) := by
    intro tokens
    simp [exportTokens, commands, simpleCommand_assign named, simpleCommand_export, fst,
      Option.map_map, comp_def]
  rw [interpret, lex_assign_export named, bind_map, interpret, Option.map_bind]
  exact congrArg _ (funext read)

/-! ### Variables -/

abbrev Variables := List Char → Option (List Char)

/-- A command on the variables; no result for commands other than an assignment or an export. -/
def Command.exec (vars : Variables) : Command → Option Variables
  | .assign name value => some (update vars name (some value))
  | .run [] (command :: _) => if command = exportName then some vars else none
  | .run _ _ => none

def exports (pairs : List (List Char × List Char)) : List Command :=
  pairs.flatMap fun p => [.assign p.1 p.2, .run [] [exportName, p.1]]

def lastValue (pairs : List (List Char × List Char)) (name : List Char) : Option (List Char) :=
  (pairs.reverse.find? (·.1 = name)).map Prod.snd

theorem exec_exports (pairs : List (List Char × List Char)) (vars : Variables) :
    (exports pairs).foldlM Command.exec vars =
      some fun name => (lastValue pairs name).or (vars name) := by
  induction pairs generalizing vars with
  | nil => rfl
  | cons p pairs ih =>
    have first : (exports (p :: pairs)).foldlM Command.exec vars =
        (exports pairs).foldlM Command.exec (update vars p.1 (some p.2)) := by
      rw [exports, flatMap_cons, foldlM_append]
      rfl
    rw [first, ih]
    refine congrArg some (funext fun name => ?_)
    simp only [lastValue, reverse_cons, find?_append, update_apply]
    cases pairs.reverse.find? (·.1 = name) with
    | some later => rfl
    | none =>
      by_cases same : name = p.1
      · simp [same]
      · simp [same, Ne.symm same]

end LavaLite.Kernel.Shell
