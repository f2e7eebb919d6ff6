import Mathlib.Data.List.TakeWhile
import Mathlib.Tactic.Common

/-!
# Words of a POSIX shell

Token recognition of the shell grammar, quoting included: how a line of text
is cut into words, operators and comments. Of an expansion only the character
that begins it is read. A line is a plain list of words (`words`) when it has
no other token, and no word of it would be expanded, or taken for an assignment
or a reserved word. `Spells` says that some text is one such word; spellings
with blanks between them are a line of their words (`words_intercalate`).
-/

namespace ShellWords

/-- A character of a word, as the shell took it. -/
inductive Part
  | bare (c : Char)
  | quoted (c : Char)
  /-- A dollar or a backquote that nothing quotes. -/
  | expansion (c : Char)
  deriving DecidableEq

def Part.char : Part → Char
  | .bare c | .quoted c | .expansion c => c

abbrev Word := List Part

inductive Token
  | word (w : Word)
  | operator (c : Char)
  | comment
  deriving DecidableEq

inductive State
  /-- Outside quotes; `none` between two words. -/
  | outside (w : Option Word)
  | escaped (w : Option Word)
  | single (w : Word)
  | double (w : Word)
  | doubleEscaped (w : Word)
  | comment

def operators : List Char := ['|', '&', ';', '<', '>', '(', ')', '\n']

/-- What begins an expansion, also between double quotes. -/
def expanders : List Char := ['$', Char.ofNat 0x60]

def close : Option Word → List Token
  | none => []
  | some w => [.word w]

def stepOutside (w : Option Word) (c : Char) : State × List Token :=
  if c = '\'' then (.single (w.getD []), [])
  else if c = '"' then (.double (w.getD []), [])
  else if c = '\\' then (.escaped w, [])
  else if c = ' ' ∨ c = '\t' then (.outside none, close w)
  else if c ∈ operators then (.outside none, close w ++ [.operator c])
  else if c = '#' ∧ w = none then (.comment, [])
  else if c ∈ expanders then (.outside (some (w.getD [] ++ [.expansion c])), [])
  else (.outside (some (w.getD [] ++ [.bare c])), [])

def step : State → Char → State × List Token
  | .outside w, c => stepOutside w c
  | .escaped w, c =>
    -- A backslash and a newline continue the line.
    if c = '\n' then (.outside w, []) else (.outside (some (w.getD [] ++ [.quoted c])), [])
  | .single w, c => if c = '\'' then (.outside (some w), []) else (.single (w ++ [.quoted c]), [])
  | .double w, c =>
    if c = '"' then (.outside (some w), [])
    else if c = '\\' then (.doubleEscaped w, [])
    else if c ∈ expanders then (.double (w ++ [.expansion c]), [])
    else (.double (w ++ [.quoted c]), [])
  | .doubleEscaped w, c =>
    if c = '\n' then (.double w, [])
    else if c ∈ expanders ∨ c = '"' ∨ c = '\\' then (.double (w ++ [.quoted c]), [])
    else (.double (w ++ [.quoted '\\', .quoted c]), [])
  | .comment, c => if c = '\n' then (.outside none, [.comment, .operator c]) else (.comment, [])

/-- The tokens left at the end of the text; none where a quote is still open. -/
def finish : State → Option (List Token)
  | .outside w => some (close w)
  | .comment => some [.comment]
  | .escaped _ | .single _ | .double _ | .doubleEscaped _ => none

def run (s : State) : List Char → State × List Token
  | [] => (s, [])
  | c :: cs =>
    let (s', ts) := step s c
    let (s'', ts') := run s' cs
    (s'', ts ++ ts')

def tokens (cs : List Char) : Option (List Token) :=
  let (s, ts) := run (.outside none) cs
  (finish s).map (ts ++ ·)

/-! ## Words that stand for their text -/

/-- A character that begins an expansion, or that pathname, tilde or brace
expansion looks for. -/
def Part.expands : Part → Bool
  | .expansion _ => true
  | .bare c => c ∈ ['*', '?', '[', '~', '{']
  | .quoted _ => false

def Part.isQuoted : Part → Bool
  | .quoted _ => true
  | .bare _ | .expansion _ => false

def reserved : List String :=
  ["!", "\x7b", "\x7d", "case", "do", "done", "elif", "else", "esac", "fi", "for", "if", "in", "then", "until", "while"]

/-- A name and an equals sign, none of them quoted, at the start of a word. -/
def assigns (w : Word) : Bool :=
  let name := w.takeWhile (· ≠ .bare '=')
  name ≠ [] ∧ name ≠ w ∧ name.all fun p => !p.isQuoted && (p.char.isAlphanum || p.char = '_')

/-- A reserved word is one that no quoting touches. -/
def isReserved (w : Word) : Bool :=
  !w.any Part.isQuoted && reserved.contains (String.ofList (w.map Part.char))

/-- The text of a token that is a word and stands for its text. -/
def Token.plain? : Token → Option (List Char)
  | .word w => if w.any Part.expands || assigns w || isReserved w then none else some (w.map Part.char)
  | .operator _ | .comment => none

/-- The words of a line that is nothing but words, each for its own text. -/
def words (cs : List Char) : Option (List (List Char)) :=
  (tokens cs).bind fun ts => ts.mapM Token.plain?

/-! ## Spellings -/

/-- Read between two words, `cs` is a word, all of it quoted, with the text
`text`. -/
def Spells (cs text : List Char) : Prop := run (.outside none) cs = (.outside (some (text.map .quoted)), [])

@[simp] theorem run_nil (s : State) : run s [] = (s, []) := rfl

theorem run_cons (s : State) (c : Char) (cs : List Char) :
    run s (c :: cs) = ((run (step s c).1 cs).1, (step s c).2 ++ (run (step s c).1 cs).2) := rfl

theorem run_append (s : State) (cs ds : List Char) :
    run s (cs ++ ds) = ((run (run s cs).1 ds).1, (run s cs).2 ++ (run (run s cs).1 ds).2) := by
  induction cs generalizing s with
  | nil => simp
  | cons c cs ih => simp only [List.cons_append, run_cons, ih, List.append_assoc]

theorem run_single {w : Word} {c : Char} (hc : c ≠ '\'') (cs : List Char) :
    run (.single w) (c :: cs) = run (.single (w ++ [.quoted c])) cs := by
  simp [run_cons, step, hc]

theorem not_expands_quoted (text : List Char) : (text.map Part.quoted).any Part.expands = false := by
  simp [Part.expands]

theorem not_assigns_quoted (text : List Char) : assigns (text.map .quoted) = false := by
  have hwhole : (text.map Part.quoted).takeWhile (· ≠ .bare '=') = text.map .quoted :=
    List.takeWhile_eq_self_iff.mpr (by simp)
  simp only [assigns, hwhole]
  simp

theorem not_isReserved_quoted (text : List Char) : isReserved (text.map .quoted) = false := by
  cases text with
  | nil => decide
  | cons c text => simp [isReserved, Part.isQuoted]

@[simp] theorem plain?_quoted (text : List Char) : (Token.word (text.map .quoted)).plain? = some text := by
  simp only [Token.plain?, not_expands_quoted, not_assigns_quoted, not_isReserved_quoted]
  simp [Function.comp_def, Part.char]

theorem run_blank {w : Option Word} (cs : List Char) :
    run (.outside w) (' ' :: cs) = ((run (.outside none) cs).1, close w ++ (run (.outside none) cs).2) := rfl

/-- Spellings with blanks between them. -/
theorem tokens_intercalate {α : Type} {spell text : α → List Char} (hspell : ∀ a, Spells (spell a) (text a))
    (as : List α) :
    tokens ([' '].intercalate (as.map spell)) = some (as.map fun a => .word ((text a).map .quoted)) := by
  induction as with
  | nil => rfl
  | cons a as ih =>
    cases as with
    | nil =>
      simp only [List.map_cons, List.map_nil, List.intercalate_singleton]
      rw [tokens, hspell a]
      rfl
    | cons b as =>
      have ha : run (.outside none) (spell a) = (.outside (some ((text a).map .quoted)), []) := hspell a
      rw [List.map_cons, List.intercalate_cons_of_ne_nil (by simp)]
      simp only [tokens, List.singleton_append, List.append_assoc, run_append, ha, run_blank] at ih ⊢
      obtain ⟨ts, hts, heq⟩ := Option.map_eq_some_iff.mp ih
      rw [hts, List.map_cons (l := b :: as), ← heq]
      rfl

theorem words_intercalate {α : Type} {spell text : α → List Char} (hspell : ∀ a, Spells (spell a) (text a))
    (as : List α) : words ([' '].intercalate (as.map spell)) = some (as.map text) := by
  rw [words, tokens_intercalate hspell, Option.bind_some, List.mapM_map]
  simp only [Function.comp_def, plain?_quoted]
  exact List.mapM_pure

end ShellWords
