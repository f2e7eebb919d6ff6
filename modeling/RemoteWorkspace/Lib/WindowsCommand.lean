import Mathlib.Data.List.Basic
import Mathlib.Tactic.Common

/-!
# Command lines on Windows

Two readers of text. `WindowsArguments.split` cuts a command line into
arguments as the C runtime does: backslashes count only before a quote, `2n` of
them for `n`, `2n + 1` for `n` and a quote that is not one. Runtimes differ on
a quote right after a closing one; `pairs` says that it stands for itself.
`PowerShell.scan` cuts a script into its single-quoted literals and the code
between them.
-/

namespace WindowsArguments

structure State where
  /-- The argument so far, without the backslashes of `slashes`. -/
  word : Option (List Char)
  slashes : Nat
  quoted : Bool
  /-- The character before was a quote that ended a quoted part. -/
  closed : Bool

def start : State := ⟨none, 0, false, false⟩

def State.text (s : State) : List Char := s.word.getD [] ++ List.replicate s.slashes '\\'

def State.words (s : State) : List (List Char) := if s.word = none then [] else [s.text]

def step (pairs : Bool) (s : State) (c : Char) : State × List (List Char) :=
  if c = '\\' then (⟨some (s.word.getD []), s.slashes + 1, s.quoted, false⟩, [])
  else if c = '"' then
    let w := s.word.getD [] ++ List.replicate (s.slashes / 2) '\\'
    if s.slashes % 2 = 1 then (⟨some (w ++ ['"']), 0, s.quoted, false⟩, [])
    else if pairs ∧ s.closed then (⟨some (w ++ ['"']), 0, true, false⟩, [])
    else (⟨some w, 0, !s.quoted, s.quoted⟩, [])
  else if !s.quoted ∧ (c = ' ' ∨ c = '\t') then (start, s.words)
  else (⟨some (s.text ++ [c]), 0, s.quoted, false⟩, [])

def run (pairs : Bool) (s : State) : List Char → State × List (List Char)
  | [] => (s, [])
  | c :: cs =>
    let (s', ws) := step pairs s c
    let (s'', ws') := run pairs s' cs
    (s'', ws ++ ws')

/-- The arguments of a command line; a part left in quotes ends with it. -/
def split (pairs : Bool) (cs : List Char) : List (List Char) :=
  let (s, ws) := run pairs start cs
  ws ++ s.words

/-- Read between two arguments, `cs` is one argument, `text`, that the next
blank ends. -/
def Spells (pairs : Bool) (cs text : List Char) : Prop :=
  ∃ s, run pairs start cs = (s, []) ∧ s.word ≠ none ∧ s.quoted = false ∧ s.text = text

section
variable {pairs : Bool}

@[simp] theorem run_nil (s : State) : run pairs s [] = (s, []) := rfl

theorem run_cons (s : State) (c : Char) (cs : List Char) : run pairs s (c :: cs) =
    ((run pairs (step pairs s c).1 cs).1, (step pairs s c).2 ++ (run pairs (step pairs s c).1 cs).2) := rfl

theorem run_append (s : State) (cs ds : List Char) : run pairs s (cs ++ ds) =
    ((run pairs (run pairs s cs).1 ds).1, (run pairs s cs).2 ++ (run pairs (run pairs s cs).1 ds).2) := by
  induction cs generalizing s with
  | nil => simp
  | cons c cs ih => simp only [List.cons_append, run_cons, ih, List.append_assoc]

/-- A quote between two arguments opens one. -/
theorem run_open (cs : List Char) : run pairs start ('"' :: cs) = run pairs ⟨some [], 0, true, false⟩ cs := by
  simp [run_cons, step, start]

/-- Backslashes are only counted. -/
theorem run_slashes (w : List Char) (q : Bool) (n k : Nat) (cs : List Char) :
    run pairs ⟨some w, n, q, false⟩ (List.replicate k '\\' ++ cs) = run pairs ⟨some w, n + k, q, false⟩ cs := by
  induction k generalizing n with
  | zero => rfl
  | succ k ih =>
    rw [List.replicate_succ, List.cons_append, run_cons]
    show ((run pairs ⟨some w, n + 1, q, false⟩ (List.replicate k '\\' ++ cs)).1,
      [] ++ (run pairs ⟨some w, n + 1, q, false⟩ (List.replicate k '\\' ++ cs)).2) = _
    rw [ih, List.nil_append, show n + 1 + k = n + (k + 1) by omega]

/-- An even number of backslashes and a quote end a quoted part. -/
theorem run_even (w : List Char) (n : Nat) (cs : List Char) :
    run pairs ⟨some w, 0, true, false⟩ (List.replicate (n * 2) '\\' ++ '"' :: cs) =
      run pairs ⟨some (w ++ List.replicate n '\\'), 0, false, true⟩ cs := by
  rw [run_slashes, Nat.zero_add, run_cons]
  simp [step]

/-- An odd number of backslashes and a quote are half of them and a quote. -/
theorem run_odd (w : List Char) (q : Bool) (n : Nat) (cs : List Char) :
    run pairs ⟨some w, 0, q, false⟩ (List.replicate (n * 2 + 1) '\\' ++ '"' :: cs) =
      run pairs ⟨some (w ++ List.replicate n '\\' ++ ['"']), 0, q, false⟩ cs := by
  rw [run_slashes, Nat.zero_add, run_cons]
  have hhalf : (n * 2 + 1) / 2 = n := by omega
  simp [step, hhalf]

/-- Before any other character each backslash stands for itself. -/
theorem run_plain (w : List Char) (q : Bool) (n : Nat) {c : Char} (hslash : c ≠ '\\') (hquote : c ≠ '"')
    (hblank : q = false → c ≠ ' ' ∧ c ≠ '\t') (cs : List Char) :
    run pairs ⟨some w, 0, q, false⟩ (List.replicate n '\\' ++ c :: cs) =
      run pairs ⟨some (w ++ List.replicate n '\\' ++ [c]), 0, q, false⟩ cs := by
  have hnot : ¬ (!q ∧ (c = ' ' ∨ c = '\t')) := by
    intro ⟨hq, hc⟩
    have := hblank (by simpa using hq)
    simp_all
  rw [run_slashes, run_cons]
  simp only [step, hslash, hquote, if_false, if_neg hnot]
  simp [State.text]

theorem run_blank {s : State} (hq : s.quoted = false) (cs : List Char) :
    run pairs s (' ' :: cs) = ((run pairs start cs).1, s.words ++ (run pairs start cs).2) := by
  rw [run_cons]
  simp [step, hq]

/-- Outside quotes, text without quotes and blanks is taken as it is. -/
theorem run_bare {cs : List Char} (h : ∀ c ∈ cs, c ≠ '"' ∧ c ≠ ' ' ∧ c ≠ '\t') (s : State)
    (hquoted : s.quoted = false) :
    ∃ s', run pairs s cs = (s', []) ∧ (s.word ≠ none ∨ cs ≠ [] → s'.word ≠ none) ∧ s'.quoted = false ∧
      s'.text = s.text ++ cs := by
  induction cs generalizing s with
  | nil => exact ⟨s, rfl, fun hword => by simpa using hword, hquoted, by simp⟩
  | cons c cs ih =>
    have hc := h c (by simp)
    have hnot : ¬ (!s.quoted ∧ (c = ' ' ∨ c = '\t')) := by simp [hc]
    obtain ⟨s₁, hstep, hword, hq, htext⟩ : ∃ s₁, step pairs s c = (s₁, []) ∧ s₁.word ≠ none ∧ s₁.quoted = false ∧
        s₁.text = s.text ++ [c] := by
      by_cases hslash : c = '\\'
      · refine ⟨⟨some (s.word.getD []), s.slashes + 1, s.quoted, false⟩, if_pos hslash, by simp, hquoted, ?_⟩
        simp [State.text, List.replicate_succ', hslash]
      · refine ⟨⟨some (s.text ++ [c]), 0, s.quoted, false⟩, ?_, by simp, hquoted, by simp [State.text]⟩
        rw [step, if_neg hslash, if_neg hc.1, if_neg hnot]
    obtain ⟨s', hrun, hword', hq', htext'⟩ := ih (fun d hd => h d (by simp [hd])) s₁ hq
    refine ⟨s', ?_, fun _ => hword' (.inl hword), hq', by rw [htext', htext]; simp⟩
    rw [run_cons, hstep]
    exact hrun

theorem spells_bare {cs : List Char} (h : ∀ c ∈ cs, c ≠ '"' ∧ c ≠ ' ' ∧ c ≠ '\t') (hne : cs ≠ []) :
    Spells pairs cs cs := by
  obtain ⟨s, hrun, hword, hquoted, htext⟩ := run_bare h start rfl
  exact ⟨s, hrun, hword (.inr hne), hquoted, htext⟩

theorem words_of_spells {s : State} {text : List Char} (hword : s.word ≠ none) (htext : s.text = text) :
    s.words = [text] := by
  rw [State.words, if_neg hword, htext]

/-- Spellings with blanks between them. -/
theorem split_intercalate {α : Type} {spell text : α → List Char} (hspell : ∀ a, Spells pairs (spell a) (text a))
    (as : List α) : split pairs ([' '].intercalate (as.map spell)) = as.map text := by
  induction as with
  | nil => rfl
  | cons a as ih =>
    obtain ⟨s, hrun, hword, hquoted, htext⟩ := hspell a
    cases as with
    | nil =>
      simp only [List.map_cons, List.map_nil, List.intercalate_singleton]
      rw [split, hrun]
      exact words_of_spells hword htext
    | cons b as =>
      rw [List.map_cons, List.intercalate_cons_of_ne_nil (by simp)]
      simp only [split, List.singleton_append, List.append_assoc, run_append, hrun, run_blank hquoted] at ih ⊢
      rw [ih, words_of_spells hword htext]
      rfl

end

end WindowsArguments

namespace PowerShell

/-- The characters that begin and end a single-quoted literal. -/
def quotes : List Char := ['\'', '\u2018', '\u2019', '\u201A', '\u201B']

/-- Characters of scripts that begin something else this reader does not
follow: other strings, comments and escapes. -/
def unread : List Char := ['"', '#', '@', Char.ofNat 0x60]

inductive Piece
  | code (cs : List Char)
  | literal (cs : List Char)
  deriving DecidableEq

inductive Mode
  | code (cs : List Char)
  | literal (cs : List Char)
  /-- Behind a quote inside a literal: another one makes it a character. -/
  | closing (cs : List Char)

def scanFrom : Mode → List Char → Option (List Piece)
  | .code acc, [] => some [.code acc]
  | .code acc, c :: cs =>
    if c ∈ quotes then (scanFrom (.literal []) cs).map (.code acc :: ·)
    else if c ∈ unread then none
    else scanFrom (.code (acc ++ [c])) cs
  | .literal _, [] => none
  | .literal acc, c :: cs =>
    if c ∈ quotes then scanFrom (.closing acc) cs else scanFrom (.literal (acc ++ [c])) cs
  | .closing acc, [] => some [.literal acc]
  | .closing acc, c :: cs =>
    if c ∈ quotes then scanFrom (.literal (acc ++ [c])) cs
    else if c ∈ unread then none
    else (scanFrom (.code [c]) cs).map (.literal acc :: ·)

/-- A script as code and literals by turns. -/
def scan (cs : List Char) : Option (List Piece) := scanFrom (.code []) cs

/-- Text without a character that ends code. -/
def IsCode (cs : List Char) : Prop := ∀ c ∈ cs, c ∉ quotes ∧ c ∉ unread

instance (cs : List Char) : Decidable (IsCode cs) := List.decidableBAll _ cs

theorem scanFrom_code {cs : List Char} (h : IsCode cs) (acc rest : List Char) :
    scanFrom (.code acc) (cs ++ rest) = scanFrom (.code (acc ++ cs)) rest := by
  induction cs generalizing acc with
  | nil => simp
  | cons c cs ih =>
    have hc := h c (by simp)
    rw [List.cons_append, scanFrom, if_neg hc.1, if_neg hc.2, ih fun d hd => h d (by simp [hd])]
    simp

/-- Code, then a quote that opens a literal. -/
theorem scanFrom_open {cs : List Char} (h : IsCode cs) (acc rest : List Char) :
    scanFrom (.code acc) (cs ++ '\'' :: rest) = (scanFrom (.literal []) rest).map (.code (acc ++ cs) :: ·) := by
  rw [scanFrom_code h, scanFrom, if_pos (by decide)]

theorem scanFrom_last {cs : List Char} (h : IsCode cs) (acc : List Char) :
    scanFrom (.code acc) cs = some [.code (acc ++ cs)] := by
  have := scanFrom_code h acc []
  rwa [List.append_nil, scanFrom] at this

/-- A quote before code ends the literal. -/
theorem scanFrom_close {c : Char} {cs : List Char} (h : IsCode [c]) (acc : List Char) :
    scanFrom (.literal acc) ('\'' :: c :: cs) = (scanFrom (.code [c]) cs).map (.literal acc :: ·) := by
  have hc := h c (by simp)
  rw [scanFrom, if_pos (by decide), scanFrom, if_neg hc.1, if_neg hc.2]

/-- A doubled quote is one character of the literal. -/
theorem scanFrom_doubled {c : Char} (h : c ∈ quotes) (acc rest : List Char) :
    scanFrom (.literal acc) (c :: c :: rest) = scanFrom (.literal (acc ++ [c])) rest := by
  rw [scanFrom, if_pos h, scanFrom, if_pos h]

/-- The characters of a literal as they are written in it. -/
def double (cs : List Char) : List Char := cs.flatMap fun c => if c ∈ quotes then [c, c] else [c]

theorem scanFrom_char {c : Char} (h : c ∉ quotes) (acc rest : List Char) :
    scanFrom (.literal acc) (c :: rest) = scanFrom (.literal (acc ++ [c])) rest := by
  rw [scanFrom, if_neg h]

theorem scanFrom_double (cs acc rest : List Char) :
    scanFrom (.literal acc) (double cs ++ rest) = scanFrom (.literal (acc ++ cs)) rest := by
  induction cs generalizing acc with
  | nil => simp [double]
  | cons c cs ih =>
    rw [double, List.flatMap_cons, List.append_assoc]
    by_cases hc : c ∈ quotes
    · rw [if_pos hc]
      show scanFrom (.literal acc) (c :: c :: (double cs ++ rest)) = _
      rw [scanFrom_doubled hc, ih]
      simp
    · rw [if_neg hc]
      show scanFrom (.literal acc) (c :: (double cs ++ rest)) = _
      rw [scanFrom_char hc, ih]
      simp

/-- Code, a literal, and more code. -/
theorem scanFrom_quoted {code : List Char} (hcode : IsCode code) {c : Char} (hc : IsCode [c])
    (acc cs rest : List Char) :
    scanFrom (.code acc) (code ++ '\'' :: (double cs ++ '\'' :: c :: rest)) =
      (scanFrom (.code [c]) rest).map fun pieces => .code (acc ++ code) :: .literal cs :: pieces := by
  rw [scanFrom_open hcode, scanFrom_double, List.nil_append, scanFrom_close hc, Option.map_map]
  rfl

end PowerShell
