import Mathlib.Data.List.Basic

/-!
# Programs over commands

A program issues commands one at a time and continues with their results
(`Prog`). What a command does is not part of the program: a semantics runs it
against a state, and between two commands of one program other programs may
run.

`Prog.Conforms` is the one judgement the proofs need of a program: an
automaton on a local state says which commands are allowed where, and what
each result makes of the local state; a program conforms if it issues allowed
commands only, whatever their results are. Conformance is proved once for
each program, by its structure (`Prog.Conforms.bind`), and every invariant of
a system of programs then needs one lemma for each step of the automaton.
-/

namespace Interleave

/-- A program over the commands `C`, each of which has results `R c`. -/
inductive Prog (C : Type) (R : C → Type) (α : Type) where
  | pure (a : α)
  | op (c : C) (k : R c → Prog C R α)

/-- A command and what it returned. -/
structure Event (C : Type) (R : C → Type) where
  cmd : C
  res : R cmd

variable {C : Type} {R : C → Type} {α β ε L : Type}

namespace Prog

def bind : Prog C R α → (α → Prog C R β) → Prog C R β
  | .pure a, f => f a
  | .op c k, f => .op c fun r => (k r).bind f

instance : Monad (Prog C R) where
  pure := Prog.pure
  bind := Prog.bind

/-- The program that issues one command. -/
def call (c : C) : Prog C R (R c) := .op c .pure

@[simp] theorem pure_bind (a : α) (f : α → Prog C R β) : (Prog.pure a : Prog C R α) >>= f = f a := rfl

@[simp] theorem return_bind (a : α) (f : α → Prog C R β) :
    (Pure.pure a : Prog C R α) >>= f = f a := rfl

@[simp] theorem op_bind (c : C) (k : R c → Prog C R α) (f : α → Prog C R β) :
    Prog.op c k >>= f = .op c fun r => k r >>= f := rfl

@[simp] theorem call_bind (c : C) (f : R c → Prog C R β) : call c >>= f = .op c f := rfl

theorem bind_bind {γ : Type} {f : α → Prog C R β} {g : β → Prog C R γ} :
    ∀ p : Prog C R α, p >>= f >>= g = p >>= fun a => f a >>= g
  | .pure _ => rfl
  | .op c k => congrArg (Prog.op c) (funext fun r => bind_bind (k r))

theorem bind_return : ∀ p : Prog C R α, p >>= Prog.pure = p
  | .pure _ => rfl
  | .op c k => congrArg (Prog.op c) (funext fun r => bind_return (k r))

instance : LawfulMonad (Prog C R) := LawfulMonad.mk' _ bind_return (fun _ _ => rfl) fun p _ _ => bind_bind p

/-- The command a program is about to issue. -/
def command? : Prog C R α → Option C
  | .pure _ => none
  | .op c _ => some c

/-- A program over some of a system's commands, as one over all of them. -/
def embed {D : Type} {R' : D → Type} (f : C → D) (g : ∀ c, R' (f c) → R c) : Prog C R α → Prog D R' α
  | .pure a => .pure a
  | .op c k => .op (f c) fun r => (k (g c r)).embed f g

/-! ## Programs that may fail -/

section

variable {ε' : Type}

def issue (c : C) : ExceptT ε (Prog C R) (R c) := ExceptT.lift (call c)

/-- What was returned, or its error as one of the program. -/
def orThrow (f : ε' → ε) (h : ExceptT ε (Prog C R) (Except ε' α)) : ExceptT ε (Prog C R) α := do
  match ← h with
  | .ok a => return a
  | .error e => throw (f e)

/-- A program that may fail, over some of a system's commands. -/
def embedE {D : Type} {R' : D → Type} (f : C → D) (g : ∀ c, R' (f c) → R c) (note : ε' → ε)
    (h : ExceptT ε' (Prog C R) α) : ExceptT ε (Prog D R') α := ExceptT.mk do
  match ← h.run.embed f g with
  | .ok a => return .ok a
  | .error e => return .error (note e)

end

/-! ## Conformance -/

/-- `p`, started in the local state `ℓ`, issues only commands that `next`
allows, and ends in a local state satisfying `post`. -/
def Conforms (next : L → (c : C) → R c → Option L) (post : L → α → Prop) : Prog C R α → L → Prop
  | .pure a, ℓ => post ℓ a
  | .op c k, ℓ => ∀ r, ∃ ℓ', next ℓ c r = some ℓ' ∧ (k r).Conforms next post ℓ'

variable {next : L → (c : C) → R c → Option L}

theorem Conforms.mono {post post' : L → α → Prop} (h : ∀ ℓ a, post ℓ a → post' ℓ a) :
    ∀ {p : Prog C R α} {ℓ : L}, p.Conforms next post ℓ → p.Conforms next post' ℓ
  | .pure _, _, hp => h _ _ hp
  | .op _ _, _, hp => fun r => by
    obtain ⟨ℓ', hn, hk⟩ := hp r
    exact ⟨ℓ', hn, hk.mono h⟩

/-- Sequencing: the second program conforms from wherever the first ends. -/
theorem Conforms.bind {post : L → α → Prop} {post' : L → β → Prop} {f : α → Prog C R β}
    (hf : ∀ ℓ a, post ℓ a → (f a).Conforms next post' ℓ) :
    ∀ {p : Prog C R α} {ℓ : L}, p.Conforms next post ℓ → (p >>= f).Conforms next post' ℓ
  | .pure _, _, hp => hf _ _ hp
  | .op _ _, _, hp => fun r => by
    obtain ⟨ℓ', hn, hk⟩ := hp r
    exact ⟨ℓ', hn, hk.bind hf⟩

/-! ## The commands a program issues -/

/-- All commands `p` can ever issue satisfy `ok`. -/
def Issues (ok : C → Prop) : Prog C R α → Prop
  | .pure _ => True
  | .op c k => ok c ∧ ∀ r, (k r).Issues ok

theorem Issues.bind {ok : C → Prop} {f : α → Prog C R β} (hf : ∀ a, (f a).Issues ok) :
    ∀ {p : Prog C R α}, p.Issues ok → (p >>= f).Issues ok
  | .pure a, _ => hf a
  | .op _ _, h => ⟨h.1, fun r => (h.2 r).bind hf⟩

theorem Issues.bindE {ok : C → Prop} {x : ExceptT ε (Prog C R) α} {f : α → ExceptT ε (Prog C R) β}
    (hx : x.run.Issues ok) (hf : ∀ a, (f a).run.Issues ok) : (x >>= f).run.Issues ok := by
  rw [ExceptT.run_bind]
  refine hx.bind fun o => ?_
  cases o with
  | ok a => exact hf a
  | error e => trivial

theorem issues_embed {D : Type} {R' : D → Type} {ok : D → Prop} {f : C → D} {g : ∀ c, R' (f c) → R c}
    (h : ∀ c, ok (f c)) : ∀ p : Prog C R α, (p.embed f g).Issues ok
  | .pure _ => trivial
  | .op c k => ⟨h c, fun r => issues_embed h (k (g c r))⟩

theorem issues_issue {ok : C → Prop} {c : C} (hc : ok c) : (issue c : ExceptT ε (Prog C R) (R c)).run.Issues ok :=
  ⟨hc, fun _ => trivial⟩

theorem Issues.orThrow {ok : C → Prop} {ε' : Type} {f : ε' → ε} {h : ExceptT ε (Prog C R) (Except ε' α)}
    (hh : h.run.Issues ok) : (orThrow f h).run.Issues ok := by
  refine hh.bindE fun r => ?_
  cases r <;> trivial

theorem issues_embedE {D ε' : Type} {R' : D → Type} {ok : D → Prop} {f : C → D} {g : ∀ c, R' (f c) → R c}
    {note : ε' → ε} (hok : ∀ c, ok (f c)) (h : ExceptT ε' (Prog C R) α) : (embedE f g note h).run.Issues ok := by
  refine (issues_embed hok h.run).bind fun o => ?_
  cases o <;> trivial

end Prog

end Interleave
