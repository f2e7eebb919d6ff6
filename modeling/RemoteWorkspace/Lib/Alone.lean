import RemoteWorkspace.Lib.Prog

/-!
# One program on a state

What a command may return, and what it then makes of the state, is a relation
(`step`). A run of a program (`Prog.Run`) leaves the events it went through,
what is left of the program, and the state.

`Prog.Keeps I Q` is the judgement for such runs: `I` holds of each command and
the state in which it is about to be issued, and `Q` of the result and the state
at the end. `Keeps.run` gives both for a run. A program that may end in an error
has a postcondition for each way to end (`Ends`), and a sequence of such
programs goes on where the first has not failed (`Keeps.bindE`).
-/

namespace Interleave

namespace Prog

variable {C : Type} {R : C → Type} {α β ε S : Type}

section

variable (step : (c : C) → R c → S → S → Prop)

/-- Runs of a program on a state that no one else changes. -/
inductive Run : Prog C R α → S → List (Event C R) → Prog C R α → S → Prop where
  | nil (p : Prog C R α) (s : S) : Run p s [] p s
  | cons {c : C} {k : R c → Prog C R α} {r : R c} {s s₁ s' : S} {es : List (Event C R)} {p' : Prog C R α} :
      step c r s s₁ → Run (k r) s₁ es p' s' → Run (.op c k) s (⟨c, r⟩ :: es) p' s'

/-- Wherever `p` gets from `s`, `I` holds of the command it is about to issue,
or `Q` of its result. -/
def Keeps (I : C → S → Prop) (Q : α → S → Prop) : Prog C R α → S → Prop
  | .pure a, s => Q a s
  | .op c k, s => I c s ∧ ∀ r s', step c r s s' → (k r).Keeps I Q s'

end

variable {step : (c : C) → R c → S → S → Prop} {I : C → S → Prop} {s s' : S}

/-- A run, seen through a part of the state. -/
theorem Run.map {S' : Type} {step' : (c : C) → R c → S' → S' → Prop} (f : S → S')
    (hs : ∀ c r s s', step c r s s' → step' c r (f s) (f s')) {p p' : Prog C R α} {es : List (Event C R)}
    (h : Run step p s es p' s') : Run step' p (f s) es p' (f s') := by
  induction h with
  | nil => exact .nil _ _
  | cons hst _ ih => exact .cons (hs _ _ _ _ hst) ih

theorem Keeps.run {Q : α → S → Prop} {p p' : Prog C R α} {es : List (Event C R)} (h : p.Keeps step I Q s)
    (hr : Run step p s es p' s') : p'.Keeps step I Q s' := by
  induction hr with
  | nil => exact h
  | cons hs _ ih => exact ih (h.2 _ _ hs)

/-- What `I` and `Q` imply holds throughout a run. -/
theorem Keeps.reached {Q : α → S → Prop} {J : S → Prop} (hI : ∀ c s, I c s → J s) (hQ : ∀ a s, Q a s → J s)
    {p p' : Prog C R α} {es : List (Event C R)} (h : p.Keeps step I Q s) (hr : Run step p s es p' s') :
    J s' := by
  have hp := h.run hr
  cases p' with
  | pure a => exact hQ a s' hp
  | op c k => exact hI c s' hp.1

/-- What `I` says of the events of a run. -/
theorem Keeps.event {Q : α → S → Prop} {p p' : Prog C R α} {es : List (Event C R)} (h : p.Keeps step I Q s)
    (hr : Run step p s es p' s') : ∀ e ∈ es, ∃ s₁, I e.cmd s₁ := by
  induction hr with
  | nil => simp
  | @cons c k r s s₁ s' es p' hs _ ih =>
    rintro e (_ | ⟨_, he⟩)
    · exact ⟨s, h.1⟩
    · exact ih (h.2 _ _ hs) e he

/-! ## Rules -/

theorem Keeps.mono {I' : C → S → Prop} {Q Q' : α → S → Prop} (hI : ∀ c s, I c s → I' c s)
    (hQ : ∀ a s, Q a s → Q' a s) : ∀ {p : Prog C R α} {s : S}, p.Keeps step I Q s → p.Keeps step I' Q' s
  | .pure a, s, h => hQ a s h
  | .op c _, s, h => ⟨hI c s h.1, fun r s' hs => (h.2 r s' hs).mono hI hQ⟩

theorem Keeps.bind {Q : α → S → Prop} {Q' : β → S → Prop} {f : α → Prog C R β}
    (hf : ∀ a s, Q a s → (f a).Keeps step I Q' s) :
    ∀ {p : Prog C R α} {s : S}, p.Keeps step I Q s → (p >>= f).Keeps step I Q' s
  | .pure a, s, h => hf a s h
  | .op _ _, _, h => ⟨h.1, fun r s' hs => (h.2 r s' hs).bind hf⟩

/-- A program whose commands all keep `J`. -/
theorem keeps_of_issues {Q : α → S → Prop} {ok : C → Prop} {J : S → Prop} (hI : ∀ c s, ok c → J s → I c s)
    (hs : ∀ c r s s', ok c → J s → step c r s s' → J s') (hQ : ∀ a s, J s → Q a s) :
    ∀ {p : Prog C R α} {s : S}, p.Issues ok → J s → p.Keeps step I Q s
  | .pure a, s, _, h => hQ a s h
  | .op _ _, _, hp, h =>
    ⟨hI _ _ hp.1 h, fun r s' hst => keeps_of_issues hI hs hQ (hp.2 r) (hs _ r _ s' hp.1 h hst)⟩

/-- A postcondition for each way to end. -/
def Ends (Q : α → S → Prop) (E : ε → S → Prop) : Except ε α → S → Prop
  | .ok a => Q a
  | .error e => E e

theorem Keeps.bindE {Q : α → S → Prop} {Q' : β → S → Prop} {E : ε → S → Prop} {x : ExceptT ε (Prog C R) α}
    {f : α → ExceptT ε (Prog C R) β} (hx : x.run.Keeps step I (Ends Q E) s)
    (hf : ∀ a s, Q a s → (f a).run.Keeps step I (Ends Q' E) s) : (x >>= f).run.Keeps step I (Ends Q' E) s := by
  rw [ExceptT.run_bind]
  refine hx.bind fun o s ho => ?_
  cases o with
  | ok a => exact hf a s ho
  | error e => exact ho

theorem Keeps.lift {Q : α → S → Prop} {E : ε → S → Prop} {p : Prog C R α} (hp : p.Keeps step I Q s) :
    (ExceptT.lift p : ExceptT ε (Prog C R) α).run.Keeps step I (Ends Q E) s :=
  hp.bind (f := fun a => Prog.pure (Except.ok a)) fun _ _ h => h

/-- Code whose commands all keep `P`, and that fails where `P` is enough. -/
theorem keepsE_of_issues {ok : C → Prop} {P : S → Prop} {E : ε → S → Prop} (hI : ∀ c s, ok c → P s → I c s)
    (hs : ∀ c r s s', ok c → P s → step c r s s' → P s') (hE : ∀ e s, P s → E e s) {x : ExceptT ε (Prog C R) α}
    (hx : x.run.Issues ok) (h : P s) : x.run.Keeps step I (Ends (fun _ => P) E) s := by
  refine keeps_of_issues hI hs ?_ hx h
  intro o s h
  cases o with
  | ok a => exact h
  | error e => exact hE e s h

/-- What is returned goes on, and an error is one of the program. -/
theorem Keeps.orThrow {ε' : Type} {Q : α → S → Prop} {E : ε → S → Prop} {f : ε' → ε}
    {h : ExceptT ε (Prog C R) (Except ε' α)} (hh : h.run.Keeps step I (Ends (Ends Q fun e => E (f e)) E) s) :
    (orThrow f h).run.Keeps step I (Ends Q E) s := by
  refine hh.bindE fun r s hr => ?_
  cases r with
  | ok a => exact hr
  | error e => exact hr

/-! ## Runs to compute -/

/-- The commands of a run whose results a function gives. -/
def drive {Ch : Type} (exec : (c : C) → Ch → S → Option (R c × S)) :
    List Ch → Prog C R α → S → Option (List (Event C R) × Prog C R α × S)
  | [], p, s => some ([], p, s)
  | ch :: chs, .op c k, s =>
    (exec c ch s).bind fun x => (drive exec chs (k x.1) x.2).map fun y => (⟨c, x.1⟩ :: y.1, y.2)
  | _ :: _, .pure _, _ => none

theorem run_of_drive {Ch : Type} {exec : (c : C) → Ch → S → Option (R c × S)} {ok : Ch → Prop}
    (h : ∀ c ch r s s', ok ch → exec c ch s = some (r, s') → step c r s s') {chs : List Ch}
    (hok : ∀ ch ∈ chs, ok ch) {p p' : Prog C R α} {es : List (Event C R)}
    (hd : drive exec chs p s = some (es, p', s')) : Run step p s es p' s' := by
  induction chs generalizing p s es with
  | nil =>
    cases hd
    exact .nil _ _
  | cons ch chs ih =>
    cases p with
    | pure a => cases hd
    | op c k =>
      obtain ⟨⟨r, s₁⟩, hx, hd⟩ := Option.bind_eq_some_iff.mp hd
      obtain ⟨⟨es₁, p₁, s₂⟩, hy, hd⟩ := Option.map_eq_some_iff.mp hd
      cases hd
      exact .cons (h c ch r s s₁ (hok ch (.head _)) hx) (ih (fun ch' h' => hok ch' (List.mem_cons_of_mem _ h')) hy)

/-- A program alone, run to its end, where every command meets what `env` says of
it. -/
def runIn {Ch : Type} (exec : (c : C) → Ch → S → Option (R c × S)) (env : C → Ch) : Prog C R α → S → Option (α × S)
  | .pure a, s => some (a, s)
  | .op c k, s => (exec c (env c) s).bind fun x => (k x.1).runIn exec env x.2

@[simp] theorem runIn_pure {Ch : Type} {exec : (c : C) → Ch → S → Option (R c × S)} {env : C → Ch} (a : α) (s : S) :
    (Pure.pure a : Prog C R α).runIn exec env s = some (a, s) := rfl

@[simp] theorem runIn_op {Ch : Type} {exec : (c : C) → Ch → S → Option (R c × S)} {env : C → Ch} (c : C)
    (k : R c → Prog C R α) (s : S) :
    (Prog.op c k).runIn exec env s = (exec c (env c) s).bind fun x => (k x.1).runIn exec env x.2 := rfl

theorem runIn_bind {Ch : Type} {exec : (c : C) → Ch → S → Option (R c × S)} {env : C → Ch} {f : α → Prog C R β} :
    ∀ {p : Prog C R α} {s : S},
      (p >>= f).runIn exec env s = (p.runIn exec env s).bind fun x => (f x.1).runIn exec env x.2
  | .pure a, s => rfl
  | .op c k, s => by
    simp only [op_bind, runIn, Option.bind_assoc]
    congr 1
    funext x
    exact runIn_bind

/-- A sequence goes on where the first has not failed. -/
theorem runIn_bindE {Ch : Type} {exec : (c : C) → Ch → S → Option (R c × S)} {env : C → Ch}
    {x : ExceptT ε (Prog C R) α} {f : α → ExceptT ε (Prog C R) β} {s : S} :
    (x >>= f).run.runIn exec env s =
      (x.run.runIn exec env s).bind fun y =>
        match y.1 with
        | .ok a => (f a).run.runIn exec env y.2
        | .error e => some (.error e, y.2) := by
  rw [ExceptT.run_bind, runIn_bind]
  congr 1
  funext y
  obtain ⟨_ | _, s'⟩ := y <;> rfl

theorem runIn_bindE_ok {Ch : Type} {exec : (c : C) → Ch → S → Option (R c × S)} {env : C → Ch}
    {x : ExceptT ε (Prog C R) α} {f : α → ExceptT ε (Prog C R) β} {a : α} {s s' : S}
    (h : x.run.runIn exec env s = some (.ok a, s')) :
    (x >>= f).run.runIn exec env s = (f a).run.runIn exec env s' := by
  rw [runIn_bindE, h]
  rfl

theorem runIn_issue {Ch : Type} {exec : (c : C) → Ch → S → Option (R c × S)} {env : C → Ch} {c : C} {r : R c}
    {s s' : S} (h : exec c (env c) s = some (r, s')) :
    (issue c : ExceptT ε (Prog C R) (R c)).run.runIn exec env s = some (.ok r, s') := by
  show (exec c (env c) s).bind (fun x => some (Except.ok x.1, x.2)) = _
  rw [h]
  rfl

theorem runIn_orThrow {Ch ε' : Type} {exec : (c : C) → Ch → S → Option (R c × S)} {env : C → Ch} {f : ε' → ε}
    {h : ExceptT ε (Prog C R) (Except ε' α)} {a : α} {s s' : S}
    (hh : h.run.runIn exec env s = some (.ok (.ok a), s')) :
    (orThrow f h).run.runIn exec env s = some (.ok a, s') := by
  rw [orThrow, runIn_bindE_ok hh]
  rfl

/-- What is kept holds at the end. -/
theorem Keeps.runIn {Ch : Type} {exec : (c : C) → Ch → S → Option (R c × S)} {env : C → Ch} {Q : α → S → Prop}
    (hs : ∀ c r s s', exec c (env c) s = some (r, s') → step c r s s') :
    ∀ {p : Prog C R α} {s s' : S} {a : α}, p.Keeps step I Q s → p.runIn exec env s = some (a, s') → Q a s'
  | .pure _, _, _, _, h, hr => by
    cases hr
    exact h
  | .op _ _, _, _, _, h, hr => by
    obtain ⟨x, hx, hr⟩ := Option.bind_eq_some_iff.mp hr
    exact Keeps.runIn hs (h.2 _ _ (hs _ _ _ _ hx)) hr

/-- A program run to its end is a run. -/
theorem run_of_runIn {Ch : Type} {exec : (c : C) → Ch → S → Option (R c × S)} {env : C → Ch}
    (hs : ∀ c r s s', exec c (env c) s = some (r, s') → step c r s s') :
    ∀ {p : Prog C R α} {s s' : S} {a : α}, p.runIn exec env s = some (a, s') → ∃ es, Run step p s es (.pure a) s'
  | .pure _, _, _, _, hr => by
    cases hr
    exact ⟨[], .nil _ _⟩
  | .op _ _, _, _, _, hr => by
    obtain ⟨x, hx, hr⟩ := Option.bind_eq_some_iff.mp hr
    obtain ⟨es, hrun⟩ := run_of_runIn hs hr
    exact ⟨_, .cons (hs _ _ _ _ hx) hrun⟩

/-- The result of a program that is over. -/
def result? : Prog C R α → Option α
  | .pure a => some a
  | .op _ _ => none

theorem eq_pure_of_result? {p : Prog C R α} {a : α} (h : p.result? = some a) : p = .pure a := by
  cases p with
  | pure b => rw [Option.some.inj h]
  | op c k => cases h

end Prog

end Interleave
