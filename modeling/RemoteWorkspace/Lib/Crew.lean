import Mathlib.Logic.Function.Basic
import Mathlib.Tactic.Common

/-!
# Any number of parties on one shared state

A `Crew` is a shared state and as many parties as there are numbers, each with
a local state of its own. A party acts on its local state and the shared one at
once; between actions anything the environment may do to the shared state can
happen. A run takes actions of all of them in any order. `Run.inv` is the
induction over runs: what every action and the environment keep holds in every
world that is reached.
-/

/-- What party `i` may do, and what may happen around the parties; `none`
where it cannot happen. -/
structure Crew (S L A E : Type) where
  act : Nat → A → S → L → Option (S × L)
  env : E → S → Option S

namespace Crew

@[ext]
structure World (S L : Type) where
  shared : S
  party : Nat → L

inductive Label (A E : Type) where
  | act (i : Nat) (a : A)
  | env (e : E)

variable {S L A E : Type} (M : Crew S L A E)

def step (w : World S L) : Label A E → Option (World S L)
  | .act i a => (M.act i a w.shared (w.party i)).map fun p => ⟨p.1, Function.update w.party i p.2⟩
  | .env e => (M.env e w.shared).map fun s => ⟨s, w.party⟩

/-- The worlds reached from `w₀` by steps that `ok` admits. -/
inductive Run (ok : Label A E → Prop) (w₀ : World S L) : World S L → Prop
  | init : Run ok w₀ w₀
  | step {w w' : World S L} (l : Label A E) : Run ok w₀ w → ok l → step M w l = some w' → Run ok w₀ w'

def steps (w : World S L) : List (Label A E) → Option (World S L)
  | [] => some w
  | l :: ls => (step M w l).bind fun w' => steps w' ls

variable {M} {ok : Label A E → Prop} {w₀ w w' : World S L}

theorem Run.act {i : Nat} {a : A} {s : S} {l : L} (hrun : Run M ok w₀ w) (hok : ok (.act i a))
    (h : M.act i a w.shared (w.party i) = some (s, l)) : Run M ok w₀ ⟨s, Function.update w.party i l⟩ :=
  hrun.step (.act i a) hok (by simp [Crew.step, h])

/-- An invariant is kept by the actions of each party and by what happens
around them. -/
theorem Run.inv {I : World S L → Prop} (hinit : I w₀)
    (hact : ∀ w i a s l, I w → ok (.act i a) → M.act i a w.shared (w.party i) = some (s, l) →
      I ⟨s, Function.update w.party i l⟩)
    (henv : ∀ w e s, I w → ok (.env e) → M.env e w.shared = some s → I ⟨s, w.party⟩)
    (hrun : Run M ok w₀ w) : I w := by
  induction hrun with
  | init => exact hinit
  | step l _ hok hstep ih =>
    cases l with
    | act i a =>
      obtain ⟨⟨s, l⟩, h, rfl⟩ := Option.map_eq_some_iff.mp hstep
      exact hact _ i a s l ih hok h
    | env e =>
      obtain ⟨s, h, rfl⟩ := Option.map_eq_some_iff.mp hstep
      exact henv _ e s ih hok h

theorem Run.mono {ok' : Label A E → Prop} (h : ∀ l, ok l → ok' l) (hrun : Run M ok w₀ w) : Run M ok' w₀ w := by
  induction hrun with
  | init => exact .init
  | step l _ hok hstep ih => exact ih.step l (h l hok) hstep

theorem Run.trans (hrun : Run M ok w₀ w) (hrun' : Run M ok w w') : Run M ok w₀ w' := by
  induction hrun' with
  | init => exact hrun
  | step l _ hok hstep ih => exact ih.step l hok hstep

theorem run_of_steps {ls : List (Label A E)} (hok : ∀ l ∈ ls, ok l) (h : steps M w ls = some w') : Run M ok w w' := by
  induction ls generalizing w with
  | nil =>
    obtain rfl := Option.some.inj h
    exact .init
  | cons l ls ih =>
    obtain ⟨w₁, hstep, hrest⟩ := Option.bind_eq_some_iff.mp h
    exact (Run.init.step l (hok l (by simp)) hstep).trans (ih (fun l' hl' => hok l' (by simp [hl'])) hrest)

/-- Where only party `i` acts, the others stay as they are. -/
theorem party_of_steps {i j : Nat} (hj : j ≠ i) {ls : List (Label A E)} (hls : ∀ l ∈ ls, ∃ a, l = .act i a)
    (h : steps M w ls = some w') : w'.party j = w.party j := by
  induction ls generalizing w with
  | nil =>
    obtain rfl := Option.some.inj h
    rfl
  | cons l ls ih =>
    obtain ⟨w₁, hstep, hrest⟩ := Option.bind_eq_some_iff.mp h
    obtain ⟨a, rfl⟩ := hls l (by simp)
    obtain ⟨p, -, rfl⟩ := Option.map_eq_some_iff.mp hstep
    rw [ih (fun l' hl' => hls l' (by simp [hl'])) hrest]
    exact Function.update_of_ne hj _ _

/-! ## Steps under a condition -/

/-- The crew whose parties take only the steps that `P` admits. -/
def guard (M : Crew S L A E) (P : A → S → Bool) : Crew S L A E where
  act i a s l := if P a s then M.act i a s l else none
  env := M.env

theorem guard_act {P : A → S → Bool} {i : Nat} {a : A} {s s' : S} {l l' : L} :
    (M.guard P).act i a s l = some (s', l') ↔ P a s = true ∧ M.act i a s l = some (s', l') := by
  simp only [guard]
  split <;> simp_all

/-- The same for a condition on the party that takes the step. -/
def under (M : Crew S L A E) (P : Nat → A → S → L → Bool) : Crew S L A E where
  act i a s l := if P i a s l then M.act i a s l else none
  env := M.env

theorem under_act {P : Nat → A → S → L → Bool} {i : Nat} {a : A} {s s' : S} {l l' : L} :
    (M.under P).act i a s l = some (s', l') ↔ P i a s l = true ∧ M.act i a s l = some (s', l') := by
  simp only [under]
  split <;> simp_all

theorem Run.of_under {P : Nat → A → S → L → Bool} (hrun : Run (M.under P) ok w₀ w) : Run M ok w₀ w := by
  induction hrun with
  | init => exact .init
  | step l _ hok hstep ih =>
    refine ih.step l hok ?_
    cases l with
    | act i a =>
      obtain ⟨p, hact, rfl⟩ := Option.map_eq_some_iff.mp hstep
      exact Option.map_eq_some_iff.mpr ⟨p, (under_act.mp hact).2, rfl⟩
    | env e => exact hstep

/-- Steps that an invariant shows to be admitted are steps under the condition. -/
theorem Run.under {P : Nat → A → S → L → Bool} {I : World S L → Prop} (hinit : I w₀)
    (hact : ∀ w i a s l, I w → ok (.act i a) → M.act i a w.shared (w.party i) = some (s, l) →
      P i a w.shared (w.party i) = true ∧ I ⟨s, Function.update w.party i l⟩)
    (henv : ∀ w e s, I w → ok (.env e) → M.env e w.shared = some s → I ⟨s, w.party⟩)
    (hrun : Run M ok w₀ w) : Run (M.under P) ok w₀ w ∧ I w := by
  induction hrun with
  | init => exact ⟨.init, hinit⟩
  | step l _ hok hstep ih =>
    obtain ⟨hrun, hinv⟩ := ih
    cases l with
    | act i a =>
      obtain ⟨⟨s, l⟩, h, rfl⟩ := Option.map_eq_some_iff.mp hstep
      obtain ⟨hP, hinv'⟩ := hact _ i a s l hinv hok h
      exact ⟨hrun.act hok (under_act.mpr ⟨hP, h⟩), hinv'⟩
    | env e =>
      obtain ⟨s, h, rfl⟩ := Option.map_eq_some_iff.mp hstep
      exact ⟨hrun.step (.env e) hok hstep, henv _ e s hinv hok h⟩

/-! ## Facts about every party -/

/-- What a fact about every party asks when party `i` acts: it for the new
local state, and that the others keep it. -/
theorem forall_update {P : Nat → L → Prop} {party : Nat → L} {i : Nat} {l : L} (hi : P i l)
    (hothers : ∀ j, j ≠ i → P j (party j)) : ∀ j, P j (Function.update party i l j) := by
  intro j
  by_cases hj : j = i
  · subst hj
    rwa [Function.update_self]
  · rw [Function.update_of_ne hj]
    exact hothers j hj

theorem eq_of_update {party : Nat → L} {i j : Nat} {l l' : L} (h : Function.update party i l j = l') :
    j = i ∧ l = l' ∨ j ≠ i ∧ party j = l' := by
  by_cases hj : j = i
  · subst hj
    exact .inl ⟨rfl, by rwa [Function.update_self] at h⟩
  · exact .inr ⟨hj, by rwa [Function.update_of_ne hj] at h⟩

/-- What one party may find of a lock, or leave of it, is not another's. -/
theorem not_held {i j : Nat} (hij : j ≠ i) {lock : Option Nat} (h : lock = none ∨ lock = some i) : lock ≠ some j := by
  rcases h with rfl | rfl
  · simp
  · simpa using hij.symm

end Crew
