import Mathlib.Data.List.Forall2
import RemoteWorkspace.Lib.Prog

/-!
# Processes that run programs side by side, crash and start again

A `Machine` is one process with a durable part. While it is up, any number of
programs run on one shared state, a command at a time, in any order; a crash
ends all of them at once, keeping only the durable part, possibly with the
partial effect of the one command under way; a boot computes a new shared
state from the durable part, or fails and leaves a durable part behind.

`Machine.inv_of_run` is the induction over runs, done once: an invariant `J`
of the shared state and of the local states of the programs running on it, and
an invariant `K` of the durable part, hold in every run if every step of the
automaton the programs conform to keeps `J`, a crash turns `J` into `K`, and a
boot turns `K` into `J`.
-/

namespace Interleave

/-- A process. `exec` runs one command of the `n`-th program ever started,
with what its environment answers; it is `none` while the command blocks.
`crash` is given the command under way, if any. -/
structure Machine (C : Type) (R : C → Type) where
  Shared : Type
  Durable : Type
  Request : Type
  Choice : Type
  Cut : Type
  Boot : Type
  Env : Type
  prog : Request → Prog C R Unit
  exec : Nat → (c : C) → Choice → Shared → Option (R c × Shared)
  crash : Cut → Option C → Shared → Option Durable
  boot : Boot → Durable → Option (Durable ⊕ Shared)
  envUp : Env → Shared → Shared
  envDown : Env → Durable → Durable

namespace Machine

variable {C : Type} {R : C → Type} (M : Machine C R)

/-- A process that is down, or up with its programs. `base` programs ran in
the sessions before this one, so the `i`-th of this one is number `base + i`. -/
inductive World where
  | down (d : M.Durable) (base : Nat)
  | up (s : M.Shared) (threads : List (Prog C R Unit)) (base : Nat)

inductive Label where
  | spawn (q : M.Request)
  | step (i : Nat) (ch : M.Choice)
  | crash (x : M.Cut) (i : Option Nat)
  | boot (b : M.Boot)
  | env (e : M.Env)

variable {M}

/-- The command that program `i` is about to issue. -/
def inFlight (threads : List (Prog C R Unit)) (i : Option Nat) : Option C :=
  i.bind fun i => threads[i]?.bind Prog.command?

def step : M.World → M.Label → Option M.World
  | .up s ts n, .spawn q => some (.up s (ts ++ [M.prog q]) n)
  | .up s ts n, .step i ch =>
    match ts[i]? with
    | some (.op c k) => (M.exec (n + i) c ch s).map fun p => .up p.2 (ts.set i (k p.1)) n
    | _ => none
  | .up s ts n, .crash x i => (M.crash x (inFlight ts i) s).map fun d => .down d (n + ts.length)
  | .up s ts n, .env e => some (.up (M.envUp e s) ts n)
  | .down d n, .boot b =>
    (M.boot b d).map fun
      | .inl d' => .down d' n
      | .inr s => .up s [] n
  | .down d n, .env e => some (.down (M.envDown e d) n)
  | _, _ => none

/-- The worlds reached from `w₀` by steps that `ok` admits. -/
inductive Run (ok : M.World → M.Label → Bool) (w₀ : M.World) : M.World → Prop where
  | init : Run ok w₀ w₀
  | step {w w' : M.World} (l : M.Label) :
      Run ok w₀ w → ok w l = true → step w l = some w' → Run ok w₀ w'

/-- These steps, each of them admitted by `ok`. -/
def okSteps (ok : M.World → M.Label → Bool) : M.World → List M.Label → Option M.World
  | w, [] => some w
  | w, l :: ls => if ok w l then (step w l).bind fun w' => okSteps ok w' ls else none

theorem Run.okSteps {ok : M.World → M.Label → Bool} {w₀ : M.World} :
    ∀ {ls : List M.Label} {w w' : M.World}, Run ok w₀ w → okSteps ok w ls = some w' → Run ok w₀ w'
  | [], _, _, hr, h => by
    simp only [Machine.okSteps, Option.some.injEq] at h
    exact h ▸ hr
  | l :: ls, w, w', hr, h => by
    simp only [Machine.okSteps] at h
    split at h
    · rename_i hok
      obtain ⟨w₁, h₁, h₂⟩ := Option.bind_eq_some_iff.mp h
      exact (hr.step l hok h₁).okSteps h₂
    · cases h

/-! ## Invariants -/

variable {L : Type} (next : L → (c : C) → R c → Option L)

/-- The invariant of worlds made of `J` and `K`: while the process is up, each
program conforms from a local state of its own. -/
def Inv (J : M.Shared → List L → Nat → Prop) (K : M.Durable → Nat → Prop) : M.World → Prop
  | .down d n => K d n
  | .up s ts n => ∃ ctx : List L, J s ctx n ∧
      List.Forall₂ (fun p ℓ => p.Conforms next (fun _ _ => True) ℓ) ts ctx

/-- What a machine owes for `J` and `K` to be an invariant of its runs. -/
structure Keeps (ok : M.World → M.Label → Bool) (ℓ₀ : L) (J : M.Shared → List L → Nat → Prop)
    (K : M.Durable → Nat → Prop) : Prop where
  prog : ∀ q, (M.prog q).Conforms next (fun _ _ => True) ℓ₀
  spawn : ∀ {s ts ctx n q}, ok (.up s ts n) (.spawn q) = true → J s ctx n → J s (ctx ++ [ℓ₀]) n
  exec : ∀ {s s' ts ctx n i c ch r ℓ ℓ'}, ok (.up s ts n) (.step i ch) = true →
    inFlight ts (some i) = some c → J s ctx n → ctx[i]? = some ℓ → next ℓ c r = some ℓ' →
    M.exec (n + i) c ch s = some (r, s') → J s' (ctx.set i ℓ') n
  crash : ∀ {s d ts ctx n x i}, ok (.up s ts n) (.crash x i) = true → J s ctx n →
    (∀ j c, i = some j → inFlight ts (some j) = some c →
      ∃ ℓ, ctx[j]? = some ℓ ∧ ∀ r, ∃ ℓ', next ℓ c r = some ℓ') →
    ctx.length = ts.length → M.crash x (inFlight ts i) s = some d → K d (n + ts.length)
  bootUp : ∀ {d s b n}, ok (.down d n) (.boot b) = true → K d n →
    M.boot b d = some (.inr s) → J s [] n
  bootDown : ∀ {d d' b n}, ok (.down d n) (.boot b) = true → K d n →
    M.boot b d = some (.inl d') → K d' n
  envUp : ∀ {s ts ctx n e}, ok (.up s ts n) (.env e) = true → J s ctx n → J (M.envUp e s) ctx n
  envDown : ∀ {d n e}, ok (.down d n) (.env e) = true → K d n → K (M.envDown e d) n

variable {next}

theorem getElem?_of_inFlight {ts : List (Prog C R Unit)} {i : Nat} {c : C}
    (h : inFlight ts (some i) = some c) : ∃ k, ts[i]? = some (.op c k) := by
  simp only [inFlight, Option.bind_some, Option.bind_eq_some_iff] at h
  obtain ⟨p, hp, hc⟩ := h
  cases p with
  | pure => cases hc
  | op c' k => cases hc; exact ⟨k, hp⟩

theorem inFlight_of_getElem? {ts : List (Prog C R Unit)} {i : Nat} {c : C} {k : R c → Prog C R Unit}
    (h : ts[i]? = some (.op c k)) : inFlight ts (some i) = some c := by
  simp [inFlight, h, Prog.command?]

/-- The local state of a program under way, and that its command is allowed
there whatever its result. -/
theorem conforms_getElem? {ts : List (Prog C R Unit)} {ctx : List L} {i : Nat} {c : C}
    {k : R c → Prog C R Unit}
    (h : List.Forall₂ (fun p ℓ => Prog.Conforms next (fun _ _ => True) p ℓ) ts ctx)
    (hi : ts[i]? = some (.op c k)) :
    ∃ ℓ, ctx[i]? = some ℓ ∧ (Prog.op c k).Conforms next (fun _ _ => True) ℓ := by
  obtain ⟨hlt, hp⟩ := List.getElem?_eq_some_iff.mp hi
  have hlt' : i < ctx.length := h.length_eq ▸ hlt
  refine ⟨ctx[i], List.getElem?_eq_getElem hlt', ?_⟩
  have := List.forall₂_iff_get.mp h |>.2 i hlt hlt'
  simpa [hp] using this

theorem forall₂_set {A B : Type} {P : A → B → Prop} {xs : List A} {ys : List B} {i : Nat} {x : A} {y : B}
    (h : List.Forall₂ P xs ys) (hxy : P x y) : List.Forall₂ P (xs.set i x) (ys.set i y) := by
  induction h generalizing i with
  | nil => simp
  | cons hp _ ih =>
    cases i with
    | zero => exact .cons hxy ‹_›
    | succ i => exact .cons hp ih

theorem getElem?_set_cases {A : Type} {xs : List A} {i j : Nat} {x y : A}
    (h : (xs.set i x)[j]? = some y) : j = i ∧ y = x ∨ j ≠ i ∧ xs[j]? = some y := by
  rw [List.getElem?_set] at h
  split at h
  · split at h
    · exact .inl ⟨(‹i = j›).symm, (Option.some.inj h).symm⟩
    · cases h
  · exact .inr ⟨Ne.symm ‹_›, h⟩

theorem getElem?_concat_cases {A : Type} {xs : List A} {j : Nat} {x y : A}
    (h : (xs ++ [x])[j]? = some y) : y = x ∧ j = xs.length ∨ xs[j]? = some y := by
  rw [List.getElem?_append] at h
  split at h
  · exact .inr h
  · left
    obtain ⟨hlt, heq⟩ := List.getElem?_eq_some_iff.mp h
    rw [List.length_singleton] at hlt
    exact ⟨by simpa using heq.symm, by omega⟩

theorem set_of_getElem? {A : Type} {xs : List A} {i : Nat} {x : A} (h : xs[i]? = some x) :
    xs.set i x = xs := by
  apply List.ext_getElem?
  intro j
  rw [List.getElem?_set]
  split
  · rename_i hij
    subst hij
    rw [h, if_pos (List.getElem?_eq_some_iff.mp h).1]
  · rfl

variable {ok : M.World → M.Label → Bool} {ℓ₀ : L} {J : M.Shared → List L → Nat → Prop}
  {K : M.Durable → Nat → Prop}

theorem Keeps.step (hk : Keeps next ok ℓ₀ J K) {w w' : M.World} {l : M.Label} (hw : Inv next J K w)
    (hok : ok w l = true) (hs : step w l = some w') : Inv next J K w' := by
  cases w with
  | down d n =>
    cases l with
    | boot b =>
      simp only [Machine.step, Option.map_eq_some_iff] at hs
      obtain ⟨o, ho, rfl⟩ := hs
      cases o with
      | inl d' => exact hk.bootDown hok hw ho
      | inr s => exact ⟨[], hk.bootUp hok hw ho, .nil⟩
    | env e =>
      simp only [Machine.step, Option.some.injEq] at hs
      subst hs
      exact hk.envDown hok hw
    | spawn q => cases hs
    | step i ch => cases hs
    | crash x i => cases hs
  | up s ts n =>
    obtain ⟨ctx, hJ, hc⟩ := hw
    cases l with
    | spawn q =>
      simp only [Machine.step, Option.some.injEq] at hs
      subst hs
      exact ⟨_, hk.spawn hok hJ, List.rel_append hc (.cons (hk.prog q) .nil)⟩
    | step i ch =>
      simp only [Machine.step] at hs
      split at hs
      · rename_i c k hi
        obtain ⟨⟨r, s'⟩, he, rfl⟩ := Option.map_eq_some_iff.mp hs
        obtain ⟨ℓ, hℓ, hcf⟩ := conforms_getElem? hc hi
        obtain ⟨ℓ', hn, hcf'⟩ := hcf r
        exact ⟨_, hk.exec hok (inFlight_of_getElem? hi) hJ hℓ hn he, forall₂_set hc hcf'⟩
      · cases hs
    | crash x i =>
      simp only [Machine.step, Option.map_eq_some_iff] at hs
      obtain ⟨d, hd, rfl⟩ := hs
      refine hk.crash hok hJ (fun j c _ hj => ?_) hc.length_eq.symm hd
      obtain ⟨k, hts⟩ := getElem?_of_inFlight hj
      obtain ⟨ℓ, hℓ, hcf⟩ := conforms_getElem? hc hts
      exact ⟨ℓ, hℓ, fun r => let ⟨ℓ', hn, _⟩ := hcf r; ⟨ℓ', hn⟩⟩
    | boot b => cases hs
    | env e =>
      simp only [Machine.step, Option.some.injEq] at hs
      subst hs
      exact ⟨ctx, hk.envUp hok hJ, hc⟩

/-- Every world of a run satisfies an invariant that the machine keeps. -/
theorem inv_of_run (hk : Keeps next ok ℓ₀ J K) {w₀ w : M.World} (h₀ : Inv next J K w₀)
    (hr : Run ok w₀ w) : Inv next J K w := by
  induction hr with
  | init => exact h₀
  | step l _ hok hs ih => exact hk.step ih hok hs

end Machine

end Interleave
