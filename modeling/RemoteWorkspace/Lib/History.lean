import RemoteWorkspace.Lib.Machine

/-!
# Histories of runs

A run of a machine with what happened in it, in order (`Machine.History`):
which program was started when and for which request, what each command
returned, and where a session ended and the next began.

`Machine.told_of_history` is the induction over runs for invariants that speak
of the history. Here a program's local state is that of its request from the
start, and `final` says where a program may end.
-/

namespace Interleave

namespace Machine

variable {C : Type} {R : C → Type} {M : Machine C R} {L : Type}

inductive Moment (M : Machine C R) where
  /-- The `n`-th program was started. -/
  | spawned (n : Nat) (q : M.Request)
  | did (n : Nat) (e : Event C R)
  | crashed (d : M.Durable)
  | failed (d : M.Durable)
  | started (s : M.Shared)

/-- What a step that takes place adds to the history. -/
def moments : M.World → M.Label → List (Moment M)
  | .up _ ts n, .spawn q => [.spawned (n + ts.length) q]
  | .up s ts n, .step i ch =>
    match ts[i]? with
    | some (.op c _) => ((M.exec (n + i) c ch s).map fun p => Moment.did (n + i) ⟨c, p.1⟩).toList
    | _ => []
  | .up s ts _, .crash x i => ((M.crash x (inFlight ts i) s).map Moment.crashed).toList
  | .down d _, .boot b =>
    ((M.boot b d).map fun
      | .inl d' => Moment.failed d'
      | .inr s => .started s).toList
  | _, _ => []

/-- The worlds reached from `w₀` by steps that `ok` admits, and how. -/
inductive History (ok : M.World → M.Label → Bool) (w₀ : M.World) : List (Moment M) → M.World → Prop where
  | init : History ok w₀ [] w₀
  | step {tr : List (Moment M)} {w w' : M.World} (l : M.Label) :
      History ok w₀ tr w → ok w l = true → Machine.step w l = some w' →
        History ok w₀ (tr ++ moments w l) w'

/-- The history of these steps, each of them admitted by `ok`. -/
def historyOf (ok : M.World → M.Label → Bool) :
    M.World → List M.Label → Option (List (Moment M) × M.World)
  | w, [] => some ([], w)
  | w, l :: ls =>
    if ok w l then (step w l).bind fun w' => (historyOf ok w' ls).map fun p => (moments w l ++ p.1, p.2)
    else none

theorem History.append {ok : M.World → M.Label → Bool} {w₀ w w' : M.World} {ls : List M.Label}
    {tr tr' : List (Moment M)} (h : History ok w₀ tr w) (hs : historyOf ok w ls = some (tr', w')) :
    History ok w₀ (tr ++ tr') w' := by
  induction ls generalizing tr tr' w with
  | nil =>
    cases hs
    rw [List.append_nil]
    exact h
  | cons l ls ih =>
    simp only [historyOf] at hs
    split at hs
    · rename_i hok
      obtain ⟨w₁, h₁, hs⟩ := Option.bind_eq_some_iff.mp hs
      obtain ⟨⟨tr₁, w₂⟩, h₂, hs⟩ := Option.map_eq_some_iff.mp hs
      cases hs
      rw [← List.append_assoc]
      exact ih (h.step l hok h₁) h₂
    · cases hs

/-- A step adds one moment at most. -/
theorem moments_cases (w : M.World) (l : M.Label) : moments w l = [] ∨ ∃ x, moments w l = [x] := by
  have htoList : ∀ o : Option (Moment M), o.toList = [] ∨ ∃ x, o.toList = [x] := by
    intro o
    cases o with
    | none => exact .inl rfl
    | some x => exact .inr ⟨x, rfl⟩
  unfold moments
  split
  · exact .inr ⟨_, rfl⟩
  · split
    · exact htoList _
    · exact .inl rfl
  · exact htoList _
  · exact htoList _
  · exact .inl rfl

/-- A history goes through a world between any two of its moments. -/
theorem History.split {ok : M.World → M.Label → Bool} {w₀ w : M.World} {tr₁ tr₂ : List (Moment M)}
    (h : History ok w₀ (tr₁ ++ tr₂) w) : ∃ w₁, History ok w₀ tr₁ w₁ ∧ History ok w₁ tr₂ w := by
  generalize htr : tr₁ ++ tr₂ = tr at h
  induction h generalizing tr₂ with
  | init =>
    obtain ⟨rfl, rfl⟩ := List.append_eq_nil_iff.mp htr
    exact ⟨w₀, .init, .init⟩
  | @step tr w w' l h hok hs ih =>
    rcases List.eq_nil_or_concat tr₂ with rfl | ⟨ms, x, rfl⟩
    · rw [List.append_nil] at htr
      subst htr
      exact ⟨w', h.step l hok hs, .init⟩
    · rw [List.concat_eq_append] at htr ⊢
      rcases moments_cases w l with hm | ⟨y, hm⟩
      · rw [hm, List.append_nil] at htr
        obtain ⟨w₁, h₁, h₂⟩ := ih htr
        have h₂' := h₂.step l hok hs
        rw [hm, List.append_nil] at h₂'
        exact ⟨w₁, h₁, h₂'⟩
      · rw [hm, ← List.append_assoc] at htr
        obtain ⟨htr, hxy⟩ := List.append_inj' htr rfl
        obtain ⟨w₁, h₁, h₂⟩ := ih htr
        have h₂' := h₂.step l hok hs
        rw [hm, ← hxy] at h₂'
        exact ⟨w₁, h₁, h₂'⟩

/-- The world of a run, its programs conforming from local states of their
own. -/
def Told (next : L → (c : C) → R c → Option L) (final : L → Prop)
    (J : List (Moment M) → M.Shared → List L → Nat → Prop) (K : List (Moment M) → M.Durable → Nat → Prop)
    (tr : List (Moment M)) : M.World → Prop
  | .down d n => K tr d n
  | .up s ts n => ∃ ctx : List L, J tr s ctx n ∧
      List.Forall₂ (fun p ℓ => p.Conforms next (fun ℓ _ => final ℓ) ℓ) ts ctx

/-- What a machine owes for `J` and `K` to hold in all its histories. -/
structure Tells (next : L → (c : C) → R c → Option L) (init : M.Request → L) (final : L → Prop)
    (ok : M.World → M.Label → Bool) (J : List (Moment M) → M.Shared → List L → Nat → Prop)
    (K : List (Moment M) → M.Durable → Nat → Prop) : Prop where
  prog : ∀ q, (M.prog q).Conforms next (fun ℓ _ => final ℓ) (init q)
  spawn : ∀ {tr s ts ctx n q}, ok (.up s ts n) (.spawn q) = true → J tr s ctx n →
    J (tr ++ [.spawned (n + ctx.length) q]) s (ctx ++ [init q]) n
  exec : ∀ {tr s s' ts ctx n i c ch r ℓ ℓ'}, ok (.up s ts n) (.step i ch) = true → J tr s ctx n →
    ctx[i]? = some ℓ → next ℓ c r = some ℓ' → M.exec (n + i) c ch s = some (r, s') →
    J (tr ++ [.did (n + i) ⟨c, r⟩]) s' (ctx.set i ℓ') n
  crash : ∀ {tr s d ts ctx n x i}, ok (.up s ts n) (.crash x i) = true → J tr s ctx n →
    (∀ c, inFlight ts i = some c → ∃ (j : Nat) (ℓ : L), ctx[j]? = some ℓ ∧ ∀ r, ∃ ℓ', next ℓ c r = some ℓ') →
    M.crash x (inFlight ts i) s = some d → K (tr ++ [.crashed d]) d (n + ctx.length)
  bootUp : ∀ {tr d s b n}, ok (.down d n) (.boot b) = true → K tr d n → M.boot b d = some (.inr s) →
    J (tr ++ [.started s]) s [] n
  bootDown : ∀ {tr d d' b n}, ok (.down d n) (.boot b) = true → K tr d n →
    M.boot b d = some (.inl d') → K (tr ++ [.failed d']) d' n
  envUp : ∀ {tr s ts ctx n e}, ok (.up s ts n) (.env e) = true → J tr s ctx n → J tr (M.envUp e s) ctx n
  envDown : ∀ {tr d n e}, ok (.down d n) (.env e) = true → K tr d n → K tr (M.envDown e d) n

variable {next : L → (c : C) → R c → Option L} {init : M.Request → L} {final : L → Prop}
  {ok : M.World → M.Label → Bool} {J : List (Moment M) → M.Shared → List L → Nat → Prop}
  {K : List (Moment M) → M.Durable → Nat → Prop}

theorem conforms_of_getElem? {post : L → Unit → Prop} {ts : List (Prog C R Unit)} {ctx : List L} {i : Nat}
    {p : Prog C R Unit} (h : List.Forall₂ (fun p ℓ => Prog.Conforms next post p ℓ) ts ctx)
    (hi : ts[i]? = some p) : ∃ ℓ, ctx[i]? = some ℓ ∧ p.Conforms next post ℓ := by
  obtain ⟨hlt, rfl⟩ := List.getElem?_eq_some_iff.mp hi
  have hlt' : i < ctx.length := h.length_eq ▸ hlt
  exact ⟨ctx[i], List.getElem?_eq_getElem hlt', List.forall₂_iff_get.mp h |>.2 i hlt hlt'⟩

theorem Tells.step (ht : Tells next init final ok J K) {tr : List (Moment M)} {w w' : M.World} {l : M.Label}
    (hw : Told next final J K tr w) (hok : ok w l = true) (hs : Machine.step w l = some w') :
    Told next final J K (tr ++ moments w l) w' := by
  cases w with
  | down d n =>
    cases l with
    | boot b =>
      simp only [Machine.step, Option.map_eq_some_iff] at hs
      obtain ⟨o, ho, rfl⟩ := hs
      simp only [moments, ho, Option.map_some, Option.toList_some]
      cases o with
      | inl d' => exact ht.bootDown hok hw ho
      | inr s => exact ⟨[], ht.bootUp hok hw ho, .nil⟩
    | env e =>
      simp only [Machine.step, Option.some.injEq] at hs
      subst hs
      simp only [moments, List.append_nil]
      exact ht.envDown hok hw
    | spawn q => cases hs
    | step i ch => cases hs
    | crash x i => cases hs
  | up s ts n =>
    obtain ⟨ctx, hJ, hc⟩ := hw
    cases l with
    | spawn q =>
      simp only [Machine.step, Option.some.injEq] at hs
      subst hs
      simp only [moments, hc.length_eq]
      exact ⟨_, ht.spawn hok hJ, List.rel_append hc (.cons (ht.prog q) .nil)⟩
    | step i ch =>
      simp only [Machine.step] at hs
      split at hs
      · rename_i c k hi
        obtain ⟨⟨r, s'⟩, he, rfl⟩ := Option.map_eq_some_iff.mp hs
        simp only [moments, hi, he, Option.map_some, Option.toList_some]
        obtain ⟨ℓ, hℓ, hcf⟩ := conforms_of_getElem? hc hi
        obtain ⟨ℓ', hn, hcf'⟩ := hcf r
        exact ⟨_, ht.exec hok hJ hℓ hn he, forall₂_set hc hcf'⟩
      · cases hs
    | crash x i =>
      simp only [Machine.step, Option.map_eq_some_iff] at hs
      obtain ⟨d, hd, rfl⟩ := hs
      simp only [moments, hd, Option.map_some, Option.toList_some]
      show K _ d (n + ts.length)
      rw [hc.length_eq]
      refine ht.crash hok hJ (fun c hj => ?_) hd
      cases i with
      | none => cases hj
      | some j =>
        obtain ⟨k, hts⟩ := getElem?_of_inFlight hj
        obtain ⟨ℓ, hℓ, hcf⟩ := conforms_of_getElem? hc hts
        exact ⟨j, ℓ, hℓ, fun r => (hcf r).imp fun ℓ' h => h.1⟩
    | boot b => cases hs
    | env e =>
      simp only [Machine.step, Option.some.injEq] at hs
      subst hs
      simp only [moments, List.append_nil]
      exact ⟨ctx, ht.envUp hok hJ, hc⟩

/-- In every history, `J` holds while the process is up and `K` while it is
down. -/
theorem told_of_history (ht : Tells next init final ok J K) {w₀ w : M.World} {tr : List (Moment M)}
    (h₀ : Told next final J K [] w₀) (h : History ok w₀ tr w) : Told next final J K tr w := by
  induction h with
  | init => exact h₀
  | step l _ hok hs ih => exact ht.step ih hok hs

end Machine

end Interleave
