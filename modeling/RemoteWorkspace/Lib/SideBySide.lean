import RemoteWorkspace.Lib.Prog

/-!
# Two programs side by side

Two programs run on one state, a command at a time, in the order a schedule
gives (`Pair.run`). A run leaves a trace: who issued which command, and what
it returned. What one of the two did is a path through its own program
(`Prog.Path`), whatever the other did in between (`Pair.run_left`,
`Pair.run_right`); what the other did shows only in the results, through the
state. `Pair.run_trace` is the rule for that: an invariant of the state that
all commands of both programs keep bounds the results of all of them.
-/

namespace Interleave

variable {C : Type} {R : C → Type} {α β ε S Ch : Type}

namespace Prog

/-- The program has ended, and not in an error. -/
def succeeded : Prog C R (Except ε α) → Bool
  | .pure (.ok _) => true
  | _ => false

theorem succeeded_iff {p : Prog C R (Except ε α)} : p.succeeded = true ↔ ∃ a, p = .pure (.ok a) := by
  unfold succeeded
  split
  · simp
  · rename_i hno
    simp only [Bool.false_eq_true, false_iff]
    rintro ⟨a, rfl⟩
    exact hno a rfl

/-! ## Paths -/

/-- `p` goes through the events `es`, after which `p'` is left of it. -/
inductive Path : Prog C R α → List (Event C R) → Prog C R α → Prop where
  | nil (p : Prog C R α) : Path p [] p
  | cons {c : C} {k : R c → Prog C R α} {r : R c} {es : List (Event C R)} {p' : Prog C R α} :
      Path (k r) es p' → Path (.op c k) (⟨c, r⟩ :: es) p'

theorem path_pure {a : α} {es : List (Event C R)} {p' : Prog C R α} :
    Path (.pure a) es p' ↔ es = [] ∧ p' = .pure a := by
  constructor
  · intro h
    cases h
    exact ⟨rfl, rfl⟩
  · rintro ⟨rfl, rfl⟩
    exact .nil _

/-- A program that is about to issue a command has done nothing yet, or goes on
with its result. -/
theorem path_op {c : C} {k : R c → Prog C R α} {es : List (Event C R)} {p' : Prog C R α} :
    Path (.op c k) es p' ↔
      es = [] ∧ p' = .op c k ∨ ∃ r es', es = ⟨c, r⟩ :: es' ∧ Path (k r) es' p' := by
  constructor
  · intro h
    cases h with
    | nil => exact .inl ⟨rfl, rfl⟩
    | cons h => exact .inr ⟨_, _, rfl, h⟩
  · rintro (⟨rfl, rfl⟩ | ⟨r, es', rfl, h⟩)
    · exact .nil _
    · exact .cons h

theorem path_op_end {c : C} {k : R c → Prog C R α} {es : List (Event C R)} {a : α} :
    Path (.op c k) es (.pure a) ↔ ∃ r es', es = ⟨c, r⟩ :: es' ∧ Path (k r) es' (.pure a) := by
  simp [path_op]

/-- A path of a sequence to its end is a path of each part to its end. -/
theorem path_bind {p : Prog C R α} {f : α → Prog C R β} {es : List (Event C R)} {b : β} :
    Path (p >>= f) es (.pure b) ↔
      ∃ es₁ es₂ a, es = es₁ ++ es₂ ∧ Path p es₁ (.pure a) ∧ Path (f a) es₂ (.pure b) := by
  induction p generalizing es with
  | pure a =>
    simp only [pure_bind, path_pure]
    constructor
    · intro h
      exact ⟨[], es, a, rfl, ⟨rfl, rfl⟩, h⟩
    · rintro ⟨es₁, es₂, a', rfl, ⟨rfl, ha⟩, h⟩
      cases ha
      exact h
  | op c k ih =>
    rw [op_bind, path_op_end]
    constructor
    · rintro ⟨r, es', rfl, h⟩
      obtain ⟨es₁, es₂, a, rfl, h₁, h₂⟩ := (ih r).mp h
      exact ⟨⟨c, r⟩ :: es₁, es₂, a, rfl, .cons h₁, h₂⟩
    · rintro ⟨es₁, es₂, a, rfl, h₁, h₂⟩
      obtain ⟨r, es', rfl, hk⟩ := path_op_end.mp h₁
      exact ⟨r, es' ++ es₂, rfl, (ih r).mpr ⟨es', es₂, a, rfl, hk, h₂⟩⟩

/-- A sequence succeeds by way of its first part's success. -/
theorem path_ok {x : ExceptT ε (Prog C R) α} {f : α → ExceptT ε (Prog C R) β} {es : List (Event C R)}
    {b : β} :
    Path (x >>= f).run es (.pure (.ok b)) ↔
      ∃ es₁ es₂ a, es = es₁ ++ es₂ ∧ Path x.run es₁ (.pure (.ok a)) ∧ Path (f a).run es₂ (.pure (.ok b)) := by
  rw [ExceptT.run_bind, path_bind]
  constructor
  · rintro ⟨es₁, es₂, o, rfl, h₁, h₂⟩
    cases o with
    | ok a => exact ⟨es₁, es₂, a, rfl, h₁, h₂⟩
    | error e => cases (path_pure.mp h₂).2
  · rintro ⟨es₁, es₂, a, rfl, h₁, h₂⟩
    exact ⟨es₁, es₂, .ok a, rfl, h₁, h₂⟩

end Prog

/-! ## Two programs on one state -/

inductive Side where
  | left
  | right
  deriving DecidableEq, Repr

structure Pair (S C : Type) (R : C → Type) (α β : Type) where
  state : S
  left : Prog C R α
  right : Prog C R β

namespace Pair

variable (exec : (c : C) → Ch → S → Option (R c × S))

/-- One command of one of the two, given what it meets. -/
def move (P : Pair S C R α β) : Side × Ch → Option ((Side × Event C R) × Pair S C R α β)
  | (.left, ch) =>
    match P.left with
    | .op c k =>
      (exec c ch P.state).map fun x => ((.left, ⟨c, x.1⟩), { P with state := x.2, left := k x.1 })
    | .pure _ => none
  | (.right, ch) =>
    match P.right with
    | .op c k =>
      (exec c ch P.state).map fun x => ((.right, ⟨c, x.1⟩), { P with state := x.2, right := k x.1 })
    | .pure _ => none

/-- The commands of a schedule, with their trace. -/
def run : List (Side × Ch) → Pair S C R α β → Option (List (Side × Event C R) × Pair S C R α β)
  | [], P => some ([], P)
  | m :: ms, P => (move exec P m).bind fun x => (run ms x.2).map fun y => (x.1 :: y.1, y.2)

/-- What is one side's of a trace, or of a schedule. -/
def ofSide {X : Type} (d : Side) (l : List (Side × X)) : List X := l.filterMap fun x => if x.1 = d then some x.2 else none

section

variable {X : Type}

theorem ofSide_same (d : Side) (e : X) (l : List (Side × X)) : ofSide d ((d, e) :: l) = e :: ofSide d l := by
  simp [ofSide]

theorem ofSide_other {d d' : Side} (h : d' ≠ d) (e : X) (l : List (Side × X)) : ofSide d ((d', e) :: l) = ofSide d l := by
  simp [ofSide, h]

theorem ofSide_append (d : Side) (l l' : List (Side × X)) : ofSide d (l ++ l') = ofSide d l ++ ofSide d l' := by
  simp [ofSide]

theorem mem_ofSide {d : Side} {l : List (Side × X)} {e : X} : e ∈ ofSide d l ↔ (d, e) ∈ l := by
  simp only [ofSide, List.mem_filterMap, Option.ite_none_right_eq_some, Option.some.injEq]
  constructor
  · rintro ⟨⟨_, _⟩, h, rfl, rfl⟩
    exact h
  · intro h
    exact ⟨_, h, rfl, rfl⟩

/-- What comes before one side's `n`-th, that one, and what comes after it. -/
def cut (d : Side) : Nat → List (Side × X) → Option (List (Side × X) × X × List (Side × X))
  | _, [] => none
  | n, x :: l =>
    if x.1 = d then
      match n with
      | 0 => some ([], x.2, l)
      | n + 1 => (cut d n l).map fun y => (x :: y.1, y.2)
    else (cut d n l).map fun y => (x :: y.1, y.2)

theorem cut_append (d : Side) (e : X) (l₁ l₂ : List (Side × X)) :
    cut d (ofSide d l₁).length (l₁ ++ (d, e) :: l₂) = some (l₁, e, l₂) := by
  induction l₁ with
  | nil => simp [cut, ofSide]
  | cons x l₁ ih =>
    obtain ⟨d', e'⟩ := x
    by_cases hd : d' = d
    · subst hd
      rw [ofSide_same]
      simp [cut, ih]
    · rw [ofSide_other hd]
      simp [cut, hd, ih]

theorem split_of_cut {d : Side} {n : Nat} {l l₁ l₂ : List (Side × X)} {e : X} (h : cut d n l = some (l₁, e, l₂)) :
    l = l₁ ++ (d, e) :: l₂ ∧ (ofSide d l₁).length = n := by
  induction l generalizing n l₁ with
  | nil => cases h
  | cons x l ih =>
    obtain ⟨d', e'⟩ := x
    by_cases hd : d' = d
    · subst hd
      cases n with
      | zero =>
        simp only [cut, if_pos] at h
        cases h
        exact ⟨rfl, rfl⟩
      | succ n =>
        simp only [cut, if_pos] at h
        obtain ⟨⟨l₁', e₁, l₂'⟩, h', heq⟩ := Option.map_eq_some_iff.mp h
        cases heq
        obtain ⟨rfl, hn⟩ := ih h'
        exact ⟨rfl, by rw [ofSide_same, List.length_cons, hn]⟩
    · simp only [cut, if_neg hd] at h
      obtain ⟨⟨l₁', e₁, l₂'⟩, h', heq⟩ := Option.map_eq_some_iff.mp h
      cases heq
      obtain ⟨rfl, hn⟩ := ih h'
      exact ⟨rfl, by rw [ofSide_other hd, hn]⟩

theorem getElem?_of_cut {d : Side} {n : Nat} {l l₁ l₂ : List (Side × X)} {e : X}
    (h : cut d n l = some (l₁, e, l₂)) : (ofSide d l)[n]? = some e := by
  obtain ⟨rfl, rfl⟩ := split_of_cut h
  rw [ofSide_append, ofSide_same]
  simp

/-- Of two cuts of one list, which comes first. -/
theorem before_of_cut {d d' : Side} {n n' : Nat} {l l₁ l₂ l₁' l₂' : List (Side × X)} {e e' : X}
    (hd : d ≠ d') (h : cut d n l = some (l₁, e, l₂)) (h' : cut d' n' l = some (l₁', e', l₂'))
    (hle : (ofSide d' l₁).length ≤ n') : ∃ m, l₁' = l₁ ++ (d, e) :: m := by
  obtain ⟨rfl, -⟩ := split_of_cut h
  obtain ⟨heq, rfl⟩ := split_of_cut h'
  obtain ⟨m, hm, hm'⟩ | ⟨m, rfl, hm'⟩ := List.append_eq_append_iff.mp heq
  · cases m with
    | nil => exact absurd (congrArg Prod.fst (List.cons.inj hm').1) hd
    | cons y m =>
      obtain ⟨rfl, -⟩ := List.cons.inj hm'
      exact ⟨m, hm⟩
  · cases m with
    | nil => exact absurd (congrArg Prod.fst (List.cons.inj hm').1).symm hd
    | cons y m =>
      obtain ⟨rfl, -⟩ := List.cons.inj hm'
      rw [ofSide_append, ofSide_same, List.length_append, List.length_cons] at hle
      omega

theorem exists_cut {d : Side} {n : Nat} {l : List (Side × X)} (h : n < (ofSide d l).length) :
    ∃ l₁ e l₂, cut d n l = some (l₁, e, l₂) := by
  induction l generalizing n with
  | nil => simp [ofSide] at h
  | cons x l ih =>
    obtain ⟨d', e'⟩ := x
    by_cases hd : d' = d
    · subst hd
      cases n with
      | zero => exact ⟨[], e', l, by simp [cut]⟩
      | succ n =>
        rw [ofSide_same, List.length_cons, Nat.succ_lt_succ_iff] at h
        obtain ⟨l₁, e, l₂, hc⟩ := ih h
        exact ⟨(d', e') :: l₁, e, l₂, by simp [cut, hc]⟩
    · rw [ofSide_other hd] at h
      obtain ⟨l₁, e, l₂, hc⟩ := ih h
      exact ⟨(d', e') :: l₁, e, l₂, by simp [cut, hd, hc]⟩

end

variable {exec}

/-- A move is one command of one side; the other side stays where it is. -/
theorem move_cases {P P' : Pair S C R α β} {m : Side × Ch} {x : Side × Event C R}
    (h : move exec P m = some (x, P')) :
    ∃ r, exec x.2.cmd m.2 P.state = some (r, P'.state) ∧ r = x.2.res ∧
      ((x.1 = .left ∧ (∃ k, P.left = .op x.2.cmd k ∧ P'.left = k x.2.res) ∧ P'.right = P.right) ∨
        (x.1 = .right ∧ (∃ k, P.right = .op x.2.cmd k ∧ P'.right = k x.2.res) ∧ P'.left = P.left)) := by
  obtain ⟨d, ch⟩ := m
  cases d with
  | left =>
    simp only [move] at h
    split at h
    · rename_i c k hk
      obtain ⟨⟨r, s'⟩, he, h⟩ := Option.map_eq_some_iff.mp h
      cases h
      exact ⟨r, he, rfl, .inl ⟨rfl, ⟨k, hk, rfl⟩, rfl⟩⟩
    · cases h
  | right =>
    simp only [move] at h
    split at h
    · rename_i c k hk
      obtain ⟨⟨r, s'⟩, he, h⟩ := Option.map_eq_some_iff.mp h
      cases h
      exact ⟨r, he, rfl, .inr ⟨rfl, ⟨k, hk, rfl⟩, rfl⟩⟩
    · cases h

theorem move_side {P P' : Pair S C R α β} {d : Side} {ch : Ch} {x : Side × Event C R}
    (h : move exec P (d, ch) = some (x, P')) : x.1 = d := by
  cases d with
  | left =>
    simp only [move] at h
    split at h
    · obtain ⟨y, -, h⟩ := Option.map_eq_some_iff.mp h
      cases h
      rfl
    · cases h
  | right =>
    simp only [move] at h
    split at h
    · obtain ⟨y, -, h⟩ := Option.map_eq_some_iff.mp h
      cases h
      rfl
    · cases h

theorem run_cons {P P' : Pair S C R α β} {m : Side × Ch} {ms : List (Side × Ch)}
    {tr : List (Side × Event C R)} (h : run exec (m :: ms) P = some (tr, P')) :
    ∃ x P₁ tr', move exec P m = some (x, P₁) ∧ run exec ms P₁ = some (tr', P') ∧ tr = x :: tr' := by
  obtain ⟨⟨x, P₁⟩, hm, h⟩ := Option.bind_eq_some_iff.mp h
  obtain ⟨⟨tr', P₂⟩, hr, h⟩ := Option.map_eq_some_iff.mp h
  cases h
  exact ⟨x, P₁, tr', hm, hr, rfl⟩

/-- A run to an event, the event, and the run from there. -/
theorem run_split {ms : List (Side × Ch)} {P P' : Pair S C R α β} {tr₁ tr₂ : List (Side × Event C R)}
    {x : Side × Event C R} (h : run exec ms P = some (tr₁ ++ x :: tr₂, P')) :
    ∃ ms₁ ch ms₂ P₁ P₂, ms = ms₁ ++ (x.1, ch) :: ms₂ ∧ run exec ms₁ P = some (tr₁, P₁) ∧
      move exec P₁ (x.1, ch) = some (x, P₂) ∧ run exec ms₂ P₂ = some (tr₂, P') := by
  induction tr₁ generalizing ms P with
  | nil =>
    cases ms with
    | nil => cases h
    | cons m ms =>
      obtain ⟨x', P₁, tr', hm, hr, heq⟩ := run_cons h
      cases heq
      obtain ⟨d, ch⟩ := m
      obtain rfl : x.1 = d := move_side hm
      exact ⟨[], ch, ms, P, P₁, rfl, rfl, hm, hr⟩
  | cons y tr₁ ih =>
    cases ms with
    | nil => cases h
    | cons m ms =>
      obtain ⟨x', P₁, tr', hm, hr, heq⟩ := run_cons h
      cases heq
      obtain ⟨ms₁, ch, ms₂, Q₁, Q₂, rfl, h₁, h₂, h₃⟩ := ih hr
      exact ⟨m :: ms₁, ch, ms₂, Q₁, Q₂, rfl, by simp [run, hm, h₁], h₂, h₃⟩

/-- What a run leaves is as long as its schedule, on each side. -/
theorem ofSide_length {ms : List (Side × Ch)} {P P' : Pair S C R α β} {tr : List (Side × Event C R)}
    (h : run exec ms P = some (tr, P')) (d : Side) : (ofSide d tr).length = (ofSide d ms).length := by
  induction ms generalizing P tr with
  | nil =>
    cases h
    rfl
  | cons m ms ih =>
    obtain ⟨⟨d', e⟩, P₁, tr', hm, hr, rfl⟩ := run_cons h
    obtain ⟨d'', ch⟩ := m
    obtain rfl : d' = d'' := move_side hm
    by_cases hd : d' = d
    · subst hd
      rw [ofSide_same, ofSide_same, List.length_cons, List.length_cons, ih hr]
    · rw [ofSide_other hd, ofSide_other hd, ih hr]

/-- A run to one side's `n`-th command, the command, and the run from there. -/
theorem run_at {ms : List (Side × Ch)} {P P' : Pair S C R α β} {tr : List (Side × Event C R)} {d : Side} {n : Nat}
    {e : Event C R} (h : run exec ms P = some (tr, P')) (he : (ofSide d tr)[n]? = some e) :
    ∃ ms₁ ch ms₂ tr₁ tr₂ P₁ P₂, cut d n ms = some (ms₁, ch, ms₂) ∧ cut d n tr = some (tr₁, e, tr₂) ∧
      run exec ms₁ P = some (tr₁, P₁) ∧ move exec P₁ (d, ch) = some ((d, e), P₂) ∧
      run exec ms₂ P₂ = some (tr₂, P') := by
  obtain ⟨tr₁, e', tr₂, hc⟩ := exists_cut (List.getElem?_eq_some_iff.mp he).1
  cases he.symm.trans (getElem?_of_cut hc)
  obtain ⟨rfl, rfl⟩ := split_of_cut hc
  obtain ⟨ms₁, ch, ms₂, P₁, P₂, rfl, h₁, hm, h₂⟩ := run_split h
  refine ⟨ms₁, ch, ms₂, tr₁, tr₂, P₁, P₂, ?_, hc, h₁, hm, h₂⟩
  rw [ofSide_length h₁ d]
  exact cut_append d ch ms₁ ms₂

/-- What one side's `n`-th command returned is what it returns in the state that
the schedule up to there leads to. -/
theorem exec_at {ms ms₁ ms₂ : List (Side × Ch)} {P P₁ P' : Pair S C R α β} {tr tr₁ : List (Side × Event C R)}
    {d : Side} {n : Nat} {ch : Ch} {e : Event C R} (h : run exec ms P = some (tr, P'))
    (hc : cut d n ms = some (ms₁, ch, ms₂)) (h₁ : run exec ms₁ P = some (tr₁, P₁))
    (he : (ofSide d tr)[n]? = some e) : ∃ s', exec e.cmd ch P₁.state = some (e.res, s') := by
  obtain ⟨ms₁', ch', ms₂', tr₁', tr₂, Q₁, Q₂, hc', -, h₁', hm, -⟩ := run_at h he
  cases hc.symm.trans hc'
  cases h₁.symm.trans h₁'
  obtain ⟨r, hr, rfl, -⟩ := move_cases hm
  exact ⟨Q₂.state, hr⟩

/-- What all events of a run keep holds at its end. -/
theorem run_keeps {J : S → Prop} {E : Event C R → Prop}
    (step : ∀ {e ch s s'}, E e → J s → exec e.cmd ch s = some (e.res, s') → J s')
    {ms : List (Side × Ch)} {P P' : Pair S C R α β} {tr : List (Side × Event C R)}
    (h : run exec ms P = some (tr, P')) (hE : ∀ x ∈ tr, E x.2) (hJ : J P.state) : J P'.state := by
  induction ms generalizing P tr with
  | nil =>
    cases h
    exact hJ
  | cons m ms ih =>
    obtain ⟨x, P₁, tr', hm, hs, rfl⟩ := run_cons h
    obtain ⟨r, he, rfl, -⟩ := move_cases hm
    exact ih hs (fun y hy => hE y (.tail _ hy)) (step (hE x (.head _)) hJ he)

/-- The left program's own commands are a path through it. -/
theorem run_left {ms : List (Side × Ch)} {P P' : Pair S C R α β} {tr : List (Side × Event C R)}
    (h : run exec ms P = some (tr, P')) : P.left.Path (ofSide .left tr) P'.left := by
  induction ms generalizing P tr with
  | nil =>
    cases h
    exact .nil _
  | cons m ms ih =>
    obtain ⟨⟨d, e⟩, P₁, tr', hm, hr, rfl⟩ := run_cons h
    obtain ⟨r, -, -, ⟨hd, ⟨k, hk, hk'⟩, -⟩ | ⟨hd, -, hl⟩⟩ := move_cases hm
    · cases hd
      rw [hk, ofSide_same]
      exact .cons (hk' ▸ ih hr)
    · cases hd
      rw [ofSide_other (by decide), ← hl]
      exact ih hr

theorem run_right {ms : List (Side × Ch)} {P P' : Pair S C R α β} {tr : List (Side × Event C R)}
    (h : run exec ms P = some (tr, P')) : P.right.Path (ofSide .right tr) P'.right := by
  induction ms generalizing P tr with
  | nil =>
    cases h
    exact .nil _
  | cons m ms ih =>
    obtain ⟨⟨d, e⟩, P₁, tr', hm, hr, rfl⟩ := run_cons h
    obtain ⟨r, -, -, ⟨hd, -, hl⟩ | ⟨hd, ⟨k, hk, hk'⟩, -⟩⟩ := move_cases hm
    · cases hd
      rw [ofSide_other (by decide), ← hl]
      exact ih hr
    · cases hd
      rw [hk, ofSide_same]
      exact .cons (hk' ▸ ih hr)

/-- The commands both sides still issue are among those they could issue
before. -/
theorem issues_of_move {ok : C → Prop} {P P' : Pair S C R α β} {m : Side × Ch} {x : Side × Event C R}
    (hl : P.left.Issues ok) (hr : P.right.Issues ok) (h : move exec P m = some (x, P')) :
    ok x.2.cmd ∧ P'.left.Issues ok ∧ P'.right.Issues ok := by
  obtain ⟨r, -, -, ⟨-, ⟨k, hk, hk'⟩, he⟩ | ⟨-, ⟨k, hk, hk'⟩, he⟩⟩ := move_cases h
  · rw [hk] at hl
    exact ⟨hl.1, hk' ▸ hl.2 _, he ▸ hr⟩
  · rw [hk] at hr
    exact ⟨hr.1, he ▸ hl, hk' ▸ hr.2 _⟩

theorem issues_of_run {ok : C → Prop} {ms : List (Side × Ch)} {P P' : Pair S C R α β}
    {tr : List (Side × Event C R)} (hl : P.left.Issues ok) (hr : P.right.Issues ok)
    (h : run exec ms P = some (tr, P')) : P'.left.Issues ok ∧ P'.right.Issues ok := by
  induction ms generalizing P tr with
  | nil =>
    cases h
    exact ⟨hl, hr⟩
  | cons m ms ih =>
    obtain ⟨x, P₁, tr', hm, hs, rfl⟩ := run_cons h
    obtain ⟨-, hl', hr'⟩ := issues_of_move hl hr hm
    exact ih hl' hr' hs

/-- If all commands that the two can issue keep `J`, and return only what `Q`
allows where `J` holds, then so do all commands of a run. -/
theorem run_trace {ok : C → Prop} {J : S → Prop} {Q : (c : C) → R c → Prop}
    (step : ∀ {c ch s r s'}, ok c → J s → exec c ch s = some (r, s') → J s' ∧ Q c r)
    {ms : List (Side × Ch)} {P P' : Pair S C R α β} {tr : List (Side × Event C R)}
    (hl : P.left.Issues ok) (hr : P.right.Issues ok) (hJ : J P.state)
    (h : run exec ms P = some (tr, P')) : ∀ x ∈ tr, Q x.2.cmd x.2.res := by
  induction ms generalizing P tr with
  | nil =>
    cases h
    intro x hx
    cases hx
  | cons m ms ih =>
    obtain ⟨x, P₁, tr', hm, hs, rfl⟩ := run_cons h
    obtain ⟨hok, hl', hr'⟩ := issues_of_move hl hr hm
    obtain ⟨r, he, rfl, -⟩ := move_cases hm
    obtain ⟨hJ', hQ⟩ := step hok hJ he
    intro y hy
    rcases List.mem_cons.mp hy with rfl | hy
    · exact hQ
    · exact ih hl' hr' hJ' hs y hy

end Pair

end Interleave
