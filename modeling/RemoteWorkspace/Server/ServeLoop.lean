import Mathlib.Logic.Relation
import Mathlib.Tactic.Common

/-!
# The serve loop and its idle timeout

The loop of `Server::run` takes a line, the end of a handler or the timer,
whichever its biased `select!` finds first, and remembers when something last
happened. Time passes, lines arrive and handlers finish between any two of its
steps, also between two polls of one `select!`. `Inv` links the clock to the
last line and the last completion; a `reap` that collects the handler just
spawned breaks the link, and without one the loop ends as idle only after the
whole timeout (`idle_exit_waits`).
-/

namespace RemoteWorkspace

/-- What a line is to the loop. -/
inductive InputLine where
  | blank | unparsable | request
  deriving DecidableEq, Repr

/-- What the reading task hands over. -/
inductive Input where
  | line (l : InputLine)
  | broken
  | eof
  deriving DecidableEq, Repr

inductive ExitReason where
  | idleTimeout | readError | stdinEof
  deriving DecidableEq, Repr

/-- Where the loop stands. -/
inductive LoopPoint where
  | pollLines
  | pollHandlers
  | pollTimer
  /-- `recv` has returned a line. -/
  | gotLine (l : InputLine)
  /-- `join_next` has returned. -/
  | gotHandler
  | timerFired
  /-- `idle_since` is set, and the line is looked at. -/
  | examining (l : InputLine)
  /-- `write_line` for a line that is no request. -/
  | refusing
  /-- In `reap`, behind the spawn of a handler. -/
  | reaping
  | ended (reason : ExitReason)
  deriving DecidableEq, Repr

/-- The loop and what goes on around it. Handlers in the set are running, or
have finished at some time; `lastLine` and `lastCompletion` are what the clock
is meant to follow. -/
structure ServeLoop where
  now : Nat
  idleSince : Nat
  inbox : List Input
  handlers : List (Option Nat)
  served : Nat
  point : LoopPoint
  lastLine : Option Nat
  lastCompletion : Option Nat
  deriving DecidableEq, Repr

namespace ServeLoop

def start (now : Nat) : ServeLoop where
  now
  idleSince := now
  inbox := []
  handlers := []
  served := 0
  point := .pollLines
  lastLine := none
  lastCompletion := none

/-- Some handler that has finished, the `i`-th, leaves the set; `next` if there
is none. -/
def collect (s : ServeLoop) (i : Nat) (point : LoopPoint) (next : ServeLoop) : Option ServeLoop :=
  if s.handlers.any Option.isSome then
    match s.handlers[i]? with
    | some (some _) => some { s with handlers := s.handlers.eraseIdx i, point }
    | _ => none
  else some next

/-- One step of the loop, where a handler is to be collected the `i`-th. -/
def turn (idle : Option Nat) (s : ServeLoop) (i : Nat) : Option ServeLoop :=
  match s.point with
  | .pollLines =>
    match s.inbox with
    | .line l :: inbox => some { s with inbox, lastLine := some s.now, point := .gotLine l }
    | .broken :: inbox => some { s with inbox, point := .ended .readError }
    | .eof :: inbox => some { s with inbox, point := .ended .stdinEof }
    | [] =>
      match idle with
      | none => some s
      | some _ => some { s with point := .pollHandlers }
  | .pollHandlers => s.collect i .gotHandler { s with point := .pollTimer }
  | .pollTimer =>
    match idle with
    | none => none
    | some d => some { s with point := if s.idleSince + d ≤ s.now then .timerFired else .pollLines }
  | .timerFired =>
    if s.handlers = [] then some { s with point := .ended .idleTimeout }
    else some { s with idleSince := s.now, point := .pollLines }
  | .gotHandler => some { s with idleSince := s.now, point := .pollLines }
  | .gotLine l => some { s with idleSince := s.now, point := .examining l }
  | .examining .blank => some { s with point := .pollLines }
  | .examining .unparsable => some { s with point := .refusing }
  | .examining .request =>
    some { s with handlers := s.handlers ++ [none], served := s.served + 1, point := .reaping }
  | .refusing => some { s with point := .pollLines }
  | .reaping => s.collect i .reaping { s with point := .pollLines }
  | .ended _ => none

end ServeLoop

/-- What happens next, in the loop or around it. -/
inductive LoopMove where
  | turn (i : Nat)
  | pass (time : Nat)
  | arrive (x : Input)
  | finish (i : Nat)
  deriving DecidableEq, Repr

namespace ServeLoop

def move (idle : Option Nat) (s : ServeLoop) : LoopMove → Option ServeLoop
  | .turn i => s.turn idle i
  | .pass time => some { s with now := s.now + time }
  | .arrive x => some { s with inbox := s.inbox ++ [x] }
  | .finish i =>
    match s.handlers[i]? with
    | some none => some { s with handlers := s.handlers.set i (some s.now), lastCompletion := some s.now }
    | _ => none

/-- While the loop reaps, some handler is still running, or no handler in the
set has finished since the clock was set. -/
def InTime (s : ServeLoop) : LoopMove → Prop
  | .turn _ => s.point = .reaping → none ∈ s.handlers ∨ ∀ h ∈ s.handlers, ∀ t ∈ h, t ≤ s.idleSince
  | _ => True

instance (s : ServeLoop) : (m : LoopMove) → Decidable (s.InTime m)
  | .turn _ => inferInstanceAs (Decidable (_ → _))
  | .pass _ => .isTrue trivial
  | .arrive _ => .isTrue trivial
  | .finish _ => .isTrue trivial

/-- A move that is no late reap. -/
def Moves (idle : Option Nat) (s s' : ServeLoop) : Prop := ∃ m, s.InTime m ∧ s.move idle m = some s'

/-- The states of the loop in runs in which every reap is in time. -/
def Reached (idle : Option Nat) (s : ServeLoop) : Prop := ∃ now, Relation.ReflTransGen (Moves idle) (start now) s

/-- Run these moves, as long as every reap is in time. -/
def runInTime (idle : Option Nat) : ServeLoop → List LoopMove → Option ServeLoop
  | s, [] => some s
  | s, m :: ms => if s.InTime m then (s.move idle m).bind fun s' => runInTime idle s' ms else none

/-- Run these moves. -/
def run (idle : Option Nat) (s : ServeLoop) (ms : List LoopMove) : Option ServeLoop := ms.foldlM (move idle) s

theorem moves_of_runInTime {idle : Option Nat} {ms : List LoopMove} {s s' : ServeLoop}
    (h : runInTime idle s ms = some s') : Relation.ReflTransGen (Moves idle) s s' := by
  induction ms generalizing s with
  | nil =>
    obtain rfl := Option.some.inj h
    exact .refl
  | cons m ms ih =>
    rw [runInTime] at h
    split at h
    · next hin =>
      obtain ⟨s₁, hmove, hrest⟩ := Option.bind_eq_some_iff.mp h
      exact .head ⟨m, hin, hmove⟩ (ih hrest)
    · cases h

/-! ## The clock -/

/-- That the loop has not ended as idle, or no handler is running and the
timeout has passed since the last line and since the last completion. -/
def EndsIdle (d : Nat) (s : ServeLoop) : Prop :=
  s.point = .ended .idleTimeout → s.handlers = [] ∧
    (∀ t, s.lastLine = some t → t + d ≤ s.now) ∧ ∀ t, s.lastCompletion = some t → t + d ≤ s.now

/-- How the clock follows what happens. A completion is later than the clock
only while a handler is running or the set still holds the one that finished. -/
structure Inv (d : Nat) (s : ServeLoop) : Prop where
  idle_le : s.idleSince ≤ s.now
  line_le : ∀ t, s.lastLine = some t → t ≤ s.now
  completion_le : ∀ t, s.lastCompletion = some t → t ≤ s.now
  line : (∀ l, s.point ≠ .gotLine l) → ∀ t, s.lastLine = some t → t ≤ s.idleSince
  completion : s.point ≠ .gotHandler →
    ∀ t, s.lastCompletion = some t → t ≤ s.idleSince ∨ none ∈ s.handlers ∨ some t ∈ s.handlers
  due : s.point = .timerFired → s.idleSince + d ≤ s.now
  ended : s.point = .ended .idleTimeout → s.handlers = [] ∧ s.idleSince + d ≤ s.now

variable {d : Nat} {s s' : ServeLoop}

theorem inv_start (now : Nat) : Inv d (start now) := by
  constructor <;> simp [start]

theorem Inv.endsIdle (h : Inv d s) : s.EndsIdle d := fun hpoint => by
  obtain ⟨hnone, hdue⟩ := h.ended hpoint
  refine ⟨hnone, fun t ht => ?_, fun t ht => ?_⟩
  · have := h.line (by simp [hpoint]) t ht
    omega
  · have := h.completion (by simp [hpoint]) t ht
    simp only [hnone, List.not_mem_nil, or_false] at this
    omega

/-- What may become of the set when the loop looks into it. -/
theorem collect_cases {i : Nat} {point : LoopPoint} {next : ServeLoop} (h : s.collect i point next = some s') :
    s' = next ∨ s' = { s with handlers := s.handlers.eraseIdx i, point } ∧ ∃ t, s.handlers[i]? = some (some t) := by
  rw [collect] at h
  split at h
  · split at h
    · next t ht => exact .inr ⟨(Option.some.inj h).symm, t, ht⟩
    · cases h
  · exact .inl (Option.some.inj h).symm

theorem Inv.pass (h : Inv d s) (time : Nat) : Inv d { s with now := s.now + time } := by
  refine ⟨?_, fun t ht => ?_, fun t ht => ?_, h.line, h.completion, fun hp => ?_, fun hp => ?_⟩
  · exact Nat.le_add_right_of_le h.idle_le
  · exact Nat.le_add_right_of_le (h.line_le t ht)
  · exact Nat.le_add_right_of_le (h.completion_le t ht)
  · exact Nat.le_add_right_of_le (h.due hp)
  · exact ⟨(h.ended hp).1, Nat.le_add_right_of_le (h.ended hp).2⟩

/-- A handler finishes, which the set then tells of. -/
theorem Inv.finish (h : Inv d s) {i : Nat} (hi : s.handlers[i]? = some none) :
    Inv d { s with handlers := s.handlers.set i (some s.now), lastCompletion := some s.now } := by
  obtain ⟨hlt, -⟩ := List.getElem?_eq_some_iff.mp hi
  refine ⟨h.idle_le, h.line_le, fun t ht => ?_, h.line, fun _ t ht => ?_, h.due, fun hp => ?_⟩
  · obtain rfl := Option.some.inj ht
    exact Nat.le_refl _
  · obtain rfl := Option.some.inj ht
    exact .inr (.inr (List.mem_set hlt _))
  · rw [(h.ended hp).1] at hi
    cases hi

/-- The clock is set, and the loop goes on to a point that asks nothing of
it. -/
theorem Inv.stamp (h : Inv d s) {point : LoopPoint} (htimer : point ≠ .timerFired) (hended : point ≠ .ended .idleTimeout) :
    Inv d { s with idleSince := s.now, point } :=
  ⟨Nat.le_refl _, h.line_le, h.completion_le, fun _ => h.line_le, fun _ t ht => .inl (h.completion_le t ht),
    fun hp => absurd hp htimer, fun hp => absurd hp hended⟩

/-- The loop goes on to another point, and the clock is up to date before and
after. -/
theorem Inv.goOn (h : Inv d s) {point : LoopPoint} (hline : ∀ l, s.point ≠ .gotLine l) (hhandler : s.point ≠ .gotHandler)
    (htimer : point = .timerFired → s.idleSince + d ≤ s.now)
    (hended : point = .ended .idleTimeout → s.handlers = [] ∧ s.idleSince + d ≤ s.now) (inbox : List Input) :
    Inv d { s with inbox, point } :=
  ⟨h.idle_le, h.line_le, h.completion_le, fun _ => h.line hline, fun _ => h.completion hhandler, htimer, hended⟩

/-- A point at which the clock is up to date, and which says nothing of it. -/
def upToDate : LoopPoint → Bool
  | .gotLine _ => false
  | .gotHandler => false
  | .timerFired => false
  | .ended .idleTimeout => false
  | _ => true

theorem Inv.between (h : Inv d s) {here point : LoopPoint} (hpoint : s.point = here) (hhere : upToDate here = true)
    (hto : upToDate point = true) (inbox : List Input) : Inv d { s with inbox, point } := by
  refine h.goOn ?_ ?_ ?_ ?_ inbox
  · rintro l hl
    rw [← hpoint, hl] at hhere
    cases hhere
  · rintro hp
    rw [← hpoint, hp] at hhere
    cases hhere
  · rintro rfl
    cases hto
  · rintro rfl
    cases hto

/-- A line is received, and the clock is not set yet. -/
theorem Inv.receive (h : Inv d s) (hpoint : s.point = .pollLines) (l : InputLine) (inbox : List Input) :
    Inv d { s with inbox, lastLine := some s.now, point := .gotLine l } := by
  refine ⟨h.idle_le, fun t ht => ?_, h.completion_le, fun hl => absurd rfl (hl l), fun _ => ?_, fun hp => ?_, fun hp => ?_⟩
  · obtain rfl := Option.some.inj ht
    exact Nat.le_refl _
  · exact h.completion (by simp [hpoint])
  · cases hp
  · cases hp

/-- `join_next` takes a handler, and the clock is not set yet. -/
theorem Inv.join (h : Inv d s) (hpoint : s.point = .pollHandlers) (i : Nat) :
    Inv d { s with handlers := s.handlers.eraseIdx i, point := .gotHandler } := by
  refine ⟨h.idle_le, h.line_le, h.completion_le, fun _ => ?_, fun hp => absurd rfl hp, fun hp => ?_, fun hp => ?_⟩
  · exact h.line (by simp [hpoint])
  · cases hp
  · cases hp

/-- What `reap` takes from the set in time tells nothing the clock does not:
either a handler stays that is running, or the clock is later than all. -/
theorem Inv.reap (h : Inv d s) (hpoint : s.point = .reaping)
    (hin : none ∈ s.handlers ∨ ∀ o ∈ s.handlers, ∀ t ∈ o, t ≤ s.idleSince) {i t : Nat}
    (hi : s.handlers[i]? = some (some t)) : Inv d { s with handlers := s.handlers.eraseIdx i, point := .reaping } := by
  refine ⟨h.idle_le, h.line_le, h.completion_le, fun _ => h.line (by simp [hpoint]), fun _ u hu => ?_,
    fun hp => (by cases hp), fun hp => (by cases hp)⟩
  have hrunning : none ∈ s.handlers → none ∈ s.handlers.eraseIdx i := fun hnone => by
    obtain ⟨j, hj⟩ := List.mem_iff_getElem?.mp hnone
    have hne : j ≠ i := fun heq => by
      rw [heq, hi] at hj
      cases hj
    exact List.mem_eraseIdx_iff_getElem?.mpr ⟨j, hne, hj⟩
  rcases h.completion (by simp [hpoint]) u hu with hle | hnone | hmem
  · exact .inl hle
  · exact .inr (.inl (hrunning hnone))
  · rcases hin with hnone | hle
    · exact .inr (.inl (hrunning hnone))
    · exact .inl (hle _ hmem u rfl)

/-- A handler is spawned. -/
theorem Inv.spawn (h : Inv d s) {l : InputLine} (hpoint : s.point = .examining l) :
    Inv d { s with handlers := s.handlers ++ [none], served := s.served + 1, point := .reaping } := by
  refine ⟨h.idle_le, h.line_le, h.completion_le, fun _ => h.line (by simp [hpoint]), fun _ u hu => ?_,
    fun hp => (by cases hp), fun hp => (by cases hp)⟩
  exact .inr (.inl (List.mem_append_right _ (List.mem_singleton.mpr rfl)))

/-- One step of the loop keeps the invariant, unless it is a late reap. -/
theorem Inv.turn (h : Inv d s) {i : Nat} (hin : s.InTime (.turn i)) (hturn : s.turn (some d) i = some s') :
    Inv d s' := by
  cases hpoint : s.point with
  | pollLines =>
    simp only [ServeLoop.turn, hpoint] at hturn
    split at hturn <;> obtain rfl := Option.some.inj hturn
    · exact h.receive hpoint _ _
    · exact h.between hpoint rfl rfl _
    · exact h.between hpoint rfl rfl _
    · exact h.between hpoint rfl rfl _
  | pollHandlers =>
    simp only [ServeLoop.turn, hpoint] at hturn
    rcases collect_cases hturn with rfl | ⟨rfl, t, hi⟩
    · exact h.between hpoint rfl rfl _
    · exact h.join hpoint i
  | pollTimer =>
    simp only [ServeLoop.turn, hpoint] at hturn
    obtain rfl := Option.some.inj hturn
    by_cases hdue : s.idleSince + d ≤ s.now
    · rw [if_pos hdue]
      exact h.goOn (by simp [hpoint]) (by simp [hpoint]) (fun _ => hdue) (by simp) _
    · rw [if_neg hdue]
      exact h.between hpoint rfl rfl _
  | timerFired =>
    simp only [ServeLoop.turn, hpoint] at hturn
    split at hturn <;> obtain rfl := Option.some.inj hturn
    · next hnone =>
      exact h.goOn (by simp [hpoint]) (by simp [hpoint]) (by simp) (fun _ => ⟨hnone, h.due hpoint⟩) _
    · exact h.stamp (by simp) (by simp)
  | gotHandler =>
    simp only [ServeLoop.turn, hpoint] at hturn
    obtain rfl := Option.some.inj hturn
    exact h.stamp (by simp) (by simp)
  | gotLine l =>
    simp only [ServeLoop.turn, hpoint] at hturn
    obtain rfl := Option.some.inj hturn
    exact h.stamp (by simp) (by simp)
  | examining l =>
    cases l <;> simp only [ServeLoop.turn, hpoint] at hturn <;> obtain rfl := Option.some.inj hturn
    · exact h.between hpoint rfl rfl _
    · exact h.between hpoint rfl rfl _
    · exact h.spawn hpoint
  | refusing =>
    simp only [ServeLoop.turn, hpoint] at hturn
    obtain rfl := Option.some.inj hturn
    exact h.between hpoint rfl rfl _
  | reaping =>
    simp only [ServeLoop.turn, hpoint] at hturn
    rcases collect_cases hturn with rfl | ⟨rfl, t, hi⟩
    · exact h.between hpoint rfl rfl _
    · exact h.reap hpoint (hin hpoint) hi
  | ended reason =>
    simp only [ServeLoop.turn, hpoint] at hturn
    cases hturn

/-- One move keeps the invariant. -/
theorem Inv.moves (h : Inv d s) (hmoves : Moves (some d) s s') : Inv d s' := by
  obtain ⟨m, hin, hmove⟩ := hmoves
  cases m with
  | turn i => exact h.turn hin hmove
  | pass time =>
    obtain rfl := Option.some.inj hmove
    exact h.pass time
  | arrive x =>
    obtain rfl := Option.some.inj hmove
    exact ⟨h.idle_le, h.line_le, h.completion_le, h.line, h.completion, h.due, h.ended⟩
  | finish i =>
    rw [move] at hmove
    split at hmove
    · next hi =>
      obtain rfl := Option.some.inj hmove
      exact h.finish hi
    · cases hmove

/-- The invariant holds all along. -/
theorem Reached.inv (h : Reached (some d) s) : Inv d s := by
  obtain ⟨now, hrun⟩ := h
  induction hrun with
  | refl => exact inv_start now
  | tail _ hmoves ih => exact ih.moves hmoves

/-- As long as no `reap` collects the last handler when that has finished since the
clock was set, the loop ends as idle only when no handler is running and the whole
timeout has passed since the last line and since the last completion. -/
theorem idle_exit_waits (h : Reached (some d) s) : s.EndsIdle d := h.inv.endsIdle

/-- A request that is answered at 3 and collected by `join_next`: with a timeout
of 10 the loop ends at 13. -/
theorem idle_exit_after_answer : ∃ s : ServeLoop, s.point = .ended .idleTimeout ∧ s.now = 13 ∧
    s.lastCompletion = some 3 ∧ s.EndsIdle 10 := by
  refine ⟨_, ?_, ?_, ?_, idle_exit_waits ⟨0, @moves_of_runInTime (some 10)
    [.arrive (.line .request), .turn 0, .turn 0, .turn 0, .turn 0, .pass 3, .finish 0, .turn 0, .turn 0, .turn 0,
      .pass 10, .turn 0, .turn 0, .turn 0, .turn 0] _ _ rfl⟩⟩ <;> rfl

/-- The handler finishes between its spawn and the `reap` behind it, one tick
after the line: the loop ends only nine after that completion. -/
theorem reap_hides_completion : ∃ s, (start 0).run (some 10)
    [.arrive (.line .request), .turn 0, .turn 0, .turn 0, .pass 1, .finish 0, .turn 0, .turn 0, .pass 9, .turn 0,
      .turn 0, .turn 0, .turn 0] = some s ∧ ¬s.EndsIdle 10 := by
  refine ⟨_, rfl, fun h => ?_⟩
  have hdue := (h rfl).2.2 1 rfl
  exact absurd hdue (by decide)

end ServeLoop

end RemoteWorkspace
