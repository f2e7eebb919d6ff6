import RemoteWorkspace.Server.ExecRuns
import RemoteWorkspace.Wire.Messages

/-!
# Waiting while a check succeeds

`wait` of `exec.rs` runs a check again and again, each time as a whole `exec`,
and sleeps in between: a second at first, then twice as long every time, half a
minute at most and never beyond its deadline. How long a check takes, what
comes of it and how late a sleep ends are not in its hands (`WaitMove`).

Its result says truly why it ended (`wait_ends_as_reported`). The back-off
bounds how often the check is run, and the wait overruns its timeout by one
check at most, so that the client, which allows for that, is still listening
(`wait_overruns_by_one_check`).
-/

namespace RemoteWorkspace

open Wire (WaitOutcome WaitCheck WaitResult)

/-- `WAIT_MAX_INTERVAL`, in milliseconds. -/
def waitMaxInterval : Nat := 30000

/-- `WAIT_CHECK_TIMEOUT_MS`. -/
def waitCheckTimeoutMs : Nat := 30000

/-- Where `wait` stands. -/
inductive WaitPoint where
  /-- In `exec`, since this time. -/
  | checking (since : Nat)
  | sleeping (wake : Nat)
  /-- Behind the loop's last check, which began at this time. -/
  | concluding (outcome : WaitOutcome) (check : ExecOutcome) (since : Nat)
  | returned (r : Except ProtocolError WaitResult)
  deriving DecidableEq

/-- A wait under way, in milliseconds, with what its checks came to so far. -/
structure WaitRun where
  now : Nat
  start : Nat
  deadline : Nat
  interval : Nat
  checks : Nat
  terminations : List ExecTermination
  point : WaitPoint
  deriving DecidableEq

inductive WaitMove where
  | pass (time : Nat)
  /-- `exec` returns. -/
  | checked (r : Except ProtocolError ExecOutcome)
  | wake
  | conclude
  deriving DecidableEq

/-- What a check alone decides. -/
def outcomeOf : ExecTermination → Option WaitOutcome
  | .exited 0 => none
  | .exited 1 => some .gone
  | _ => some .checkFailed

namespace WaitRun

/-- The head of `wait`. -/
def begin (timeoutMs : Option Nat) (now : Nat) : Except ProtocolError WaitRun := do
  let timeoutMs ← checkTimeout timeoutMs
  return { now, start := now, deadline := now + timeoutMs, interval := 1000, checks := 0, terminations := []
           point := .checking now }

/-- Behind a check that ended like this. -/
def judge (w : WaitRun) (o : ExecOutcome) (since : Nat) : WaitRun :=
  let w := { w with checks := w.checks + 1, terminations := w.terminations ++ [o.termination] }
  let remaining := w.deadline - w.now
  match outcomeOf o.termination with
  | some outcome => { w with point := .concluding outcome o since }
  | none =>
    if remaining = 0 then { w with point := .concluding .timedOut o since }
    else
      { w with
        interval := min (w.interval * 2) waitMaxInterval
        point := .sleeping (w.now + min w.interval remaining) }

def move (w : WaitRun) : WaitMove → Option WaitRun
  | .pass time => some { w with now := w.now + time }
  | .checked r =>
    match w.point, r with
    | .checking since, .ok o => some (w.judge o since)
    | .checking _, .error e => some { w with point := .returned (.error e) }
    | _, _ => none
  | .wake =>
    match w.point with
    | .sleeping wake => if wake ≤ w.now then some { w with point := .checking w.now } else none
    | _ => none
  | .conclude =>
    match w.point with
    | .concluding outcome o _ =>
      some { w with
        point := .returned (.ok
          { outcome, firstCheck := w.checks = 1, checks := w.checks, waitedMs := w.now - w.start
            lastCheck := { termination := o.termination, stdout := o.stdout, stderr := o.stderr } }) }
    | _ => none

/-- Run these moves. -/
def run (w : WaitRun) (ms : List WaitMove) : Option WaitRun := ms.foldlM move w

/-- A check and what is made of it take `check` at most, and a sleep ends no
more than `late` after its time. -/
def Prompt (check late : Nat) (w : WaitRun) (m : WaitMove) : Prop :=
  match m, w.point with
  | .checked _, .checking since => w.now ≤ since + check
  | .conclude, .concluding _ _ since => w.now ≤ since + check
  | .wake, .sleeping wake => w.now ≤ wake + late
  | _, _ => True

/-- The states of the runs from `w₀` whose moves `ok` admits. -/
def Reached (ok : WaitRun → WaitMove → Prop) (w₀ w : WaitRun) : Prop :=
  Relation.ReflTransGen (fun w w' => ∃ m, ok w m ∧ move w m = some w') w₀ w

theorem Reached.any {ok : WaitRun → WaitMove → Prop} {w₀ w : WaitRun} (h : Reached ok w₀ w) :
    Reached (fun _ _ => True) w₀ w := by
  induction h with
  | refl => exact .refl
  | tail _ hm ih =>
    obtain ⟨m, -, hm⟩ := hm
    exact ih.tail ⟨m, trivial, hm⟩

/-! ## The back-off -/

/-- The sleep behind the `n`-th check. -/
def backoff (n : Nat) : Nat := min (1000 * 2 ^ n) waitMaxInterval

/-- All sleeps up to the `n`-th check, if none is cut short. -/
def slept (n : Nat) : Nat := ((List.range n).map backoff).sum

theorem backoff_succ (n : Nat) : min (backoff n * 2) waitMaxInterval = backoff (n + 1) := by
  rw [backoff, backoff, Nat.pow_succ, ← Nat.mul_assoc]
  omega

theorem slept_succ (n : Nat) : slept (n + 1) = slept n + backoff n := by
  rw [slept, List.range_succ, List.map_append, List.sum_append, List.map_singleton, List.sum_singleton]
  rfl

theorem backoff_of_le {n : Nat} (h : 5 ≤ n) : backoff n = waitMaxInterval := by
  have hpow : 2 ^ 5 ≤ 2 ^ n := Nat.pow_le_pow_right (by decide) h
  rw [backoff, waitMaxInterval]
  omega

/-- From the fifth check on, the sleeps are half a minute long. -/
theorem slept_add (n : Nat) : slept (n + 5) = 31000 + waitMaxInterval * n := by
  induction n with
  | zero => decide
  | succ n ih =>
    rw [show n + 1 + 5 = n + 5 + 1 by omega, slept_succ, ih, backoff_of_le (by omega)]
    rw [waitMaxInterval]
    omega

/-- The sleeps of the longest wait there is. -/
theorem checks_of_slept {n timeoutMs : Nat} (h : slept n < timeoutMs) (hmax : timeoutMs ≤ maxTimeoutMs) : n ≤ 123 := by
  by_cases hn : n < 5
  · omega
  · obtain ⟨k, rfl⟩ : ∃ k, n = k + 5 := ⟨n - 5, by omega⟩
    rw [slept_add, waitMaxInterval] at h
    rw [maxTimeoutMs] at hmax
    omega

/-! ## What a wait knows -/

/-- Every check so far has succeeded. -/
def Passed (ts : List ExecTermination) : Prop := ∀ t ∈ ts, outcomeOf t = none

/-- The last check decides, or the deadline where it has succeeded. -/
def Concluded (ts : List ExecTermination) (outcome : WaitOutcome) (last : ExecTermination) : Prop :=
  (∃ past, ts = past ++ [last] ∧ Passed past) ∧
    (outcomeOf last = some outcome ∨ outcomeOf last = none ∧ outcome = .timedOut)

/-- The sleeps before check `checks + 1 - k` were done before the deadline. -/
def InTime (timeoutMs checks k : Nat) : Prop := ∀ n, n + k ≤ checks → slept n < timeoutMs

def Knows (timeoutMs : Nat) (w : WaitRun) : Prop :=
  match w.point with
  | .checking since =>
    Passed w.terminations ∧ w.start ≤ since ∧ since ≤ w.now ∧ w.interval = backoff w.checks ∧
      (w.deadline ≤ since ∨ w.start + slept w.checks ≤ since) ∧ InTime timeoutMs w.checks 1
  | .sleeping wake =>
    Passed w.terminations ∧ w.start ≤ w.now ∧ w.interval = backoff w.checks ∧ wake ≤ w.deadline ∧
      (w.deadline ≤ wake ∨ w.start + slept w.checks ≤ wake) ∧ InTime timeoutMs w.checks 1
  | .concluding outcome o _ =>
    Concluded w.terminations outcome o.termination ∧ (outcome = .timedOut → w.deadline ≤ w.now) ∧
      InTime timeoutMs w.checks 2
  | .returned (.ok r) =>
    Concluded w.terminations r.outcome r.lastCheck.termination ∧ r.checks = w.checks ∧
      (r.firstCheck = true ↔ w.checks = 1) ∧ (r.outcome = .timedOut → timeoutMs ≤ r.waitedMs) ∧
      InTime timeoutMs w.checks 2
  | .returned (.error _) => Passed w.terminations ∧ InTime timeoutMs w.checks 2

/-- What is true of a wait wherever it stands. -/
structure Inv (timeoutMs : Nat) (w : WaitRun) : Prop where
  deadline : w.deadline = w.start + timeoutMs
  checks : w.checks = w.terminations.length
  knows : w.Knows timeoutMs

variable {timeoutMs : Nat} {w w' w₀ : WaitRun}

theorem InTime.mono {checks k : Nat} (h : InTime timeoutMs checks k) {k' : Nat} (hk : k ≤ k') :
    InTime timeoutMs checks k' := fun n hn => h n (by omega)

theorem InTime.succ {checks k : Nat} (h : InTime timeoutMs checks k) : InTime timeoutMs (checks + 1) (k + 1) :=
  fun n hn => h n (by omega)

theorem begin_eq {o : Option Nat} {now : Nat} (h : begin o now = .ok w₀) :
    ∃ timeoutMs, checkTimeout o = .ok timeoutMs ∧ w₀ =
      { now, start := now, deadline := now + timeoutMs, interval := 1000, checks := 0, terminations := []
        point := .checking now } := by
  rw [begin] at h
  cases htimeout : checkTimeout o with
  | error e =>
    rw [htimeout] at h
    cases h
  | ok timeoutMs =>
    rw [htimeout] at h
    cases h
    exact ⟨timeoutMs, rfl, rfl⟩

theorem inv_begin {o : Option Nat} {now : Nat} (h : begin o now = .ok w₀) :
    ∃ timeoutMs, checkTimeout o = .ok timeoutMs ∧ Inv timeoutMs w₀ := by
  obtain ⟨timeoutMs, htimeout, rfl⟩ := begin_eq h
  refine ⟨timeoutMs, htimeout, rfl, rfl, fun t ht => ?_, Nat.le_refl _, Nat.le_refl _, rfl, .inr (Nat.le_refl _),
    fun n hn => ?_⟩
  · cases ht
  · exact absurd hn (Nat.not_succ_le_zero n)

theorem Inv.pass (h : Inv timeoutMs w) (time : Nat) : Inv timeoutMs { w with now := w.now + time } := by
  refine ⟨h.deadline, h.checks, ?_⟩
  have hk := h.knows
  cases hp : w.point with
  | checking since =>
    simp only [Knows, hp] at hk ⊢
    obtain ⟨hpassed, hstart, hsince, hrest⟩ := hk
    exact ⟨hpassed, hstart, Nat.le_add_right_of_le hsince, hrest⟩
  | sleeping wake =>
    simp only [Knows, hp] at hk ⊢
    obtain ⟨hpassed, hstart, hrest⟩ := hk
    exact ⟨hpassed, Nat.le_add_right_of_le hstart, hrest⟩
  | concluding outcome o since =>
    simp only [Knows, hp] at hk ⊢
    obtain ⟨hconcluded, hdue, hrest⟩ := hk
    exact ⟨hconcluded, fun ho => Nat.le_add_right_of_le (hdue ho), hrest⟩
  | returned r =>
    cases r <;>
    · simp only [Knows, hp] at hk ⊢
      exact hk

theorem Passed.concat {ts : List ExecTermination} (h : Passed ts) {t : ExecTermination} (ht : outcomeOf t = none) :
    Passed (ts ++ [t]) := by
  intro t' ht'
  rcases List.mem_append.mp ht' with ht' | ht'
  · exact h t' ht'
  · rw [List.mem_singleton.mp ht', ht]

/-- A check that comes to its end: it decides, or the deadline does, or the
next sleep begins. -/
theorem Inv.judge (h : Inv timeoutMs w) {since : Nat} (hp : w.point = .checking since) (o : ExecOutcome) :
    Inv timeoutMs (w.judge o since) := by
  have hk := h.knows
  simp only [Knows, hp] at hk
  obtain ⟨hpassed, hstart, hsince, hinterval, hslept, hin⟩ := hk
  have hlength : w.checks + 1 = (w.terminations ++ [o.termination]).length := by
    rw [List.length_append, List.length_singleton, h.checks]
  have hdeadline := h.deadline
  rw [WaitRun.judge]
  dsimp only
  split
  · next outcome houtcome =>
    refine ⟨hdeadline, hlength, ⟨⟨_, rfl, hpassed⟩, .inl houtcome⟩, fun ho => ?_, hin.succ⟩
    rw [ho] at houtcome
    have hnever : ∀ t, outcomeOf t ≠ some .timedOut := by
      intro t
      unfold outcomeOf
      split <;> simp
    exact absurd houtcome (hnever _)
  · next houtcome =>
    split
    · next hdue =>
      refine ⟨hdeadline, hlength, ⟨⟨_, rfl, hpassed⟩, .inr ⟨houtcome, rfl⟩⟩, fun _ => ?_, hin.succ⟩
      exact Nat.le_of_sub_eq_zero hdue
    · next hdue =>
      have hearly : w.start + slept w.checks ≤ w.now ∧ w.now < w.deadline := by omega
      refine ⟨hdeadline, hlength, hpassed.concat houtcome, hstart.trans hsince, ?_, ?_, ?_, fun n hn => ?_⟩
      · show min (w.interval * 2) waitMaxInterval = backoff (w.checks + 1)
        rw [hinterval, backoff_succ]
      · show w.now + min w.interval (w.deadline - w.now) ≤ w.deadline
        omega
      · show w.deadline ≤ w.now + min w.interval (w.deadline - w.now) ∨
          w.start + slept (w.checks + 1) ≤ w.now + min w.interval (w.deadline - w.now)
        rw [slept_succ, hinterval]
        omega
      · by_cases hlast : n = w.checks
        · rw [hlast]
          omega
        · have hn : n + 1 ≤ w.checks + 1 := hn
          exact hin n (by omega)

theorem Inv.move (h : Inv timeoutMs w) {m : WaitMove} (hm : w.move m = some w') : Inv timeoutMs w' := by
  have hdeadline := h.deadline
  cases m with
  | pass time =>
    cases hm
    exact h.pass time
  | checked r =>
    cases hp : w.point with
    | checking since =>
      cases r with
      | ok o =>
        simp only [WaitRun.move, hp, Option.some.injEq] at hm
        exact hm ▸ h.judge hp o
      | error e =>
        simp only [WaitRun.move, hp, Option.some.injEq] at hm
        subst hm
        have hk := h.knows
        simp only [Knows, hp] at hk
        exact ⟨h.deadline, h.checks, hk.1, hk.2.2.2.2.2.mono (by decide)⟩
    | _ =>
      simp only [WaitRun.move, hp] at hm
      cases hm
  | wake =>
    cases hp : w.point with
    | sleeping wake =>
      simp only [WaitRun.move, hp] at hm
      split at hm
      · next hdue =>
        cases hm
        have hk := h.knows
        simp only [Knows, hp] at hk
        obtain ⟨hpassed, hstart, hinterval, -, hslept, hin⟩ := hk
        refine ⟨h.deadline, h.checks, hpassed, hstart, Nat.le_refl _, hinterval, ?_, hin⟩
        show w.deadline ≤ w.now ∨ w.start + slept w.checks ≤ w.now
        omega
      · cases hm
    | _ =>
      simp only [WaitRun.move, hp] at hm
      cases hm
  | conclude =>
    cases hp : w.point with
    | concluding outcome o since =>
      simp only [WaitRun.move, hp, Option.some.injEq] at hm
      subst hm
      have hk := h.knows
      simp only [Knows, hp] at hk
      obtain ⟨hconcluded, hdue, hin⟩ := hk
      refine ⟨h.deadline, h.checks, hconcluded, rfl, decide_eq_true_iff, fun ho => ?_, hin⟩
      have := hdue ho
      show timeoutMs ≤ w.now - w.start
      omega
    | _ =>
      simp only [WaitRun.move, hp] at hm
      cases hm

theorem inv_of_reached {ok : WaitRun → WaitMove → Prop} (h₀ : Inv timeoutMs w₀) (hr : Reached ok w₀ w) :
    Inv timeoutMs w := by
  induction hr with
  | refl => exact h₀
  | tail _ hm ih =>
    obtain ⟨m, -, hm⟩ := hm
    exact ih.move hm

theorem outcomeOf_eq_none {t : ExecTermination} : outcomeOf t = none ↔ t = .exited 0 := by
  unfold outcomeOf
  split <;> simp_all

theorem outcomeOf_eq_gone {t : ExecTermination} : outcomeOf t = some .gone ↔ t = .exited 1 := by
  unfold outcomeOf
  split <;> simp_all

/-! ## The result -/

/-- A wait ends for the reason it gives: every check but the last has succeeded
and the last one decides, or it succeeds as well and the whole timeout has
passed. -/
theorem wait_ends_as_reported {o : Option Nat} {now : Nat} (ht : checkTimeout o = .ok timeoutMs)
    (hb : begin o now = .ok w₀) (hr : Reached (fun _ _ => True) w₀ w) {r : WaitResult}
    (hw : w.point = .returned (.ok r)) :
    ∃ past, w.terminations = past ++ [r.lastCheck.termination] ∧ (∀ t ∈ past, t = .exited 0) ∧
      r.checks = past.length + 1 ∧ (r.firstCheck = true ↔ past = []) ∧
      (r.outcome = .gone ↔ r.lastCheck.termination = .exited 1) ∧
      (r.outcome = .timedOut ↔ r.lastCheck.termination = .exited 0) ∧
      (r.outcome = .timedOut → timeoutMs ≤ r.waitedMs) := by
  obtain ⟨timeoutMs', ht', hinv⟩ := inv_begin hb
  obtain rfl : timeoutMs' = timeoutMs := Except.ok.inj (ht'.symm.trans ht)
  have h := inv_of_reached hinv hr
  have hk := h.knows
  simp only [Knows, hw] at hk
  obtain ⟨⟨⟨past, hts, hpassed⟩, hlast⟩, hchecks, hfirst, hdue, -⟩ := hk
  have hlength : w.checks = past.length + 1 := by
    rw [h.checks, hts, List.length_append, List.length_singleton]
  refine ⟨past, hts, fun t ht => outcomeOf_eq_none.mp (hpassed t ht), hchecks.trans hlength, ?_, ?_, ?_, hdue⟩
  · rw [hfirst, hlength, ← List.length_eq_zero_iff]
    omega
  · rw [← outcomeOf_eq_gone]
    rcases hlast with ho | ⟨ho, hout⟩
    · rw [ho, Option.some.injEq]
    · simp [ho, hout]
  · rw [← outcomeOf_eq_none]
    rcases hlast with ho | ⟨ho, hout⟩
    · rw [ho]
      refine ⟨fun hout => ?_, fun hn => by cases hn⟩
      rw [hout] at ho
      unfold outcomeOf at ho
      split at ho <;> cases ho
    · exact ⟨fun _ => ho, fun _ => hout⟩

theorem reached_of_run {ms : List WaitMove} (h : w₀.run ms = some w) : Reached (fun _ _ => True) w₀ w := by
  rw [run] at h
  induction ms generalizing w₀ with
  | nil =>
    obtain rfl := Option.some.inj h
    exact .refl
  | cons m ms ih =>
    rw [List.foldlM_cons] at h
    obtain ⟨w₁, hm, hrest⟩ := Option.bind_eq_some_iff.mp h
    exact .head ⟨m, trivial, hm⟩ (ih hrest)

/-- A check that ends at once, like this. -/
def checkOf (termination : ExecTermination) : ExecOutcome where
  termination
  stdout := .empty
  stderr := .empty
  durationMs := 0
  drainTimedOut := false

/-- The second check finds the process gone. -/
theorem wait_ends_as_reported_gone :
    ∃ w₀ w past, begin (some 5000) 0 = .ok w₀ ∧
      w₀.run [.checked (.ok (checkOf (.exited 0))), .pass 1000, .wake, .checked (.ok (checkOf (.exited 1))), .conclude] =
        some w ∧
      w.terminations = past ++ [.exited 1] ∧ ∀ t ∈ past, t = .exited 0 := by
  let w₀ : WaitRun :=
    { now := 0, start := 0, deadline := 5000, interval := 1000, checks := 0, terminations := [], point := .checking 0 }
  let r : WaitResult :=
    { outcome := .gone, firstCheck := false, checks := 2, waitedMs := 1000
      lastCheck := { termination := .exited 1, stdout := .empty, stderr := .empty } }
  let w : WaitRun :=
    { now := 1000, start := 0, deadline := 5000, interval := 2000, checks := 2
      terminations := [.exited 0, .exited 1], point := .returned (.ok r) }
  have hrun : w₀.run [.checked (.ok (checkOf (.exited 0))), .pass 1000, .wake, .checked (.ok (checkOf (.exited 1))),
      .conclude] = some w := by decide +kernel
  obtain ⟨past, hts, hpassed, -⟩ :=
    @wait_ends_as_reported 5000 w w₀ (some 5000) 0 rfl rfl (reached_of_run hrun) r rfl
  exact ⟨w₀, w, past, rfl, hrun, hts, hpassed⟩

/-! ## The overrun -/

theorem Inv.inTime (h : Inv timeoutMs w) : InTime timeoutMs w.checks 2 := by
  have hk := h.knows
  unfold Knows at hk
  split at hk
  · exact hk.2.2.2.2.2.mono (by decide)
  · exact hk.2.2.2.2.2.mono (by decide)
  · exact hk.2.2
  · exact hk.2.2.2.2
  · exact hk.2

/-- No check begins later than the last wake-up may be. -/
def Overruns (check late : Nat) (w : WaitRun) : Prop :=
  match w.point with
  | .checking since => since ≤ w.deadline + late
  | .concluding _ _ since => since ≤ w.deadline + late
  | .returned (.ok r) => w.start + r.waitedMs ≤ w.deadline + late + check
  | _ => True

theorem overruns_judge {check late since : Nat} (h : since ≤ w.deadline + late) (o : ExecOutcome) :
    Overruns check late (w.judge o since) := by
  rw [WaitRun.judge]
  dsimp only
  split
  · exact h
  · split
    · exact h
    · trivial

theorem overruns_move {check late : Nat} (h : Inv timeoutMs w) (ho : Overruns check late w) {m : WaitMove}
    (hok : Prompt check late w m) (hm : w.move m = some w') : Overruns check late w' := by
  cases m with
  | pass time =>
    cases hm
    exact ho
  | checked r =>
    cases hp : w.point with
    | checking since =>
      simp only [Overruns, hp] at ho
      cases r with
      | ok o =>
        simp only [WaitRun.move, hp, Option.some.injEq] at hm
        exact hm ▸ overruns_judge ho o
      | error e =>
        simp only [WaitRun.move, hp, Option.some.injEq] at hm
        subst hm
        trivial
    | _ =>
      simp only [WaitRun.move, hp] at hm
      cases hm
  | wake =>
    cases hp : w.point with
    | sleeping wake =>
      simp only [WaitRun.move, hp] at hm
      split at hm
      · cases hm
        have hk := h.knows
        simp only [Knows, hp] at hk
        simp only [Prompt, hp] at hok
        have hdue := hk.2.2.2.1
        show w.now ≤ w.deadline + late
        omega
      · cases hm
    | _ =>
      simp only [WaitRun.move, hp] at hm
      cases hm
  | conclude =>
    cases hp : w.point with
    | concluding outcome o since =>
      simp only [WaitRun.move, hp, Option.some.injEq] at hm
      subst hm
      simp only [Overruns, hp] at ho
      simp only [Prompt, hp] at hok
      have hdeadline := h.deadline
      show w.start + (w.now - w.start) ≤ w.deadline + late + check
      omega
    | _ =>
      simp only [WaitRun.move, hp] at hm
      cases hm

/-- How long the client waits for the reply: `Client::wait`. -/
def replyMs (timeoutMs : Option Nat) : Nat :=
  saturatingAddU64 (saturatingAddU64 (timeoutMs.getD defaultTimeoutMs) waitCheckTimeoutMs) 30000

/-- A wait runs its check 125 times at most, and overruns its timeout by one
check and one late wake-up at most; while these together take no longer than
the timeout of a check and half a minute more, the client is still waiting for
the reply. -/
theorem wait_overruns_by_one_check {o : Option Nat} {now : Nat} (ht : checkTimeout o = .ok timeoutMs)
    (hb : begin o now = .ok w₀) :
    (∀ w, Reached (fun _ _ => True) w₀ w → w.checks ≤ 125) ∧
    ∀ check late w r, Reached (Prompt check late) w₀ w → w.point = .returned (.ok r) →
      r.waitedMs ≤ timeoutMs + late + check ∧
        (check + late ≤ waitCheckTimeoutMs + 30000 → r.waitedMs ≤ replyMs o) := by
  obtain ⟨timeoutMs', ht', hinv⟩ := inv_begin hb
  obtain rfl : timeoutMs' = timeoutMs := Except.ok.inj (ht'.symm.trans ht)
  obtain ⟨-, hmax⟩ := checkTimeout_ok ht
  refine ⟨fun w hr => ?_, fun check late w r hr hw => ?_⟩
  · have h := (inv_of_reached hinv hr).inTime
    by_cases hchecks : w.checks < 2
    · omega
    · have := checks_of_slept (h (w.checks - 2) (by omega)) hmax
      omega
  · have hover : Inv timeoutMs' w ∧ Overruns check late w := by
      clear hw
      induction hr with
      | refl =>
        obtain ⟨n, -, rfl⟩ := begin_eq hb
        exact ⟨hinv, (Nat.le_add_right now n).trans (Nat.le_add_right (now + n) late)⟩
      | tail _ hm ih =>
        obtain ⟨m, hok, hm⟩ := hm
        exact ⟨ih.1.move hm, overruns_move ih.1 ih.2 hok hm⟩
    obtain ⟨h, ho⟩ := hover
    simp only [Overruns, hw] at ho
    have hdeadline := h.deadline
    have hwaited : r.waitedMs ≤ timeoutMs' + late + check := by omega
    refine ⟨hwaited, fun hsum => ?_⟩
    have hgetD : timeoutMs' = o.getD defaultTimeoutMs := by
      rw [checkTimeout] at ht
      split at ht
      · cases ht
      · exact (Except.ok.inj ht).symm
    rw [replyMs, saturatingAddU64, saturatingAddU64, ← hgetD]
    rw [maxTimeoutMs] at hmax
    rw [waitCheckTimeoutMs] at hsum ⊢
    have hbound : 3600000 + 60000 ≤ u64Bound - 1 := by decide
    omega

/-- Two checks of 100 milliseconds each, with the default timeout; by the second what
is waited on is gone. -/
theorem wait_overruns_by_one_check_default : ∃ w₀ w r, begin none 0 = .ok w₀ ∧ Reached (Prompt 100 0) w₀ w ∧
    w.point = .returned (.ok r) ∧ w.checks ≤ 125 ∧ r.waitedMs = 1200 ∧ r.waitedMs ≤ defaultTimeoutMs + 0 + 100 ∧
    r.waitedMs ≤ replyMs none := by
  let w₀ : WaitRun :=
    { now := 0, start := 0, deadline := defaultTimeoutMs, interval := 1000, checks := 0, terminations := []
      point := .checking 0 }
  let checked : WaitRun := { w₀ with now := 100 }
  let sleeps : WaitRun :=
    { w₀ with now := 100, interval := 2000, checks := 1, terminations := [.exited 0], point := .sleeping 1100 }
  have hchecked : Reached (Prompt 100 0) w₀ checked := .tail .refl ⟨.pass 100, trivial, rfl⟩
  have hsleeps : Reached (Prompt 100 0) w₀ sleeps :=
    hchecked.tail ⟨.checked (.ok (checkOf (.exited 0))), Nat.le_refl 100, by decide +kernel⟩
  have hslept : Reached (Prompt 100 0) w₀ { sleeps with now := 1100 } := hsleeps.tail ⟨.pass 1000, trivial, rfl⟩
  have hwakes : Reached (Prompt 100 0) w₀ { sleeps with now := 1100, point := .checking 1100 } :=
    hslept.tail ⟨.wake, Nat.le_refl 1100, by decide +kernel⟩
  have hends := ((hwakes.tail ⟨.pass 100, trivial, rfl⟩).tail
    ⟨.checked (.ok (checkOf (.exited 1))), Nat.le_refl 1200, rfl⟩).tail ⟨.conclude, Nat.le_refl 1200, rfl⟩
  obtain ⟨hbound, hover⟩ := wait_overruns_by_one_check (o := none) rfl (show begin none 0 = .ok w₀ from rfl)
  obtain ⟨hwaited, hreply⟩ := hover 100 0 _ _ hends rfl
  exact ⟨w₀, _, _, rfl, hends, rfl, hbound _ (Reached.any hends), rfl, hwaited, hreply (by decide)⟩

end WaitRun

end RemoteWorkspace
