import Mathlib.Logic.Relation
import RemoteWorkspace.Client.CommandLine
import RemoteWorkspace.Server.Handlers
import RemoteWorkspace.Server.OutputCapture

/-!
# A command under way

`exec` of `exec.rs` checks a request (`planExec`), spawns the command and then
waits for three things at once: the deadline, output, and the end of its child.
Two tasks read the output and hand it over through a channel. The command, the
processes it leaves behind, the two tasks and the clock go on between any two
steps of `exec` (`ExecMove`).

Whatever their order is, what is captured of a stream is the beginning of what
was written to it, and all of it where the drain came to its end
(`exec_captures_output`); the outcome tells truly how the command ended and
whether its processes were killed (`exec_ends_as_reported`); and nothing that
outlives the command keeps `exec` from returning (`exec_returns`).
-/

namespace RemoteWorkspace

/-! ## Before the command is spawned -/

/-- What a profile runs a command through. -/
structure Profile where
  shell : List String
  setup : String
  deriving DecidableEq, Repr

structure ServerConfig where
  profiles : List (String × Profile)
  defaultProfile : Option String
  deriving DecidableEq, Repr

def ServerConfig.profileFor (config : ServerConfig) (requested : Option String) :
    Except ProtocolError (Option Profile) :=
  match requested.or config.defaultProfile with
  | none => .ok none
  | some name =>
    match config.profiles.lookup name with
    | some profile => .ok (some profile)
    | none => .error (.new .invalidRequest ("unknown profile: " ++ name))

def maxTimeoutMs : Nat := 60 * 60 * 1000

/-- What is spawned, and where. -/
structure ExecPlan where
  command : List String
  workingDir : Path
  timeoutMs : Nat
  deriving DecidableEq, Repr

/-- The timeout of a request, or the default one. -/
def checkTimeout (timeoutMs : Option Nat) : Except ProtocolError Nat :=
  let timeoutMs := timeoutMs.getD defaultTimeoutMs
  if timeoutMs = 0 ∨ maxTimeoutMs < timeoutMs then
    .error (.new .invalidRequest ("timeout_ms must be between 1 and " ++ maxTimeoutMs.repr))
  else .ok timeoutMs

/-- What is spawned for `argv`: itself, or the shell of a profile with a script,
on Unix. -/
def commandOf (argv : List String) : Option Profile → List String
  | none => argv
  | some p => p.shell ++ [Exec.Unix.profileScript p.setup argv]

/-- The directory of a request, if it is one. -/
def checkCwd (ws : Workspace) (t : Tree) (cwd : Option String) : Except ProtocolError Path := do
  let workingDir ← cwd.elim (.ok ws.root) (ws.resolve t)
  if t.isDir workingDir then return workingDir
  else throw (.new .notFound ("cwd not found: " ++ pathText workingDir))

/-- `exec`, up to the command it spawns. -/
def planExec (ws : Workspace) (config : ServerConfig) (t : Tree) (cwd profile : Option String)
    (argv : List String) (timeoutMs : Option Nat) : Except ProtocolError ExecPlan :=
  if argv = [] then .error (.new .invalidRequest "argv must not be empty")
  else do
    let timeoutMs ← checkTimeout timeoutMs
    let resolvedProfile ← config.profileFor profile
    let workingDir ← checkCwd ws t cwd
    return { command := commandOf argv resolvedProfile, workingDir, timeoutMs }

theorem checkTimeout_ok {timeoutMs : Option Nat} {n : Nat} (h : checkTimeout timeoutMs = .ok n) :
    0 < n ∧ n ≤ maxTimeoutMs := by
  rw [checkTimeout] at h
  split at h
  · cases h
  · cases h
    omega

/-! ## The command and its readers -/

inductive ExecStream where
  | stdout | stderr
  deriving DecidableEq, Repr

/-- Where a reading task stands. -/
inductive ReaderPoint where
  | reading
  /-- In `tx.send`, with what it read. -/
  | sending (bytes : List UInt8)
  | ended
  deriving DecidableEq, Repr

/-- A pipe and the task that reads it. All that was ever written to it is kept
in `written`; it is `closed` once no process has it open for writing. -/
structure OutputPipe where
  unread : List UInt8
  closed : Bool
  reader : ReaderPoint
  written : List UInt8
  /-- A read has returned an error. -/
  failed : Bool
  deriving DecidableEq, Repr

def OutputPipe.new : OutputPipe :=
  { unread := [], closed := false, reader := .reading, written := [], failed := false }

/-- The size of the buffer of `spawn_reader`. -/
def readSize : Nat := 8192

/-- The capacity of the channel. -/
def channelCapacity : Nat := 64

/-- One `read` of at most `n` bytes; at the end of the file the task ends. -/
def OutputPipe.read (p : OutputPipe) (n : Nat) : Option OutputPipe :=
  if p.reader = .reading then
    if p.unread = [] then
      if p.closed then some { p with reader := .ended } else none
    else if 0 < n ∧ n ≤ readSize then
      some { p with unread := p.unread.drop n, reader := .sending (p.unread.take n) }
    else none
  else none

/-- What a reader has read and not handed over. -/
def OutputPipe.held (p : OutputPipe) : List UInt8 :=
  match p.reader with
  | .sending bytes => bytes
  | _ => []

inductive ExitStatus where
  | code (n : Int)
  | signal (n : Option Int)
  deriving DecidableEq, Repr

/-- `exit_termination`, on Unix. -/
def exitTermination : ExitStatus → ExecTermination
  | .code n => .exited n
  | .signal n => .signaled (n.getD 0)

/-- `DRAIN_GRACE_MS`. -/
def drainGraceMs : Nat := 2000

/-- Where `exec` stands. -/
inductive ExecPoint where
  /-- At the head of the first loop. -/
  | looping
  | selecting
  /-- In `child.wait()`, behind the kill of a command that timed out. -/
  | reaping
  | ending (t : ExecTermination)
  | draining (t : ExecTermination) (drainDeadline : Nat)
  /-- Behind the second loop. -/
  | drained (t : ExecTermination)
  | returned (r : Except ProtocolError ExecOutcome)
  deriving DecidableEq

/-- `exec` and what goes on around it, in milliseconds. -/
structure ExecRun where
  now : Nat
  start : Nat
  deadline : Nat
  /-- How the direct child ended. -/
  status : Option ExitStatus
  pipe : ExecStream → OutputPipe
  queue : List (ExecStream × List UInt8)
  captured : ExecStream → OutputCapture
  /-- The process group has been killed. -/
  killed : Bool
  drainTimedOut : Bool
  point : ExecPoint

/-- The branches of the two `select!`s. -/
inductive ExecBranch where
  | timer
  | event
  /-- `child.wait()` has returned, with this error if with one. -/
  | child (error : Option String)
  deriving DecidableEq, Repr

/-- What happens next, in `exec` or around it. -/
inductive ExecMove where
  | turn (b : ExecBranch)
  | pass (time : Nat)
  | write (s : ExecStream) (bytes : List UInt8)
  | hangUp (s : ExecStream)
  | read (s : ExecStream) (n : Nat)
  | readFails (s : ExecStream)
  | send (s : ExecStream)
  | exit (status : ExitStatus)
  deriving DecidableEq, Repr

namespace ExecRun

/-- A command that has just been spawned. -/
def spawned (plan : ExecPlan) (now : Nat) : ExecRun where
  now
  start := now
  deadline := now + plan.timeoutMs
  status := none
  pipe _ := .new
  queue := []
  captured _ := .empty
  killed := false
  drainTimedOut := false
  point := .looping

/-- The receiver of the channel is gone. -/
def gone (r : ExecRun) : Bool := match r.point with | .returned _ => true | _ => false

def setPipe (r : ExecRun) (s : ExecStream) (p : OutputPipe) : ExecRun :=
  { r with pipe := Function.update r.pipe s p }

/-- `capture`, for the first event of the queue. -/
def capture (r : ExecRun) (s : ExecStream) (bytes : List UInt8) (queue : List (ExecStream × List UInt8)) : ExecRun :=
  { r with queue, captured := Function.update r.captured s ((r.captured s).push bytes) }

/-- All senders of the channel are gone. -/
def closed (r : ExecRun) : Bool := (r.pipe .stdout).reader = .ended && (r.pipe .stderr).reader = .ended

def waitError (e : String) : ProtocolError := .new .execFailed ("wait failed: " ++ e)

/-- One step of `exec`. -/
def turn (r : ExecRun) (b : ExecBranch) : Option ExecRun :=
  match r.point with
  | .looping =>
    if r.deadline ≤ r.now then some { r with killed := true, point := .reaping }
    else some { r with point := .selecting }
  | .selecting =>
    match b with
    | .timer => if r.deadline ≤ r.now then some { r with killed := true, point := .reaping } else none
    | .event =>
      match r.queue with
      | (s, bytes) :: queue => some { r.capture s bytes queue with point := .looping }
      | [] => none
    | .child none => r.status.map fun status => { r with point := .ending (exitTermination status) }
    -- The process group is dropped, which kills it.
    | .child (some e) => some { r with killed := true, point := .returned (.error (waitError e)) }
  | .reaping =>
    match b with
    | .child none => r.status.map fun _ => { r with point := .ending .timedOut }
    | .child (some _) => some { r with point := .ending .timedOut }
    | _ => none
  | .ending t => some { r with point := .draining t (r.now + drainGraceMs) }
  | .draining t drainDeadline =>
    match b with
    | .timer =>
      if drainDeadline ≤ r.now then some { r with killed := true, drainTimedOut := true, point := .drained t }
      else none
    | .event =>
      match r.queue with
      | (s, bytes) :: queue => some (r.capture s bytes queue)
      | [] => if r.closed then some { r with point := .drained t } else none
    | .child _ => none
  | .drained t => do
    let stdout ← (r.captured .stdout).finish
    let stderr ← (r.captured .stderr).finish
    some { r with
      point := .returned (.ok
        { termination := t, stdout, stderr, durationMs := r.now - r.start, drainTimedOut := r.drainTimedOut }) }
  | .returned _ => none

def move (r : ExecRun) : ExecMove → Option ExecRun
  | .turn b => r.turn b
  | .pass time => some { r with now := r.now + time }
  | .write s bytes =>
    if (r.pipe s).closed then none
    else
      some (r.setPipe s { r.pipe s with
        unread := (r.pipe s).unread ++ bytes
        written := (r.pipe s).written ++ bytes })
  | .hangUp s => some (r.setPipe s { r.pipe s with closed := true })
  | .read s n => ((r.pipe s).read n).map (r.setPipe s)
  | .readFails s =>
    if (r.pipe s).reader = .reading then some (r.setPipe s { r.pipe s with reader := .ended, failed := true })
    else none
  | .send s =>
    match (r.pipe s).reader with
    | .sending bytes =>
      if r.gone then some (r.setPipe s { r.pipe s with reader := .ended })
      else if r.queue.length < channelCapacity then
        some { r.setPipe s { r.pipe s with reader := .reading } with queue := r.queue ++ [(s, bytes)] }
      else none
    | _ => none
  | .exit status => if r.status.isSome then none else some { r with status := some status }

/-- Run these moves. -/
def run (r : ExecRun) (ms : List ExecMove) : Option ExecRun := ms.foldlM move r

/-- The states of the runs of `plan`. -/
def Reached (plan : ExecPlan) (r : ExecRun) : Prop :=
  ∃ now, Relation.ReflTransGen (fun r r' => ∃ m, move r m = some r') (spawned plan now) r

/-! ## What a step does -/

/-- What one step of `exec` can make of a run. -/
inductive Turned (r : ExecRun) : ExecRun → Prop where
  | selects (h : r.point = .looping) : Turned r { r with point := .selecting }
  | timesOut (h : r.point = .looping ∨ r.point = .selecting) (hdue : r.deadline ≤ r.now) :
      Turned r { r with killed := true, point := .reaping }
  | captures {s : ExecStream} {bytes : List UInt8} {queue : List (ExecStream × List UInt8)} {point : ExecPoint}
      (hq : r.queue = (s, bytes) :: queue)
      (h : r.point = .selecting ∧ point = .looping ∨ (∃ t d, r.point = .draining t d) ∧ point = r.point) :
      Turned r { r.capture s bytes queue with point }
  | exits {status : ExitStatus} (h : r.point = .selecting) (hs : r.status = some status) :
      Turned r { r with point := .ending (exitTermination status) }
  | waitFails (e : String) (h : r.point = .selecting) :
      Turned r { r with killed := true, point := .returned (.error (waitError e)) }
  | reaps (h : r.point = .reaping) : Turned r { r with point := .ending .timedOut }
  | drains {t : ExecTermination} (h : r.point = .ending t) :
      Turned r { r with point := .draining t (r.now + drainGraceMs) }
  | givesUp {t : ExecTermination} {d : Nat} (h : r.point = .draining t d) (hdue : d ≤ r.now) :
      Turned r { r with killed := true, drainTimedOut := true, point := .drained t }
  | closes {t : ExecTermination} {d : Nat} (h : r.point = .draining t d) (hq : r.queue = []) (hc : r.closed = true) :
      Turned r { r with point := .drained t }
  | returns {t : ExecTermination} {stdout stderr : ExecOutput} (h : r.point = .drained t)
      (hout : (r.captured .stdout).finish = some stdout) (herr : (r.captured .stderr).finish = some stderr) :
      Turned r { r with
        point := .returned (.ok
          { termination := t, stdout, stderr, durationMs := r.now - r.start, drainTimedOut := r.drainTimedOut }) }

variable {r r' : ExecRun} {b : ExecBranch}

theorem turned_of_turn (h : r.turn b = some r') : Turned r r' := by
  unfold turn at h
  split at h
  case h_1 hp =>
    split at h
    · cases h
      exact .timesOut (.inl hp) ‹_›
    · cases h
      exact .selects hp
  case h_2 hp =>
    split at h
    · split at h
      · cases h
        exact .timesOut (.inr hp) ‹_›
      · cases h
    · split at h
      · next hq =>
        cases h
        exact .captures hq (.inl ⟨hp, rfl⟩)
      · cases h
    · obtain ⟨status, hs, rfl⟩ := Option.map_eq_some_iff.mp h
      exact .exits hp hs
    · cases h
      exact .waitFails _ hp
  case h_3 hp =>
    split at h
    · obtain ⟨status, -, rfl⟩ := Option.map_eq_some_iff.mp h
      exact .reaps hp
    · cases h
      exact .reaps hp
    · cases h
  case h_4 t hp =>
    cases h
    exact .drains hp
  case h_5 t d hp =>
    split at h
    · split at h
      · cases h
        exact .givesUp hp ‹_›
      · cases h
    · split at h
      · next hq =>
        cases h
        exact .captures hq (.inr ⟨⟨t, d, hp⟩, rfl⟩)
      · next hq =>
        split at h
        · cases h
          exact .closes hp hq ‹_›
        · cases h
    · cases h
  case h_6 t hp =>
    obtain ⟨stdout, hout, h⟩ := Option.bind_eq_some_iff.mp h
    obtain ⟨stderr, herr, h⟩ := Option.bind_eq_some_iff.mp h
    cases h
    exact .returns hp hout herr
  case h_7 => cases h

/-- What goes on around `exec` leaves it where it stands. -/
structure Around (r r' : ExecRun) : Prop where
  point : r'.point = r.point
  killed : r'.killed = r.killed
  drainTimedOut : r'.drainTimedOut = r.drainTimedOut
  start : r'.start = r.start
  deadline : r'.deadline = r.deadline
  captured : r'.captured = r.captured
  now_le : r.now ≤ r'.now
  status : ∀ status, r.status = some status → r'.status = some status

theorem Around.setPipe (r : ExecRun) (s : ExecStream) (p : OutputPipe) : Around r (r.setPipe s p) :=
  ⟨rfl, rfl, rfl, rfl, rfl, rfl, Nat.le_refl _, fun _ h => h⟩

theorem around_of_move {m : ExecMove} (h : r.move m = some r') (hm : ∀ b, m ≠ .turn b) : Around r r' := by
  cases m with
  | turn b => exact absurd rfl (hm b)
  | pass time =>
    cases h
    exact ⟨rfl, rfl, rfl, rfl, rfl, rfl, Nat.le_add_right _ _, fun _ h => h⟩
  | write s bytes =>
    rw [move] at h
    split at h
    · cases h
    · cases h
      exact .setPipe r s _
  | hangUp s =>
    cases h
    exact .setPipe r s _
  | read s n =>
    obtain ⟨p, -, rfl⟩ := Option.map_eq_some_iff.mp h
    exact .setPipe r s p
  | readFails s =>
    rw [move] at h
    split at h
    · cases h
      exact .setPipe r s _
    · cases h
  | send s =>
    rw [move] at h
    split at h
    · split at h
      · cases h
        exact .setPipe r s _
      · split at h
        · cases h
          exact ⟨rfl, rfl, rfl, rfl, rfl, rfl, Nat.le_refl _, fun _ h => h⟩
        · cases h
    · cases h
  | exit status =>
    rw [move] at h
    split at h
    · cases h
    · next hs =>
      cases h
      refine ⟨rfl, rfl, rfl, rfl, rfl, rfl, Nat.le_refl _, fun status' h' => ?_⟩
      rw [h'] at hs
      exact absurd rfl hs

/-! ## The output -/

/-- What of a stream is in the channel. -/
def queued (r : ExecRun) (s : ExecStream) : List UInt8 := r.queue.flatMap fun e => if e.1 = s then e.2 else []

/-- The drain has come to its end: both readers had ended, and nothing was left
in the channel. -/
def Collected (r : ExecRun) : Prop :=
  r.drainTimedOut = false ∧ ((∃ t, r.point = .drained t) ∨ ∃ o, r.point = .returned (.ok o))

/-- Where the bytes of a stream are: captured are the first ones, `got`, then
come those in the channel, in the hands of the reader and in the pipe. -/
structure Carries (gone : Bool) (collected : Prop) (got channel : List UInt8) (p : OutputPipe) : Prop where
  part : got <+: p.written
  whole : gone = false → p.written = got ++ (channel ++ (p.held ++ p.unread))
  ended : gone = false → p.reader = .ended → p.failed = true ∨ (p.closed = true ∧ p.unread = [])
  complete : collected → p.failed = true ∨ (p.closed = true ∧ got = p.written)

section

variable {gone : Bool} {collected : Prop} {got channel : List UInt8} {p : OutputPipe}

theorem Carries.write (h : Carries gone collected got channel p) (hopen : p.closed = false) (bytes : List UInt8) :
    Carries gone collected got channel { p with unread := p.unread ++ bytes, written := p.written ++ bytes } where
  part := h.part.trans (List.prefix_append _ _)
  whole hg := by
    show p.written ++ bytes = got ++ (channel ++ (p.held ++ (p.unread ++ bytes)))
    rw [h.whole hg]
    simp only [List.append_assoc]
  ended hg he := by
    rcases h.ended hg he with hf | ⟨hc, -⟩
    · exact .inl hf
    · rw [hopen] at hc
      cases hc
  complete hc := by
    rcases h.complete hc with hf | ⟨hcl, -⟩
    · exact .inl hf
    · rw [hopen] at hcl
      cases hcl

theorem Carries.hangUp (h : Carries gone collected got channel p) :
    Carries gone collected got channel { p with closed := true } where
  part := h.part
  whole := h.whole
  ended hg he := (h.ended hg he).imp_right fun hc => ⟨rfl, hc.2⟩
  complete hc := (h.complete hc).imp_right fun hcl => ⟨rfl, hcl.2⟩

theorem Carries.read (h : Carries gone collected got channel p) {n : Nat} {p' : OutputPipe} (hp : p.read n = some p') :
    Carries gone collected got channel p' := by
  rw [OutputPipe.read] at hp
  split at hp
  · next hr =>
    have hheld : p.held = [] := by rw [OutputPipe.held, hr]
    split at hp
    · next hu =>
      split at hp
      · next hc =>
        cases hp
        exact ⟨h.part, fun hg => by rw [h.whole hg, hheld]; rfl, fun _ _ => .inr ⟨hc, hu⟩, h.complete⟩
      · cases hp
    · split at hp
      · cases hp
        refine ⟨h.part, fun hg => ?_, fun _ he => ?_, h.complete⟩
        · show p.written = got ++ (channel ++ (p.unread.take n ++ p.unread.drop n))
          rw [h.whole hg, hheld, List.take_append_drop, List.nil_append]
        · cases he
      · cases hp
  · cases hp

theorem Carries.readFails (h : Carries gone collected got channel p) (hr : p.reader = .reading) :
    Carries gone collected got channel { p with reader := .ended, failed := true } where
  part := h.part
  whole hg := by
    rw [h.whole hg, OutputPipe.held, hr]
    rfl
  ended _ _ := .inl rfl
  complete _ := .inl rfl

theorem Carries.send (h : Carries gone collected got channel p) {bytes : List UInt8} (hr : p.reader = .sending bytes) :
    Carries gone collected got (channel ++ bytes) { p with reader := .reading } where
  part := h.part
  whole hg := by
    rw [h.whole hg, OutputPipe.held, hr, List.append_assoc]
    rfl
  ended _ he := by cases he
  complete := h.complete

/-- The send that finds the receiver gone. -/
theorem Carries.sendFails (h : Carries true collected got channel p) :
    Carries true collected got channel { p with reader := .ended } where
  part := h.part
  whole hg := by cases hg
  ended hg := by cases hg
  complete := h.complete

/-- What was not received yet may no longer be, and what was is kept. -/
theorem Carries.goOn (h : Carries false collected got channel p) {gone' : Bool} {collected' : Prop}
    (hc : collected' → p.failed = true ∨ (p.closed = true ∧ got = p.written)) :
    Carries gone' collected' got channel p :=
  ⟨h.part, fun _ => h.whole rfl, fun _ => h.ended rfl, hc⟩

/-- With the channel empty and the reader at its end, everything is captured. -/
theorem Carries.all (h : Carries false collected got [] p) (hr : p.reader = .ended) :
    p.failed = true ∨ (p.closed = true ∧ got = p.written) := by
  rcases h.ended rfl hr with hf | ⟨hc, hu⟩
  · exact .inl hf
  · refine .inr ⟨hc, ?_⟩
    rw [h.whole rfl, OutputPipe.held, hr, hu]
    exact (List.append_nil got).symm

/-- The first of what is in the channel is captured. -/
theorem Carries.capture {bytes : List UInt8} (h : Carries false collected got (bytes ++ channel) p)
    (hc : ¬ collected) : Carries false collected (got ++ bytes) channel p where
  part := by
    rw [h.whole rfl, List.append_assoc, ← List.append_assoc]
    exact List.prefix_append _ _
  whole _ := by rw [h.whole rfl, List.append_assoc, List.append_assoc]
  ended := h.ended
  complete hc' := absurd hc' hc

end

/-- What is captured of a stream, and where the rest of it is. -/
structure Flow (r : ExecRun) (s : ExecStream) (got : List UInt8) : Prop where
  captured : r.captured s = .ofStream got
  carries : Carries r.gone r.Collected got (r.queued s) (r.pipe s)

theorem flow_spawned (plan : ExecPlan) (now : Nat) (s : ExecStream) : Flow (spawned plan now) s [] := by
  refine ⟨rfl, List.nil_prefix, fun _ => rfl, fun _ he => ?_, fun hc => ?_⟩
  · cases he
  · obtain ⟨-, ⟨t, ht⟩ | ⟨o, ho⟩⟩ := hc
    · cases ht
    · cases ho

theorem queued_cons (s s' : ExecStream) (bytes : List UInt8) {queue : List (ExecStream × List UInt8)}
    (h : r.queue = (s', bytes) :: queue) :
    r.queued s = (if s' = s then bytes else []) ++ queue.flatMap fun e => if e.1 = s then e.2 else [] := by
  rw [queued, h, List.flatMap_cons]

section

variable {s : ExecStream} {got : List UInt8}

theorem Flow.setPipe (h : Flow r s got) {s' : ExecStream} {p : OutputPipe}
    (hp : s' = s → Carries r.gone r.Collected got (r.queued s) p) : Flow (r.setPipe s' p) s got := by
  refine ⟨h.captured, ?_⟩
  show Carries r.gone r.Collected got (r.queued s) (Function.update r.pipe s' p s)
  by_cases hs : s = s'
  · rw [hs, Function.update_self, ← hs]
    exact hp hs.symm
  · rw [Function.update_of_ne hs]
    exact h.carries

theorem Flow.send (h : Flow r s got) {s' : ExecStream} {bytes : List UInt8}
    (hr : (r.pipe s').reader = .sending bytes) :
    Flow { r.setPipe s' { r.pipe s' with reader := .reading } with queue := r.queue ++ [(s', bytes)] } s got := by
  refine ⟨h.captured, ?_⟩
  show Carries r.gone r.Collected got ((r.queue ++ [(s', bytes)]).flatMap fun e => if e.1 = s then e.2 else [])
    (Function.update r.pipe s' { r.pipe s' with reader := .reading } s)
  rw [List.flatMap_append, List.flatMap_singleton]
  by_cases hs : s = s'
  · subst hs
    rw [Function.update_self, if_pos rfl]
    exact h.carries.send hr
  · rw [Function.update_of_ne hs, if_neg (Ne.symm hs), List.append_nil]
    exact h.carries

/-- What goes on around `exec` takes nothing from a stream. -/
theorem Flow.around (h : Flow r s got) {m : ExecMove} (hm : r.move m = some r') (ht : ∀ b, m ≠ .turn b) :
    Flow r' s got := by
  cases m with
  | turn b => exact absurd rfl (ht b)
  | pass time =>
    cases hm
    exact ⟨h.captured, h.carries⟩
  | write s' bytes =>
    rw [move] at hm
    split at hm
    · cases hm
    · next hopen =>
      cases hm
      apply h.setPipe
      rintro rfl
      exact h.carries.write (Bool.not_eq_true _ ▸ hopen) bytes
  | hangUp s' =>
    cases hm
    apply h.setPipe
    rintro rfl
    exact h.carries.hangUp
  | read s' n =>
    obtain ⟨p, hp, rfl⟩ := Option.map_eq_some_iff.mp hm
    apply h.setPipe
    rintro rfl
    exact h.carries.read hp
  | readFails s' =>
    rw [move] at hm
    split at hm
    · next hr =>
      cases hm
      apply h.setPipe
      rintro rfl
      exact h.carries.readFails hr
    · cases hm
  | send s' =>
    rw [move] at hm
    split at hm
    · next bytes hr =>
      split at hm
      · next hg =>
        cases hm
        apply h.setPipe
        rintro rfl
        have hc := h.carries
        rw [hg] at hc ⊢
        exact hc.sendFails
      · split at hm
        · cases hm
          exact h.send hr
        · cases hm
    · cases hm
  | exit status =>
    rw [move] at hm
    split at hm
    · cases hm
    · cases hm
      exact ⟨h.captured, h.carries⟩

theorem gone_of_point {point : ExecPoint} (h : r.point = point) (hp : ∀ o, point ≠ .returned o) : r.gone = false := by
  rw [gone, h]
  cases point with
  | returned o => exact absurd rfl (hp o)
  | _ => rfl

theorem not_collected_of_point {point : ExecPoint} (h : r.point = point) (hd : ∀ t, point ≠ .drained t)
    (hr : ∀ o, point ≠ .returned (.ok o)) : ¬ r.Collected := by
  rintro ⟨-, ⟨t, ht⟩ | ⟨o, ho⟩⟩
  · exact hd t (h.symm.trans ht)
  · exact hr o (h.symm.trans ho)

theorem Turned.gone (ht : Turned r r') : r.gone = false := by
  cases ht with
  | timesOut h => rcases h with h | h <;> exact gone_of_point h (by simp)
  | captures _ h =>
    obtain ⟨h, -⟩ | ⟨⟨t, d, h⟩, -⟩ := h
    · exact gone_of_point h (by simp)
    · exact gone_of_point h (by simp)
  | selects h | exits h | waitFails _ h | reaps h | drains h | givesUp h | closes h | returns h =>
    exact gone_of_point h (by simp)

/-- A step of `exec` captures the first of a stream that is in the channel, or
nothing of it. -/
theorem Flow.turned (h : Flow r s got) (ht : Turned r r') : ∃ got', Flow r' s got' := by
  have hcarries := h.carries
  rw [ht.gone] at hcarries
  cases ht with
  | captures hq hp =>
    next s' bytes queue point =>
    have hnot : ¬ r.Collected := by
      obtain ⟨hp, -⟩ | ⟨⟨t, d, hp⟩, -⟩ := hp
      · exact not_collected_of_point hp (by simp) (by simp)
      · exact not_collected_of_point hp (by simp) (by simp)
    have hnot' : ¬ { r.capture s' bytes queue with point }.Collected := by
      obtain ⟨-, rfl⟩ | ⟨⟨t, d, hp⟩, rfl⟩ := hp
      · exact not_collected_of_point rfl (by simp) (by simp)
      · exact not_collected_of_point hp (by simp) (by simp)
    rw [queued_cons s s' bytes hq] at hcarries
    by_cases hs : s' = s
    · subst hs
      rw [if_pos rfl] at hcarries
      refine ⟨got ++ bytes, ?_, (hcarries.capture hnot).goOn fun hc => absurd hc hnot'⟩
      show Function.update r.captured s' ((r.captured s').push bytes) s' = _
      rw [Function.update_self, h.captured, push_ofStream]
    · rw [if_neg hs, List.nil_append] at hcarries
      refine ⟨got, ?_, hcarries.goOn fun hc => absurd hc hnot'⟩
      show Function.update r.captured s' ((r.captured s').push bytes) s = _
      rw [Function.update_of_ne (Ne.symm hs), h.captured]
  | closes hp hq hc =>
    have hreader : (r.pipe s).reader = .ended := by
      rw [closed, Bool.and_eq_true, decide_eq_true_eq, decide_eq_true_eq] at hc
      cases s
      · exact hc.1
      · exact hc.2
    have hchannel : r.queued s = [] := by rw [queued, hq, List.flatMap_nil]
    rw [hchannel] at hcarries
    exact ⟨got, h.captured, by rw [queued, hq]; exact hcarries.goOn fun _ => hcarries.all hreader⟩
  | returns hp =>
    refine ⟨got, h.captured, hcarries.goOn fun hc => hcarries.complete ⟨hc.1, .inl ⟨_, hp⟩⟩⟩
  | givesUp =>
    refine ⟨got, h.captured, hcarries.goOn fun hc => ?_⟩
    cases hc.1
  | selects | timesOut | exits | waitFails | reaps | drains =>
    refine ⟨got, h.captured, hcarries.goOn fun hc => absurd hc ?_⟩
    exact not_collected_of_point rfl (by simp) (by simp)

end

/-- A move that is a step of `exec`, or one around it. -/
theorem move_cases {m : ExecMove} (h : r.move m = some r') :
    Turned r r' ∨ (∀ b, m ≠ .turn b) ∧ Around r r' := by
  cases m with
  | turn b => exact .inl (turned_of_turn h)
  | _ => exact .inr ⟨by simp, around_of_move h (by simp)⟩

theorem flow_of_reached {plan : ExecPlan} (h : Reached plan r) (s : ExecStream) : ∃ got, Flow r s got := by
  obtain ⟨now, h⟩ := h
  induction h with
  | refl => exact ⟨[], flow_spawned plan now s⟩
  | tail _ hm ih =>
    obtain ⟨m, hm⟩ := hm
    obtain ⟨got, hgot⟩ := ih
    rcases move_cases hm with ht | ⟨hne, -⟩
    · exact hgot.turned ht
    · exact ⟨got, hgot.around hm hne⟩

/-! ## The outcome -/

/-- The child has ended like this, or has been killed at its deadline. -/
def Ended (r : ExecRun) (t : ExecTermination) : Prop :=
  (t = .timedOut ∧ r.deadline ≤ r.now ∧ r.killed = true) ∨ ∃ status, r.status = some status ∧ t = exitTermination status

/-- The processes of the command have been killed exactly if one of the two
waits came to nothing. -/
def KilledFor (r : ExecRun) (t : ExecTermination) : Prop :=
  r.killed = true ↔ t = .timedOut ∨ r.drainTimedOut = true

/-- The time that the waits which came to nothing have taken. -/
def waited (plan : ExecPlan) (t : ExecTermination) (drainTimedOut : Bool) : Nat :=
  (if t = .timedOut then plan.timeoutMs else 0) + if drainTimedOut then drainGraceMs else 0

/-- What `exec` knows of the command where it stands. -/
def Knows (plan : ExecPlan) (r : ExecRun) : Prop :=
  match r.point with
  | .looping => r.killed = false ∧ r.drainTimedOut = false
  | .selecting => r.killed = false ∧ r.drainTimedOut = false
  | .reaping => r.deadline ≤ r.now ∧ r.killed = true ∧ r.drainTimedOut = false
  | .ending t => r.Ended t ∧ r.KilledFor t ∧ r.drainTimedOut = false
  | .draining t drainDeadline =>
    r.Ended t ∧ r.KilledFor t ∧ r.drainTimedOut = false ∧ r.start + waited plan t true ≤ drainDeadline ∧
      drainDeadline ≤ r.now + drainGraceMs
  | .drained t => r.Ended t ∧ r.KilledFor t ∧ r.start + waited plan t r.drainTimedOut ≤ r.now
  | .returned (.ok o) =>
    r.Ended o.termination ∧ r.KilledFor o.termination ∧ o.drainTimedOut = r.drainTimedOut ∧
      waited plan o.termination o.drainTimedOut ≤ o.durationMs ∧
      (r.captured .stdout).finish = some o.stdout ∧ (r.captured .stderr).finish = some o.stderr
  | .returned (.error e) => r.killed = true ∧ ∃ text, e = waitError text

/-- What is true of a run wherever it stands. -/
structure Reports (plan : ExecPlan) (r : ExecRun) : Prop where
  deadline : r.deadline = r.start + plan.timeoutMs
  started : r.start ≤ r.now
  knows : r.Knows plan

theorem exitTermination_ne (status : ExitStatus) : exitTermination status ≠ .timedOut := by
  cases status <;> simp [exitTermination]

variable {plan : ExecPlan} {t : ExecTermination}

theorem Ended.around (h : r.Ended t) (ha : Around r r') : r'.Ended t := by
  rcases h with ⟨ht, hd, hk⟩ | ⟨status, hs, ht⟩
  · refine .inl ⟨ht, ?_, ?_⟩
    · rw [ha.deadline]
      exact hd.trans ha.now_le
    · rw [ha.killed]
      exact hk
  · exact .inr ⟨status, ha.status _ hs, ht⟩

theorem KilledFor.around (h : r.KilledFor t) (ha : Around r r') : r'.KilledFor t := by
  rw [KilledFor, ha.killed, ha.drainTimedOut]
  exact h

theorem Reports.around (h : r.Reports plan) (ha : Around r r') : r'.Reports plan := by
  refine ⟨?_, ?_, ?_⟩
  · rw [ha.deadline, ha.start]
    exact h.deadline
  · rw [ha.start]
    exact h.started.trans ha.now_le
  · have hk := h.knows
    unfold Knows at hk ⊢
    rw [ha.point]
    cases hp : r.point with
    | looping =>
      rw [hp] at hk
      rw [ha.killed, ha.drainTimedOut]
      exact hk
    | selecting =>
      rw [hp] at hk
      rw [ha.killed, ha.drainTimedOut]
      exact hk
    | reaping =>
      rw [hp] at hk
      rw [ha.killed, ha.drainTimedOut, ha.deadline]
      exact ⟨hk.1.trans ha.now_le, hk.2⟩
    | ending t =>
      rw [hp] at hk
      obtain ⟨he, hkill, hd⟩ := hk
      exact ⟨he.around ha, hkill.around ha, ha.drainTimedOut.trans hd⟩
    | draining t d =>
      rw [hp] at hk
      obtain ⟨he, hkill, hd, hw, hdue⟩ := hk
      refine ⟨he.around ha, hkill.around ha, ha.drainTimedOut.trans hd, ?_, ?_⟩
      · rw [ha.start]
        exact hw
      · exact hdue.trans (Nat.add_le_add_right ha.now_le _)
    | drained t =>
      rw [hp] at hk
      obtain ⟨he, hkill, hw⟩ := hk
      refine ⟨he.around ha, hkill.around ha, ?_⟩
      rw [ha.start, ha.drainTimedOut]
      exact hw.trans ha.now_le
    | returned o =>
      rw [hp] at hk
      cases o with
      | ok o =>
        obtain ⟨he, hkill, hd, hw, hout⟩ := hk
        refine ⟨he.around ha, hkill.around ha, hd.trans ha.drainTimedOut.symm, hw, ?_⟩
        rw [ha.captured]
        exact hout
      | error e =>
        obtain ⟨hkill, he⟩ := hk
        exact ⟨ha.killed.trans hkill, he⟩

/-- What a step of `exec` keeps of the clock. -/
theorem Turned.clock (ht : Turned r r') :
    r'.deadline = r.deadline ∧ r'.start = r.start ∧ r'.now = r.now ∧ r'.status = r.status := by
  cases ht <;> exact ⟨rfl, rfl, rfl, rfl⟩

/-- The end of the first loop takes as long as was to be waited. -/
theorem Ended.waited_le (h : r.Ended t) (hd : r.deadline = r.start + plan.timeoutMs) (hs : r.start ≤ r.now) :
    r.start + waited plan t false ≤ r.now := by
  rw [waited]
  rcases h with ⟨rfl, hdue, -⟩ | ⟨status, -, rfl⟩
  · rw [hd] at hdue
    simpa using hdue
  · simpa [exitTermination_ne] using hs

theorem Reports.turned (h : r.Reports plan) (ht : Turned r r') : r'.Reports plan := by
  obtain ⟨hdeadline, hstart, hnow, -⟩ := ht.clock
  refine ⟨?_, ?_, ?_⟩
  · rw [hdeadline, hstart]
    exact h.deadline
  · rw [hstart, hnow]
    exact h.started
  have hk := h.knows
  unfold Knows at hk ⊢
  cases ht with
  | selects hp =>
    rw [hp] at hk
    exact hk
  | timesOut hp hdue =>
    rcases hp with hp | hp <;>
    · rw [hp] at hk
      exact ⟨hdue, rfl, hk.2⟩
  | captures hq hp =>
    obtain ⟨hp, rfl⟩ | ⟨⟨t, d, hp⟩, rfl⟩ := hp
    · rw [hp] at hk
      exact hk
    · rw [hp] at hk
      simp only [hp]
      exact hk
  | exits hp hs =>
    rw [hp] at hk
    refine ⟨.inr ⟨_, hs, rfl⟩, ?_, hk.2⟩
    show r.killed = true ↔ _
    simp [hk.1, hk.2, exitTermination_ne]
  | waitFails e hp => exact ⟨rfl, e, rfl⟩
  | reaps hp =>
    rw [hp] at hk
    refine ⟨.inl ⟨rfl, hk.1, hk.2.1⟩, ?_, hk.2.2⟩
    show r.killed = true ↔ _
    simp [hk.2.1]
  | drains hp =>
    rw [hp] at hk
    obtain ⟨he, hkill, hd⟩ := hk
    refine ⟨he, hkill, hd, ?_, Nat.le_refl _⟩
    have := he.waited_le h.deadline h.started
    show r.start + waited plan _ true ≤ r.now + drainGraceMs
    simp only [waited] at this ⊢
    simp at this ⊢
    omega
  | givesUp hp hdue =>
    rw [hp] at hk
    obtain ⟨he, -, hd, hw, -⟩ := hk
    refine ⟨?_, ?_, hw.trans hdue⟩
    · rcases he with ⟨ht, hd, -⟩ | he
      · exact .inl ⟨ht, hd, rfl⟩
      · exact .inr he
    · show true = true ↔ _
      simp
  | closes hp hq hc =>
    rw [hp] at hk
    obtain ⟨he, hkill, hd, -⟩ := hk
    refine ⟨he, hkill, ?_⟩
    show r.start + waited plan _ r.drainTimedOut ≤ r.now
    rw [hd]
    exact he.waited_le h.deadline h.started
  | returns hp hout herr =>
    rw [hp] at hk
    obtain ⟨he, hkill, hw⟩ := hk
    refine ⟨he, hkill, rfl, ?_, hout, herr⟩
    exact Nat.le_sub_of_add_le' hw

theorem reports_of_reached (h : Reached plan r) : r.Reports plan := by
  obtain ⟨now, h⟩ := h
  induction h with
  | refl => exact ⟨rfl, Nat.le_refl _, rfl, rfl⟩
  | tail _ hm ih =>
    obtain ⟨m, hm⟩ := hm
    rcases move_cases hm with ht | ⟨-, ha⟩
    · exact ih.turned ht
    · exact ih.around ha

theorem reached_of_run {now : Nat} {ms : List ExecMove} (h : (spawned plan now).run ms = some r) : Reached plan r := by
  refine ⟨now, ?_⟩
  rw [run] at h
  generalize spawned plan now = r₀ at h ⊢
  induction ms generalizing r₀ with
  | nil =>
    obtain rfl := Option.some.inj h
    exact .refl
  | cons m ms ih =>
    rw [List.foldlM_cons] at h
    obtain ⟨r₁, hm, hrest⟩ := Option.bind_eq_some_iff.mp h
    exact .head ⟨m, hm⟩ (ih r₁ hrest)

/-- What a returned outcome has of a stream. -/
def output (o : ExecOutcome) : ExecStream → ExecOutput
  | .stdout => o.stdout
  | .stderr => o.stderr

/-- Whatever the order in which a command writes, its readers read and `exec`
receives: the output returned is the accounting of a beginning of what was
written to the stream, and of all that is ever written to it unless the drain
timed out or a read failed. -/
theorem exec_captures_output (h : Reached plan r) {o : ExecOutcome} (ho : r.point = .returned (.ok o)) (s : ExecStream) :
    ∃ got a b, got <+: (r.pipe s).written ∧ Captured got (output o s) a b ∧
      (o.drainTimedOut = false → (r.pipe s).failed = false →
        (r.pipe s).closed = true ∧ got = (r.pipe s).written) := by
  obtain ⟨got, hflow⟩ := flow_of_reached h s
  have hk := (reports_of_reached h).knows
  rw [Knows, ho] at hk
  obtain ⟨-, -, hd, -, hout, herr⟩ := hk
  obtain ⟨out, a, b, hfinish, hcaptured⟩ := finish_captured got
  have heq : output o s = out := by
    rw [← hflow.captured] at hfinish
    cases s
    · exact Option.some.inj (hout.symm.trans hfinish)
    · exact Option.some.inj (herr.symm.trans hfinish)
  rw [heq]
  refine ⟨got, a, b, hflow.carries.part, hcaptured, fun hdrain hread => ?_⟩
  rcases hflow.carries.complete ⟨hd.symm.trans hdrain, .inr ⟨o, ho⟩⟩ with hf | hdone
  · rw [hread] at hf
    cases hf
  · exact hdone

def greetingPlan : ExecPlan := { command := ["echo", "-n", "hi"], workingDir := ["ws"], timeoutMs := 1000 }

/-- The command ends while its output is still to be read. -/
def greeting : List ExecMove :=
  [.write .stdout [104, 105], .turn .timer, .exit (.code 0), .hangUp .stdout, .hangUp .stderr, .turn (.child none),
    .pass 5, .turn .timer, .read .stdout readSize, .read .stderr readSize, .send .stdout, .read .stdout readSize,
    .turn .event, .turn .event, .turn .timer]

def greeted : ExecOutcome where
  termination := .exited 0
  stdout := { prefixText := "hi", suffixText := "", totalBytes := 2, omittedBytes := 0 }
  stderr := .empty
  durationMs := 5
  drainTimedOut := false

theorem exec_captures_output_greeting :
    ∃ r got a b, (spawned greetingPlan 0).run greeting = some r ∧ Captured got greeted.stdout a b ∧
      (r.pipe .stdout).closed = true ∧ got = (r.pipe .stdout).written := by
  have hp : ((spawned greetingPlan 0).run greeting).map ExecRun.point = some (.returned (.ok greeted)) := by
    decide +kernel
  have hf : ((spawned greetingPlan 0).run greeting).map (fun r => (r.pipe .stdout).failed) = some false := by
    decide +kernel
  obtain ⟨r, hr, hp⟩ := Option.map_eq_some_iff.mp hp
  rw [hr] at hf
  obtain ⟨got, a, b, -, hcaptured, hall⟩ := exec_captures_output (reached_of_run hr) hp .stdout
  exact ⟨r, got, a, b, hr, hcaptured, hall rfl (Option.some.inj hf)⟩

theorem Reached.move {m : ExecMove} (h : Reached plan r) (hm : r.move m = some r') : Reached plan r' := by
  obtain ⟨now, h⟩ := h
  exact ⟨now, h.tail ⟨m, hm⟩⟩

/-- How far `exec` has come. -/
def stage (r : ExecRun) : Nat :=
  match r.point with
  | .looping | .selecting => 0
  | .reaping => 1
  | .ending _ => 2
  | .draining .. => 3
  | .drained _ => 4
  | .returned _ => 5

/-- A turn with which `exec` leaves what it is at. -/
def Leaves (r : ExecRun) (b : ExecBranch) : Prop := ∃ r', r.turn b = some r' ∧ r.stage < r'.stage

/-- What happens from a state on, for ever, whatever the command, its processes and
the readers do and in whatever order. -/
structure GoesOn (σ : Nat → ExecMove) (ρ : Nat → ExecRun) : Prop where
  step : ∀ n, (ρ n).move (σ n) = some (ρ (n + 1))
  time : ∀ t, ∃ n, t ≤ (ρ n).now
  /-- `exec` goes on where it does not wait. -/
  turns : ∀ n, (ρ n).point = .looping → ∃ m, n ≤ m ∧ ∃ b, σ m = .turn b
  /-- `select!` takes its branches at random: one that could end the wait again and
  again is not passed over for ever. -/
  leaves : ∀ n, (∀ k, ∃ m, k ≤ m ∧ ∃ b, (ρ m).Leaves b) → ∃ m, n ≤ m ∧ ∃ b, σ m = .turn b ∧ (ρ m).Leaves b

/-- The time that passes although `exec` could go on, its child having ended. -/
def late (r : ExecRun) : ExecMove → Nat
  | .pass time =>
    match r.point with
    | .draining _ drainDeadline => time - (drainDeadline - r.now)
    | _ => time
  | _ => 0

def lateness (σ : Nat → ExecMove) (ρ : Nat → ExecRun) : Nat → Nat
  | 0 => 0
  | n + 1 => lateness σ ρ n + (ρ n).late (σ n)

theorem now_of_move {m : ExecMove} (h : r.move m = some r') (hm : ∀ time, m ≠ .pass time) : r'.now = r.now := by
  rcases move_cases h with ht | -
  · exact ht.clock.2.2.1
  · cases m with
    | pass time => exact absurd rfl (hm time)
    | turn b => exact (turned_of_turn h).clock.2.2.1
    | hangUp s =>
      cases h
      rfl
    | read s n =>
      obtain ⟨p, -, rfl⟩ := Option.map_eq_some_iff.mp h
      rfl
    | send s =>
      rw [move] at h
      split at h
      · split at h
        · cases h
          rfl
        · split at h <;> cases h
          rfl
      · cases h
    | write s bytes | readFails s | exit status =>
      rw [move] at h
      split at h <;> cases h
      rfl

theorem stage_le (r : ExecRun) : r.stage ≤ 5 := by
  unfold stage
  split <;> omega

theorem gone_of_stage (h : r.stage = 5) : ∃ res, r.point = .returned res := by
  unfold stage at h
  split at h <;> first
    | omega
    | exact ⟨_, by assumption⟩

theorem stage_looping (h : r.point = .looping) : r.stage = 0 := by rw [stage, h]

theorem stage_draining {d : Nat} (h : r.point = .draining t d) : r.stage = 3 := by rw [stage, h]

theorem stage_mono {m : ExecMove} (h : r.move m = some r') : r.stage ≤ r'.stage := by
  rcases move_cases h with ht | ⟨-, ha⟩
  · cases ht with
    | captures hq hp =>
      obtain ⟨hp, rfl⟩ | ⟨⟨t, d, hp⟩, rfl⟩ := hp
      · simp [stage, hp]
      · simp [stage, hp]
    | timesOut hp => rcases hp with hp | hp <;> simp [stage, hp]
    | selects hp | exits hp | waitFails _ hp | reaps hp | drains hp | givesUp hp | closes hp | returns hp =>
      simp [stage, hp]
  · rw [stage, stage, ha.point]

/-- The time that is left of the grace period. -/
def grace (r : ExecRun) : Nat :=
  match r.point with
  | .draining _ drainDeadline => drainDeadline - r.now
  | .drained _ | .returned _ => 0
  | _ => drainGraceMs

/-- Only late steps take time beyond the grace period. -/
theorem grace_move {m : ExecMove} (h : r.move m = some r') : r'.now + r'.grace ≤ r.now + r.grace + r.late m := by
  rcases move_cases h with ht | ⟨hne, ha⟩
  · have hnow := ht.clock.2.2.1
    have hgrace : r'.grace ≤ r.grace := by
      cases ht with
      | captures hq hp =>
        obtain ⟨hp, rfl⟩ | ⟨⟨t, d, hp⟩, rfl⟩ := hp
        · simp [grace, hp]
        · simp [grace, hp, capture]
      | timesOut hp => rcases hp with hp | hp <;> simp [grace, hp]
      | selects hp | exits hp | waitFails _ hp | reaps hp | drains hp | givesUp hp | closes hp | returns hp =>
        simp [grace, hp]
    omega
  · cases m with
    | pass time =>
      cases h
      cases hp : r.point <;> simp only [grace, late, hp] <;> omega
    | turn b => exact absurd rfl (hne b)
    | _ =>
      have hnow : r'.now = r.now := now_of_move h (by simp)
      rw [grace, grace, ha.point, hnow]
      omega

theorem grace_le (h : Reached plan r) : r.grace ≤ drainGraceMs := by
  have hk := (reports_of_reached h).knows
  unfold Knows at hk
  cases hp : r.point with
  | draining t d =>
    rw [hp] at hk
    rw [grace, hp]
    show d - r.now ≤ drainGraceMs
    omega
  | drained | returned => simp [grace, hp]
  | looping | selecting | reaping | ending => simp [grace, hp]

theorem status_kept {m : ExecMove} (hs : r.status.isSome = true) (h : r.move m = some r') : r'.status.isSome = true := by
  rcases move_cases h with ht | ⟨-, ha⟩
  · rw [ht.clock.2.2.2]
    exact hs
  · obtain ⟨status, hs⟩ := Option.isSome_iff_exists.mp hs
    rw [ha.status _ hs]
    rfl

/-- What of a stream is captured can be put into an outcome. -/
theorem finishes (h : Reached plan r) (s : ExecStream) : ∃ out, (r.captured s).finish = some out := by
  obtain ⟨got, hflow⟩ := flow_of_reached h s
  obtain ⟨out, a, b, hout, -⟩ := finish_captured got
  exact ⟨out, hflow.captured ▸ hout⟩

/-- With its child ended, `exec` can leave a wait, and the drain when it is due. -/
theorem could_leave (h : Reached plan r) (hs : r.status.isSome = true) (hl : r.point ≠ .looping)
    (hd : ∀ t d, r.point = .draining t d → d ≤ r.now) (hg : r.stage < 5) : ∃ b, r.Leaves b := by
  obtain ⟨status, hs⟩ := Option.isSome_iff_exists.mp hs
  cases hp : r.point with
  | looping => exact absurd hp hl
  | selecting =>
    exact ⟨.child none, { r with point := .ending (exitTermination status) }, by simp [turn, hp, hs], by simp [stage, hp]⟩
  | reaping => exact ⟨.child none, { r with point := .ending .timedOut }, by simp [turn, hp, hs], by simp [stage, hp]⟩
  | ending t =>
    exact ⟨.timer, { r with point := .draining t (r.now + drainGraceMs) }, by simp [turn, hp], by simp [stage, hp]⟩
  | draining t d =>
    exact ⟨.timer, { r with killed := true, drainTimedOut := true, point := .drained t },
      by simp [turn, hp, hd t d hp], by simp [stage, hp]⟩
  | drained t =>
    obtain ⟨stdout, hout⟩ := finishes h .stdout
    obtain ⟨stderr, herr⟩ := finishes h .stderr
    exact ⟨.timer, _, by simp [turn, hp, hout, herr]; rfl, by simp [stage, hp]⟩
  | returned res => simp [stage, hp] at hg

/-- From the head of the loop `exec` goes to a wait. -/
theorem turn_of_looping (hp : r.point = .looping) (h : r.turn b = some r') : r'.point ≠ .looping := by
  simp only [turn, hp] at h
  split at h <;> cases h <;> simp

theorem draining_stays {m : ExecMove} {d : Nat} (hp : r.point = .draining t d) (h : r.move m = some r') :
    r'.point = .draining t d ∨ 3 < r'.stage := by
  rcases move_cases h with ht | ⟨-, ha⟩
  · cases ht with
    | captures hq hp' =>
      obtain ⟨hp', -⟩ | ⟨-, rfl⟩ := hp'
      · rw [hp] at hp'
        cases hp'
      · exact .inl hp
    | timesOut hp' => rcases hp' with hp' | hp' <;> simp [hp] at hp'
    | givesUp | closes => exact .inr (by simp [stage])
    | selects hp' | exits hp' | waitFails _ hp' | reaps hp' | drains hp' | returns hp' => simp [hp] at hp'
  · exact .inl (ha.point.trans hp)

section

variable {σ : Nat → ExecMove} {ρ : Nat → ExecRun}

theorem GoesOn.keeps {P : ExecRun → Prop} (hgoes : GoesOn σ ρ) (hstep : ∀ r m r', P r → r.move m = some r' → P r')
    {n : Nat} (h : P (ρ n)) {m : Nat} (hm : n ≤ m) : P (ρ m) := by
  induction m, hm using Nat.le_induction with
  | base => exact h
  | succ m _ ih => exact hstep _ _ _ ih (hgoes.step m)

theorem GoesOn.now_le (hgoes : GoesOn σ ρ) {n m : Nat} (hm : n ≤ m) : (ρ n).now ≤ (ρ m).now := by
  refine hgoes.keeps (P := fun r => (ρ n).now ≤ r.now) (fun r m r' h hstep => h.trans ?_) (Nat.le_refl _) hm
  rcases move_cases hstep with ht | ⟨-, ha⟩
  · exact Nat.le_of_eq ht.clock.2.2.1.symm
  · exact ha.now_le

/-- Where `exec` stays at one stage, it could leave it again and again. -/
theorem GoesOn.could_leave (hgoes : GoesOn σ ρ) (h : ∀ n, Reached plan (ρ n)) (hs : ∀ n, (ρ n).status.isSome = true)
    {n : Nat} (hstays : ∀ m, n ≤ m → (ρ m).stage = (ρ n).stage) (hlt : (ρ n).stage < 5) (k : Nat) :
    ∃ m, k ≤ m ∧ ∃ b, (ρ m).Leaves b := by
  have hfrom : ∀ m, n ≤ m → k ≤ m → (ρ m).point ≠ .looping → (∀ t d, (ρ m).point = .draining t d → d ≤ (ρ m).now) →
      ∃ m, k ≤ m ∧ ∃ b, (ρ m).Leaves b := fun m hn hk hl hd =>
    ⟨m, hk, ExecRun.could_leave (h m) (hs m) hl hd (hstays m hn ▸ hlt)⟩
  have hn := Nat.le_max_left n k
  have hk := Nat.le_max_right n k
  cases hp : (ρ (max n k)).point with
  | looping =>
    obtain ⟨m, hm, b, hb⟩ := hgoes.turns _ hp
    have hstep := hgoes.step m
    rw [hb] at hstep
    by_cases hl : (ρ m).point = .looping
    · refine hfrom (m + 1) (by omega) (by omega) (turn_of_looping hl hstep) fun t d hd => ?_
      have hzero := hstays _ hn
      have hthree := hstays (m + 1) (by omega)
      rw [stage_looping hp] at hzero
      rw [stage_draining hd] at hthree
      omega
    · refine hfrom m (by omega) (by omega) hl fun t d hd => ?_
      have hzero := hstays _ hn
      have hthree := hstays m (by omega)
      rw [stage_looping hp] at hzero
      rw [stage_draining hd] at hthree
      omega
  | draining t d =>
    obtain ⟨late, hlate⟩ := hgoes.time d
    have hat : (ρ (max (max n k) late)).point = .draining t d := by
      have hkept := hgoes.keeps (P := fun r => r.point = .draining t d ∨ 3 < r.stage)
        (fun r m r' hr hstep => hr.elim (draining_stays · hstep) fun hr => .inr (hr.trans_le (stage_mono hstep)))
        (.inl hp) (Nat.le_max_left _ late)
      refine hkept.resolve_right fun hover => ?_
      have hthree := hstays _ hn
      rw [hstays _ (by omega), ← hthree, stage_draining hp] at hover
      omega
    refine hfrom (max (max n k) late) (by omega) (by omega) (by rw [hat]; simp) fun t' d' hd => ?_
    rw [hat] at hd
    cases hd
    exact hlate.trans (hgoes.now_le (Nat.le_max_right _ _))
  | selecting | reaping | ending | drained | returned => exact hfrom _ hn hk (by rw [hp]; simp) (by rw [hp]; simp)

/-- `exec` comes to its end by and by. -/
theorem GoesOn.returns (hgoes : GoesOn σ ρ) (h : ∀ n, Reached plan (ρ n)) (hs : ∀ n, (ρ n).status.isSome = true) :
    ∃ n, (ρ n).gone = true := by
  have hnext : ∀ n, (ρ n).stage < 5 → ∃ m, (ρ n).stage < (ρ m).stage := by
    intro n hlt
    by_contra hnot
    have hstays : ∀ m, n ≤ m → (ρ m).stage = (ρ n).stage := fun m hm =>
      Nat.le_antisymm (Nat.le_of_not_lt fun hm' => hnot ⟨m, hm'⟩)
        (hgoes.keeps (P := fun r => (ρ n).stage ≤ r.stage) (fun _ _ _ hr hstep => hr.trans (stage_mono hstep))
          (Nat.le_refl _) hm)
    obtain ⟨m, hm, b, hb, r', ht, hleaves⟩ := hgoes.leaves n (hgoes.could_leave h hs hstays hlt)
    have hstep := hgoes.step m
    rw [hb] at hstep
    obtain rfl := Option.some.inj (ht.symm.trans hstep)
    rw [hstays m hm] at hleaves
    exact hnot ⟨m + 1, hleaves⟩
  have hreach : ∀ s, s ≤ 5 → ∃ n, s ≤ (ρ n).stage := by
    intro s
    induction s with
    | zero => exact fun _ => ⟨0, Nat.zero_le _⟩
    | succ s ih =>
      intro hs5
      obtain ⟨n, hn⟩ := ih (by omega)
      by_cases hlt : s < (ρ n).stage
      · exact ⟨n, hlt⟩
      · obtain ⟨m, hm⟩ := hnext n (by omega)
        exact ⟨m, by omega⟩
  obtain ⟨n, hn⟩ := hreach 5 (Nat.le_refl _)
  obtain ⟨res, hres⟩ := gone_of_stage (Nat.le_antisymm (stage_le _) hn)
  exact ⟨n, by rw [gone, hres]⟩

theorem GoesOn.now_grace_le (hgoes : GoesOn σ ρ) (n : Nat) :
    (ρ n).now + (ρ n).grace ≤ (ρ 0).now + (ρ 0).grace + lateness σ ρ n := by
  induction n with
  | zero => exact Nat.le_refl _
  | succ n ih =>
    have := grace_move (hgoes.step n)
    rw [lateness]
    omega

/-- The error that `exec` returns is that of the wait. -/
theorem error_of_turn {e : ProtocolError} (h : r.turn b = some r') (hp : r'.point = .returned (.error e)) :
    ∃ text, b = .child (some text) := by
  cases turned_of_turn h with
  | waitFails text hs =>
    simp only [turn, hs] at h
    split at h
    · split at h
      · exact absurd (congrArg point (Option.some.inj h)) (by simp)
      · cases h
    · split at h
      · exact absurd (congrArg point (Option.some.inj h)) (by simp)
      · cases h
    · obtain ⟨status, -, hend⟩ := Option.map_eq_some_iff.mp h
      exact absurd (congrArg point hend) (by simp)
    · exact ⟨_, rfl⟩
  | captures hq hs =>
    obtain ⟨-, rfl⟩ | ⟨⟨t, d, hs⟩, rfl⟩ := hs
    · simp at hp
    · simp [hs] at hp
  | selects | timesOut | exits | reaps | drains | givesUp | closes | returns => simp at hp

theorem GoesOn.error (hgoes : GoesOn σ ρ) (hg : (ρ 0).gone = false) {e : ProtocolError} {n : Nat}
    (h : (ρ n).point = .returned (.error e)) : ∃ m, m < n ∧ ∃ text, σ m = .turn (.child (some text)) := by
  induction n with
  | zero =>
    rw [gone, h] at hg
    cases hg
  | succ n ih =>
    have hstep := hgoes.step n
    cases hm : σ n with
    | turn b =>
      rw [hm] at hstep
      obtain ⟨text, rfl⟩ := error_of_turn hstep h
      exact ⟨n, Nat.lt_succ_self n, text, hm⟩
    | _ =>
      rw [hm] at hstep
      have ha := around_of_move hstep (by simp)
      obtain ⟨m, hm, hfails⟩ := ih (ha.point.symm.trans h)
      exact ⟨m, Nat.lt_succ_of_lt hm, hfails⟩

/-- Once its child has ended, `exec` returns, whatever the pipes hold and whoever
keeps them open or writes to them, as long as time goes on and no branch that could
end a wait is passed over for ever. By then no more than the grace period of the
drain has passed, beside the time in which `exec` could have gone on; and what it
returns is an outcome, unless waiting for the child failed. -/
theorem exec_returns (h : Reached plan (ρ 0)) (hs : (ρ 0).status.isSome = true) (hg : (ρ 0).gone = false)
    (hgoes : GoesOn σ ρ) :
    ∃ n res, (ρ n).point = .returned res ∧ (∀ m, m < n → (ρ m).gone = false) ∧
      (ρ n).now ≤ (ρ 0).now + drainGraceMs + lateness σ ρ n ∧
      ∀ e, res = .error e → ∃ m, m < n ∧ ∃ text, σ m = .turn (.child (some text)) := by
  have hreached : ∀ n, Reached plan (ρ n) := fun n =>
    hgoes.keeps (P := Reached plan) (fun _ _ _ hr hstep => hr.move hstep) h (Nat.zero_le n)
  have hstatus : ∀ n, (ρ n).status.isSome = true := fun n =>
    hgoes.keeps (P := fun r => r.status.isSome = true) (fun _ _ _ hr hstep => status_kept hr hstep) hs (Nat.zero_le n)
  obtain ⟨n, hgone, hfirst⟩ : ∃ n, (ρ n).gone = true ∧ ∀ m, m < n → (ρ m).gone = false := by
    obtain hex := hgoes.returns hreached hstatus
    exact ⟨Nat.find hex, Nat.find_spec hex, fun m hm => Bool.eq_false_of_not_eq_true (Nat.find_min hex hm)⟩
  have hgrace := grace_le h
  have htime := hgoes.now_grace_le n
  cases hp : (ρ n).point with
  | returned res =>
    refine ⟨n, res, hp, hfirst, by omega, ?_⟩
    rintro e rfl
    exact hgoes.error hg hp
  | _ => simp [gone, hp] at hgone

end

/-- A command that has ended, whose pipes are kept open, from then on. -/
def keptOpen (n : Nat) : ExecMove :=
  [.turn .timer, .turn (.child none), .turn .timer, .pass 2000, .turn .timer, .turn .timer].getD n (.pass 1)

def keptOpenRun : Nat → ExecRun
  | 0 => { spawned greetingPlan 0 with status := some (.code 0) }
  | n + 1 => ((keptOpenRun n).move (keptOpen n)).getD (keptOpenRun n)

theorem keptOpen_add (k : Nat) : keptOpen (6 + k) = .pass 1 := by simp [keptOpen, Nat.add_comm 6]

theorem keptOpenRun_add (k : Nat) : keptOpenRun (6 + k) = { keptOpenRun 6 with now := (keptOpenRun 6).now + k } := by
  generalize hsix : keptOpenRun 6 = r
  induction k with
  | zero => exact hsix
  | succ k ih =>
    rw [← Nat.add_assoc, keptOpenRun, keptOpen_add, ih]
    rfl

theorem keptOpenRun_six : ∃ o, (keptOpenRun 6).point = .returned (.ok o) ∧ (keptOpenRun 6).now = 2000 := by
  exact ⟨_, rfl, rfl⟩

theorem keptOpenRun_goesOn : GoesOn keptOpen keptOpenRun := by
  obtain ⟨o, hpoint, hnow⟩ := keptOpenRun_six
  have hlate : ∀ n, n < 6 ∨ ∃ k, n = 6 + k := fun n => by
    rcases Nat.lt_or_ge n 6 with hn | hn
    · exact .inl hn
    · exact .inr (Nat.exists_eq_add_of_le hn)
  have hover : ∀ k, (keptOpenRun (6 + k)).point = .returned (.ok o) := fun k => by rw [keptOpenRun_add, hpoint]
  refine ⟨fun n => ?_, fun t => ⟨6 + t, ?_⟩, fun n hn => ?_, fun n hn => ?_⟩
  · rcases hlate n with hn | ⟨k, rfl⟩
    · rw [keptOpenRun]
      have hsome : ∀ n, n < 6 → ((keptOpenRun n).move (keptOpen n)).isSome = true := by decide +kernel
      obtain ⟨r, hr⟩ := Option.isSome_iff_exists.mp (hsome n hn)
      rw [hr]
      rfl
    · rw [keptOpenRun, keptOpen_add]
      rfl
  · rw [keptOpenRun_add]
    exact Nat.le_add_left _ _
  · rcases hlate n with hn' | ⟨k, rfl⟩
    · have hlooping : ∀ n, n < 6 → (keptOpenRun n).point = .looping → n = 0 := by decide +kernel
      exact ⟨0, Nat.le_of_eq (hlooping n hn' hn), .timer, rfl⟩
    · rw [hover] at hn
      cases hn
  · obtain ⟨m, hm, b, r', ht, -⟩ := hn 6
    obtain ⟨k, rfl⟩ := Nat.exists_eq_add_of_le hm
    simp [turn, hover] at ht

theorem exec_returns_keptOpen :
    GoesOn keptOpen keptOpenRun ∧ ∃ n res, (keptOpenRun n).point = .returned res ∧
      (∀ m, m < n → (keptOpenRun m).gone = false) ∧
      (keptOpenRun n).now ≤ 0 + drainGraceMs + lateness keptOpen keptOpenRun n ∧
      ∀ e, res = .error e → ∃ m, m < n ∧ ∃ text, keptOpen m = .turn (.child (some text)) :=
  ⟨keptOpenRun_goesOn,
    exec_returns (@reached_of_run _ greetingPlan 0 [.exit (.code 0)] rfl) rfl rfl keptOpenRun_goesOn⟩

end ExecRun

end RemoteWorkspace
