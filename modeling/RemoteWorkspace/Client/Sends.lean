import RemoteWorkspace.Client.FleetFile
import RemoteWorkspace.Lib.Keyed
import RemoteWorkspace.Lib.Text
import RemoteWorkspace.Protocol

/-!
# One request at a time

The client's end of a connection: any number of calls of `send`, and the task
that reads the replies (`reader_loop`, then the close and `drain_waiters`). On a
serial connection the permit for a request in flight is with the call that has
acquired it until its entry is in `reply_map`, and from then on in the entry.
-/

namespace RemoteWorkspace

open Text

abbrev RequestId := String

/-- The errors of `send`. -/
inductive ClientError
  | io (kind : String)
  | closed (detail : String)
  | timeout
  | unreadableReply (text : String)
  deriving DecidableEq

def closedError (tail : String) : ClientError := .closed (if tail = "" then "" else ": " ++ tail)

/-! ## Replies -/

/-- What `serde_json` makes of a line. -/
structure ReplyFormat (Msg : Type) where
  fromStr : List Char → Except String Msg
  requestId : Msg → RequestId
  /-- The `request_id` of a line that is JSON, where it is a string. -/
  requestIdIn : List Char → Option RequestId

abbrev Reply (Msg : Type) := Except ClientError Msg

/-- The longest start of `cs` in at most `limit` bytes. -/
def fitting : Nat → List Char → List Char
  | _, [] => []
  | limit, c :: cs => if c.utf8Size ≤ limit then c :: fitting (limit - c.utf8Size) cs else []

def clip (cs : List Char) (limit : Nat) : String :=
  if (utf8 cs).length ≤ limit then String.ofList cs else String.ofList (fitting limit cs) ++ "..."

/-- Which request a line replies to, and what its caller gets. -/
def replyIn {Msg : Type} (F : ReplyFormat Msg) (line : List Char) : Option (RequestId × Reply Msg) :=
  let trimmed := trim line
  if trimmed = [] then none
  else
    match F.fromStr trimmed with
    | .ok msg => some (F.requestId msg, .ok msg)
    | .error e =>
      (F.requestIdIn trimmed).map fun rid => (rid, .error (.unreadableReply (e ++ ": " ++ clip trimmed 300)))

/-! ## The connection -/

/-- An entry of `reply_map`. `slot` says whether it carries a permit. -/
structure Pending where
  slot : Bool
  deriving DecidableEq

structure Client where
  /-- Whether the pipe is still there. -/
  stdin : Bool
  stdinLock : Option Nat
  replyMap : List (RequestId × Pending)
  /-- The permits that are free, on a serial connection. -/
  serial : Option Nat
  closed : Bool

def Client.has (c : Client) (rid : RequestId) : Bool := (Keyed.get Prod.fst rid c.replyMap).isSome

/-- What dropping a slot does to the semaphore. -/
def giveBack (slot : Bool) (serial : Option Nat) : Option Nat := if slot then serial.map (· + 1) else serial

def Client.remove (c : Client) (rid : RequestId) : Client :=
  match Keyed.get Prod.fst rid c.replyMap with
  | some entry => { c with replyMap := Keyed.remove Prod.fst rid c.replyMap, serial := giveBack entry.2.slot c.serial }
  | none => c

def Client.insert (c : Client) (rid : RequestId) (p : Pending) : Client :=
  { c.remove rid with replyMap := (rid, p) :: (c.remove rid).replyMap }

def Client.drainWaiters (c : Client) : Client :=
  { c with replyMap := [], serial := c.serial.map (· + c.replyMap.countP fun entry => entry.2.slot) }

/-- How far the reader's task has come. -/
inductive ReaderPhase
  | reading
  | received (line : List Char)
  | ended
  | flagged
  | drained
  | notified
  deriving DecidableEq

def ReaderPhase.isDrained : ReaderPhase → Bool
  | .drained | .notified => true
  | _ => false

def ReaderPhase.isClosed : ReaderPhase → Bool
  | .flagged | .drained | .notified => true
  | _ => false

/-- A client, the replies that were sent to its calls, and what went over its
pipes: the pieces of the calls' lines, the last one first, and the requests
that the lines read so far name. -/
structure Link (Msg : Type) extends Client where
  reader : ReaderPhase
  replies : List (RequestId × Reply Msg)
  wire : List (Nat × List UInt8)
  named : List RequestId

/-- A piece of the line of call `i` was written. -/
def Link.started {Msg : Type} (c : Link Msg) (i : Nat) : Bool := c.wire.any fun piece => piece.1 = i

def Link.reply {Msg : Type} (c : Link Msg) (rid : RequestId) : Option (Reply Msg) :=
  (Keyed.get Prod.fst rid c.replies).map Prod.snd

/-! ## A call of `send` -/

inductive SendPhase (Msg : Type)
  | idle
  | queued
  | granted (slot : Bool)
  | entered
  /-- It has the lock of `stdin`; `rest` is to be written. -/
  | writing (rest : List UInt8)
  /-- It has the lock of `stdin`, which is gone. -/
  | refused
  | waiting
  | answered (msg : Msg)
  /-- It waits for what the far end printed, to tell of the close. -/
  | closing
  /-- `none` where its caller dropped it. -/
  | ended (r : Option (Except ClientError (RequestId × Msg)))

inductive SendStep
  | start
  | acquire
  | timeout
  | insert
  | lockStdin
  | put (n : Nat)
  | flushed
  /-- The write fails, `none` with a broken pipe. -/
  | fail (kind : Option String)
  | remove
  | reply
  | noticeClosed
  | explain (tail : String)
  | finish
  | cancel
  deriving DecidableEq

section

variable {Msg : Type}

def SendPhase.fail (e : ClientError) : SendPhase Msg := .ended (some (.error e))

def SendPhase.take : Reply Msg → SendPhase Msg
  | .ok msg => .answered msg
  | .error e => .fail e

/-- The caller drops the call where it waits. Its entry stays, and with it the
permit. -/
def dropCall (i : Nat) (c : Link Msg) : SendPhase Msg → Option (Link Msg × SendPhase Msg)
  | .idle | .ended _ => none
  | .granted slot => some ({ c with serial := giveBack slot c.serial }, .ended none)
  | _ => some ({ c with stdinLock := release i c.stdinLock }, .ended none)

variable (reqId : Nat → RequestId) (line : Nat → List UInt8)

/-- The `i`-th call of `send`, whose request has the id `reqId i` and is written
as `line i`; writing a request as JSON does not fail. -/
def Client.send (i : Nat) (step : SendStep) (c : Link Msg) (p : SendPhase Msg) : Option (Link Msg × SendPhase Msg) :=
  match step, p with
  | .start, .idle => some (c, if c.closed then .closing else .queued)
  | .acquire, .queued =>
    match c.serial with
    | none => some (c, .granted false)
    | some 0 => none
    | some (n + 1) => some ({ c with serial := some n }, .granted true)
  | .timeout, .queued => if c.serial.isSome then some (c, .fail .timeout) else none
  | .insert, .granted slot => some ({ c with toClient := c.toClient.insert (reqId i) ⟨slot⟩ }, .entered)
  | .lockStdin, .entered =>
    if c.stdinLock = none then
      some ({ c with stdinLock := some i }, if c.stdin then .writing (line i) else .refused)
    else none
  | .put n, .writing rest =>
    if 0 < n ∧ n ≤ rest.length then some ({ c with wire := (i, rest.take n) :: c.wire }, .writing (rest.drop n))
    else none
  | .flushed, .writing [] => some ({ c with stdinLock := release i c.stdinLock }, .waiting)
  -- The entry stays in `reply_map`.
  | .fail none, .writing _ => some (c, .closing)
  | .fail (some kind), .writing _ => some ({ c with stdinLock := release i c.stdinLock }, .fail (.io kind))
  | .remove, .refused => some ({ c with toClient := c.toClient.remove (reqId i) }, .closing)
  | .reply, .waiting =>
    match c.reply (reqId i) with
    | some r => some (c, .take r)
    -- The sender is dropped with the entry.
    | none => if c.has (reqId i) then none else some (c, .closing)
  | .noticeClosed, .waiting =>
    if c.closed then some (c, ((c.reply (reqId i)).map SendPhase.take).getD .closing) else none
  -- A reply may come between the look at the channel and the look at the clock.
  | .timeout, .waiting =>
    some (if c.serial.isNone then { c with toClient := c.toClient.remove (reqId i) } else c, .fail .timeout)
  | .explain tail, .closing => some ({ c with stdinLock := release i c.stdinLock }, .fail (closedError tail))
  | .finish, .answered msg => some (c, .ended (some (.ok (reqId i, msg))))
  | .cancel, p => dropCall i c p
  | _, _ => none

/-! ## The reader -/

inductive LinkEvent
  | line (text : List Char)
  | handle
  /-- The end of the far end's output, an error, or the client's own close. -/
  | stop
  | close
  | drain
  | notify
  /-- The client's close takes the pipe. -/
  | takeStdin

variable (F : ReplyFormat Msg)

def Link.deliver (c : Link Msg) (rid : RequestId) (r : Reply Msg) : Link Msg :=
  if c.has rid then { c with toClient := c.toClient.remove rid, replies := (rid, r) :: c.replies } else c

/-- The reader's task. The far end names only requests of which it has got
something. -/
def readerTask (e : LinkEvent) (c : Link Msg) : Option (Link Msg) :=
  match e, c.reader with
  | .line text, .reading =>
    match replyIn F text with
    | none => some { c with reader := .received text }
    | some (rid, _) =>
      if c.wire.any fun piece => reqId piece.1 = rid then
        some { c with reader := .received text, named := rid :: c.named }
      else none
  | .handle, .received text =>
    match replyIn F text with
    | none => some { c with reader := .reading }
    | some (rid, r) => some { c.deliver rid r with reader := .reading }
  | .stop, .reading | .stop, .received _ => some { c with reader := .ended }
  | .close, .ended => some { c with closed := true, reader := .flagged }
  | .drain, .flagged => some { c with toClient := c.toClient.drainWaiters, reader := .drained }
  | .notify, .drained => some { c with reader := .notified }
  | .takeStdin, _ => if c.stdinLock = none then some { c with stdin := false } else none
  | _, _ => none

/-- Any number of calls of `send` on one client, beside its reader. -/
def senders : Crew (Link Msg) (SendPhase Msg) SendStep LinkEvent where
  act := Client.send reqId line
  env := readerTask reqId F

end

/-- A connection that was just made, before any call. -/
def connected (Msg : Type) (serial : Bool) : Crew.World (Link Msg) (SendPhase Msg) where
  shared :=
    { stdin := true, stdinLock := none, replyMap := [], serial := if serial then some 1 else none, closed := false,
      reader := .reading, replies := [], wire := [], named := [] }
  party _ := .idle

/-! ## The moves of a call and of the reader -/

section

variable {Msg : Type} (reqId : Nat → RequestId) (line : Nat → List UInt8)

inductive SendMove (i : Nat) (c : Link Msg) : SendStep → SendPhase Msg → Link Msg → SendPhase Msg → Prop
  | refuse : c.closed = true → SendMove i c .start .idle c .closing
  | start : c.closed = false → SendMove i c .start .idle c .queued
  | unlimited : c.serial = none → SendMove i c .acquire .queued c (.granted false)
  | acquire (n : Nat) : c.serial = some (n + 1) →
      SendMove i c .acquire .queued { c with serial := some n } (.granted true)
  | expire : c.serial.isSome = true → SendMove i c .timeout .queued c (.fail .timeout)
  | insert (slot : Bool) :
      SendMove i c .insert (.granted slot) { c with toClient := c.toClient.insert (reqId i) ⟨slot⟩ } .entered
  | lock : c.stdinLock = none → c.stdin = true →
      SendMove i c .lockStdin .entered { c with stdinLock := some i } (.writing (line i))
  | lockGone : c.stdinLock = none → c.stdin = false →
      SendMove i c .lockStdin .entered { c with stdinLock := some i } .refused
  | put (n : Nat) (rest : List UInt8) : 0 < n → n ≤ rest.length →
      SendMove i c (.put n) (.writing rest) { c with wire := (i, rest.take n) :: c.wire } (.writing (rest.drop n))
  | flushed : SendMove i c .flushed (.writing []) { c with stdinLock := release i c.stdinLock } .waiting
  | breakPipe (rest : List UInt8) : SendMove i c (.fail none) (.writing rest) c .closing
  | failWrite (kind : String) (rest : List UInt8) :
      SendMove i c (.fail (some kind)) (.writing rest) { c with stdinLock := release i c.stdinLock } (.fail (.io kind))
  | remove : SendMove i c .remove .refused { c with toClient := c.toClient.remove (reqId i) } .closing
  | reply (r : Reply Msg) : c.reply (reqId i) = some r → SendMove i c .reply .waiting c (.take r)
  | dropped : c.has (reqId i) = false → SendMove i c .reply .waiting c .closing
  | lastReply (r : Reply Msg) : c.closed = true → c.reply (reqId i) = some r →
      SendMove i c .noticeClosed .waiting c (.take r)
  | notice : c.closed = true → c.reply (reqId i) = none → SendMove i c .noticeClosed .waiting c .closing
  | giveUp : c.serial.isNone = true →
      SendMove i c .timeout .waiting { c with toClient := c.toClient.remove (reqId i) } (.fail .timeout)
  | keepSlot : c.serial.isNone = false → SendMove i c .timeout .waiting c (.fail .timeout)
  | explain (tail : String) :
      SendMove i c (.explain tail) .closing { c with stdinLock := release i c.stdinLock } (.fail (closedError tail))
  | finish (msg : Msg) : SendMove i c .finish (.answered msg) c (.ended (some (.ok (reqId i, msg))))
  | cancelGranted (slot : Bool) :
      SendMove i c .cancel (.granted slot) { c with serial := giveBack slot c.serial } (.ended none)
  | cancel (p : SendPhase Msg) : p ≠ .idle → (∀ slot, p ≠ .granted slot) → (∀ r, p ≠ .ended r) →
      SendMove i c .cancel p { c with stdinLock := release i c.stdinLock } (.ended none)

variable {reqId line}

theorem send_moves {i : Nat} {step : SendStep} {c c' : Link Msg} {p p' : SendPhase Msg}
    (h : Client.send reqId line i step c p = some (c', p')) : SendMove reqId line i c step p c' p' := by
  unfold Client.send at h
  split at h
  · obtain ⟨rfl, rfl⟩ := Prod.mk.inj (Option.some.inj h)
    by_cases hclosed : c.closed = true
    · rw [if_pos hclosed]
      exact .refuse hclosed
    · rw [if_neg hclosed]
      exact .start (by simpa using hclosed)
  · split at h
    · cases h
      exact .unlimited ‹_›
    · cases h
    · cases h
      exact .acquire _ ‹_›
  · split at h
    · cases h
      exact .expire ‹_›
    · cases h
  · cases h
    exact .insert _
  · split at h
    · rename_i hlock
      obtain ⟨rfl, rfl⟩ := Prod.mk.inj (Option.some.inj h)
      by_cases hstdin : c.stdin = true
      · rw [if_pos hstdin]
        exact .lock hlock hstdin
      · rw [if_neg hstdin]
        exact .lockGone hlock (by simpa using hstdin)
    · cases h
  · split at h
    · rename_i hn
      cases h
      exact .put _ _ hn.1 hn.2
    · cases h
  · cases h
    exact .flushed
  · cases h
    exact .breakPipe _
  · cases h
    exact .failWrite _ _
  · cases h
    exact .remove
  · split at h
    · cases h
      exact .reply _ ‹_›
    · split at h
      · cases h
      · cases h
        exact .dropped (by simpa using ‹¬ c.has (reqId i) = true›)
  · split at h
    · rename_i hclosed
      obtain ⟨rfl, rfl⟩ := Prod.mk.inj (Option.some.inj h)
      cases hreply : c.reply (reqId i) with
      | some r => exact .lastReply r hclosed hreply
      | none => exact .notice hclosed hreply
    · cases h
  · obtain ⟨rfl, rfl⟩ := Prod.mk.inj (Option.some.inj h)
    by_cases hserial : c.serial.isNone = true
    · rw [if_pos hserial]
      exact .giveUp hserial
    · rw [if_neg hserial]
      exact .keepSlot (Bool.eq_false_iff.mpr hserial)
  · cases h
    exact .explain _
  · cases h
    exact .finish _
  · unfold dropCall at h
    split at h
    · cases h
    · cases h
    · cases h
      exact .cancelGranted _
    · cases h
      exact .cancel _ ‹_› ‹_› ‹_›
  · cases h

inductive ReaderMove (reqId : Nat → RequestId) (F : ReplyFormat Msg) (c : Link Msg) : LinkEvent → Link Msg → Prop
  | blank (text : List Char) : c.reader = .reading → replyIn F text = none →
      ReaderMove reqId F c (.line text) { c with reader := .received text }
  | names (text : List Char) (rid : RequestId) (r : Reply Msg) : c.reader = .reading →
      replyIn F text = some (rid, r) → (∃ i, c.started i = true ∧ reqId i = rid) →
      ReaderMove reqId F c (.line text) { c with reader := .received text, named := rid :: c.named }
  | pass (text : List Char) : c.reader = .received text → replyIn F text = none →
      ReaderMove reqId F c .handle { c with reader := .reading }
  | deliver (text : List Char) (rid : RequestId) (r : Reply Msg) : c.reader = .received text →
      replyIn F text = some (rid, r) → ReaderMove reqId F c .handle { c.deliver rid r with reader := .reading }
  | stop : c.reader.isDrained = false → ReaderMove reqId F c .stop { c with reader := .ended }
  | close : c.reader = .ended → ReaderMove reqId F c .close { c with closed := true, reader := .flagged }
  | drain : c.reader = .flagged →
      ReaderMove reqId F c .drain { c with toClient := c.toClient.drainWaiters, reader := .drained }
  | notify : c.reader = .drained → ReaderMove reqId F c .notify { c with reader := .notified }
  | takeStdin : c.stdinLock = none → ReaderMove reqId F c .takeStdin { c with stdin := false }

theorem reader_moves {F : ReplyFormat Msg} {e : LinkEvent} {c c' : Link Msg}
    (h : readerTask reqId F e c = some c') : ReaderMove reqId F c e c' := by
  unfold readerTask at h
  split at h
  · split at h
    · cases h
      exact .blank _ ‹_› ‹_›
    · split at h
      · rename_i hsent
        cases h
        obtain ⟨piece, hpiece, hid⟩ := List.any_eq_true.mp hsent
        exact .names _ _ _ ‹_› ‹_› ⟨piece.1, List.any_eq_true.mpr ⟨piece, hpiece, by simp⟩, by simpa using hid⟩
      · cases h
  · split at h
    · cases h
      exact .pass _ ‹_› ‹_›
    · cases h
      exact .deliver _ _ _ ‹_› ‹_›
  · rename_i hreader
    cases h
    exact .stop (by rw [hreader]; rfl)
  · rename_i hreader
    cases h
    exact .stop (by rw [hreader]; rfl)
  · cases h
    exact .close ‹_›
  · cases h
    exact .drain ‹_›
  · cases h
    exact .notify ‹_›
  · split at h
    · cases h
      exact .takeStdin ‹_›
    · cases h
  · cases h

end

/-! ## Where the permit is -/

theorem has_remove (c : Client) (rid rid' : RequestId) :
    (c.remove rid).has rid' = (decide (rid' ≠ rid) && c.has rid') := by
  unfold Client.remove
  split
  · simp only [Client.has, Keyed.get_remove]
    by_cases h : rid' = rid <;> simp [h]
  · rename_i hnone
    by_cases h : rid' = rid
    · simp [Client.has, h, hnone]
    · simp [h]

theorem has_insert (c : Client) (rid rid' : RequestId) (p : Pending) :
    (c.insert rid p).has rid' = (decide (rid' = rid) || c.has rid') := by
  have hrest : (Keyed.get Prod.fst rid' (c.remove rid).replyMap).isSome = (c.remove rid).has rid' := rfl
  simp only [Client.insert, Client.has, Keyed.get_cons]
  by_cases h : rid = rid'
  · simp [h]
  · rw [if_neg h, hrest, has_remove]
    simp [Client.has, Ne.symm h]

@[simp] theorem closed_remove (c : Client) (rid : RequestId) : (c.remove rid).closed = c.closed := by
  unfold Client.remove
  split <;> rfl

@[simp] theorem stdin_remove (c : Client) (rid : RequestId) : (c.remove rid).stdin = c.stdin := by
  unfold Client.remove
  split <;> rfl

@[simp] theorem stdinLock_remove (c : Client) (rid : RequestId) : (c.remove rid).stdinLock = c.stdinLock := by
  unfold Client.remove
  split <;> rfl

/-- The only permit of a serial connection is in the semaphore, with a call, or
in the only entry of `reply_map`. -/
inductive PermitAt
  | free
  | call (i : Nat)
  | entry (rid : RequestId)
  deriving DecidableEq

def PermitAt.Holds (c : Client) : PermitAt → Prop
  | .free => c.serial = some 1 ∧ c.replyMap = []
  | .call _ => c.serial = some 0 ∧ c.replyMap = []
  | .entry rid => c.serial = some 0 ∧ c.replyMap = [(rid, ⟨true⟩)]

/-- Just the call that has the permit knows that it has it. -/
def SendPhase.Knows {Msg : Type} (place : PermitAt) (i : Nat) : SendPhase Msg → Prop
  | .granted slot => slot = true ∧ place = .call i
  | _ => place ≠ .call i

theorem PermitAt.Holds.remove {c : Client} {place : PermitAt} (h : place.Holds c) (rid : RequestId) :
    (if place = .entry rid then PermitAt.free else place).Holds (c.remove rid) := by
  cases place with
  | free => simpa [PermitAt.Holds, Client.remove, h.2, Keyed.get] using h
  | call i => simpa [PermitAt.Holds, Client.remove, h.2, Keyed.get] using h
  | entry rid' =>
    by_cases heq : rid' = rid
    · subst heq
      simp [PermitAt.Holds, Client.remove, h.1, h.2, Keyed.get, Keyed.remove, giveBack]
    · simpa [PermitAt.Holds, Client.remove, h.2, Keyed.get, heq] using h

section

variable {Msg : Type} {reqId : Nat → RequestId} {line : Nat → List UInt8} {F : ReplyFormat Msg}

theorem SendPhase.Knows.congr {place place' : PermitAt} {i : Nat} {p : SendPhase Msg} (h : p.Knows place i)
    (heq : place' = .call i ↔ place = .call i) : p.Knows place' i := by
  cases p with
  | granted slot => exact ⟨h.1, heq.mpr h.2⟩
  | _ => exact fun hplace => h (heq.mp hplace)

theorem knows_take {place : PermitAt} {i : Nat} (h : place ≠ .call i) (r : Reply Msg) :
    (SendPhase.take r).Knows place i := by
  cases r <;> exact h

theorem call_ite (place : PermitAt) (rid : RequestId) (i : Nat) :
    (if place = .entry rid then PermitAt.free else place) = .call i ↔ place = .call i := by
  by_cases h : place = .entry rid <;> simp [h]

/-- What a move does with the permit. -/
theorem permit_move {i : Nat} {step : SendStep} {c c' : Link Msg} {p p' : SendPhase Msg}
    (hmove : SendMove reqId line i c step p c' p') {place : PermitAt} (h : place.Holds c.toClient)
    (hp : p.Knows place i) :
    ∃ place', place'.Holds c'.toClient ∧ p'.Knows place' i ∧ ∀ j, j ≠ i → (place' = .call j ↔ place = .call j) := by
  have hcall : ∀ j, j ≠ i → (PermitAt.call i = .call j ↔ False) := fun j hj =>
    ⟨fun heq => hj (PermitAt.call.inj heq).symm, False.elim⟩
  cases hmove with
  | refuse | start | expire | breakPipe | dropped | notice | keepSlot | finish =>
    exact ⟨place, h, hp, fun _ _ => Iff.rfl⟩
  | lock | lockGone | put | flushed | failWrite | explain =>
    exact ⟨place, by cases place <;> exact h, hp, fun _ _ => Iff.rfl⟩
  | reply r | lastReply r => exact ⟨place, h, knows_take hp r, fun _ _ => Iff.rfl⟩
  | unlimited hserial => cases place <;> simp [PermitAt.Holds, hserial] at h
  | acquire n hserial =>
    cases place with
    | free =>
      obtain rfl : n = 0 := by simpa [hserial] using h.1
      exact ⟨.call i, ⟨rfl, h.2⟩, ⟨rfl, rfl⟩, fun j hj => by simp [hcall j hj]⟩
    | call | entry => simp [PermitAt.Holds, hserial] at h
  | insert slot =>
    obtain ⟨rfl, rfl⟩ := hp
    refine ⟨.entry (reqId i), ?_, by simp [SendPhase.Knows], fun j hj => by simp [hcall j hj]⟩
    simp [PermitAt.Holds, Client.insert, Client.remove, h.1, h.2]
  | remove => exact ⟨_, h.remove (reqId i), by simpa [SendPhase.Knows, call_ite] using hp, fun j _ => call_ite ..⟩
  | giveUp hserial => cases place <;> simp [PermitAt.Holds, Option.isNone_iff_eq_none.mp hserial] at h
  | cancelGranted slot =>
    obtain ⟨rfl, rfl⟩ := hp
    exact ⟨.free, ⟨by simp [giveBack, h.1], h.2⟩, by simp [SendPhase.Knows], fun j hj => by simp [hcall j hj]⟩
  | cancel _ _ hgranted _ =>
    refine ⟨place, by cases place <;> exact h, ?_, fun _ _ => Iff.rfl⟩
    cases p with
    | granted slot => exact absurd rfl (hgranted slot)
    | _ => exact hp

/-- What the reader does with the permit. -/
theorem permit_reader {e : LinkEvent} {c c' : Link Msg} (hmove : ReaderMove reqId F c e c') {place : PermitAt}
    (h : place.Holds c.toClient) :
    ∃ place' : PermitAt, place'.Holds c'.toClient ∧ ∀ j, place' = .call j ↔ place = .call j := by
  cases hmove with
  | blank | names | pass | stop | notify => exact ⟨place, h, fun _ => Iff.rfl⟩
  | close | takeStdin => exact ⟨place, by cases place <;> exact h, fun _ => Iff.rfl⟩
  | deliver text rid r =>
    unfold Link.deliver
    split
    · exact ⟨_, h.remove rid, fun j => call_ite ..⟩
    · exact ⟨place, h, fun _ => Iff.rfl⟩
  | drain =>
    cases place with
    | free => exact ⟨.free, by simp [PermitAt.Holds, Client.drainWaiters, h.1, h.2], fun _ => Iff.rfl⟩
    | call i => exact ⟨.call i, by simp [PermitAt.Holds, Client.drainWaiters, h.1, h.2], fun _ => Iff.rfl⟩
    | entry rid => exact ⟨.free, by simp [PermitAt.Holds, Client.drainWaiters, h.1, h.2], by simp⟩

/-! ## Which requests are answered -/

variable (reqId) in
/-- The entry of a call that has not begun to write is in `reply_map` until the
drain. -/
def SendPhase.Fits (i : Nat) (c : Link Msg) : SendPhase Msg → Prop
  | .idle | .queued | .granted _ => c.started i = false
  | .entered | .refused => c.started i = false ∧ (c.reader.isDrained = false → c.has (reqId i) = true)
  | .writing _ => c.started i = false → c.reader.isDrained = false → c.has (reqId i) = true
  | .waiting | .answered _ | .closing | .ended _ => True

variable (reqId F) in
/-- A request of which something was written has its entry or is named by a
line that was read, until the drain. -/
structure Link.Answered (c : Link Msg) : Prop where
  answered : c.reader.isDrained = false → ∀ i, c.started i = true → c.has (reqId i) = true ∨ reqId i ∈ c.named
  named : ∀ rid ∈ c.named, ∃ i, c.started i = true ∧ reqId i = rid
  received : ∀ text rid r, c.reader = .received text → replyIn F text = some (rid, r) → rid ∈ c.named
  closed : c.reader.isClosed = true → c.closed = true

theorem Link.Answered.drained_of_open {c : Link Msg} (h : c.Answered reqId F) (hopen : c.closed = false) :
    c.reader.isDrained = false := by
  by_contra hd
  have hclosed : c.reader.isClosed = true := by cases hr : c.reader <;> simp_all [ReaderPhase.isDrained, ReaderPhase.isClosed]
  simp [h.closed hclosed] at hopen

/-- What a move of another call leaves of what a call knows. -/
structure Frame (reqId : Nat → RequestId) (j : Nat) (c c' : Link Msg) : Prop where
  started : c'.started j = c.started j
  drained : c'.reader.isDrained = false → c.reader.isDrained = false
  has : c'.reader.isDrained = false → c.started j = false → c.has (reqId j) = true → c'.has (reqId j) = true

theorem Frame.refl (j : Nat) (c : Link Msg) : Frame reqId j c c := ⟨rfl, id, fun _ _ h => h⟩

theorem SendPhase.Fits.frame {j : Nat} {c c' : Link Msg} {p : SendPhase Msg} (h : p.Fits reqId j c)
    (hframe : Frame reqId j c c') : p.Fits reqId j c' := by
  cases p with
  | idle | queued | granted => exact hframe.started.trans h
  | entered | refused =>
    exact ⟨hframe.started.trans h.1, fun hd => hframe.has hd h.1 (h.2 (hframe.drained hd))⟩
  | writing rest =>
    intro hs hd
    have hs' : c.started j = false := hframe.started.symm.trans hs
    exact hframe.has hd hs' (h hs' (hframe.drained hd))
  | _ => trivial

theorem fits_take (i : Nat) (c : Link Msg) (r : Reply Msg) : (SendPhase.take r).Fits reqId i c := by
  cases r <;> trivial

theorem started_put (c : Link Msg) (i j : Nat) (bytes : List UInt8) :
    ({ c with wire := (i, bytes) :: c.wire } : Link Msg).started j = (decide (i = j) || c.started j) := by
  simp [Link.started]

/-- A call's move keeps what is known of the requests. -/
theorem answered_move (hids : Function.Injective reqId) {i : Nat} {step : SendStep} {c c' : Link Msg}
    {p p' : SendPhase Msg} (hmove : SendMove reqId line i c step p c' p') (hserial : c.serial.isNone = false)
    (h : c.Answered reqId F) (hp : p.Fits reqId i c) :
    c'.Answered reqId F ∧ p'.Fits reqId i c' ∧ ∀ j, j ≠ i → Frame reqId j c c' := by
  have hother : ∀ j, j ≠ i → reqId j ≠ reqId i := fun j hj heq => hj (hids heq)
  cases hmove with
  | refuse | expire | breakPipe | dropped | notice | keepSlot | finish => exact ⟨h, trivial, fun j _ => .refl j c⟩
  | start | unlimited => exact ⟨h, hp, fun j _ => .refl j c⟩
  | reply r | lastReply r => exact ⟨h, fits_take i c r, fun j _ => .refl j c⟩
  | acquire => exact ⟨⟨h.answered, h.named, h.received, h.closed⟩, hp, fun j _ => ⟨rfl, id, fun _ _ h => h⟩⟩
  | insert slot =>
    refine ⟨⟨fun hd j hj => ?_, h.named, h.received, fun hc => (closed_remove ..).trans (h.closed hc)⟩, ⟨hp, fun _ => ?_⟩,
      fun j _ => ⟨rfl, id, fun _ _ hj => ?_⟩⟩
    · exact (h.answered hd j hj).imp (fun hhas => by simp [has_insert, hhas]) id
    · simp [has_insert]
    · simp [has_insert, hj]
  | lock => exact ⟨⟨h.answered, h.named, h.received, h.closed⟩, fun _ => hp.2, fun j _ => ⟨rfl, id, fun _ _ h => h⟩⟩
  | lockGone => exact ⟨⟨h.answered, h.named, h.received, h.closed⟩, hp, fun j _ => ⟨rfl, id, fun _ _ h => h⟩⟩
  | flushed | failWrite | explain | cancelGranted | cancel =>
    exact ⟨⟨h.answered, h.named, h.received, h.closed⟩, trivial, fun j _ => ⟨rfl, id, fun _ _ h => h⟩⟩
  | put n rest =>
    refine ⟨⟨fun hd j hj => ?_, fun rid hrid => ?_, h.received, h.closed⟩, fun hs => ?_, fun j hj => ⟨?_, id, fun _ _ h => h⟩⟩
    · rw [started_put] at hj
      by_cases hji : i = j
      · subst hji
        cases hs : c.started i with
        | true => exact h.answered hd i hs
        | false => exact .inl (hp hs hd)
      · exact h.answered hd j (by simpa [hji] using hj)
    · obtain ⟨j, hj, hid⟩ := h.named rid hrid
      exact ⟨j, by simp [started_put, hj], hid⟩
    · simp [started_put] at hs
    · simp [started_put, Ne.symm hj]
  | remove =>
    refine ⟨⟨fun hd j hj => ?_, h.named, h.received, fun hc => (closed_remove ..).trans (h.closed hc)⟩, trivial, fun j hj => ⟨rfl, id, fun _ _ hhas => ?_⟩⟩
    · have hne : j ≠ i := fun heq => by
        rw [heq] at hj
        exact absurd (hp.1.symm.trans hj) (by simp)
      exact (h.answered hd j hj).imp (fun hhas => by simp [has_remove, hhas, hother j hne]) id
    · simp [has_remove, hhas, hother j hj]
  | giveUp hnone => simp [hserial] at hnone

/-- So does the reader. -/
theorem answered_reader (hids : Function.Injective reqId) {e : LinkEvent} {c c' : Link Msg}
    (hmove : ReaderMove reqId F c e c') (h : c.Answered reqId F) :
    c'.Answered reqId F ∧ ∀ j, Frame reqId j c c' := by
  cases hmove with
  | blank text hreader hblank =>
    refine ⟨⟨fun _ => h.answered (by rw [hreader]; rfl), h.named, fun text' rid r htext hreply => ?_, fun hc => ?_⟩,
      fun j => ⟨rfl, fun _ => by rw [hreader]; rfl, fun _ _ h => h⟩⟩
    · obtain rfl := ReaderPhase.received.inj htext
      rw [hblank] at hreply
      cases hreply
    · cases hc
  | names text rid r hreader hreply hsent =>
    refine ⟨⟨fun _ i hi => ?_, fun rid' hrid' => ?_, fun text' rid' r' htext hreply' => ?_, fun hc => ?_⟩,
      fun j => ⟨rfl, fun _ => by rw [hreader]; rfl, fun _ _ h => h⟩⟩
    · exact (h.answered (by rw [hreader]; rfl) i hi).imp id (List.mem_cons_of_mem _)
    · rcases List.mem_cons.mp hrid' with rfl | hrid'
      · exact hsent
      · exact h.named rid' hrid'
    · obtain rfl := ReaderPhase.received.inj htext
      rw [hreply] at hreply'
      cases hreply'
      exact List.mem_cons_self ..
    · cases hc
  | pass text hreader =>
    exact ⟨⟨fun _ => h.answered (by rw [hreader]; rfl), h.named, fun _ _ _ hr => (by cases hr), fun hc => (by cases hc)⟩,
      fun j => ⟨rfl, fun _ => by rw [hreader]; rfl, fun _ _ h => h⟩⟩
  | deliver text rid r hreader hreply =>
    have hrid := h.received text rid r hreader hreply
    have hd : c.reader.isDrained = false := by rw [hreader]; rfl
    have hhas : ∀ rid', rid' ≠ rid → c.has rid' = true → (c.deliver rid r).has rid' = true := fun rid' hne hrid' => by
      unfold Link.deliver
      split
      · simp [has_remove, hne, hrid']
      · exact hrid'
    have hwire : (c.deliver rid r).wire = c.wire ∧ (c.deliver rid r).named = c.named := by
      unfold Link.deliver
      split <;> exact ⟨rfl, rfl⟩
    have hstarted : ∀ j, (c.deliver rid r).started j = c.started j := fun j => by rw [Link.started, hwire.1]; rfl
    refine ⟨⟨fun _ i hi => ?_, fun rid' hrid' => ?_, fun _ _ _ hr => (by cases hr), fun hc => (by cases hc)⟩,
      fun j => ⟨hstarted j, fun _ => hd, fun _ hj hhasj => hhas _ (fun heq => ?_) hhasj⟩⟩
    · by_cases heq : reqId i = rid
      · exact .inr (by rw [heq]; exact hwire.2 ▸ hrid)
      · exact (h.answered hd i ((hstarted i).symm.trans hi)).imp (hhas _ heq) (fun hmem => hwire.2 ▸ hmem)
    · obtain ⟨i, hi, hid⟩ := h.named rid' (hwire.2 ▸ hrid')
      exact ⟨i, (hstarted i).trans hi, hid⟩
    · -- The line names only a request of which something was written.
      obtain ⟨k, hk, hid⟩ := h.named rid hrid
      rw [hids (hid.trans heq.symm)] at hk
      exact absurd (hk.symm.trans hj) (by simp)
  | stop hd =>
    exact ⟨⟨fun _ => h.answered hd, h.named, fun _ _ _ hr => (by cases hr), fun hc => (by cases hc)⟩,
      fun j => ⟨rfl, fun _ => hd, fun _ _ h => h⟩⟩
  | close hreader =>
    have hd : c.reader.isDrained = false := by rw [hreader]; rfl
    exact ⟨⟨fun _ => h.answered hd, h.named, fun _ _ _ hr => (by cases hr), fun _ => rfl⟩,
      fun j => ⟨rfl, fun _ => hd, fun _ _ h => h⟩⟩
  | drain hreader =>
    exact ⟨⟨fun hd => (by cases hd), h.named, fun _ _ _ hr => (by cases hr), fun _ => h.closed (by rw [hreader]; rfl)⟩,
      fun j => ⟨rfl, fun hd => (by cases hd), fun hd => (by cases hd)⟩⟩
  | notify hreader =>
    exact ⟨⟨fun hd => (by cases hd), h.named, fun _ _ _ hr => (by cases hr), fun _ => h.closed (by rw [hreader]; rfl)⟩,
      fun j => ⟨rfl, fun hd => (by cases hd), fun hd => (by cases hd)⟩⟩
  | takeStdin =>
    exact ⟨⟨h.answered, h.named, h.received, h.closed⟩, fun j => ⟨rfl, id, fun _ _ h => h⟩⟩

/-! ## Every run -/

variable (reqId F) in
structure InTurn (w : Crew.World (Link Msg) (SendPhase Msg)) : Prop where
  permit : ∃ place : PermitAt, place.Holds w.shared.toClient ∧ ∀ i, (w.party i).Knows place i
  answered : w.shared.Answered reqId F
  fits : ∀ i, (w.party i).Fits reqId i w.shared

theorem InTurn.serial {w : Crew.World (Link Msg) (SendPhase Msg)} (h : InTurn reqId F w) :
    w.shared.serial.isNone = false := by
  obtain ⟨place, hplace, -⟩ := h.permit
  cases place <;> simp [hplace.1]

theorem inTurn_connected : InTurn reqId F (connected Msg true) where
  permit := ⟨.free, ⟨rfl, rfl⟩, fun _ => nofun⟩
  answered := ⟨fun _ _ h => (by cases h), fun _ h => (by cases h), fun _ _ _ h => (by cases h), fun h => (by cases h)⟩
  fits _ := rfl

theorem InTurn.move (hids : Function.Injective reqId) {w : Crew.World (Link Msg) (SendPhase Msg)}
    (h : InTurn reqId F w) {i : Nat} {step : SendStep} {c : Link Msg} {p : SendPhase Msg}
    (hmove : SendMove reqId line i w.shared step (w.party i) c p) :
    InTurn reqId F ⟨c, Function.update w.party i p⟩ := by
  obtain ⟨place, hplace, hknows⟩ := h.permit
  obtain ⟨place', hplace', hp, hothers⟩ := permit_move hmove hplace (hknows i)
  obtain ⟨hanswered, hfits, hframe⟩ := answered_move hids hmove h.serial h.answered (h.fits i)
  exact {
    permit := ⟨place', hplace', Crew.forall_update (P := fun j (q : SendPhase Msg) => q.Knows place' j) hp fun j hj =>
      (hknows j).congr (hothers j hj)⟩
    answered := hanswered
    fits := Crew.forall_update (P := fun j (q : SendPhase Msg) => q.Fits reqId j c) hfits fun j hj => (h.fits j).frame (hframe j hj) }

theorem InTurn.read (hids : Function.Injective reqId) {w : Crew.World (Link Msg) (SendPhase Msg)}
    (h : InTurn reqId F w) {e : LinkEvent} {c : Link Msg} (hmove : ReaderMove reqId F w.shared e c) :
    InTurn reqId F ⟨c, w.party⟩ := by
  obtain ⟨place, hplace, hknows⟩ := h.permit
  obtain ⟨place', hplace', hsame⟩ := permit_reader hmove hplace
  obtain ⟨hanswered, hframe⟩ := answered_reader hids hmove h.answered
  exact {
    permit := ⟨place', hplace', fun j => (hknows j).congr (hsame j)⟩
    answered := hanswered
    fits := fun j => (h.fits j).frame (hframe j) }

theorem inTurn_of_run (hids : Function.Injective reqId) {w : Crew.World (Link Msg) (SendPhase Msg)}
    (hrun : Crew.Run (senders reqId line F) (fun _ => True) (connected Msg true) w) : InTurn reqId F w :=
  hrun.inv inTurn_connected (fun _ _ _ _ _ h _ hact => h.move hids (send_moves hact))
    fun _ _ _ h _ henv => h.read hids (reader_moves henv)

/-- Of two requests on the wire one is answered. -/
theorem InTurn.answered_of_started {w : Crew.World (Link Msg) (SendPhase Msg)} (h : InTurn reqId F w)
    (hids : Function.Injective reqId) (hopen : w.shared.closed = false) {i j : Nat}
    (hi : w.shared.has (reqId i) = true) (hj : w.shared.started j = true) (hne : j ≠ i) : reqId j ∈ w.shared.named := by
  refine (h.answered.answered (h.answered.drained_of_open hopen) j hj).resolve_left fun hhas => hne (hids ?_)
  -- There is only one entry.
  obtain ⟨place, hplace, -⟩ := h.permit
  cases place with
  | free => simp [Client.has, hplace.2] at hi
  | call => simp [Client.has, hplace.2] at hi
  | entry rid =>
    simp only [Client.has, hplace.2, Keyed.get_cons, Keyed.get_nil] at hi hhas
    have hrid : rid = reqId i := by by_contra hcon; simp [hcon] at hi
    have hrid' : rid = reqId j := by by_contra hcon; simp [hcon] at hhas
    exact hrid'.symm.trans hrid

theorem started_move {i j : Nat} {step : SendStep} {c c' : Link Msg} {p p' : SendPhase Msg}
    (hmove : SendMove reqId line i c step p c' p') (hj : j ≠ i) : c'.started j = c.started j := by
  cases hmove with
  | put => simp [started_put, Ne.symm hj]
  | _ => rfl

theorem started_reader {e : LinkEvent} {c c' : Link Msg} (hmove : ReaderMove reqId F c e c') (j : Nat) :
    c'.started j = c.started j := by
  cases hmove with
  | deliver =>
    unfold Link.deliver
    split <;> rfl
  | _ => rfl

/-- A call that has ended writes nothing more. -/
theorem started_of_ended {w w' : Crew.World (Link Msg) (SendPhase Msg)} {i : Nat}
    {r : Option (Except ClientError (RequestId × Msg))} (hrun : Crew.Run (senders reqId line F) (fun _ => True) w w')
    (hi : w.party i = .ended r) : w'.party i = .ended r ∧ w'.shared.started i = w.shared.started i := by
  refine hrun.inv (I := fun w' => w'.party i = .ended r ∧ w'.shared.started i = w.shared.started i) ⟨hi, rfl⟩ ?_ ?_
  · rintro w' j step c p ⟨hended, hstarted⟩ - hact
    have hne : j ≠ i := by
      rintro rfl
      have hmove := send_moves (show Client.send reqId line j step w'.shared (w'.party j) = some (c, p) from hact)
      rw [hended] at hmove
      cases hmove with
      | cancel _ _ _ hr => exact hr r rfl
    refine ⟨(Function.update_of_ne (Ne.symm hne) ..).trans hended, Eq.trans ?_ hstarted⟩
    exact started_move (send_moves hact) (Ne.symm hne)
  · rintro w' e c ⟨hended, hstarted⟩ - henv
    refine ⟨hended, Eq.trans ?_ hstarted⟩
    exact started_reader (reader_moves henv) i

/-- On a serial connection that is open, no request is begun while an earlier
one is unanswered, and at most one is; a call that ends where it waits for its
turn never writes. -/
theorem one_unanswered_request (hids : Function.Injective reqId) {w : Crew.World (Link Msg) (SendPhase Msg)}
    (hrun : Crew.Run (senders reqId line F) (fun _ => True) (connected Msg true) w) :
    (w.shared.closed = false →
      (∀ i n c p, Client.send reqId line i (.put n) w.shared (w.party i) = some (c, p) → w.shared.started i = false →
        ∀ j, w.shared.started j = true → reqId j ∈ w.shared.named) ∧
      ∀ i j, w.shared.started i = true → reqId i ∉ w.shared.named → w.shared.started j = true →
        reqId j ∉ w.shared.named → i = j) ∧
    ∀ i step w₁ w₂, w.party i = .queued → step = .timeout ∨ step = .cancel →
      Crew.step (senders reqId line F) w (.act i step) = some w₁ →
      Crew.Run (senders reqId line F) (fun _ => True) w₁ w₂ → w₂.shared.started i = false := by
  have h := inTurn_of_run hids hrun
  refine ⟨fun hopen => ⟨fun i n c p hput hi j hj => ?_, fun i j hi hi' hj hj' => ?_⟩, ?_⟩
  · have hfits := h.fits i
    have hd := h.answered.drained_of_open hopen
    have hmove := send_moves hput
    generalize w.party i = phase at hmove hfits
    cases hmove with
    | put =>
      exact h.answered_of_started hids hopen (hfits hi hd) hj fun heq => by
        rw [heq, hi] at hj
        cases hj
  · by_contra hne
    have hhas := (h.answered.answered (h.answered.drained_of_open hopen) i hi).resolve_right hi'
    exact hj' (h.answered_of_started hids hopen hhas hj (Ne.symm hne))
  · intro i step w₁ w₂ hqueued hstep hw₁ hrun₂
    obtain ⟨⟨c, p⟩, hact, rfl⟩ := Option.map_eq_some_iff.mp hw₁
    have hi := h.fits i
    have hmove := send_moves hact
    rw [hqueued] at hmove hi
    have hc : c.started i = false ∧ ∃ r, p = .ended r := by
      cases hmove with
      | expire => exact ⟨hi, _, rfl⟩
      | cancel => exact ⟨hi, _, rfl⟩
      | unlimited | acquire => simp at hstep
    obtain ⟨hnot, r, rfl⟩ := hc
    exact (started_of_ended hrun₂ (Function.update_self ..)).2.trans hnot

end

/-! ### Two calls, one after the other -/

def errorText : String := "\x7b\"request_id\":\"a\",\"code\":\"NOT_FOUND\",\"message\":\"\"\x7d"

/-- A far end that says one thing. -/
def errorFormat : ReplyFormat ServerMessage where
  fromStr cs :=
    if cs = errorText.toList then .ok (.error "a" (.new .notFound "")) else .error "expected value at line 1 column 1"
  requestId
    | .result rid _ | .error rid _ => rid
  requestIdIn cs := if cs = errorText.toList then some "a" else none

def countedId (i : Nat) : RequestId := String.ofList (List.replicate (i + 1) 'a')

theorem countedId_injective : Function.Injective countedId := fun i j h => by
  simpa [countedId] using congrArg (fun s : String => s.toList.length) h

/-- What `request_status` is sent as, for the request itself. -/
def statusLine (i : Nat) : List UInt8 :=
  utf8 ("\x7b\"request_id\":\"" ++ countedId i ++ "\",\"op\":\"request_status\",\"target_request_id\":\"a\"\x7d\n").toList

def sendTurn (i : Nat) : List (Crew.Label SendStep LinkEvent) :=
  [.act i .start, .act i .acquire, .act i .insert, .act i .lockStdin]

def answeredRun : List (Crew.Label SendStep LinkEvent) :=
  sendTurn 0 ++ [.act 0 (.put 65), .act 0 .flushed, .act 2 .start] ++
    [.env (.line (errorText.toList ++ ['\n'])), .env .handle] ++ sendTurn 1

theorem one_unanswered_request_second : ∃ w w₁ p,
    Crew.Run (senders countedId statusLine errorFormat) (fun _ => True) (connected ServerMessage true) w ∧
      Client.send countedId statusLine 1 (.put 1) w.shared (w.party 1) = some p ∧
      Crew.step (senders countedId statusLine errorFormat) w (.act 2 .timeout) = some w₁ ∧
      w.shared.started 0 = true ∧ countedId 0 ∈ w.shared.named ∧ w₁.shared.started 2 = false := by
  obtain ⟨w, hw⟩ : ∃ w, Crew.steps (senders countedId statusLine errorFormat) (connected ServerMessage true) answeredRun =
      some w := ⟨_, rfl⟩
  have hrun : Crew.Run _ (fun _ => True) _ _ := Crew.run_of_steps (fun _ _ => trivial) hw
  obtain rfl := Option.some.inj (Eq.trans rfl hw)
  have h := one_unanswered_request countedId_injective hrun
  exact ⟨_, _, _, hrun, rfl, rfl, rfl, (h.1 rfl).1 1 1 _ _ rfl rfl 0 rfl,
    h.2 2 .timeout _ _ rfl (.inl rfl) rfl .init⟩

end RemoteWorkspace
