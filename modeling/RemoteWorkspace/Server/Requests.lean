import RemoteWorkspace.Server.Work
import RemoteWorkspace.Store.Terminal

/-!
# The life of a request

A handler looks its request up and claims it, does its work, remembers the
outcome and answers (`Stage`). `serverNext` says which commands it issues at
which stage, and `conforms_handle` that `Server::handle` follows it, whatever
its commands return, and ends with an answer.
-/

namespace RemoteWorkspace

open Interleave
open Handler (Works Aside)

/-- How far a handler is with its request. -/
inductive Stage where
  | asked
  /-- The request table has an entry for it. -/
  | found (e : RequestEntry)
  | claimed
  /-- The append of its terminal line, with this reply, returned `Ok`. -/
  | remembered (m : ServerMessage)
  | replied (m : ServerMessage)
  deriving DecidableEq, Repr

/-- The requests that go through the request table. -/
def RequestBody.persisted (b : RequestBody) : Bool := (unpersisted b).isNone

/-- An error that answers `q`. -/
def ServerMessage.isErrorFor (m : ServerMessage) (q : Request) : Bool :=
  match m with
  | .error id _ => id = q.requestId
  | .result _ _ => false

/-- What a handler may answer: an error at any time, a result once it is
remembered. -/
def Stage.allows (q : Request) : Stage → ServerMessage → Bool
  | .asked, m => m.isErrorFor q || (!q.body.persisted && m.requestId = q.requestId)
  | .found e, m => e.result = some (.done m) || m.isErrorFor q
  | .claimed, m => m.isErrorFor q
  | .remembered m', m => m = m' || m.isErrorFor q
  | .replied _, _ => false

/-- The terminal lines of `q`: a result under its own id, or an error. -/
def terminalOf (q : Request) (l : RequestLogLine) : Option (Option ServerMessage) :=
  match l.resultDone, l.resultError with
  | some m, _ => if .request l = resultLine q.requestId m ∧ m.requestId = q.requestId then some (some m) else none
  | none, some e => if .request l = errorLine q.requestId e then some none else none
  | none, none => none

/-- A terminal line with a result is the one of that result. -/
theorem eq_of_terminalOf {q : Request} {l : RequestLogLine} {m : ServerMessage}
    (h : terminalOf q l = some (some m)) : l = terminalLine q.requestId m ∧ m.requestId = q.requestId := by
  unfold terminalOf at h
  split at h
  · split at h
    · rename_i hl
      cases h
      exact ⟨LogLine.request.inj hl.1, hl.2⟩
    · cases h
  · split at h
    · cases h
    · cases h
  · cases h

theorem ownLine_of_terminalOf {q : Request} {l : RequestLogLine} {o : Option ServerMessage}
    (h : terminalOf q l = some o) : OwnLine l := by
  cases o with
  | some m =>
    obtain ⟨rfl, hid⟩ := eq_of_terminalOf h
    rw [← hid]
    exact ownLine_terminal m
  | none =>
    refine ownLine_of_none ?_
    unfold terminalOf at h
    split at h
    · split at h <;> cases h
    · assumption
    · assumption

theorem terminalOf_result (q : Request) (body : ResultBody) :
    terminalOf q ((RequestEntry.ofResult (.result q.requestId body)).line q.requestId) =
      some (some (.result q.requestId body)) := by
  simp [terminalOf, RequestEntry.line, RequestEntry.ofResult, resultLine, ServerMessage.requestId]

theorem terminalOf_error (q : Request) (e : ProtocolError) :
    terminalOf q ((RequestEntry.ofError e).line q.requestId) = some none := by
  simp [terminalOf, RequestEntry.line, RequestEntry.ofError, errorLine]

/-- A handler: its request, how far it is with it, and with its operation. -/
structure ServerLocal where
  request : Request
  stage : Stage
  op : StoreLocal
  deriving DecidableEq, Repr

/-- What a command and its result make of it; `none` if the command is not
allowed. -/
def serverNext (ℓ : ServerLocal) : (c : ServerCmd) → c.Result → Option ServerLocal
  | .reply m, _ => if ℓ.stage.allows ℓ.request m then some { ℓ with stage := .replied m } else none
  | .store (.lookupRequest id), r =>
    if ℓ.stage = .asked ∧ id = ℓ.request.requestId then
      match r with
      | some e => some { ℓ with stage := .found e }
      | none => some ℓ
    else none
  | .store (.claim id op), r =>
    if ℓ.stage = .asked ∧ id = ℓ.request.requestId ∧ op = opKind ℓ.request.body then
      match r with
      | .ok none => some { ℓ with stage := .claimed }
      | .ok (some e) => some { ℓ with stage := .found e }
      | .error _ => some ℓ
    else none
  | .store (.append (.request l)), r =>
    if ℓ.stage = .claimed then
      match terminalOf ℓ.request l, r with
      | some (some m), .ok _ => some { ℓ with stage := .remembered m }
      | some _, _ => some ℓ
      | none, _ => none
    else none
  | .store c, r => (ℓ.op.next c r).map fun op => { ℓ with op }
  | .fs _, _ => some ℓ
  | .uploads _, _ => some ℓ
  | .acquire, _ => some ℓ
  | .release, _ => some ℓ
  | .run _ _ _ _, _ => if ℓ.stage = .claimed then some ℓ else none

section

variable (ℓ : ServerLocal)

theorem serverNext_reply (m : ServerMessage) (u : Unit) :
    serverNext ℓ (.reply m) u =
      if ℓ.stage.allows ℓ.request m then some { ℓ with stage := .replied m } else none := rfl

theorem serverNext_found (id : String) (e : RequestEntry) :
    serverNext ℓ (.store (.lookupRequest id)) (some e) =
      if ℓ.stage = .asked ∧ id = ℓ.request.requestId then some { ℓ with stage := .found e } else none := rfl

theorem serverNext_missing (id : String) :
    serverNext ℓ (.store (.lookupRequest id)) none =
      if ℓ.stage = .asked ∧ id = ℓ.request.requestId then some ℓ else none := rfl

theorem serverNext_claimed (id op : String) :
    serverNext ℓ (.store (.claim id op)) (.ok none) =
      if ℓ.stage = .asked ∧ id = ℓ.request.requestId ∧ op = opKind ℓ.request.body then
        some { ℓ with stage := .claimed }
      else none := rfl

theorem serverNext_claimedBefore (id op : String) (e : RequestEntry) :
    serverNext ℓ (.store (.claim id op)) (.ok (some e)) =
      if ℓ.stage = .asked ∧ id = ℓ.request.requestId ∧ op = opKind ℓ.request.body then
        some { ℓ with stage := .found e }
      else none := rfl

theorem serverNext_unclaimed (id op : String) (e : ProtocolError) :
    serverNext ℓ (.store (.claim id op)) (.error e) =
      if ℓ.stage = .asked ∧ id = ℓ.request.requestId ∧ op = opKind ℓ.request.body then some ℓ else none := rfl

theorem serverNext_run (argv : List String) (cwd profile : Option String) (timeoutMs : Option Nat)
    (r : Except ProtocolError ExecOutcome) :
    serverNext ℓ (.run argv cwd profile timeoutMs) r = if ℓ.stage = .claimed then some ℓ else none := rfl

theorem serverNext_record (rec : AnyOperationRecord) (r : Except ProtocolError Unit) :
    serverNext ℓ (.store (.append (.operation rec))) r =
      (ℓ.op.next (.append (.operation rec)) r).map fun op => { ℓ with op } := rfl

theorem serverNext_terminal_ok (l : RequestLogLine) (u : Unit) :
    serverNext ℓ (.store (.append (.request l))) (.ok u) =
      if ℓ.stage = .claimed then
        (terminalOf ℓ.request l).map fun o => o.elim ℓ fun m => { ℓ with stage := .remembered m }
      else none := by
  rcases h : terminalOf ℓ.request l with _ | _ | m <;> simp [serverNext, h]

theorem serverNext_terminal_error (l : RequestLogLine) (e : ProtocolError) :
    serverNext ℓ (.store (.append (.request l))) (.error e) =
      if ℓ.stage = .claimed then (terminalOf ℓ.request l).map fun _ => ℓ else none := by
  rcases h : terminalOf ℓ.request l with _ | _ | m <;> simp [serverNext, h]

end

theorem serverNext_store {c : StoreCmd} (h : OffRequests c) (ℓ : ServerLocal) (r : c.Result) :
    serverNext ℓ (.store c) r = (ℓ.op.next c r).map fun op => { ℓ with op } := by
  cases c with
  | lookupRequest id => exact h.elim
  | claim id op => exact h.elim
  | append l =>
    cases l with
    | operation rec => rfl
    | request l => exact h.elim
  | _ => rfl

theorem offRequests_of_work {c : StoreCmd} {r : c.Result} {op op' : StoreLocal}
    (h : workNext op (.store c) r = some op') : OffRequests c := by
  cases c with
  | lookupRequest id => cases h
  | claim id op => cases h
  | append l =>
    cases l with
    | operation rec => trivial
    | request l => cases h
  | _ => trivial

/-- What a command makes of the stage of its handler. -/
inductive Advances (ℓ : ServerLocal) : (c : ServerCmd) → c.Result → Stage → Prop where
  | stays (c : ServerCmd) (r : c.Result) (h : ∀ m, c ≠ .reply m) : Advances ℓ c r ℓ.stage
  | looks (e : RequestEntry) (h : ℓ.stage = .asked) :
      Advances ℓ (.store (.lookupRequest ℓ.request.requestId)) (some e) (.found e)
  | finds (e : RequestEntry) (h : ℓ.stage = .asked) :
      Advances ℓ (.store (.claim ℓ.request.requestId (opKind ℓ.request.body))) (.ok (some e)) (.found e)
  | claims (h : ℓ.stage = .asked) :
      Advances ℓ (.store (.claim ℓ.request.requestId (opKind ℓ.request.body))) (.ok none) .claimed
  | remembers (m : ServerMessage) (h : ℓ.stage = .claimed) (hid : m.requestId = ℓ.request.requestId) :
      Advances ℓ (.store (.append (.request (terminalLine ℓ.request.requestId m)))) (.ok ()) (.remembered m)
  | replies (m : ServerMessage) (h : ℓ.stage.allows ℓ.request m = true) : Advances ℓ (.reply m) () (.replied m)

theorem advances_of_next {ℓ ℓ' : ServerLocal} {c : ServerCmd} {r : c.Result} (h : serverNext ℓ c r = some ℓ') :
    ℓ'.request = ℓ.request ∧ Advances ℓ c r ℓ'.stage := by
  cases c with
  | reply m =>
    rw [serverNext_reply] at h
    split at h
    · rename_i ha
      cases h
      exact ⟨rfl, .replies m ha⟩
    · cases h
  | store c =>
    by_cases hc : OffRequests c
    · rw [serverNext_store hc] at h
      obtain ⟨op, -, rfl⟩ := Option.map_eq_some_iff.mp h
      exact ⟨rfl, .stays _ r (by simp)⟩
    · cases c with
      | lookupRequest id =>
        cases r with
        | some e =>
          rw [serverNext_found] at h
          obtain ⟨⟨hs, rfl⟩, he⟩ := Option.ite_none_right_eq_some.mp h
          cases he
          exact ⟨rfl, .looks e hs⟩
        | none =>
          rw [serverNext_missing] at h
          obtain ⟨-, he⟩ := Option.ite_none_right_eq_some.mp h
          cases he
          exact ⟨rfl, .stays _ _ (by simp)⟩
      | claim id op =>
        rcases r with e | _ | e
        · rw [serverNext_unclaimed] at h
          obtain ⟨-, he⟩ := Option.ite_none_right_eq_some.mp h
          cases he
          exact ⟨rfl, .stays _ _ (by simp)⟩
        · rw [serverNext_claimed] at h
          obtain ⟨⟨hs, rfl, rfl⟩, he⟩ := Option.ite_none_right_eq_some.mp h
          cases he
          exact ⟨rfl, .claims hs⟩
        · rw [serverNext_claimedBefore] at h
          obtain ⟨⟨hs, rfl, rfl⟩, he⟩ := Option.ite_none_right_eq_some.mp h
          cases he
          exact ⟨rfl, .finds e hs⟩
      | append l =>
        cases l with
        | operation rec => exact absurd trivial hc
        | request l =>
          cases r with
          | ok u =>
            rw [serverNext_terminal_ok] at h
            obtain ⟨hs, hm⟩ := Option.ite_none_right_eq_some.mp h
            obtain ⟨o, ht, rfl⟩ := Option.map_eq_some_iff.mp hm
            cases o with
            | some m =>
              obtain ⟨rfl, hid⟩ := eq_of_terminalOf ht
              exact ⟨rfl, .remembers m hs hid⟩
            | none => exact ⟨rfl, .stays _ _ (by simp)⟩
          | error e =>
            rw [serverNext_terminal_error] at h
            obtain ⟨-, hm⟩ := Option.ite_none_right_eq_some.mp h
            obtain ⟨o, -, rfl⟩ := Option.map_eq_some_iff.mp hm
            exact ⟨rfl, .stays _ _ (by simp)⟩
      | _ => exact absurd trivial hc
  | fs c => cases h; exact ⟨rfl, .stays _ r (by simp)⟩
  | uploads c => cases h; exact ⟨rfl, .stays _ r (by simp)⟩
  | acquire => cases h; exact ⟨rfl, .stays _ r (by simp)⟩
  | release => cases h; exact ⟨rfl, .stays _ r (by simp)⟩
  | run _ _ _ _ =>
    rw [serverNext_run] at h
    obtain ⟨-, he⟩ := Option.ite_none_right_eq_some.mp h
    cases he
    exact ⟨rfl, .stays _ r (by simp)⟩

theorem reply_of_next {ℓ ℓ' : ServerLocal} {m : ServerMessage} (h : serverNext ℓ (.reply m) () = some ℓ') :
    ℓ.stage.allows ℓ.request m = true ∧ ℓ'.stage = .replied m := by
  rw [serverNext_reply] at h
  obtain ⟨ha, he⟩ := Option.ite_none_right_eq_some.mp h
  cases he
  exact ⟨ha, rfl⟩

/-- A handler appends records and own lines. -/
theorem ownLog_of_next {ℓ ℓ' : ServerLocal} {l : LogLine} {r : Except ProtocolError Unit}
    (h : serverNext ℓ (.store (.append l)) r = some ℓ') : OwnLog l := by
  cases l with
  | operation rec => trivial
  | request l =>
    cases r with
    | ok u =>
      rw [serverNext_terminal_ok] at h
      obtain ⟨-, hm⟩ := Option.ite_none_right_eq_some.mp h
      obtain ⟨o, ht, -⟩ := Option.map_eq_some_iff.mp hm
      exact ownLine_of_terminalOf ht
    | error e =>
      rw [serverNext_terminal_error] at h
      obtain ⟨-, hm⟩ := Option.ite_none_right_eq_some.mp h
      obtain ⟨o, ht, -⟩ := Option.map_eq_some_iff.mp hm
      exact ownLine_of_terminalOf ht

/-- Work changes neither the request nor how far it is. -/
theorem serverNext_of_work {c : ServerCmd} {r : c.Result} {op op' : StoreLocal} (h : workNext op c r = some op')
    (q : Request) (st : Stage) : serverNext ⟨q, st, op⟩ c r = some ⟨q, st, op'⟩ := by
  cases c with
  | store c =>
    have hc := offRequests_of_work h
    rw [workNext_store hc] at h
    rw [serverNext_store hc, h]
    rfl
  | fs c => cases h; rfl
  | uploads c => cases h; rfl
  | acquire => cases h
  | release => cases h
  | run _ _ _ _ => cases h
  | reply _ => cases h

section

variable {α β : Type} {q : Request} {st : Stage} {op : StoreLocal}

theorem conforms_of_work {post : StoreLocal → α → Prop} : ∀ {p : ServerProg α} {op : StoreLocal},
    p.Conforms workNext post op →
      p.Conforms serverNext (fun ℓ a => ∃ op', ℓ = ⟨q, st, op'⟩ ∧ post op' a) ⟨q, st, op⟩
  | .pure _, op, h => ⟨op, rfl, h⟩
  | .op c k, op, h => fun r => by
    obtain ⟨op', hn, hk⟩ := h r
    exact ⟨_, serverNext_of_work hn q st, conforms_of_work hk⟩

/-- A handler that has answered. -/
def Answered (q : Request) (ℓ : ServerLocal) : Prop := ℓ.request = q ∧ ∃ m, ℓ.stage = .replied m

theorem conforms_reply {m : ServerMessage} (h : st.allows q m = true) :
    (reply m).Conforms serverNext (fun ℓ _ => Answered q ℓ) ⟨q, st, op⟩ :=
  fun _ => ⟨⟨q, .replied m, op⟩, by simp [serverNext_reply, h], rfl, m, rfl⟩

theorem isErrorFor_error (q : Request) (e : ProtocolError) :
    (ServerMessage.error q.requestId e).isErrorFor q = true := by
  simp [ServerMessage.isErrorFor]

theorem allows_error {e : ProtocolError} (h : ∀ m, st ≠ .replied m) :
    st.allows q (.error q.requestId e) = true := by
  cases st <;> simp [Stage.allows, isErrorFor_error]
  exact h _ rfl

theorem next_resultLine (body : ResultBody) (r : Except ProtocolError Unit) :
    serverNext ⟨q, .claimed, op⟩ (.store (.append (resultLine q.requestId (.result q.requestId body)))) r =
      some ⟨q, if r = .ok () then .remembered (.result q.requestId body) else .claimed, op⟩ := by
  cases r with
  | ok u => simp [resultLine, serverNext_terminal_ok, terminalOf_result]
  | error e => simp [resultLine, serverNext_terminal_error, terminalOf_result]

theorem next_errorLine (e : ProtocolError) (r : Except ProtocolError Unit) :
    serverNext ⟨q, .claimed, op⟩ (.store (.append (errorLine q.requestId e))) r = some ⟨q, .claimed, op⟩ := by
  cases r <;> simp [errorLine, serverNext_terminal_ok, serverNext_terminal_error, terminalOf_error]

theorem conforms_error {e : ProtocolError} (h : ∀ m, st ≠ .replied m) :
    (reply (.error q.requestId e)).Conforms serverNext (fun ℓ _ => Answered q ℓ) ⟨q, st, op⟩ :=
  conforms_reply (allows_error h)

/-- A result is the answer once it is remembered; any error may be. -/
theorem conforms_finish (result : Except ProtocolError ResultBody) :
    (finish q.requestId result >>= reply).Conforms serverNext (fun ℓ _ => Answered q ℓ) ⟨q, .claimed, op⟩ := by
  cases result with
  | ok body =>
    refine fun r => ⟨_, next_resultLine body r, ?_⟩
    cases r with
    | ok u => exact conforms_reply (by simp [Stage.allows])
    | error e => exact conforms_error (by simp)
  | error e =>
    refine fun r => ⟨_, next_errorLine e r, ?_⟩
    cases r with
    | ok u => exact conforms_error (by simp)
    | error e' => exact conforms_error (by simp)

theorem conforms_guardedMutation {h : Handler ResultBody} (hh : Works op h) :
    (guardedMutation q.requestId h).Conforms serverNext (fun ℓ _ => Answered q ℓ) ⟨q, .claimed, op⟩ := by
  have hguard : (underGuard h).Conforms serverNext (fun ℓ _ => ∃ op, ℓ = ⟨q, .claimed, op⟩) ⟨q, .claimed, op⟩ := by
    rw [underGuard_eq]
    refine fun _ => ⟨_, rfl, (conforms_of_work hh).bind fun ℓ o hℓ => ?_⟩
    obtain ⟨op', rfl, -⟩ := hℓ
    exact fun _ => ⟨_, rfl, op', rfl⟩
  refine hguard.bind fun ℓ o hℓ => ?_
  obtain ⟨op', rfl⟩ := hℓ
  exact conforms_finish o

theorem conforms_handleExec (argv : List String) (cwd profile : Option String) (timeoutMs : Option Nat) :
    (handleExec q.requestId argv cwd profile timeoutMs).Conforms serverNext (fun ℓ _ => Answered q ℓ)
      ⟨q, .claimed, op⟩ := by
  refine fun id => ⟨⟨q, .claimed, .fresh id⟩, by cases op <;> rfl, fun o => ⟨_, rfl, ?_⟩⟩
  cases o with
  | ok o =>
    refine fun now => ⟨_, rfl, fun r => ⟨⟨q, .claimed, .idle⟩, by simp [serverNext_record, StoreLocal.next], ?_⟩⟩
    cases r with
    | error e => exact fun r => ⟨_, next_errorLine e r, conforms_error (by simp)⟩
    | ok u =>
      refine fun r => ⟨_, next_resultLine _ r, ?_⟩
      cases r with
      | ok u => exact conforms_reply (by simp [Stage.allows])
      | error e => exact conforms_error (by simp)
  | error e =>
    refine fun now => ⟨_, rfl, fun r => ⟨⟨q, .claimed, .idle⟩, by simp [serverNext_record, StoreLocal.next], ?_⟩⟩
    exact fun r' => ⟨_, next_errorLine e r', conforms_error (by simp)⟩

/-! ## The whole of it -/

theorem execute_eq (server : Server) (id : String) {body : RequestBody} (hb : body.persisted = true) :
    (∃ argv cwd profile timeoutMs, server.execute id body = handleExec id argv cwd profile timeoutMs) ∨
      ∃ h, server.mutation id body = some h ∧ server.execute id body = guardedMutation id h := by
  cases body with
  | exec argv cwd profile timeoutMs => exact .inl ⟨argv, cwd, profile, timeoutMs, rfl⟩
  | history limit => cases hb
  | operationGet id => cases hb
  | requestStatus target => cases hb
  | _ => exact .inr ⟨_, rfl, rfl⟩

/-- What a claimed request does. -/
theorem conforms_execute (server : Server) (hb : q.body.persisted = true) :
    (server.execute q.requestId q.body).Conforms serverNext (fun ℓ _ => Answered q ℓ) ⟨q, .claimed, op⟩ := by
  rcases execute_eq server q.requestId hb with ⟨argv, cwd, profile, timeoutMs, he⟩ | ⟨h, hm, he⟩
  · rw [he]
    exact conforms_handleExec argv cwd profile timeoutMs
  · rw [he]
    exact conforms_guardedMutation (works_mutation q.requestId server hm)

/-- The answer to a request that was found in the table. -/
theorem conforms_found (e : RequestEntry) :
    (match e.result with
      | some (.done m) => reply m
      | some (.error e) => reply (.error q.requestId e)
      | none => reply (.error q.requestId (.new .invalidRequest "request already in progress")) :
        ServerProg Unit).Conforms serverNext (fun ℓ _ => Answered q ℓ) ⟨q, .found e, op⟩ := by
  split
  · rename_i m hm
    exact conforms_reply (by simp [Stage.allows, hm])
  · exact conforms_error (by simp)
  · exact conforms_error (by simp)

/-- A handler follows `serverNext` to an answer. -/
theorem conforms_handle (server : Server) (q : Request) :
    (server.handle q).Conforms serverNext (fun ℓ _ => Answered q ℓ) ⟨q, .asked, .idle⟩ := by
  unfold Server.handle
  split
  · rename_i h hb
    have hp : q.body.persisted = false := by simp [RequestBody.persisted, hb]
    refine (conforms_of_work (aside_unpersisted hb)).bind fun ℓ o hℓ => ?_
    obtain ⟨op', rfl, -⟩ := hℓ
    cases o with
    | ok body => exact conforms_reply (by simp [Stage.allows, hp, ServerMessage.requestId])
    | error e => exact conforms_error (by simp)
  · rename_i hb
    have hp : q.body.persisted = true := by simp [RequestBody.persisted, hb]
    intro e
    cases e with
    | some e => exact ⟨⟨q, .found e, .idle⟩, by simp [serverNext_found], conforms_found e⟩
    | none =>
      refine ⟨⟨q, .asked, .idle⟩, by simp [serverNext_missing], fun r => ?_⟩
      rcases r with e | _ | e
      · exact ⟨⟨q, .asked, .idle⟩, by simp [serverNext_unclaimed], conforms_error (by simp)⟩
      · exact ⟨⟨q, .claimed, .idle⟩, by simp [serverNext_claimed], conforms_execute server hp⟩
      · exact ⟨⟨q, .found e, .idle⟩, by simp [serverNext_claimedBefore], conforms_found e⟩

end

end RemoteWorkspace
