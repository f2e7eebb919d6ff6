import RemoteWorkspace.Server.Replies

/-!
# Each request once

A client that has lost an answer sends its request again, and a request may be
under way several times at once. Reads, waits, and the requests that prepare or
abort an upload are carried out every time. All attempts at any other request
(`persisted`) go through one entry of the request table: it is claimed by one of
them, which does the work and remembers the outcome, and the others find what
there is.

`Attempt` is a handler as its request table sees it. Within a session no two
attempts at such a request work at the same time (`one_at_work`), and until a prune
one of them works, all results are the same (`one_result`), and a request that
comes after a result does nothing (`retries_replay`).
-/

namespace RemoteWorkspace

open Interleave Keyed
open Handler (Works Aside)

/-! ## Attempts -/

/-- Where a handler is with its request. -/
inductive Part where
  | asking
  /-- The request was looked up, and was not in the table. -/
  | missed
  | found (e : RequestEntry)
  /-- It is claimed, and the append of its terminal line not yet issued. -/
  | working
  /-- What is left is the answer: this one, or an error. -/
  | settled (answer : Option ServerMessage)
  | answered (m : ServerMessage)
  deriving DecidableEq, Repr

structure Attempt where
  request : Request
  part : Part
  deriving DecidableEq, Repr

/-- The answer to a request that is in the table. -/
def answerOf (id : String) (e : RequestEntry) : ServerMessage :=
  match e.result with
  | some (.done m) => m
  | some (.error e) => .error id e
  | none => .error id (.new .invalidRequest "request already in progress")

def Part.tells (q : Request) : Part → ServerMessage → Bool
  | asking, m => !q.body.persisted && m.requestId = q.requestId
  | found e, m => m = answerOf q.requestId e
  | settled (some m'), m => m = m'
  | settled none, m => m.isErrorFor q
  | _, _ => false

/-- What a claim returns decides who works. -/
def Part.ofClaim : Except ProtocolError (Option RequestEntry) → Part
  | .ok none => working
  | .ok (some e) => found e
  | .error _ => settled none

/-- A command of a request's work: any but those on its entry of the table, and
the answer. -/
def ServerCmd.ofWork : ServerCmd → Bool
  | .reply _ => false
  | .store (.lookupRequest _) => false
  | .store (.claim _ _) => false
  | .store (.append (.request _)) => false
  | _ => true

namespace Attempt

variable (a : Attempt)

/-- It may work: it has claimed its request, or its request is none of the
table. -/
def mayWork : Bool := a.part = .working || a.part = .asking && !a.request.body.persisted

/-- What a command and its result make of it; `none` if the command is not
allowed. -/
def next : (c : ServerCmd) → c.Result → Option Attempt
  | .reply m, _ => if a.part.tells a.request m then some { a with part := .answered m } else none
  | .store (.lookupRequest id), r =>
    if a.part = .asking ∧ a.request.body.persisted = true ∧ id = a.request.requestId then
      some { a with part := r.elim .missed .found }
    else none
  | .store (.claim id op), r =>
    if a.part = .missed ∧ id = a.request.requestId ∧ op = opKind a.request.body then
      some { a with part := .ofClaim r }
    else none
  | .store (.append (.request l)), r =>
    if a.part = .working then
      (terminalOf a.request l).map fun o => { a with part := .settled (if r = .ok () then o else none) }
    else none
  | _, _ => if a.mayWork then some a else none

theorem next_reply (m : ServerMessage) (u : Unit) :
    a.next (.reply m) u = if a.part.tells a.request m then some { a with part := .answered m } else none := rfl

theorem next_lookup (id : String) (r : Option RequestEntry) :
    a.next (.store (.lookupRequest id)) r =
      if a.part = .asking ∧ a.request.body.persisted = true ∧ id = a.request.requestId then
        some { a with part := r.elim .missed .found }
      else none := rfl

theorem next_claim (id op : String) (r : Except ProtocolError (Option RequestEntry)) :
    a.next (.store (.claim id op)) r =
      if a.part = .missed ∧ id = a.request.requestId ∧ op = opKind a.request.body then
        some { a with part := .ofClaim r }
      else none := rfl

theorem next_terminal (l : RequestLogLine) (r : Except ProtocolError Unit) :
    a.next (.store (.append (.request l))) r =
      if a.part = .working then
        (terminalOf a.request l).map fun o => { a with part := .settled (if r = .ok () then o else none) }
      else none := rfl

theorem next_work {c : ServerCmd} (hc : c.ofWork = true) (r : c.Result) :
    a.next c r = if a.mayWork then some a else none := by
  cases c with
  | reply m => cases hc
  | store c =>
    cases c with
    | lookupRequest id => cases hc
    | claim id op => cases hc
    | append l =>
      cases l with
      | operation rec => rfl
      | request l => cases hc
    | _ => rfl
  | _ => rfl

end Attempt

/-- What a command makes of an attempt. -/
inductive Proceeds (a : Attempt) : (c : ServerCmd) → c.Result → Part → Prop where
  | works (c : ServerCmd) (r : c.Result) (hc : c.ofWork = true) (h : a.mayWork = true) : Proceeds a c r a.part
  | looks (r : Option RequestEntry) (h : a.part = .asking) (hp : a.request.body.persisted = true) :
      Proceeds a (.store (.lookupRequest a.request.requestId)) r (r.elim .missed .found)
  | claims (r : Except ProtocolError (Option RequestEntry)) (h : a.part = .missed) :
      Proceeds a (.store (.claim a.request.requestId (opKind a.request.body))) r (.ofClaim r)
  | settles (l : RequestLogLine) (o : Option ServerMessage) (r : Except ProtocolError Unit) (h : a.part = .working)
      (hl : terminalOf a.request l = some o) :
      Proceeds a (.store (.append (.request l))) r (.settled (if r = .ok () then o else none))
  | answers (m : ServerMessage) (h : a.part.tells a.request m = true) : Proceeds a (.reply m) () (.answered m)

theorem proceeds_of_next {a a' : Attempt} {c : ServerCmd} {r : c.Result} (h : a.next c r = some a') :
    a'.request = a.request ∧ Proceeds a c r a'.part := by
  by_cases hc : c.ofWork = true
  · rw [a.next_work hc] at h
    obtain ⟨hw, he⟩ := Option.ite_none_right_eq_some.mp h
    cases he
    exact ⟨rfl, .works c r hc hw⟩
  · cases c with
    | reply m =>
      rw [Attempt.next_reply] at h
      obtain ⟨hs, he⟩ := Option.ite_none_right_eq_some.mp h
      cases he
      exact ⟨rfl, .answers m hs⟩
    | store c =>
      cases c with
      | lookupRequest id =>
        rw [Attempt.next_lookup] at h
        obtain ⟨⟨hp, hq, rfl⟩, he⟩ := Option.ite_none_right_eq_some.mp h
        cases he
        exact ⟨rfl, .looks r hp hq⟩
      | claim id op =>
        rw [Attempt.next_claim] at h
        obtain ⟨⟨hp, rfl, rfl⟩, he⟩ := Option.ite_none_right_eq_some.mp h
        cases he
        exact ⟨rfl, .claims r hp⟩
      | append l =>
        cases l with
        | operation rec => exact absurd rfl hc
        | request l =>
          rw [Attempt.next_terminal] at h
          obtain ⟨hp, hm⟩ := Option.ite_none_right_eq_some.mp h
          obtain ⟨o, hl, rfl⟩ := Option.map_eq_some_iff.mp hm
          exact ⟨rfl, .settles l o r hp hl⟩
      | _ => exact absurd rfl hc
    | _ => exact absurd rfl hc

/-! ## Handlers are attempts -/

section

variable {α : Type} {q : Request}

/-- An attempt that has answered. -/
def Attempt.Over (q : Request) (a : Attempt) : Prop := a.request = q ∧ ∃ m, a.part = .answered m

theorem ofWork_of_next {c : ServerCmd} {r : c.Result} {ℓ ℓ' : StoreLocal} (h : workNext ℓ c r = some ℓ') :
    c.ofWork = true := by
  cases c with
  | store c =>
    have := offRequests_of_work h
    cases c with
    | lookupRequest id => exact this.elim
    | claim id op => exact this.elim
    | append l =>
      cases l with
      | operation rec => rfl
      | request l => exact this.elim
    | _ => rfl
  | reply m => cases h
  | _ => rfl

/-- An attempt that may work stays where it is while it works. -/
theorem attempts_of_work {post : StoreLocal → α → Prop} {a : Attempt} (ha : a.mayWork = true) :
    ∀ {p : ServerProg α} {ℓ : StoreLocal}, p.Conforms workNext post ℓ →
      p.Conforms Attempt.next (fun a' _ => a' = a) a
  | .pure _, _, _ => rfl
  | .op c k, ℓ, h => fun r => by
    obtain ⟨ℓ', hn, hk⟩ := h r
    exact ⟨a, by rw [a.next_work (ofWork_of_next hn), if_pos ha], attempts_of_work ha hk⟩

theorem attempts_reply {p : Part} {m : ServerMessage} (h : p.tells q m = true) :
    (reply m).Conforms Attempt.next (fun a _ => a.Over q) ⟨q, p⟩ :=
  fun _ => ⟨⟨q, .answered m⟩, by rw [Attempt.next_reply, if_pos h], rfl, m, rfl⟩

theorem attempts_error (e : ProtocolError) :
    (reply (.error q.requestId e)).Conforms Attempt.next (fun a _ => a.Over q) ⟨q, .settled none⟩ :=
  attempts_reply (isErrorFor_error q e)

theorem next_remember (body : ResultBody) (r : Except ProtocolError Unit) :
    Attempt.next ⟨q, .working⟩ (.store (.append (resultLine q.requestId (.result q.requestId body)))) r =
      some ⟨q, .settled (if r = .ok () then some (.result q.requestId body) else none)⟩ := by
  rw [resultLine, Attempt.next_terminal, if_pos rfl]
  exact congrArg (Option.map _) (terminalOf_result q body)

theorem next_rememberError (e : ProtocolError) (r : Except ProtocolError Unit) :
    Attempt.next ⟨q, .working⟩ (.store (.append (errorLine q.requestId e))) r = some ⟨q, .settled none⟩ := by
  rw [errorLine, Attempt.next_terminal, if_pos rfl]
  exact (congrArg (Option.map _) (terminalOf_error q e)).trans (by simp)

theorem attempts_finish (result : Except ProtocolError ResultBody) :
    (finish q.requestId result >>= reply).Conforms Attempt.next (fun a _ => a.Over q) ⟨q, .working⟩ := by
  cases result with
  | ok body =>
    refine fun r => ⟨_, next_remember body r, ?_⟩
    cases r with
    | ok u => exact attempts_reply (decide_eq_true rfl)
    | error e => exact attempts_error e
  | error e =>
    refine fun r => ⟨_, next_rememberError e r, ?_⟩
    cases r with
    | ok u => exact attempts_error e
    | error e' => exact attempts_error e'

theorem attempts_guardedMutation {h : Handler ResultBody} {ℓ : StoreLocal} (hh : Works ℓ h) :
    (guardedMutation q.requestId h).Conforms Attempt.next (fun a _ => a.Over q) ⟨q, .working⟩ := by
  have hguard : (underGuard h).Conforms Attempt.next (fun a _ => a = ⟨q, .working⟩) ⟨q, .working⟩ := by
    rw [underGuard_eq]
    refine fun _ => ⟨_, rfl, (attempts_of_work rfl hh).bind fun a o ha => ?_⟩
    subst ha
    exact fun _ => ⟨_, rfl, rfl⟩
  refine hguard.bind fun a o ha => ?_
  subst ha
  exact attempts_finish o

theorem attempts_handleExec (argv : List String) (cwd profile : Option String) (timeoutMs : Option Nat) :
    (handleExec q.requestId argv cwd profile timeoutMs).Conforms Attempt.next (fun a _ => a.Over q) ⟨q, .working⟩ := by
  refine fun id => ⟨_, rfl, fun o => ⟨_, rfl, ?_⟩⟩
  cases o with
  | ok o =>
    refine fun now => ⟨_, rfl, fun r => ⟨_, rfl, ?_⟩⟩
    cases r with
    | error e => exact fun r => ⟨_, next_rememberError e r, attempts_error e⟩
    | ok u =>
      refine fun r => ⟨_, next_remember _ r, ?_⟩
      cases r with
      | ok u => exact attempts_reply (decide_eq_true rfl)
      | error e => exact attempts_error e
  | error e => exact fun now => ⟨_, rfl, fun r => ⟨_, rfl, fun r' => ⟨_, next_rememberError e r', attempts_error _⟩⟩⟩

theorem attempts_execute (server : Server) (hb : q.body.persisted = true) :
    (server.execute q.requestId q.body).Conforms Attempt.next (fun a _ => a.Over q) ⟨q, .working⟩ := by
  rcases execute_eq server q.requestId hb with ⟨argv, cwd, profile, timeoutMs, he⟩ | ⟨h, hm, he⟩
  · rw [he]
    exact attempts_handleExec argv cwd profile timeoutMs
  · rw [he]
    exact attempts_guardedMutation (ℓ := .idle) (works_mutation q.requestId server hm)

theorem attempts_found (e : RequestEntry) :
    (match e.result with
      | some (.done m) => reply m
      | some (.error e) => reply (.error q.requestId e)
      | none => reply (.error q.requestId (.new .invalidRequest "request already in progress")) :
        ServerProg Unit).Conforms Attempt.next (fun a _ => a.Over q) ⟨q, .found e⟩ := by
  have htells : ∀ m, m = answerOf q.requestId e → (Part.found e).tells q m = true := fun m hm => decide_eq_true hm
  split
  · rename_i m hm
    exact attempts_reply (htells _ (by rw [answerOf, hm]))
  · rename_i e' hm
    exact attempts_reply (htells _ (by rw [answerOf, hm]))
  · rename_i hm
    exact attempts_reply (htells _ (by rw [answerOf, hm]))

/-- A handler is an attempt at its request. -/
theorem attempts_handle (server : Server) (q : Request) :
    (server.handle q).Conforms Attempt.next (fun a _ => a.Over q) ⟨q, .asking⟩ := by
  unfold Server.handle
  split
  · rename_i h hb
    have hp : q.body.persisted = false := by simp [RequestBody.persisted, hb]
    have hmay : (⟨q, .asking⟩ : Attempt).mayWork = true := by simp [Attempt.mayWork, hp]
    refine (attempts_of_work hmay (aside_unpersisted (ℓ := .idle) hb)).bind fun a o ha => ?_
    subst ha
    cases o with
    | ok body => exact attempts_reply (by simp [Part.tells, hp, ServerMessage.requestId])
    | error e => exact attempts_reply (by simp [Part.tells, hp, ServerMessage.requestId])
  · rename_i hb
    have hp : q.body.persisted = true := by simp [RequestBody.persisted, hb]
    refine fun e => ⟨_, by rw [Attempt.next_lookup, if_pos ⟨rfl, hp, rfl⟩], ?_⟩
    cases e with
    | some e => exact attempts_found e
    | none =>
      refine fun r => ⟨_, by rw [Attempt.next_claim, if_pos ⟨rfl, rfl, rfl⟩], ?_⟩
      rcases r with e | _ | e
      · exact attempts_error e
      · exact attempts_execute server hp
      · exact attempts_found e

end

/-! ## The table -/

namespace OperationStore

theorem requests_appendLine (s : OperationStore) (o : AppendOutcome) (l : LogLine) :
    (s.appendLine o l).2.requests = s.requests := by
  unfold appendLine
  split
  · rfl
  · cases o <;> rfl

theorem requests_appendTracked (s : OperationStore) (o : AppendOutcome) (l : LogLine) :
    (s.appendTracked o l).1 = .ok () ∧ (s.appendTracked o l).2.requests = (s.record l).requests ∨
      (s.appendTracked o l).1 ≠ .ok () ∧ (s.appendTracked o l).2.requests = s.requests := by
  have hkept := s.requests_appendLine o l
  unfold appendTracked
  split
  · exact .inl ⟨rfl, rfl⟩
  · rename_i f s' heq
    rw [heq] at hkept
    exact .inr ⟨by simp, hkept⟩

end OperationStore

section

variable {server : Server} {s s' : ServerState} {ch : ServerChoice}

/-- Work changes the table only where it prunes it. -/
theorem requests_of_work {c : ServerCmd} {r : c.Result} (hc : c.ofWork = true)
    (he : c.exec server.workspace server.sha256 ch s = some (r, s')) :
    s'.store.requests = s.store.requests ∨
      (∃ keep, c = .store (.prune keep)) ∧ ∃ rs, s'.store.requests = keptRequests rs s.store.requests := by
  cases c with
  | store c =>
    have hs := exec_store he
    cases c with
    | lookupRequest id => cases hc
    | claim id op => cases hc
    | append l =>
      cases l with
      | request l => cases hc
      | operation rec =>
        have hs : _ = s'.store := (Prod.ext_iff.mp (Option.some.inj hs)).2
        refine .inl ?_
        rw [← hs]
        rcases s.store.requests_appendTracked ch.store.append (.operation rec) with ⟨-, h⟩ | ⟨-, h⟩ <;> exact h
    | prepare p =>
      have hs : _ = s'.store := (Prod.ext_iff.mp (Option.some.inj hs)).2
      refine .inl ?_
      rw [← hs]
      have hkept := s.store.requests_appendLine ch.store.append (.operation (.prepared p))
      simp only [OperationStore.prepareLocked]
      split
      · rfl
      · rename_i heq
        rw [heq] at hkept
        rw [OperationStore.requests_appendLine]
        exact hkept
      · rename_i heq
        rw [heq] at hkept
        exact hkept
    | prune keep =>
      have hs : _ = s'.store := (Prod.ext_iff.mp (Option.some.inj hs)).2
      refine .inr ⟨⟨keep, rfl⟩, keptRecords keep s.store.records, ?_⟩
      rw [← hs]
      exact OperationStore.prune_requests s.store keep ch.store.prune
    | nextOperationId =>
      simp only [StoreCmd.exec, OperationStore.nextOperationId] at hs
      obtain ⟨-, he⟩ := Option.ite_none_right_eq_some.mp hs
      have hs : _ = s'.store := (Prod.ext_iff.mp (Option.some.inj he)).2
      rw [← hs]
      exact .inl rfl
    | _ => exact .inl (congrArg OperationStore.requests (Prod.ext_iff.mp (Option.some.inj hs)).2.symm)
  | _ => exact .inl (congrArg OperationStore.requests (store_of_other (by simp) he))

theorem requests_of_claim {id op : String} {r : Except ProtocolError (Option RequestEntry)}
    (he : (ServerCmd.store (.claim id op)).exec server.workspace server.sha256 ch s = some (r, s')) :
    (∃ e, r = .ok (some e) ∧ s.store.requests.lookup id = some e ∧ s'.store.requests = s.store.requests) ∨
      s.store.requests.lookup id = none ∧
        (r = .ok none ∧ s'.store.requests = s.store.requests.insert id (.inProgress op) ∨
          (∃ e, r = .error e) ∧ s'.store.requests = s.store.requests) := by
  obtain ⟨hr, hs⟩ := Prod.ext_iff.mp (Option.some.inj (exec_store he))
  dsimp only at hr hs
  rw [← hr, ← hs]
  unfold OperationStore.claimLocked
  split
  · rename_i e hl
    exact .inl ⟨e, rfl, hl, rfl⟩
  · rename_i hl
    refine .inr ⟨hl, ?_⟩
    rcases s.store.requests_appendTracked ch.store.append (OperationStore.inProgressLine id op) with ⟨hok, h⟩ | ⟨hno, h⟩
    · split
      · rename_i heq
        rw [heq] at h
        exact .inl ⟨rfl, h⟩
      · rename_i heq
        rw [heq] at hok
        cases hok
    · split
      · rename_i heq
        rw [heq] at hno
        exact absurd rfl hno
      · rename_i heq
        rw [heq] at h
        exact .inr ⟨⟨_, rfl⟩, h⟩

theorem requests_of_terminal {l : RequestLogLine} {r : Except ProtocolError Unit}
    (he : (ServerCmd.store (.append (.request l))).exec server.workspace server.sha256 ch s = some (r, s')) :
    r = .ok () ∧ s'.store.requests = s.store.requests.insert l.requestId l.entry ∨
      r ≠ .ok () ∧ s'.store.requests = s.store.requests := by
  obtain ⟨hr, hs⟩ := Prod.ext_iff.mp (Option.some.inj (exec_store he))
  dsimp only at hr hs
  rw [← hr, ← hs]
  exact s.store.requests_appendTracked ch.store.append (.request l)

theorem requests_of_lookup {id : String} {r : Option RequestEntry}
    (he : (ServerCmd.store (.lookupRequest id)).exec server.workspace server.sha256 ch s = some (r, s')) :
    s.store.requests.lookup id = r ∧ s'.store.requests = s.store.requests := by
  obtain ⟨hr, hs⟩ := Prod.ext_iff.mp (Option.some.inj (exec_store he))
  exact ⟨hr, congrArg OperationStore.requests hs.symm⟩

end

/-- A prune keeps what is in progress. -/
theorem lookup_kept_inProgress {rs : Records} {qs : Requests} {id : String} {e : RequestEntry}
    (h : qs.lookup id = some e) (he : e.status = .inProgress) : (keptRequests rs qs).lookup id = some e := by
  induction qs with
  | nil => cases h
  | cons q qs ih =>
    rw [Requests.lookup_cons] at h
    rw [keptRequests, List.filter_cons]
    split at h
    · rename_i hid
      rw [if_pos (by rw [Option.some.inj h, he]; rfl), Requests.lookup_cons, if_pos hid]
      exact h
    · rename_i hid
      split
      · rw [Requests.lookup_cons, if_neg hid]
        exact ih h
      · exact ih h

/-- A terminal line stands under the id of its request. -/
theorem requestId_of_terminalOf {q : Request} {l : RequestLogLine} {o : Option ServerMessage}
    (h : terminalOf q l = some o) : l.requestId = q.requestId := by
  unfold terminalOf at h
  split at h
  · obtain ⟨hl, -⟩ := Option.ite_none_right_eq_some.mp h
    exact congrArg RequestLogLine.requestId (LogLine.request.inj hl.1)
  · obtain ⟨hl, -⟩ := Option.ite_none_right_eq_some.mp h
    exact congrArg RequestLogLine.requestId (LogLine.request.inj hl)
  · cases h

/-! ## One at a time -/

/-- Who works has its entry in the table, and is the only one of its request. -/
structure Exclusive (qs : Requests) (ctx : List Attempt) : Prop where
  entry : ∀ (i : Nat) (a : Attempt), ctx[i]? = some a → a.part = .working →
    qs.lookup a.request.requestId = some (.inProgress (opKind a.request.body))
  alone : ∀ (i j : Nat) (a b : Attempt), ctx[i]? = some a → ctx[j]? = some b → a.part = .working → b.part = .working →
    a.request.requestId = b.request.requestId → i = j

namespace Exclusive

variable {qs qs' : Requests} {ctx : List Attempt} {i : Nat} {a a' : Attempt}

/-- An attempt that does not begin to work leaves it so, if the entries of those
that work stay. -/
theorem proceed (h : Exclusive qs ctx) (hi : ctx[i]? = some a) (hreq : a'.request = a.request)
    (hp : a'.part = .working → a.part = .working)
    (hkeep : ∀ (j : Nat) (b : Attempt), ctx[j]? = some b → (j = i → a'.part = .working) → b.part = .working →
      qs'.lookup b.request.requestId = qs.lookup b.request.requestId) : Exclusive qs' (ctx.set i a') := by
  have hold : ∀ {j : Nat} {b : Attempt}, (ctx.set i a')[j]? = some b → b.part = .working →
      ∃ b', ctx[j]? = some b' ∧ b'.request = b.request ∧ b'.part = .working ∧ (j = i → a'.part = .working) := by
    intro j b hj hb
    rcases Machine.getElem?_set_cases hj with ⟨rfl, rfl⟩ | ⟨hne, hj⟩
    · exact ⟨a, hi, hreq.symm, hp hb, fun _ => hb⟩
    · exact ⟨b, hj, rfl, hb, fun heq => absurd heq hne⟩
  constructor
  case entry =>
    intro j b hj hb
    obtain ⟨b', hj', hreq', hb', hw⟩ := hold hj hb
    rw [← hreq', hkeep j b' hj' hw hb']
    exact h.entry j b' hj' hb'
  case alone =>
    intro j k b c hj hk hb hc hid
    obtain ⟨b', hj', hreqb, hb', -⟩ := hold hj hb
    obtain ⟨c', hk', hreqc, hc', -⟩ := hold hk hc
    exact h.alone j k b' c' hj' hk' hb' hc' (by rw [hreqb, hreqc, hid])

/-- A request that is not in the table is claimed. -/
theorem claim (h : Exclusive qs ctx) (hnone : qs.lookup a'.request.requestId = none) (hp : a'.part = .working) :
    Exclusive (qs.insert a'.request.requestId (.inProgress (opKind a'.request.body))) (ctx.set i a') := by
  have hother : ∀ {j : Nat} {b : Attempt}, ctx[j]? = some b → b.part = .working →
      b.request.requestId ≠ a'.request.requestId := by
    intro j b hj hb heq
    have := h.entry j b hj hb
    rw [heq, hnone] at this
    cases this
  constructor
  case entry =>
    intro j b hj hb
    rw [Requests.lookup_insert]
    rcases Machine.getElem?_set_cases hj with ⟨rfl, rfl⟩ | ⟨hne, hj⟩
    · exact if_pos rfl
    · rw [if_neg (hother hj hb)]
      exact h.entry j b hj hb
  case alone =>
    intro j k b c hj hk hb hc hid
    rcases Machine.getElem?_set_cases hj with ⟨rfl, rfl⟩ | ⟨-, hj'⟩
    · rcases Machine.getElem?_set_cases hk with ⟨rfl, rfl⟩ | ⟨-, hk'⟩
      · rfl
      · exact absurd hid.symm (hother hk' hc)
    · rcases Machine.getElem?_set_cases hk with ⟨rfl, rfl⟩ | ⟨-, hk'⟩
      · exact absurd hid (hother hj' hb)
      · exact h.alone j k b c hj' hk' hb hc hid

theorem spawn (h : Exclusive qs ctx) (q : Request) : Exclusive qs (ctx ++ [⟨q, .asking⟩]) := by
  have hold : ∀ {j : Nat} {b : Attempt}, (ctx ++ [(⟨q, .asking⟩ : Attempt)])[j]? = some b → b.part = .working →
      ctx[j]? = some b := by
    intro j b hj hb
    rcases Machine.getElem?_concat_cases hj with ⟨rfl, rfl⟩ | hj
    · cases hb
    · exact hj
  exact ⟨fun j b hj hb => h.entry j b (hold hj hb) hb,
    fun j k b c hj hk hb hc hid => h.alone j k b c (hold hj hb) (hold hk hc) hb hc hid⟩

theorem nil (qs : Requests) : Exclusive qs [] := by
  constructor
  · intro i a hi
    cases hi
  · intro i j a b hi
    cases hi

variable {server : Server} {s s' : ServerState} {c : ServerCmd} {ch : ServerChoice} {r : c.Result}

theorem exec (h : Exclusive s.store.requests ctx) (hi : ctx[i]? = some a) (hn : a.next c r = some a')
    (he : c.exec server.workspace server.sha256 ch s = some (r, s')) :
    Exclusive s'.store.requests (ctx.set i a') := by
  obtain ⟨hreq, hproc⟩ := proceeds_of_next hn
  obtain ⟨q, p⟩ := a
  obtain ⟨q', p'⟩ := a'
  cases hreq
  have hsame : s'.store.requests = s.store.requests → (p' = .working → p = .working) →
      Exclusive s'.store.requests (ctx.set i ⟨q, p'⟩) :=
    fun hqs hp => h.proceed hi rfl hp fun j b _ _ _ => by rw [hqs]
  cases hproc with
  | works c r hc hw =>
    rcases requests_of_work hc he with hqs | ⟨-, rs, hqs⟩
    · exact hsame hqs id
    · refine h.proceed hi rfl id fun j b hj _ hb => ?_
      rw [hqs, h.entry j b hj hb]
      exact lookup_kept_inProgress (h.entry j b hj hb) rfl
  | looks r hp hq =>
    refine hsame (requests_of_lookup he).2 fun hw => ?_
    cases r <;> cases hw
  | claims r hp =>
    rcases requests_of_claim he with ⟨e, rfl, -, hqs⟩ | ⟨hnone, ⟨rfl, hqs⟩ | ⟨⟨e, rfl⟩, hqs⟩⟩
    · exact hsame hqs fun hw => by cases hw
    · rw [hqs]
      exact @claim _ _ i ⟨q, .working⟩ h hnone rfl
    · exact hsame hqs fun hw => by cases hw
  | settles l o r hp hl =>
    rcases requests_of_terminal he with ⟨-, hqs⟩ | ⟨-, hqs⟩
    · refine h.proceed hi rfl (fun hw => by cases hw) fun j b hj hne hb => ?_
      rw [hqs, Requests.lookup_insert, requestId_of_terminalOf hl, if_neg]
      intro heq
      cases hne (h.alone j i b _ hj hi hb hp heq)
    · exact hsame hqs fun hw => by cases hw
  | answers m hs =>
    refine hsame ?_ fun hw => by cases hw
    exact congrArg OperationStore.requests (store_of_other (by simp) he)

end Exclusive

/-! ## Attempts in a history -/

section

variable {server : Server}

/-- A stretch of a history in which the handlers from the `N`-th on were
started, and those that run now. -/
structure Since (N : Nat) (tr : List server.Moment) (ctx : List Attempt) (n : Nat) : Prop where
  base : N ≤ n + ctx.length
  spawned : ∀ k q, .spawned k q ∈ tr → N ≤ k ∧ k < n + ctx.length
  did : ∀ k e, .did k e ∈ tr → k < n + ctx.length
  request : ∀ (i : Nat) (a : Attempt) (q : Request), ctx[i]? = some a → .spawned (n + i) q ∈ tr → a.request = q

namespace Since

variable {N n : Nat} {tr : List server.Moment} {ctx : List Attempt}

theorem nil (hn : N ≤ n) (h : ∀ k q, .spawned k q ∈ tr → N ≤ k ∧ k < n) (hd : ∀ k e, .did k e ∈ tr → k < n) :
    Since N tr [] n := by
  refine ⟨hn, h, hd, ?_⟩
  intro i a q hi
  cases hi

theorem spawn (h : Since N tr ctx n) (q : Request) :
    Since N (tr ++ [.spawned (n + ctx.length) q]) (ctx ++ [⟨q, .asking⟩]) n := by
  have hlen : (ctx ++ [(⟨q, .asking⟩ : Attempt)]).length = ctx.length + 1 := by simp
  have hbase := h.base
  constructor
  case base =>
    rw [hlen]
    omega
  case spawned =>
    intro k q' hk
    rw [hlen]
    rcases List.mem_append.mp hk with hk | hk
    · have := h.spawned k q' hk
      omega
    · cases List.mem_singleton.mp hk
      omega
  case did =>
    intro k e hk
    rw [hlen]
    rcases List.mem_append.mp hk with hk | hk
    · have := h.did k e hk
      omega
    · cases List.mem_singleton.mp hk
  case request =>
    intro i a q' hi hk
    rcases Machine.getElem?_concat_cases hi with ⟨rfl, rfl⟩ | hi'
    · rcases List.mem_append.mp hk with hk | hk
      · have := h.spawned _ q' hk
        omega
      · cases List.mem_singleton.mp hk
        rfl
    · rcases List.mem_append.mp hk with hk | hk
      · exact h.request i a q' hi' hk
      · have hlt : i < ctx.length := (List.getElem?_eq_some_iff.mp hi').1
        have := Machine.Moment.spawned.inj (List.mem_singleton.mp hk)
        omega

theorem exec (h : Since N tr ctx n) {i : Nat} {a a' : Attempt} (hi : ctx[i]? = some a)
    (hreq : a'.request = a.request) (e : Event ServerCmd ServerCmd.Result) :
    Since N (tr ++ [.did (n + i) e]) (ctx.set i a') n := by
  have hold : ∀ k q, .spawned k q ∈ tr ++ [.did (n + i) e] → .spawned k q ∈ tr := by
    intro k q hk
    rcases List.mem_append.mp hk with hk | hk
    · exact hk
    · cases List.mem_singleton.mp hk
  constructor
  case base =>
    rw [List.length_set]
    exact h.base
  case spawned =>
    intro k q hk
    rw [List.length_set]
    exact h.spawned k q (hold k q hk)
  case did =>
    intro k e' hk
    rw [List.length_set]
    rcases List.mem_append.mp hk with hk | hk
    · exact h.did k e' hk
    · have hlt : i < ctx.length := (List.getElem?_eq_some_iff.mp hi).1
      cases List.mem_singleton.mp hk
      omega
  case request =>
    intro j b q hj hk
    rcases Machine.getElem?_set_cases hj with ⟨rfl, rfl⟩ | ⟨-, hj'⟩
    · rw [hreq]
      exact h.request j a q hi (hold _ q hk)
    · exact h.request j b q hj' (hold _ q hk)

/-- A moment between the sessions. -/
theorem between (h : Since N tr ctx n) {x : server.Moment} (hs : ∀ k q, x ≠ .spawned k q) (hd : ∀ k e, x ≠ .did k e) :
    Since N (tr ++ [x]) [] (n + ctx.length) := by
  refine nil h.base (fun k q hk => ?_) fun k e hk => ?_
  · rcases List.mem_append.mp hk with hk | hk
    · exact h.spawned k q hk
    · exact absurd (List.mem_singleton.mp hk).symm (hs k q)
  · rcases List.mem_append.mp hk with hk | hk
    · exact h.did k e hk
    · exact absurd (List.mem_singleton.mp hk).symm (hd k e)

end Since

/-! ## Who works -/

variable (tr : List server.Moment) (k : Nat)

/-- Its claim returned that the request is new. -/
def Claimed : Prop := ∃ id op, .did k ⟨.store (.claim id op), .ok none⟩ ∈ tr

/-- The append of its terminal line was issued. -/
def Concluded : Prop := ∃ l r, .did k ⟨.store (.append (.request l)), r⟩ ∈ tr

/-- The handler has claimed its request, and has not concluded it. -/
def AtWork : Prop := Claimed tr k ∧ ¬ Concluded tr k

/-- What the history says of a handler. -/
def Part.Told : Part → Prop
  | asking => ¬ Claimed tr k ∧ ¬ Concluded tr k
  | missed => ¬ Claimed tr k ∧ ¬ Concluded tr k
  | working => AtWork tr k
  | _ => ¬ AtWork tr k

/-- The work of a request that goes through the table is done by who has
claimed it. -/
def WorkClaimed : Prop := ∀ pre k c r post, tr = pre ++ .did k ⟨c, r⟩ :: post → c.ofWork = true →
  ∀ q, .spawned k q ∈ tr → q.body.persisted = true → AtWork pre k

structure Tended (s : ServerState) (ctx : List Attempt) (n : Nat) : Prop where
  since : Since 0 tr ctx n
  exclusive : Exclusive s.store.requests ctx
  told : ∀ (i : Nat) (a : Attempt), ctx[i]? = some a → a.part.Told tr (n + i)
  work : WorkClaimed tr

structure Untended (_ : ServerFiles) (n : Nat) : Prop where
  since : Since 0 tr [] n
  work : WorkClaimed tr

variable {tr k} {x : server.Moment}

theorem claimed_concat (h : ∀ id op, x ≠ .did k ⟨.store (.claim id op), .ok none⟩) :
    Claimed (tr ++ [x]) k ↔ Claimed tr k := by
  simp only [Claimed, List.mem_append, List.mem_singleton]
  constructor
  · rintro ⟨id, op, hc | hc⟩
    · exact ⟨id, op, hc⟩
    · exact absurd hc.symm (h id op)
  · rintro ⟨id, op, hc⟩
    exact ⟨id, op, .inl hc⟩

theorem concluded_concat (h : ∀ l r, x ≠ .did k ⟨.store (.append (.request l)), r⟩) :
    Concluded (tr ++ [x]) k ↔ Concluded tr k := by
  simp only [Concluded, List.mem_append, List.mem_singleton]
  constructor
  · rintro ⟨l, r, hc | hc⟩
    · exact ⟨l, r, hc⟩
    · exact absurd hc.symm (h l r)
  · rintro ⟨l, r, hc⟩
    exact ⟨l, r, .inl hc⟩

/-- A moment at which the handler neither claims nor concludes. -/
theorem told_concat {p : Part} (hc : ∀ id op, x ≠ .did k ⟨.store (.claim id op), .ok none⟩)
    (hl : ∀ l r, x ≠ .did k ⟨.store (.append (.request l)), r⟩) : p.Told (tr ++ [x]) k ↔ p.Told tr k := by
  cases p <;> simp only [Part.Told, AtWork, claimed_concat hc, concluded_concat hl]

theorem Part.Told.notAtWork {p : Part} (h : p.Told tr k) (hp : p ≠ .working) : ¬ AtWork tr k := by
  cases p with
  | asking => exact fun hw => h.1 hw.1
  | missed => exact fun hw => h.1 hw.1
  | working => exact absurd rfl hp
  | found e => exact h
  | settled o => exact h
  | answered m => exact h

theorem WorkClaimed.concat (h : WorkClaimed tr) (hs : ∀ j e q, x = .spawned j q → .did j e ∉ tr)
    (hx : ∀ j c r, x = .did j ⟨c, r⟩ → c.ofWork = true → ∀ q, .spawned j q ∈ tr → q.body.persisted = true →
      AtWork tr j) : WorkClaimed (tr ++ [x]) := by
  intro pre j c r post heq hc q hq hp
  rcases concat_eq_append heq with ⟨rfl, rfl⟩ | ⟨post', rfl⟩
  · rcases List.mem_append.mp hq with hq | hq
    · exact hx j c r rfl hc q hq hp
    · cases List.mem_singleton.mp hq
  · rcases List.mem_append.mp hq with hq | hq
    · exact h pre j c r post' rfl hc q hq hp
    · exact absurd (List.mem_append_right _ (.head _)) (hs j ⟨c, r⟩ q (List.mem_singleton.mp hq).symm)

section

variable {s s' : ServerState} {ctx : List Attempt} {n i : Nat} {a a' : Attempt} {c : ServerCmd} {ch : ServerChoice}
  {r : c.Result}

/-- What the history says of a handler after a command of its own. -/
theorem told_next (h : a.part.Told tr k) (hn : a.next c r = some a') : a'.part.Told (tr ++ [.did k ⟨c, r⟩]) k := by
  obtain ⟨hreq, hproc⟩ := proceeds_of_next hn
  obtain ⟨q, p⟩ := a
  obtain ⟨q', p'⟩ := a'
  cases hreq
  cases hproc with
  | works c r hc hw =>
    refine (told_concat ?_ ?_).mpr h
    · intro id op heq
      cases heq
      cases hc
    · intro l r' heq
      cases heq
      cases hc
  | looks r hp hq =>
    subst hp
    have h' : Part.asking.Told (tr ++ [.did k ⟨.store (.lookupRequest q.requestId), r⟩]) k :=
      (told_concat (by simp) (by simp)).mpr h
    cases r with
    | none => exact h'
    | some e => exact h'.notAtWork (by simp)
  | claims r hp =>
    subst hp
    rcases r with e | _ | e
    · exact Part.Told.notAtWork (p := .missed) ((told_concat (by simp) (by simp)).mpr h) (by simp)
    · exact ⟨⟨_, _, List.mem_append_right _ (.head _)⟩, (concluded_concat (by simp)).not.mpr h.2⟩
    · exact Part.Told.notAtWork (p := .missed) ((told_concat (by simp) (by simp)).mpr h) (by simp)
  | settles l o r hp hl => exact fun hw => hw.2 ⟨l, r, List.mem_append_right _ (.head _)⟩
  | answers m hs =>
    have h' : p.Told (tr ++ [.did k ⟨.reply m, ()⟩]) k := (told_concat (by simp) (by simp)).mpr h
    exact h'.notAtWork (by rintro rfl; cases hs)

theorem Tended.exec (h : Tended tr s ctx n) (hi : ctx[i]? = some a) (hn : a.next c r = some a')
    (he : c.exec server.workspace server.sha256 ch s = some (r, s')) :
    Tended (tr ++ [.did (n + i) ⟨c, r⟩]) s' (ctx.set i a') n := by
  obtain ⟨hreq, hproc⟩ := proceeds_of_next hn
  constructor
  case since => exact h.since.exec hi hreq _
  case exclusive => exact h.exclusive.exec hi hn he
  case told =>
    intro j b hj
    rcases Machine.getElem?_set_cases hj with ⟨rfl, rfl⟩ | ⟨hne, hj'⟩
    · exact told_next (h.told j a hi) hn
    · refine (told_concat (fun id op heq => ?_) fun l r' heq => ?_).mpr (h.told j b hj')
      · have := (Machine.Moment.did.inj heq).1
        omega
      · have := (Machine.Moment.did.inj heq).1
        omega
  case work =>
    refine h.work.concat (by simp) ?_
    rintro j c' r' ⟨⟩ hc q hq hp
    have ha := h.since.request i a q hi hq
    have hmay : a.mayWork = true := by
      rw [a.next_work hc] at hn
      exact (Option.ite_none_right_eq_some.mp hn).1
    have hpart : a.part = .working := by
      simpa [Attempt.mayWork, ha, hp] using hmay
    have := h.told i a hi
    rw [hpart] at this
    exact this

theorem Tended.spawn (h : Tended tr s ctx n) (q : Request) :
    Tended (tr ++ [.spawned (n + ctx.length) q]) s (ctx ++ [⟨q, .asking⟩]) n := by
  have hnew : ∀ e, .did (n + ctx.length) e ∉ tr := fun e he => Nat.lt_irrefl _ (h.since.did _ e he)
  constructor
  case since => exact h.since.spawn q
  case exclusive => exact h.exclusive.spawn q
  case told =>
    intro j b hj
    refine (told_concat (by simp) (by simp)).mpr ?_
    rcases Machine.getElem?_concat_cases hj with ⟨rfl, rfl⟩ | hj'
    · constructor
      · rintro ⟨id, op, hc⟩
        exact hnew _ hc
      · rintro ⟨l, r, hc⟩
        exact hnew _ hc
    · exact h.told j b hj'
  case work =>
    refine h.work.concat ?_ (by simp)
    rintro j e q' ⟨⟩
    exact hnew e

theorem Untended.of_between {f : ServerFiles} (h : Since 0 tr ctx n) (hw : WorkClaimed tr)
    (hs : ∀ k q, x ≠ .spawned k q) (hd : ∀ k e, x ≠ .did k e) : Untended (tr ++ [x]) f (n + ctx.length) :=
  ⟨h.between hs hd, hw.concat (fun j _ q hx => absurd hx (hs j q)) fun j _ _ hx => absurd hx (hd j _)⟩

end

theorem server_tends : Machine.Tells (M := server.machine) Attempt.next (fun q => ⟨q, .asking⟩)
    (fun a => ∃ m, a.part = .answered m) (fun _ _ => true) Tended Untended where
  prog q := (attempts_handle server q).mono fun _ _ h => h.2
  spawn := fun _ h => h.spawn _
  exec := fun _ h hi hn he => h.exec hi hn he
  crash := fun _ h _ _ => .of_between h.since h.work (by simp) (by simp)
  bootUp := by
    intro tr f s b n _ h _
    have hb : Untended (tr ++ [.started s]) f (n + 0) := .of_between h.since h.work (by simp) (by simp)
    refine ⟨hb.since, .nil _, ?_, hb.work⟩
    intro i a hi
    cases hi
  bootDown := fun _ h _ => .of_between h.since h.work (by simp) (by simp)
  envUp := fun _ h => ⟨h.since, h.exclusive, h.told, h.work⟩
  envDown := fun _ h => ⟨h.since, h.work⟩

theorem tended_of_fresh {t : Tree} {us : Uploads} {w : server.machine.World}
    (h : Machine.History (fun _ _ => true) (server.fresh t us) tr w) :
    Machine.Told Attempt.next (fun a => ∃ m, a.part = .answered m) Tended Untended tr w := by
  refine Machine.told_of_history server_tends ?_ h
  refine ⟨.nil (Nat.le_refl 0) (by simp) (by simp), ?_⟩
  intro pre k c r post heq
  simp at heq

/-- At no moment of any run are two handlers of one request at work, whatever
fails and whatever is pruned; and what the handler of a request that goes through
the table does beside looking it up, claiming it and answering, it does between its
claim, which returned that the request is new, and the append that concludes it. -/
theorem one_at_work {t : Tree} {us : Uploads} {w : server.machine.World}
    (h : Machine.History (fun _ _ => true) (server.fresh t us) tr w) :
    (∀ s ts n, w = .up s ts n → ∀ j k q q', n ≤ j → n ≤ k → .spawned j q ∈ tr → .spawned k q' ∈ tr →
      q.requestId = q'.requestId → AtWork tr j → AtWork tr k → j = k) ∧
    ∀ pre k c r post, tr = pre ++ .did k ⟨c, r⟩ :: post → c.ofWork = true →
      ∀ q, .spawned k q ∈ tr → q.body.persisted = true → AtWork pre k := by
  have hw := tended_of_fresh h
  cases w with
  | down d n =>
    refine ⟨fun s ts n hup => ?_, hw.work⟩
    cases hup
  | up s ts n =>
    obtain ⟨ctx, ht, -⟩ := hw
    refine ⟨?_, ht.work⟩
    rintro _ _ _ ⟨⟩ j k q q' hj hk hq hq' hid hwj hwk
    have hat : ∀ j q, n ≤ j → .spawned j q ∈ tr → AtWork tr j →
        ∃ a, ctx[j - n]? = some a ∧ a.request = q ∧ a.part = .working := by
      intro j q hj hq hwj
      have hlt : j - n < ctx.length := by
        have := (ht.since.spawned j q hq).2
        omega
      have hsum : n + (j - n) = j := by omega
      refine ⟨ctx[j - n], List.getElem?_eq_getElem hlt, ?_, ?_⟩
      · exact ht.since.request (j - n) _ q (List.getElem?_eq_getElem hlt) (hsum.symm ▸ hq)
      · have htold := ht.told (j - n) _ (List.getElem?_eq_getElem hlt)
        rw [hsum] at htold
        by_contra hne
        exact htold.notAtWork hne hwj
    obtain ⟨a, ha, rfl, hap⟩ := hat j q hj hq hwj
    obtain ⟨b, hb, rfl, hbp⟩ := hat k q' hk hq' hwk
    have := ht.exclusive.alone _ _ a b ha hb hap hbp hid
    omega

theorem one_at_work_downloadTold :
    ∃ tr w, Machine.History (fun _ _ => true) (homeServer.fresh homeTree []) tr w ∧ tr ≠ [] ∧
      ∀ pre k c r post, tr = pre ++ .did k ⟨c, r⟩ :: post → c.ofWork = true →
        ∀ q, .spawned k q ∈ tr → q.body.persisted = true → AtWork pre k := by
  have h : ((Machine.historyOf (fun _ _ => true) (homeServer.fresh homeTree []) unsyncedResult).map
      fun p => p.1.isEmpty) = some false := by decide +kernel
  obtain ⟨⟨tr, w⟩, hrun, hne⟩ := Option.map_eq_some_iff.mp h
  have hhist := Machine.History.init.append hrun
  refine ⟨tr, w, hhist, ?_, (one_at_work hhist).2⟩
  rintro rfl
  cases hne

/-! ## One result -/

/-- The table has this result for the request. -/
def Fixed (qs : Requests) (id : String) (m : ServerMessage) : Prop :=
  ∃ e, qs.lookup id = some e ∧ e.result = some (.done m)

theorem Fixed.eq {qs : Requests} {id : String} {m m' : ServerMessage} (h : Fixed qs id m) (h' : Fixed qs id m') :
    m = m' := by
  obtain ⟨e, he, hm⟩ := h
  obtain ⟨e', he', hm'⟩ := h'
  rw [he] at he'
  cases he'
  rw [hm] at hm'
  cases hm'
  rfl

/-- What happens to the table while nothing is pruned: an entry is added where
there was none, or the one of the request that works concluded. -/
inductive TableStep (a : Attempt) (qs qs' : Requests) : Prop where
  | same (h : qs' = qs)
  | added (op : String) (hnone : qs.lookup a.request.requestId = none)
      (h : qs' = qs.insert a.request.requestId (.inProgress op))
  | concluded (l : RequestLogLine) (o : Option ServerMessage) (hp : a.part = .working)
      (hl : terminalOf a.request l = some o) (h : qs' = qs.insert a.request.requestId l.entry)

section

variable {s s' : ServerState} {ctx : List Attempt} {n i : Nat} {a a' : Attempt} {c : ServerCmd} {ch : ServerChoice}
  {r : c.Result} {id : String} {m : ServerMessage}

theorem tableStep_of_exec (hn : a.next c r = some a') (hc : ∀ keep, c ≠ .store (.prune keep))
    (he : c.exec server.workspace server.sha256 ch s = some (r, s')) :
    TableStep a s.store.requests s'.store.requests := by
  obtain ⟨hreq, hproc⟩ := proceeds_of_next hn
  obtain ⟨q', p'⟩ := a'
  cases hproc with
  | works c r hw hmay =>
    rcases requests_of_work hw he with hqs | ⟨⟨keep, hk⟩, -⟩
    · exact .same hqs
    · exact absurd hk (hc keep)
  | looks r hp hq => exact .same (requests_of_lookup he).2
  | claims r hp =>
    rcases requests_of_claim he with ⟨e, -, -, hqs⟩ | ⟨hnone, ⟨-, hqs⟩ | ⟨-, hqs⟩⟩
    · exact .same hqs
    · exact .added _ hnone hqs
    · exact .same hqs
  | settles l o r hp hl =>
    rcases requests_of_terminal he with ⟨-, hqs⟩ | ⟨-, hqs⟩
    · exact .concluded l o hp hl (by rw [hqs, requestId_of_terminalOf hl])
    · exact .same hqs
  | answers m hs => exact .same (congrArg OperationStore.requests (store_of_other (by simp) he))

/-- An entry leaves the table by a prune only. -/
theorem TableStep.isSome {qs qs' : Requests} (h : TableStep a qs qs') (hid : (qs.lookup id).isSome = true) :
    (qs'.lookup id).isSome = true := by
  cases h with
  | same h => rwa [h]
  | added op hnone h =>
    rw [h, Requests.lookup_insert]
    split
    · rfl
    · exact hid
  | concluded l o hp hl h =>
    rw [h, Requests.lookup_insert]
    split
    · rfl
    · exact hid

/-- A result in the table stays: no one works at a request that has one. -/
theorem TableStep.fixed {qs qs' : Requests} (h : TableStep a qs qs') (hx : Exclusive qs ctx) (hi : ctx[i]? = some a)
    (hf : Fixed qs id m) : Fixed qs' id m := by
  obtain ⟨e, he, hm⟩ := hf
  refine ⟨e, ?_, hm⟩
  cases h with
  | same h => rwa [h]
  | added op hnone h =>
    rw [h, Requests.lookup_insert, if_neg]
    · exact he
    · rintro rfl
      rw [hnone] at he
      cases he
  | concluded l o hp hl h =>
    rw [h, Requests.lookup_insert, if_neg]
    · exact he
    · rintro rfl
      rw [hx.entry i a hi hp] at he
      cases he
      cases hm

end

/-- A stretch of a history within a session in which nothing is pruned. -/
def Undisturbed (tr : List server.Moment) : Prop :=
  ∀ x ∈ tr, (∀ s, x ≠ .started s) ∧ ∀ k keep r, x ≠ .did k ⟨.store (.prune keep), r⟩

theorem Undisturbed.left {tr tr' : List server.Moment} (h : Undisturbed (tr ++ tr')) : Undisturbed tr :=
  fun x hx => h x (List.mem_append_left _ hx)

theorem Undisturbed.right {tr tr' : List server.Moment} (h : Undisturbed (tr ++ tr')) : Undisturbed tr' :=
  fun x hx => h x (List.mem_append_right _ hx)

/-- The handlers of these moments that were started in them, for a request of
the table. -/
def Asked (tr : List server.Moment) (k : Nat) (id : String) : Prop :=
  ∃ q, .spawned k q ∈ tr ∧ q.body.persisted = true ∧ q.requestId = id

/-- It did something other than to look the request up, to claim it, to conclude
it or to answer. -/
def Worked (tr : List server.Moment) (k : Nat) : Prop := ∃ c r, .did k ⟨c, r⟩ ∈ tr ∧ c.ofWork = true

/-- It answered with this result. -/
def ResultSaid (tr : List server.Moment) (k : Nat) (m : ServerMessage) : Prop :=
  .did k ⟨.reply m, ()⟩ ∈ tr ∧ ∃ id body, m = .result id body

/-- The result that the answer will be, unless it is an error. -/
def Part.Knows (p : Part) (m : ServerMessage) : Prop :=
  (∃ e, p = .found e ∧ e.result = some (.done m)) ∨ p = .settled (some m)

/-- A request of the table is answered with a result only where that is known. -/
theorem knows_of_tells {q : Request} {p : Part} (hp : q.body.persisted = true) {id : String} {body : ResultBody}
    (h : p.tells q (.result id body) = true) : p.Knows (.result id body) := by
  cases p with
  | asking => simp [Part.tells, hp] at h
  | missed => cases h
  | found e =>
    have heq : .result id body = answerOf q.requestId e := of_decide_eq_true h
    unfold answerOf at heq
    split at heq
    · rename_i m hm
      exact .inl ⟨e, rfl, heq ▸ hm⟩
    · cases heq
    · cases heq
  | working => cases h
  | settled o =>
    cases o with
    | none => cases h
    | some m => exact .inr (by rw [of_decide_eq_true h])
  | answered m => cases h

/-- What is so in a stretch in which nothing is pruned: all results for a
request are the same, and at most one of its handlers works. -/
structure Consistent (tr : List server.Moment) : Prop where
  result : ∀ j k id, Asked tr j id → Asked tr k id → ∀ m m', ResultSaid tr j m → ResultSaid tr k m' → m = m'
  worker : ∀ j k id, Asked tr j id → Asked tr k id → Worked tr j → Worked tr k → j = k

/-- The results that were said are in the table, and the requests that were
claimed too. -/
structure Agreeing (N : Nat) (tr : List server.Moment) (s : ServerState) (ctx : List Attempt) (n : Nat) : Prop where
  since : Since N tr ctx n
  exclusive : Exclusive s.store.requests ctx
  known : ∀ (i : Nat) (a : Attempt), ctx[i]? = some a → N ≤ n + i → ∀ m, a.part.Knows m →
    Fixed s.store.requests a.request.requestId m
  working : ∀ (i : Nat) (a : Attempt), ctx[i]? = some a → N ≤ n + i → a.part = .working →
    ∃ op, .did (n + i) ⟨.store (.claim a.request.requestId op), .ok none⟩ ∈ tr
  said : ∀ k id, Asked tr k id → ∀ m, ResultSaid tr k m → Fixed s.store.requests id m
  worked : ∀ k id, Asked tr k id → Worked tr k → ∃ op, .did k ⟨.store (.claim id op), .ok none⟩ ∈ tr
  claimed : ∀ k id op, .did k ⟨.store (.claim id op), .ok none⟩ ∈ tr → (s.store.requests.lookup id).isSome = true
  once : ∀ j k id op op', .did j ⟨.store (.claim id op), .ok none⟩ ∈ tr →
    .did k ⟨.store (.claim id op'), .ok none⟩ ∈ tr → j = k

section

variable {N n i k : Nat} {tr : List server.Moment} {s s' : ServerState} {ctx : List Attempt} {a a' : Attempt}
  {c : ServerCmd} {ch : ServerChoice} {r : c.Result} {id : String} {m : ServerMessage} {x : server.Moment}

theorem Agreeing.consistent (h : Agreeing N tr s ctx n) : Consistent tr := by
  constructor
  case result =>
    intro j k id hj hk m m' hm hm'
    exact (h.said j id hj m hm).eq (h.said k id hk m' hm')
  case worker =>
    intro j k id hj hk hwj hwk
    obtain ⟨op, hop⟩ := h.worked j id hj hwj
    obtain ⟨op', hop'⟩ := h.worked k id hk hwk
    exact h.once j k id op op' hop hop'

theorem asked_concat (h : ∀ q, x ≠ .spawned k q) : Asked (tr ++ [x]) k id ↔ Asked tr k id := by
  simp only [Asked, List.mem_append, List.mem_singleton]
  constructor
  · rintro ⟨q, hq | hq, hrest⟩
    · exact ⟨q, hq, hrest⟩
    · exact absurd hq.symm (h q)
  · rintro ⟨q, hq, hrest⟩
    exact ⟨q, .inl hq, hrest⟩

theorem worked_concat (h : ∀ c r, x = .did k ⟨c, r⟩ → c.ofWork = false) : Worked (tr ++ [x]) k ↔ Worked tr k := by
  simp only [Worked, List.mem_append, List.mem_singleton]
  constructor
  · rintro ⟨c, r, hc | hc, hw⟩
    · exact ⟨c, r, hc, hw⟩
    · rw [h c r hc.symm] at hw
      cases hw
  · rintro ⟨c, r, hc, hw⟩
    exact ⟨c, r, .inl hc, hw⟩

theorem resultSaid_concat (h : x ≠ .did k ⟨.reply m, ()⟩) : ResultSaid (tr ++ [x]) k m ↔ ResultSaid tr k m := by
  simp only [ResultSaid, List.mem_append, List.mem_singleton]
  constructor
  · rintro ⟨hm | hm, hr⟩
    · exact ⟨hm, hr⟩
    · exact absurd hm.symm h
  · rintro ⟨hm, hr⟩
    exact ⟨.inl hm, hr⟩

/-- A moment of no handler. -/
theorem Consistent.between (h : Consistent tr) (hs : ∀ k q, x ≠ .spawned k q) (hd : ∀ k e, x ≠ .did k e) :
    Consistent (tr ++ [x]) := by
  constructor
  case result =>
    intro j k id hj hk m m' hm hm'
    exact h.result j k id ((asked_concat (hs j)).mp hj) ((asked_concat (hs k)).mp hk) m m'
      ((resultSaid_concat (hd j _)).mp hm) ((resultSaid_concat (hd k _)).mp hm')
  case worker =>
    intro j k id hj hk hwj hwk
    exact h.worker j k id ((asked_concat (hs j)).mp hj) ((asked_concat (hs k)).mp hk)
      ((worked_concat fun c r hx => absurd hx (hd j _)).mp hwj) ((worked_concat fun c r hx => absurd hx (hd k _)).mp hwk)

/-- A handler that was started in the stretch is among those since. -/
theorem Since.asked (h : Since N tr ctx n) (hk : Asked tr (n + i) id) (hi : ctx[i]? = some a) :
    N ≤ n + i ∧ a.request.requestId = id ∧ a.request.body.persisted = true := by
  obtain ⟨q, hq, hp, hid⟩ := hk
  rw [h.request i a q hi hq]
  exact ⟨(h.spawned _ q hq).1, hid, hp⟩

theorem Agreeing.spawn (h : Agreeing N tr s ctx n) (q : Request) :
    Agreeing N (tr ++ [.spawned (n + ctx.length) q]) s (ctx ++ [⟨q, .asking⟩]) n := by
  have hnew : ∀ e, .did (n + ctx.length) e ∉ tr := fun e he => Nat.lt_irrefl _ (h.since.did _ e he)
  have hdid : ∀ k e, .did k e ∈ tr ++ [.spawned (n + ctx.length) q] → .did k e ∈ tr := by
    intro k e hk
    rcases List.mem_append.mp hk with hk | hk
    · exact hk
    · cases List.mem_singleton.mp hk
  have hasked : ∀ k id e, .did k e ∈ tr → Asked (tr ++ [.spawned (n + ctx.length) q]) k id → Asked tr k id := by
    intro k id e he hk
    refine (asked_concat ?_).mp hk
    rintro q' ⟨⟩
    exact hnew e he
  constructor
  case since => exact h.since.spawn q
  case exclusive => exact h.exclusive.spawn q
  case known =>
    intro i a hi hN m hm
    rcases Machine.getElem?_concat_cases hi with ⟨rfl, rfl⟩ | hi'
    · rcases hm with ⟨e, he, -⟩ | he <;> cases he
    · exact h.known i a hi' hN m hm
  case working =>
    intro i a hi hN hp
    rcases Machine.getElem?_concat_cases hi with ⟨rfl, rfl⟩ | hi'
    · cases hp
    · obtain ⟨op, hop⟩ := h.working i a hi' hN hp
      exact ⟨op, List.mem_append_left _ hop⟩
  case said =>
    intro k id hk m hm
    have hm' := (resultSaid_concat (by simp)).mp hm
    exact h.said k id (hasked k id _ hm'.1 hk) m hm'
  case worked =>
    intro k id hk hw
    have hw' := (worked_concat (by simp)).mp hw
    have hk' : Asked tr k id := by
      obtain ⟨c, r, hc, -⟩ := hw'
      exact hasked k id _ hc hk
    obtain ⟨op, hop⟩ := h.worked k id hk' hw'
    exact ⟨op, List.mem_append_left _ hop⟩
  case claimed =>
    intro k id op hk
    exact h.claimed k id op (hdid _ _ hk)
  case once =>
    intro j k id op op' hj hk
    exact h.once j k id op op' (hdid _ _ hj) (hdid _ _ hk)

/-- What a handler knows after a command of its own is in the table. -/
theorem known_next (hx : Exclusive s.store.requests ctx) (hi : ctx[i]? = some a) (hc : ∀ keep, c ≠ .store (.prune keep))
    (hknown : ∀ m, a.part.Knows m → Fixed s.store.requests a.request.requestId m) (hn : a.next c r = some a')
    (he : c.exec server.workspace server.sha256 ch s = some (r, s')) (hm : a'.part.Knows m) :
    Fixed s'.store.requests a.request.requestId m := by
  have hstep := tableStep_of_exec hn hc he
  obtain ⟨hreq, hproc⟩ := proceeds_of_next hn
  obtain ⟨q', p'⟩ := a'
  cases hproc with
  | works c r hw hmay => exact hstep.fixed hx hi (hknown m hm)
  | looks r hp hq =>
    obtain ⟨hl, hqs⟩ := requests_of_lookup he
    rcases hm with ⟨e, hpe, hres⟩ | hpe
    · cases r with
      | none => cases hpe
      | some e' =>
        obtain rfl := Part.found.inj hpe
        exact ⟨e', hqs ▸ hl, hres⟩
    · cases r <;> cases hpe
  | claims r hp =>
    rcases requests_of_claim he with ⟨e', rfl, hl, hqs⟩ | ⟨-, ⟨rfl, -⟩ | ⟨⟨e', rfl⟩, -⟩⟩
    · rcases hm with ⟨e, hpe, hres⟩ | hpe
      · cases hpe
        exact ⟨e', hqs ▸ hl, hres⟩
      · cases hpe
    · rcases hm with ⟨e, hpe, -⟩ | hpe <;> cases hpe
    · rcases hm with ⟨e, hpe, -⟩ | hpe <;> cases hpe
  | settles l o r hp hl =>
    rcases hm with ⟨e, hpe, -⟩ | hpe
    · cases hpe
    · have ho := Part.settled.inj hpe
      rcases requests_of_terminal he with ⟨hr, hqs⟩ | ⟨hr, -⟩
      · rw [if_pos hr] at ho
        subst ho
        obtain ⟨rfl, -⟩ := eq_of_terminalOf hl
        refine ⟨.ofResult m, ?_, rfl⟩
        rw [hqs]
        exact (Requests.lookup_insert _ _ _ _).trans ((if_pos rfl).trans (congrArg some (RequestEntry.entry_line _ _)))
      · rw [if_neg hr] at ho
        cases ho
  | answers m' hs => rcases hm with ⟨e, hpe, -⟩ | hpe <;> cases hpe

theorem Agreeing.exec (h : Agreeing N tr s ctx n) (hi : ctx[i]? = some a) (hc : ∀ keep, c ≠ .store (.prune keep))
    (hn : a.next c r = some a') (he : c.exec server.workspace server.sha256 ch s = some (r, s')) :
    Agreeing N (tr ++ [.did (n + i) ⟨c, r⟩]) s' (ctx.set i a') n := by
  have hstep := tableStep_of_exec hn hc he
  obtain ⟨hreq, hproc⟩ := proceeds_of_next hn
  have hasked : ∀ {k id}, Asked (tr ++ [.did (n + i) ⟨c, r⟩]) k id → Asked tr k id := (asked_concat (by simp)).mp
  have hmine : ∀ {id}, Asked tr (n + i) id → N ≤ n + i ∧ a.request.requestId = id ∧ a.request.body.persisted = true :=
    fun hk => h.since.asked hk hi
  constructor
  case since => exact h.since.exec hi hreq _
  case exclusive => exact h.exclusive.exec hi hn he
  case known =>
    intro j b hj hN m hm
    rcases Machine.getElem?_set_cases hj with ⟨rfl, rfl⟩ | ⟨-, hj'⟩
    · rw [hreq]
      exact known_next h.exclusive hi hc (h.known j a hi hN) hn he hm
    · exact hstep.fixed h.exclusive hi (h.known j b hj' hN m hm)
  case working =>
    intro j b hj hN hp
    rcases Machine.getElem?_set_cases hj with ⟨rfl, rfl⟩ | ⟨-, hj'⟩
    · rw [hreq]
      rw [hp] at hproc
      generalize hwork : Part.working = p at hproc
      cases hproc with
      | works c r hw hmay =>
        obtain ⟨op, hop⟩ := h.working j a hi hN hwork.symm
        exact ⟨op, List.mem_append_left _ hop⟩
      | looks r hp hq => cases r <;> cases hwork
      | claims r hp =>
        rcases r with e | _ | e
        · cases hwork
        · exact ⟨_, List.mem_append_right _ (.head _)⟩
        · cases hwork
      | settles l o r hp hl => cases hwork
      | answers m hs => cases hwork
    · obtain ⟨op, hop⟩ := h.working j b hj' hN hp
      exact ⟨op, List.mem_append_left _ hop⟩
  case said =>
    intro k id hk' m hm
    have hk := hasked hk'
    obtain ⟨hm | hm, id', body, rfl⟩ : (_ ∨ _) ∧ _ := ⟨List.mem_append.mp hm.1, hm.2⟩
    · exact hstep.fixed h.exclusive hi (h.said k id hk _ ⟨hm, id', body, rfl⟩)
    · obtain ⟨rfl, heq⟩ := Machine.Moment.did.inj (List.mem_singleton.mp hm)
      cases heq
      obtain ⟨hN, rfl, hp⟩ := hmine hk
      rw [Attempt.next_reply] at hn
      obtain ⟨hs, -⟩ := Option.ite_none_right_eq_some.mp hn
      exact hstep.fixed h.exclusive hi (h.known i a hi hN _ (knows_of_tells hp hs))
  case worked =>
    intro k id hk' hw
    have hk := hasked hk'
    obtain ⟨c', r', hd, hw⟩ := hw
    rcases List.mem_append.mp hd with hd | hd
    · obtain ⟨op, hop⟩ := h.worked k id hk ⟨c', r', hd, hw⟩
      exact ⟨op, List.mem_append_left _ hop⟩
    · obtain ⟨rfl, heq⟩ := Machine.Moment.did.inj (List.mem_singleton.mp hd)
      cases heq
      obtain ⟨hN, rfl, hp⟩ := hmine hk
      rw [a.next_work hw] at hn
      obtain ⟨hmay, -⟩ := Option.ite_none_right_eq_some.mp hn
      obtain ⟨op, hop⟩ := h.working i a hi hN (by simpa [Attempt.mayWork, hp] using hmay)
      exact ⟨op, List.mem_append_left _ hop⟩
  case claimed =>
    intro k id op hk
    rcases List.mem_append.mp hk with hk | hk
    · exact hstep.isSome (h.claimed k id op hk)
    · obtain ⟨rfl, heq⟩ := Machine.Moment.did.inj (List.mem_singleton.mp hk)
      cases heq
      rcases requests_of_claim he with ⟨e', hr, -⟩ | ⟨-, ⟨-, hqs⟩ | ⟨⟨e', hr⟩, -⟩⟩
      · cases hr
      · rw [hqs, Requests.lookup_insert, if_pos rfl]
        rfl
      · cases hr
  case once =>
    have hnew : ∀ j id op op', .did j ⟨.store (.claim id op), .ok none⟩ ∈ tr →
        (.did (n + i) ⟨c, r⟩ : server.Moment) ≠ .did (n + i) ⟨.store (.claim id op'), .ok none⟩ := by
      intro j id op op' hj heq
      cases (Machine.Moment.did.inj heq).2
      have hsome := h.claimed j id op hj
      rcases requests_of_claim he with ⟨e', hr, -⟩ | ⟨hnone, -⟩
      · cases hr
      · rw [hnone] at hsome
        cases hsome
    intro j k id op op' hj hk
    rcases List.mem_append.mp hj with hj | hj
    · rcases List.mem_append.mp hk with hk | hk
      · exact h.once j k id op op' hj hk
      · have hk := List.mem_singleton.mp hk
        obtain ⟨rfl, -⟩ := Machine.Moment.did.inj hk
        exact absurd hk.symm (hnew j id op op' hj)
    · have hj := List.mem_singleton.mp hj
      obtain ⟨rfl, -⟩ := Machine.Moment.did.inj hj
      rcases List.mem_append.mp hk with hk | hk
      · exact absurd hj.symm (hnew k id op' op hk)
      · exact (Machine.Moment.did.inj (List.mem_singleton.mp hk)).1.symm

theorem disturbed_of_prune {keep : Nat} {r : Except ProtocolError PruneStats}
    (h : Undisturbed (tr ++ [.did k ⟨.store (.prune keep), r⟩])) : False :=
  (h _ (List.mem_append_right _ (.head _))).2 k keep r rfl

/-- An undisturbed stretch stays consistent. -/
theorem server_agrees (server : Server) (N : Nat) :
    Machine.Tells (M := server.machine) Attempt.next (fun q => ⟨q, .asking⟩) (fun a => ∃ m, a.part = .answered m)
      (fun _ _ => true) (fun tr s ctx n => Undisturbed tr → Agreeing N tr s ctx n)
      (fun tr _ _ => Undisturbed tr → Consistent tr) where
  prog q := (attempts_handle server q).mono fun _ _ h => h.2
  spawn := fun _ h hu => (h hu.left).spawn _
  exec := by
    intro tr s s' ts ctx n i c ch r a a' _ h hi hn he hu
    refine (h hu.left).exec hi ?_ hn he
    rintro keep rfl
    exact disturbed_of_prune hu
  crash := fun _ h _ _ hu => (h hu.left).consistent.between (by simp) (by simp)
  bootUp := fun _ _ _ hu => absurd rfl ((hu _ (List.mem_append_right _ (.head _))).1 _)
  bootDown := fun _ h _ hu => (h hu.left).between (by simp) (by simp)
  envUp := by
    intro tr s ts ctx n e _ h hu
    have h := h hu
    exact ⟨h.since, h.exclusive, h.known, h.working, h.said, h.worked, h.claimed, h.once⟩
  envDown := fun _ h => h

variable {t : Tree} {us : Uploads} {w : server.machine.World} {pre seg : List server.Moment}

/-- A world after an undisturbed stretch. -/
def AgreesIn (N : Nat) (tr : List server.Moment) (w : server.machine.World) : Prop :=
  Machine.Told Attempt.next (fun a => ∃ m, a.part = .answered m) (fun tr s ctx n => Undisturbed tr → Agreeing N tr s ctx n)
    (fun tr _ _ => Undisturbed tr → Consistent tr) tr w

/-- Where a stretch of a history begins, and what holds after it. -/
theorem agrees_of_history (h : Machine.History (fun _ _ => true) (server.fresh t us) (pre ++ seg) w) :
    ∃ N, AgreesIn N seg w := by
  obtain ⟨w₁, h₁, h₂⟩ := h.split
  suffices h₀ : ∃ N, AgreesIn N [] w₁ by
    obtain ⟨N, h₀⟩ := h₀
    exact ⟨N, Machine.told_of_history (server_agrees server N) h₀ h₂⟩
  have ht := tended_of_fresh h₁
  cases w₁ with
  | down d n =>
    refine ⟨0, fun _ => ?_⟩
    constructor
    · rintro j k id ⟨q, hq, -⟩
      cases hq
    · rintro j k id ⟨q, hq, -⟩
      cases hq
  | up s ts n =>
    obtain ⟨ctx, ht, hconf⟩ := ht
    refine ⟨n + ctx.length, ctx, fun _ => ?_, hconf⟩
    have hold : ∀ (i : Nat) (a : Attempt), ctx[i]? = some a → ¬ n + ctx.length ≤ n + i := by
      intro i a hi hN
      have := (List.getElem?_eq_some_iff.mp hi).1
      omega
    constructor
    case since => exact ⟨Nat.le_refl _, by simp, by simp, by simp⟩
    case exclusive => exact ht.exclusive
    case known => exact fun i a hi hN => absurd hN (hold i a hi)
    case working => exact fun i a hi hN => absurd hN (hold i a hi)
    case said =>
      rintro k id ⟨q, hq, -⟩
      cases hq
    case worked =>
      rintro k id ⟨q, hq, -⟩
      cases hq
    case claimed => simp
    case once => simp

end

/-- A request that goes through the table is carried out by one handler: in any
stretch of a run, within a session and without a prune, of the handlers started for
it at most one does any work, and all that answer with a result answer with the
same. -/
theorem one_result {t : Tree} {us : Uploads} {w : server.machine.World} {pre seg : List server.Moment}
    (h : Machine.History (fun _ _ => true) (server.fresh t us) (pre ++ seg) w) (hu : Undisturbed seg) :
    (∀ j k id, Asked seg j id → Asked seg k id → Worked seg j → Worked seg k → j = k) ∧
      ∀ j k id, Asked seg j id → Asked seg k id → ∀ m m', ResultSaid seg j m → ResultSaid seg k m' → m = m' := by
  obtain ⟨N, ht⟩ := agrees_of_history h
  have hc : Consistent seg := by
    cases w with
    | down d n => exact ht hu
    | up s ts n =>
      obtain ⟨ctx, hJ, -⟩ := ht
      exact (hJ hu).consistent
  exact ⟨hc.worker, hc.result⟩

/-! Two handlers of one request side by side: the second finds it claimed. -/

def sameRequest (q q' : Request) : Bool := q = q'

/-- Whether the `k`-th handler was started for `q` here. -/
def isSpawn (k : Nat) (q : Request) : homeServer.Moment → Bool
  | .spawned j q' => j = k && sameRequest q q'
  | _ => false

theorem mem_of_isSpawn {tr : List homeServer.Moment} {k : Nat} {q : Request} (h : tr.any (isSpawn k q) = true) :
    .spawned k q ∈ tr := by
  obtain ⟨x, hx, hs⟩ := List.any_eq_true.mp h
  unfold isSpawn at hs
  split at hs
  · simp only [Bool.and_eq_true, sameRequest, decide_eq_true_eq] at hs
    obtain ⟨rfl, rfl⟩ := hs
    exact hx
  · cases hs

/-- Whether the `k`-th handler answered with a result here. -/
def saysResult (k : Nat) : homeServer.Moment → Bool
  | .did j ⟨.reply (.result _ _), _⟩ => j = k
  | _ => false

theorem mem_of_saysResult {tr : List homeServer.Moment} {k : Nat} (h : tr.any (saysResult k) = true) :
    ∃ m, ResultSaid tr k m := by
  obtain ⟨x, hx, hs⟩ := List.any_eq_true.mp h
  unfold saysResult at hs
  split at hs
  · rename_i j id body u
    have hj : j = k := of_decide_eq_true hs
    subst hj
    exact ⟨_, hx, id, body, rfl⟩
  · cases hs

/-- Whether a moment ends an undisturbed stretch. -/
def disturbs : homeServer.Moment → Bool
  | .started _ => true
  | .did _ ⟨.store (.prune _), _⟩ => true
  | _ => false

theorem undisturbed_of_all {tr : List homeServer.Moment} (h : (tr.all fun x => !disturbs x) = true) : Undisturbed tr := by
  intro x hx
  have hd := List.all_eq_true.mp h x hx
  constructor
  · rintro s rfl
    cases hd
  · rintro k keep r rfl
    cases hd

def sideBySide : List homeServer.machine.Label :=
  [.spawn downloadTold, .spawn downloadTold, .step 1 steady] ++ stepsOf 0 (List.replicate 2 steady) ++
    stepsOf 1 (List.replicate 2 steady) ++ stepsOf 0 (List.replicate 8 steady)

theorem run_sideBySide : ∃ pre seg w, Machine.History (fun _ _ => true) (homeServer.fresh homeTree []) (pre ++ seg) w ∧
    Undisturbed seg ∧ Asked seg 0 "r" ∧ Asked seg 1 "r" ∧ ∃ m, ResultSaid seg 0 m := by
  have h : ((Machine.historyOf (fun _ _ => true) (homeServer.fresh homeTree []) [.boot { start := plainStart }]).bind
      fun p => (Machine.historyOf (fun _ _ => true) p.2 sideBySide).map fun p' =>
        (p'.1.all (fun x => !disturbs x) && p'.1.any (isSpawn 0 downloadTold)) &&
          (p'.1.any (isSpawn 1 downloadTold) && p'.1.any (saysResult 0))) = some true := by decide +kernel
  obtain ⟨⟨pre, w₁⟩, h₁, h⟩ := Option.bind_eq_some_iff.mp h
  obtain ⟨⟨seg, w⟩, h₂, h⟩ := Option.map_eq_some_iff.mp h
  simp only [Bool.and_eq_true] at h
  obtain ⟨⟨hall, hask₀⟩, hask₁, htells⟩ := h
  exact ⟨pre, seg, w, (Machine.History.init.append h₁).append h₂, undisturbed_of_all hall,
    ⟨_, mem_of_isSpawn hask₀, rfl, rfl⟩, ⟨_, mem_of_isSpawn hask₁, rfl, rfl⟩, mem_of_saysResult htells⟩

theorem one_result_sideBySide : ∃ pre seg w,
    Machine.History (fun _ _ => true) (homeServer.fresh homeTree []) (pre ++ seg) w ∧
      ∃ m, ResultSaid seg 0 m ∧ ∀ m', ResultSaid seg 1 m' → m = m' := by
  obtain ⟨pre, seg, w, h, hu, hask₀, hask₁, m, hm⟩ := run_sideBySide
  exact ⟨pre, seg, w, h, m, hm, fun m' hm' => (one_result h hu).2 0 1 "r" hask₀ hask₁ m m' hm hm'⟩

/-! ## Retries -/

/-- Handlers started for a request that has its result: they look it up, and
answer with it. -/
def Replays (id : String) (m : ServerMessage) (tr : List server.Moment) : Prop :=
  ∀ k, Asked tr k id → ∀ c r, .did k ⟨c, r⟩ ∈ tr → c = .store (.lookupRequest id) ∨ c = .reply m

/-- How far such a handler may be. -/
def Part.Replaying (m : ServerMessage) (p : Part) : Prop :=
  p = .asking ∨ (∃ e, p = .found e ∧ e.result = some (.done m)) ∨ ∃ m', p = .answered m'

structure Replaying (N : Nat) (id : String) (m : ServerMessage) (tr : List server.Moment) (s : ServerState)
    (ctx : List Attempt) (n : Nat) : Prop where
  since : Since N tr ctx n
  exclusive : Exclusive s.store.requests ctx
  fixed : Fixed s.store.requests id m
  parts : ∀ (i : Nat) (a : Attempt), ctx[i]? = some a → N ≤ n + i → a.request.requestId = id →
    a.request.body.persisted = true → a.part.Replaying m
  replays : Replays id m tr

section

variable {N n i k : Nat} {tr : List server.Moment} {s s' : ServerState} {ctx : List Attempt} {a a' : Attempt}
  {c : ServerCmd} {ch : ServerChoice} {r : c.Result} {id : String} {m : ServerMessage} {x : server.Moment}

theorem Replays.concat (h : Replays id m tr)
    (hs : ∀ q, x = .spawned k q → ∀ e, .did k e ∉ tr) (hk : ∀ j q, x = .spawned j q → j = k)
    (hx : ∀ k c r, x = .did k ⟨c, r⟩ → Asked tr k id → c = .store (.lookupRequest id) ∨ c = .reply m) :
    Replays id m (tr ++ [x]) := by
  intro j hj c r hd
  have hold : ∀ {e}, .did j e ∈ tr → Asked tr j id := by
    intro e he
    refine (asked_concat fun q hq => ?_).mp hj
    obtain rfl := hk j q hq
    exact hs q hq e he
  rcases List.mem_append.mp hd with hd | hd
  · exact h j (hold hd) c r hd
  · have hd := (List.mem_singleton.mp hd).symm
    refine hx j c r hd ((asked_concat fun q hq => ?_).mp hj)
    rw [hd] at hq
    cases hq

/-- A command of a handler whose request has its result. -/
theorem replaying_next (hf : Fixed s.store.requests a.request.requestId m) (hp : a.request.body.persisted = true)
    (ha : a.part.Replaying m) (hn : a.next c r = some a')
    (he : c.exec server.workspace server.sha256 ch s = some (r, s')) :
    a'.part.Replaying m ∧ (c = .store (.lookupRequest a.request.requestId) ∨ c = .reply m) := by
  obtain ⟨hreq, hproc⟩ := proceeds_of_next hn
  obtain ⟨q, p⟩ := a
  obtain ⟨q', p'⟩ := a'
  cases hreq
  cases hproc with
  | works c r hw hmay =>
    simp only [Attempt.mayWork, hp, Bool.not_true, Bool.and_false, Bool.or_false, decide_eq_true_eq] at hmay
    subst hmay
    rcases ha with ha | ⟨e, ha, -⟩ | ⟨m', ha⟩ <;> cases ha
  | looks r hp' hq =>
    obtain ⟨hl, -⟩ := requests_of_lookup he
    obtain ⟨e, hfe, hres⟩ := hf
    rw [hfe] at hl
    subst hl
    exact ⟨.inr (.inl ⟨e, rfl, hres⟩), .inl rfl⟩
  | claims r hp' =>
    cases hp'
    rcases ha with ha | ⟨e, ha, -⟩ | ⟨m', ha⟩ <;> cases ha
  | settles l o r hp' hl =>
    cases hp'
    rcases ha with ha | ⟨e, ha, -⟩ | ⟨m', ha⟩ <;> cases ha
  | answers m' hs =>
    refine ⟨.inr (.inr ⟨m', rfl⟩), .inr ?_⟩
    rcases ha with rfl | ⟨e, rfl, hres⟩ | ⟨m'', rfl⟩
    · simp [Part.tells, hp] at hs
    · have hm : m' = answerOf q.requestId e := of_decide_eq_true hs
      rw [hm, answerOf, hres]
    · cases hs

theorem Replaying.exec (h : Replaying N id m tr s ctx n) (hi : ctx[i]? = some a)
    (hc : ∀ keep, c ≠ .store (.prune keep)) (hn : a.next c r = some a')
    (he : c.exec server.workspace server.sha256 ch s = some (r, s')) :
    Replaying N id m (tr ++ [.did (n + i) ⟨c, r⟩]) s' (ctx.set i a') n := by
  obtain ⟨hreq, -⟩ := proceeds_of_next hn
  constructor
  case since => exact h.since.exec hi hreq _
  case exclusive => exact h.exclusive.exec hi hn he
  case fixed => exact (tableStep_of_exec hn hc he).fixed h.exclusive hi h.fixed
  case parts =>
    intro j b hj hN hid hp
    rcases Machine.getElem?_set_cases hj with ⟨rfl, rfl⟩ | ⟨-, hj'⟩
    · rw [hreq] at hid hp
      exact (replaying_next (hid ▸ h.fixed) hp (h.parts j a hi hN hid hp) hn he).1
    · exact h.parts j b hj' hN hid hp
  case replays =>
    refine h.replays.concat (k := 0) (by simp) (by simp) ?_
    rintro k c' r' ⟨⟩ hk
    obtain ⟨hN, hid, hp⟩ := h.since.asked hk hi
    have := (replaying_next (hid ▸ h.fixed) hp (h.parts i a hi hN hid hp) hn he).2
    rwa [hid] at this

theorem Replaying.spawn (h : Replaying N id m tr s ctx n) (q : Request) :
    Replaying N id m (tr ++ [.spawned (n + ctx.length) q]) s (ctx ++ [⟨q, .asking⟩]) n := by
  constructor
  case since => exact h.since.spawn q
  case exclusive => exact h.exclusive.spawn q
  case fixed => exact h.fixed
  case parts =>
    intro i a hi hN hid hp
    rcases Machine.getElem?_concat_cases hi with ⟨rfl, rfl⟩ | hi'
    · exact .inl rfl
    · exact h.parts i a hi' hN hid hp
  case replays =>
    refine h.replays.concat (k := n + ctx.length) ?_ ?_ (by simp)
    · intro q' hq e he
      exact Nat.lt_irrefl _ (h.since.did _ e he)
    · rintro j q' ⟨⟩
      rfl

theorem server_replays (server : Server) (N : Nat) (id : String) (m : ServerMessage) :
    Machine.Tells (M := server.machine) Attempt.next (fun q => ⟨q, .asking⟩) (fun a => ∃ m, a.part = .answered m)
      (fun _ _ => true) (fun tr s ctx n => Undisturbed tr → Replaying N id m tr s ctx n)
      (fun tr _ _ => Undisturbed tr → Replays id m tr) where
  prog q := (attempts_handle server q).mono fun _ _ h => h.2
  spawn := fun _ h hu => (h hu.left).spawn _
  exec := by
    intro tr s s' ts ctx n i c ch r a a' _ h hi hn he hu
    refine (h hu.left).exec hi ?_ hn he
    rintro keep rfl
    exact disturbed_of_prune hu
  crash := fun _ h _ _ hu => (h hu.left).replays.concat (k := 0) (by simp) (by simp) (by simp)
  bootUp := fun _ _ _ hu => absurd rfl ((hu _ (List.mem_append_right _ (.head _))).1 _)
  bootDown := fun _ h _ hu => (h hu.left).concat (k := 0) (by simp) (by simp) (by simp)
  envUp := by
    intro tr s ts ctx n e _ h hu
    have h := h hu
    exact ⟨h.since, h.exclusive, h.fixed, h.parts, h.replays⟩
  envDown := fun _ h => h

end

/-- A world after an undisturbed stretch that began with the result in the
table. -/
def ReplaysIn {server : Server} (N : Nat) (id : String) (m : ServerMessage) (tr : List server.Moment)
    (w : server.machine.World) : Prop :=
  Machine.Told Attempt.next (fun a => ∃ m, a.part = .answered m)
    (fun tr s ctx n => Undisturbed tr → Replaying N id m tr s ctx n) (fun tr _ _ => Undisturbed tr → Replays id m tr) tr w

theorem ReplaysIn.replays {server : Server} {N : Nat} {id : String} {m : ServerMessage} {tr : List server.Moment}
    {w : server.machine.World} (h : ReplaysIn N id m tr w) (hu : Undisturbed tr) : Replays id m tr := by
  cases w with
  | down d n => exact h hu
  | up s ts n =>
    obtain ⟨ctx, hJ, -⟩ := h
    exact (hJ hu).replays

/-- Once a request that goes through the table has been answered with a result, and
until the next prune or the end of the session, a handler that is started for a
request of the table with this id, whatever it asks for, looks the request up and
answers with the same result, and does nothing else. -/
theorem retries_replay {t : Tree} {us : Uploads} {w : server.machine.World} {pre seg later : List server.Moment}
    {j : Nat} {id : String} {m : ServerMessage}
    (h : Machine.History (fun _ _ => true) (server.fresh t us) (pre ++ seg ++ later) w) (hu : Undisturbed (seg ++ later))
    (hj : Asked seg j id) (hm : ResultSaid seg j m) :
    ∀ k, Asked later k id → ∀ c r, .did k ⟨c, r⟩ ∈ later → c = .store (.lookupRequest id) ∨ c = .reply m := by
  obtain ⟨w₁, h₁, h₂⟩ := h.split
  obtain ⟨N, ht⟩ := agrees_of_history h₁
  suffices h₀ : ∃ N, ReplaysIn N id m [] w₁ by
    obtain ⟨N, h₀⟩ := h₀
    have hr : ReplaysIn N id m later w := Machine.told_of_history (server_replays server N id m) h₀ h₂
    exact hr.replays hu.right
  have hnil : ∀ k, ¬ Asked ([] : List server.Moment) k id := by
    rintro k ⟨q, hq, -⟩
    cases hq
  cases w₁ with
  | down d n => exact ⟨0, fun _ k hk => absurd hk (hnil k)⟩
  | up s ts n =>
    obtain ⟨ctx, hJ, hconf⟩ := ht
    have hJ := hJ hu.left
    refine ⟨n + ctx.length, ctx, fun _ => ?_, hconf⟩
    refine ⟨⟨Nat.le_refl _, by simp, by simp, by simp⟩, hJ.exclusive, hJ.said j id hj m hm, ?_, ?_⟩
    · intro i a hi hN
      have := (List.getElem?_eq_some_iff.mp hi).1
      omega
    · exact fun k hk => absurd hk (hnil k)

/-- The client has lost its answer, and asks again. -/
theorem retries_replay_downloadTold : ∃ pre seg later w,
    Machine.History (fun _ _ => true) (homeServer.fresh homeTree []) (pre ++ seg ++ later) w ∧
      ∃ m, ResultSaid seg 0 m ∧ Asked later 1 "r" ∧
        ∀ c r, .did 1 ⟨c, r⟩ ∈ later → c = .store (.lookupRequest "r") ∨ c = .reply m := by
  have h : ((Machine.historyOf (fun _ _ => true) (homeServer.fresh homeTree []) [.boot { start := plainStart }]).bind
      fun p => (Machine.historyOf (fun _ _ => true) p.2
          (.spawn downloadTold :: stepsOf 0 (List.replicate 10 steady))).bind fun p' =>
        (Machine.historyOf (fun _ _ => true) p'.2
            (.spawn downloadTold :: stepsOf 1 (List.replicate 2 steady))).map fun p'' =>
          ((p'.1 ++ p''.1).all (fun x => !disturbs x) && p'.1.any (isSpawn 0 downloadTold)) &&
            (p'.1.any (saysResult 0) && p''.1.any (isSpawn 1 downloadTold))) = some true := by decide +kernel
  obtain ⟨⟨pre, w₁⟩, h₁, h⟩ := Option.bind_eq_some_iff.mp h
  obtain ⟨⟨seg, w₂⟩, h₂, h⟩ := Option.bind_eq_some_iff.mp h
  obtain ⟨⟨later, w⟩, h₃, h⟩ := Option.map_eq_some_iff.mp h
  simp only [Bool.and_eq_true] at h
  obtain ⟨⟨hall, hask⟩, htells, hagain⟩ := h
  obtain ⟨m, hm⟩ := mem_of_saysResult htells
  have hhist := ((Machine.History.init.append h₁).append h₂).append h₃
  have hasked : Asked later 1 "r" := ⟨_, mem_of_isSpawn hagain, rfl, rfl⟩
  exact ⟨pre, seg, later, w, hhist, m, hm, hasked,
    retries_replay hhist (undisturbed_of_all hall) ⟨_, mem_of_isSpawn hask, rfl, rfl⟩ hm 1 hasked⟩

end

end RemoteWorkspace
