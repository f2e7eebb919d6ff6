import RemoteWorkspace.Lib.Prog
import RemoteWorkspace.Store.Prune
import RemoteWorkspace.Store.Recovery

/-!
# The store's methods as programs

Handlers run side by side and share one store, so a method of the store is a
program: the sections it runs under a lock, and the readings of the clock
between them, are its commands (`StoreCmd`), and the methods of other handlers
may run between two of them. `StoreCmd.exec` says what a command does to the
store, given how its appends and its file replacements go.

`StoreLocal` is what a caller owes the store: an operation id is used by the
caller it was given to, for one marker or one record, and a marker is committed
or withdrawn at most once (`StoreLocal.next`).
-/

namespace RemoteWorkspace

open Interleave

inductive StoreCmd where
  | now
  | nextOperationId
  | lookupRequest (id : String)
  /-- The locked section of `claim_request`. -/
  | claim (id op : String)
  /-- The locked section of `prepare_fs_record`. -/
  | prepare (p : PreparedRecord)
  /-- `append_record_tracked` or `append_request_tracked`. -/
  | append (l : LogLine)
  | prune (keep : Nat)
  | history (limit : Option Nat)
  | findRecord (id : String)
  | statusForRequest (id : String)
  deriving DecidableEq, Repr

abbrev StoreCmd.Result : StoreCmd → Type
  | now => Nat
  | nextOperationId => String
  | lookupRequest _ => Option RequestEntry
  | claim _ _ => Except ProtocolError (Option RequestEntry)
  | prepare _ => Except ProtocolError Unit
  | append _ => Except ProtocolError Unit
  | prune _ => Except ProtocolError PruneStats
  | history _ => Records
  | findRecord _ => Option AnyOperationRecord
  | statusForRequest _ => RequestStatusResult

/-- What a command meets: the clock, and how its appends and replacements go.
`withdrawal` is the append that supersedes a marker whose sync failed. -/
structure StoreChoice where
  clock : Nat := 0
  append : AppendOutcome := .done
  withdrawal : AppendOutcome := .done
  prune : PruneOutcomes := .allDone
  deriving DecidableEq, Repr

namespace StoreCmd

/-- Run one command. `none` where the operation ids are used up. -/
def exec : (c : StoreCmd) → StoreChoice → OperationStore → Option (c.Result × OperationStore)
  | now, ch, s => some (ch.clock, s)
  | nextOperationId, _, s => s.nextOperationId
  | lookupRequest id, _, s => some (s.requests.lookup id, s)
  | claim id op, ch, s => some (s.claimLocked ch.append id op)
  | prepare p, ch, s => some (s.prepareLocked ch.append ch.withdrawal ch.clock p)
  | append l, ch, s => some (s.appendTracked ch.append l)
  | prune keep, ch, s => some (s.prune keep ch.prune)
  | history limit, _, s => some (s.history limit, s)
  | findRecord id, _, s => some (s.findRecord id, s)
  | statusForRequest id, _, s => some (s.statusForRequest id, s)

end StoreCmd

abbrev StoreProg := Prog StoreCmd StoreCmd.Result

namespace StoreProg

open StoreCmd

/-! ## The methods -/

def claimRequest (id op : String) : StoreProg (Except ProtocolError (Option RequestEntry)) := do
  match ← Prog.call (lookupRequest id) with
  | some e => return .ok (some e)
  | none => Prog.call (claim id op)

def rememberResult (id : String) (m : ServerMessage) : StoreProg (Except ProtocolError Unit) :=
  Prog.call (append (resultLine id m))

def rememberError (id : String) (e : ProtocolError) : StoreProg (Except ProtocolError Unit) :=
  Prog.call (append (errorLine id e))

def prepareFsRecord (requestId : String) (kind : OperationKind) (path : String)
    (beforeHash : Option String) (expectedAfterHash : String) :
    StoreProg (Except ProtocolError String) := do
  let operationId ← Prog.call nextOperationId
  let timestampMs ← Prog.call now
  let p : PreparedRecord :=
    { operationId, requestId, kind, path, beforeHash, expectedAfterHash, timestampMs }
  match ← Prog.call (prepare p) with
  | .ok _ => return .ok operationId
  | .error e => return .error e

def commitFsRecord (operationId requestId : String) (kind : OperationKind) (path : String)
    (beforeHash : Option String) (afterHash : String) : StoreProg (Except ProtocolError Unit) := do
  let timestampMs ← Prog.call now
  Prog.call (append (.operation
    (.fs { operationId, requestId, kind, path, beforeHash, afterHash, timestampMs })))

def abortPrepared (operationId : String) : StoreProg (Except ProtocolError Unit) := do
  let timestampMs ← Prog.call now
  Prog.call (append (abortedLine operationId timestampMs))

def appendExecRecord (r : ExecOperationRecord) : StoreProg (Except ProtocolError Unit) :=
  Prog.call (append (.operation (.exec r)))

def appendTransferRecord (r : TransferOperationRecord) : StoreProg (Except ProtocolError Unit) :=
  Prog.call (append (.operation (.transfer r)))

end StoreProg

/-! ## What a caller owes -/

/-- How far a caller is with the operation it last began: it has none, an id
that it has not used, or a marker in the log. -/
inductive StoreLocal where
  | idle
  | fresh (id : String)
  | marked (p : PreparedRecord)
  deriving DecidableEq, Repr

namespace StoreLocal

/-- What a command and its result make of it; `none` if the command is not
allowed. -/
def next : StoreLocal → (c : StoreCmd) → c.Result → Option StoreLocal
  | _, .nextOperationId, id => some (fresh id)
  | fresh id, .prepare p, r =>
    if p.operationId = id then
      match r with
      | .ok _ => some (marked p)
      | .error _ => some idle
    else none
  | _, .prepare _, _ => none
  | fresh id, .append (.operation (.exec r)), _ => if r.operationId = id then some idle else none
  | fresh id, .append (.operation (.transfer r)), _ => if r.operationId = id then some idle else none
  | marked p, .append (.operation (.fs r)), _ => if r.operationId = p.operationId then some idle else none
  | marked p, .append (.operation (.aborted r)), _ =>
    if r.operationId = p.operationId then some idle else none
  | _, .append (.operation _), _ => none
  | ℓ, .append (.request _), _ => some ℓ
  | ℓ, .now, _ => some ℓ
  | ℓ, .lookupRequest _, _ => some ℓ
  | ℓ, .claim _ _, _ => some ℓ
  | ℓ, .prune _, _ => some ℓ
  | ℓ, .history _, _ => some ℓ
  | ℓ, .findRecord _, _ => some ℓ
  | ℓ, .statusForRequest _, _ => some ℓ

/-- The operation id that is the caller's to use. -/
def held : StoreLocal → Option String
  | idle => none
  | fresh id => some id
  | marked p => some p.operationId

end StoreLocal

end RemoteWorkspace
