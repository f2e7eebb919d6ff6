import Mathlib.Data.String.Basic
import RemoteWorkspace.Lib.Decimal
import RemoteWorkspace.Lib.Keyed
import RemoteWorkspace.Store.Log

/-!
# The operation store: loading and appending

`store.rs`: the tables of operations and of requests, what the state directory
keeps of them, and the locked sections that change both. Every change of a
table is a line appended to its log (`OperationStore.record`) once the append
returned `Ok`; `appendLine` has the ways in which it does not.

`HashMap` is a list of pairs with distinct keys. The texts of serde's errors
are not modelled: a loader error says which line it refuses, not why.
-/

namespace RemoteWorkspace

/-! ## The two tables -/

/-- The outcome of a request, stored so that a resent request is answered and
not executed again. -/
inductive StoredResult where
  | done (m : ServerMessage)
  | error (e : ProtocolError)
  deriving DecidableEq, Repr

structure RequestEntry where
  status : RequestStatus
  result : Option StoredResult
  op : Option String
  deriving DecidableEq, Repr

/-- A line of `requests.jsonl`. -/
structure RequestLogLine where
  requestId : String
  status : RequestStatus
  resultDone : Option ServerMessage
  resultError : Option ProtocolError
  op : Option String
  deriving DecidableEq, Repr

/-- The entry that a line stands for. -/
def RequestLogLine.entry (l : RequestLogLine) : RequestEntry where
  status := l.status
  result :=
    match l.resultDone, l.resultError with
    | some m, none => some (.done m)
    | none, some e => some (.error e)
    | _, _ => none
  op := l.op

/-- The line that stands for an entry. -/
def RequestEntry.line (e : RequestEntry) (id : String) : RequestLogLine where
  requestId := id
  status := e.status
  resultDone :=
    match e.result with
    | some (.done m) => some m
    | _ => none
  resultError :=
    match e.result with
    | some (.error e) => some e
    | _ => none
  op := e.op

namespace RequestEntry

def inProgress (op : String) : RequestEntry :=
  { status := .inProgress, result := none, op := some op }

def ofResult (m : ServerMessage) : RequestEntry :=
  { status := .done, result := some (.done m), op := none }

def ofError (e : ProtocolError) : RequestEntry :=
  { status := .error, result := some (.error e), op := none }

@[simp] theorem requestId_line (e : RequestEntry) (id : String) : (e.line id).requestId = id := rfl

/-- A line reads back as the entry it was written for. -/
@[simp] theorem entry_line (e : RequestEntry) (id : String) : (e.line id).entry = e := by
  obtain ⟨status, result, op⟩ := e
  rcases result with _ | _ | _ <;> rfl

end RequestEntry

/-- A mutation under way, not one that happened. -/
def isPending : AnyOperationRecord → Bool
  | .prepared _ => true
  | _ => false

/-- The request a record belongs to. -/
def recordRequestId : AnyOperationRecord → Option String
  | .fs r => some r.requestId
  | .exec r => some r.requestId
  | .transfer r => some r.requestId
  | .prepared r => some r.requestId
  | .aborted _ => none

abbrev Records := List AnyOperationRecord

abbrev Requests := List (String × RequestEntry)

/-- What appending a record makes of the table: a committed mutation takes the
place of its marker, a withdrawn marker leaves, anything else comes last. -/
def Records.record (rs : Records) : AnyOperationRecord → Records
  | .fs r => Keyed.put AnyOperationRecord.operationId (.fs r) rs
  | .aborted r => rs.filter fun x => !(x.operationId = r.operationId && isPending x)
  | r => rs ++ [r]

/-- `HashMap::get`. -/
def Requests.lookup (rs : Requests) (id : String) : Option RequestEntry :=
  (Keyed.get Prod.fst id rs).map Prod.snd

/-- `HashMap::insert`. -/
def Requests.insert (rs : Requests) (id : String) (e : RequestEntry) : Requests :=
  Keyed.put Prod.fst (id, e) rs

namespace Requests

theorem lookup_cons (q : String × RequestEntry) (rs : Requests) (id : String) :
    Requests.lookup (q :: rs) id = if q.1 = id then some q.2 else rs.lookup id := by
  simp only [lookup, Keyed.get_cons]
  split <;> rfl

theorem lookup_eq_none {rs : Requests} {id : String} : rs.lookup id = none ↔ ∀ q ∈ rs, q.1 ≠ id := by
  rw [lookup, Option.map_eq_none_iff, Keyed.get_eq_none]

theorem lookup_insert (rs : Requests) (id id' : String) (e : RequestEntry) :
    (rs.insert id e).lookup id' = if id' = id then some e else rs.lookup id' := by
  simp only [lookup, insert, Keyed.get_put]
  split <;> rfl

theorem lookup_remove (rs : Requests) (id id' : String) :
    Requests.lookup (Keyed.remove Prod.fst id rs) id' = if id' = id then none else rs.lookup id' := by
  simp only [lookup, Keyed.get_remove]
  split <;> rfl

end Requests

/-! ## Files -/

/-- The files of the state directory that the store reads and writes. -/
structure LogDir where
  operations : LogFile AnyOperationRecord
  requests : LogFile RequestLogLine
  opCounter : Option String
  deriving DecidableEq, Repr

def LogDir.empty : LogDir := { operations := .empty, requests := .empty, opCounter := none }

/-- A line of one of the two logs. -/
inductive LogLine where
  | operation (r : AnyOperationRecord)
  | request (l : RequestLogLine)
  deriving DecidableEq, Repr

namespace LogDir

def writeLine (d : LogDir) : LogLine → LogDir
  | .operation r => { d with operations := d.operations.writeLine r }
  | .request l => { d with requests := d.requests.writeLine l }

def writeCut (d : LogDir) (c : Cut) : LogLine → LogDir
  | .operation r => { d with operations := d.operations.writeCut r c }
  | .request l => { d with requests := d.requests.writeCut l c }

end LogDir

/-- The bound of `u64`. -/
def u64Bound : Nat := 2 ^ 64

def opPrefix : List Char := "op-".toList

/-- The text of an operation id. -/
def operationIdOf (n : Nat) : String := "op-" ++ n.repr

/-- The number in an operation id that the store issued. -/
def idNumber (id : String) : Option Nat :=
  if opPrefix.isPrefixOf id.toList then Decimal.parse u64Bound (id.toList.drop opPrefix.length)
  else none

/-- The text of `op-counter`. -/
def counterText (n : Nat) : String := n.repr ++ "\n"

/-- What `op-counter` says. -/
def counterNumber (text : String) : Option Nat := Decimal.parse u64Bound (Text.trim text.toList)

/-- The id that `op-counter` holds, zero where there is no such file. -/
def LogDir.counter (d : LogDir) : Option Nat :=
  match d.opCounter with
  | none => some 0
  | some text => counterNumber text

/-! ## The store -/

structure OperationStore where
  dir : LogDir
  nextId : Nat
  records : Records
  requests : Requests
  logTorn : Bool
  deriving DecidableEq, Repr

/-- The largest of `n` and the numbers in the ids of a log. -/
def maxId (n : Nat) (log : Records) : Nat :=
  log.foldl (fun m r => max m ((idNumber r.operationId).getD 0)) n

def isAborted : AnyOperationRecord → Bool
  | .aborted _ => true
  | _ => false

/-- The table that a log is read into: one record for each id, without the
withdrawn ones, by age. -/
def loadRecords (log : Records) : Records :=
  ((Keyed.collapse AnyOperationRecord.operationId log).filter fun r => !isAborted r).insertionSort
    fun a b => a.timestampMs ≤ b.timestampMs

def loadRequests (log : List RequestLogLine) : Requests :=
  log.foldl (fun rs l => rs.insert l.requestId l.entry) []

def corruptedLog (name : String) (line : Nat) : ProtocolError :=
  .new .ioError ("corrupted log " ++ name ++ ": line " ++ line.repr)

namespace OperationStore

/-- `OperationStore::new`. -/
def new (d : LogDir) : Except ProtocolError OperationStore := do
  let counter ←
    match d.counter with
    | some n => .ok n
    | none => .error (.new .ioError "corrupt op-counter file")
  let operations ←
    match d.operations.read with
    | some rs => .ok rs
    | none => .error (corruptedLog "operations.jsonl" d.operations.damagedLine)
  let requests ←
    match d.requests.read with
    | some ls => .ok ls
    | none => .error (corruptedLog "requests.jsonl" d.requests.damagedLine)
  .ok {
    dir := { d with operations := d.operations.repair, requests := d.requests.repair }
    nextId := maxId counter operations
    records := loadRecords operations
    requests := loadRequests requests
    logTorn := false }

/-- `None` once the ids of `u64` are used up. -/
def nextOperationId (s : OperationStore) : Option (String × OperationStore) :=
  if s.nextId + 1 < u64Bound then
    some (operationIdOf (s.nextId + 1), { s with nextId := s.nextId + 1 })
  else none

/-- A line appended, and the table changed to match. -/
def record (s : OperationStore) : LogLine → OperationStore
  | .operation r => { s with
      dir := s.dir.writeLine (.operation r)
      records := s.records.record r }
  | .request l => { s with
      dir := s.dir.writeLine (.request l)
      requests := s.requests.insert l.requestId l.entry }

end OperationStore

/-! ## Appends -/

/-- How one append goes, as the file system has it. -/
inductive AppendOutcome where
  | done
  | openFails (e : String)
  | statFails (e : String)
  /-- The write fails and what was written is taken back. -/
  | writeFails (e : String)
  /-- The write fails, and so does taking back what was written. -/
  | rollBackFails (e t : String) (c : Cut)
  | syncFails (e : String)
  deriving DecidableEq, Repr

/-- How far a failed append got: possibly a part of the line, or all of it
without its durability being known. -/
inductive AppendFailure where
  | incomplete (e : ProtocolError)
  | unsynced (e : ProtocolError)
  deriving DecidableEq, Repr

def AppendFailure.error : AppendFailure → ProtocolError
  | incomplete e => e
  | unsynced e => e

def LogLine.log : LogLine → String
  | operation _ => "op log"
  | request _ => "request log"

namespace OperationStore

/-- `append_line`: the file is changed, the tables are not. -/
def appendLine (o : AppendOutcome) (l : LogLine) (s : OperationStore) :
    Except AppendFailure Unit × OperationStore :=
  let incomplete (msg : String) : Except AppendFailure Unit :=
    .error (.incomplete (.new .ioError msg))
  if s.logTorn then
    (incomplete ("refusing to append to " ++ l.log ++ ": an earlier partial line could not be " ++
      "undone, and appending after it would leave a log the next start cannot read; " ++
      "restart the server to repair it"), s)
  else
    match o with
    | .openFails e => (incomplete ("open " ++ l.log ++ ": " ++ e), s)
    | .statFails e => (incomplete ("stat " ++ l.log ++ ": " ++ e), s)
    | .writeFails e => (incomplete ("write " ++ l.log ++ ": " ++ e), s)
    | .rollBackFails e t c =>
      (incomplete ("write " ++ l.log ++ ": " ++ e ++ "; the partial line could not be undone (" ++ t ++
        "), so this server will not append again -- restart to repair"),
        { s with dir := s.dir.writeCut c l, logTorn := true })
    | .syncFails e =>
      (.error (.unsynced (.new .ioError ("fsync " ++ l.log ++ ": " ++ e))),
        { s with dir := s.dir.writeLine l })
    | .done => (.ok (), { s with dir := s.dir.writeLine l })

/-- `append_record_tracked` and `append_request_tracked`: the table is changed
once the line is in the log. -/
def appendTracked (o : AppendOutcome) (l : LogLine) (s : OperationStore) :
    Except ProtocolError Unit × OperationStore :=
  match s.appendLine o l with
  | (.ok _, _) => (.ok (), s.record l)
  | (.error f, s') => (.error f.error, s')

/-- The locked section of `prepare_fs_record`: a marker whose line is in the
log with its durability unknown is superseded, as well as that goes. -/
def prepareLocked (o o' : AppendOutcome) (now : Nat) (p : PreparedRecord) (s : OperationStore) :
    Except ProtocolError Unit × OperationStore :=
  match s.appendLine o (.operation (.prepared p)) with
  | (.ok _, _) => (.ok (), s.record (.operation (.prepared p)))
  | (.error (.unsynced e), s') =>
    (.error e, (s'.appendLine o'
      (.operation (.aborted { operationId := p.operationId, timestampMs := now }))).2)
  | (.error (.incomplete e), s') => (.error e, s')

def inProgressLine (id op : String) : LogLine := .request ((RequestEntry.inProgress op).line id)

/-- The locked section of `claim_request`: decided and recorded under one
lock. -/
def claimLocked (o : AppendOutcome) (id op : String) (s : OperationStore) :
    Except ProtocolError (Option RequestEntry) × OperationStore :=
  match s.requests.lookup id with
  | some e => (.ok (some e), s)
  | none =>
    match s.appendTracked o (inProgressLine id op) with
    | (.ok _, s') => (.ok none, s')
    | (.error e, s') => (.error e, s')

theorem claimLocked_snd {s : OperationStore} {id : String} (h : s.requests.lookup id = none) (o : AppendOutcome)
    (op : String) : (s.claimLocked o id op).2 = (s.appendTracked o (inProgressLine id op)).2 := by
  simp only [claimLocked, h]
  split <;> next heq => rw [heq]

/-! ## Reading the tables -/

def findRecord (s : OperationStore) (id : String) : Option AnyOperationRecord :=
  s.records.find? fun r => r.operationId = id && r.isCommitted

/-- An exec record without its output previews. -/
def stripPreviews : AnyOperationRecord → AnyOperationRecord
  | .exec r => .exec { r with
      stdout := { r.stdout with
        prefixText := "", suffixText := "", omittedBytes := r.stdout.totalBytes }
      stderr := { r.stderr with
        prefixText := "", suffixText := "", omittedBytes := r.stderr.totalBytes } }
  | r => r

def history (s : OperationStore) (limit : Option Nat) : Records :=
  let committed := s.records.filter (·.isCommitted)
  let kept :=
    match limit with
    | some n => committed.drop (committed.length - n)
    | none => committed
  kept.map stripPreviews

def statusForRequest (s : OperationStore) (id : String) : RequestStatusResult :=
  match s.requests.lookup id with
  | none => { target := id, status := .unknown, error := none }
  | some e => {
      target := id
      status := e.status
      error :=
        match e.result with
        | some (.error e) => some e
        | _ => none }

end OperationStore

end RemoteWorkspace
