import RemoteWorkspace.Store.Table
import RemoteWorkspace.Workspace

/-!
# Start-up recovery

`OperationStore::recover`: every prepared marker that no committed record
superseded is judged against the file it names (`judge`) and resolved, the
newest first; then every request still in progress is rebuilt from its
committed record, failed, or forgotten so that it can be sent again.

Recovery only appends. A `Recovery` under way is the store as it stands and
the lines appended so far, so a recovery that dies, or whose append fails, has
left a prefix of these lines in the logs. The clock is read once for each
marker, and the order in which the request table is walked is any order.
-/

namespace RemoteWorkspace

inductive RecoveryAction where
  | dropped (operationId : String)
  | synthesized (operationId : String)
  | conflict (operationId reason : String)
  | clearedStuck (requestId : String)
  | stuckExecMarkedError (requestId : String)
  deriving DecidableEq, Repr

inductive RecoveryOutcome where
  | noOp
  | committed
  | conflict (reason : String)
  deriving DecidableEq, Repr

/-! ## Rebuilding a result from its record -/

def reconstructFs (r : FsOperationRecord) : ServerMessage :=
  .result r.requestId (.mutation {
    operationId := r.operationId, oldHash := r.beforeHash, newHash := r.afterHash })

def reconstructExec (r : ExecOperationRecord) : ServerMessage :=
  match r.disposition with
  | .rejected =>
    .error r.requestId (.new (r.errorCode.getD .execFailed)
      (r.error.getD "exec was rejected at time of crash; retry with a new request_id"))
  | .completed | .timedOut =>
    match r.termination with
    | some termination =>
      .result r.requestId (.exec {
        operationId := r.operationId
        termination
        durationMs := r.durationMs
        drainTimedOut := r.drainTimedOut
        stdout := r.stdout
        stderr := r.stderr })
    | none =>
      .error r.requestId
        (.new .ioError "corrupt exec record: completed operation has no termination")

def reconstructTransfer (r : TransferOperationRecord) : ServerMessage :=
  .result r.requestId (.transfer {
    operationId := r.operationId
    direction := r.direction
    path := r.path
    size := r.size
    sha256 := r.sha256
    durationMs := r.durationMs })

/-- The reply that a committed record stands for. No marker gets here. -/
def reconstructResult : AnyOperationRecord → Option ServerMessage
  | .fs r => some (reconstructFs r)
  | .exec r => some (reconstructExec r)
  | .transfer r => some (reconstructTransfer r)
  | .prepared _ | .aborted _ => none

/-! ## Judging a marker -/

/-- Whether a record started, on the path of `p`, from the state that `p` was
to leave. -/
def continues (p : PreparedRecord) : AnyOperationRecord → Bool
  | .fs later =>
    later.path = p.path &&
      match later.beforeHash with
      | some before => before = p.expectedAfterHash
      | none => p.expectedAfterHash = fileDeletedSentinel
  | _ => false

/-- Whether a committed operation after `p` in the table continues it. -/
def continuedFrom (rs : Records) (p : PreparedRecord) : Bool :=
  ((rs.dropWhile fun r => r.operationId ≠ p.operationId).drop 1).any (continues p)

/-- What became of the mutation of `p`, given whether a later operation
continues it and the hash of its file now. -/
def judge (continued : Bool) (p : PreparedRecord) (current : Option String) : RecoveryOutcome :=
  if continued then .committed
  else if p.beforeHash = current then .noOp
  else if current = none ∧ p.expectedAfterHash = fileDeletedSentinel then .committed
  else if current = some p.expectedAfterHash then .committed
  else
    match current with
    | none => .conflict "file expected to exist after mutation but is absent"
    | some c =>
      .conflict ("file hash Some(\"" ++ c ++ "\") matches neither before nor expected-after")

/-! ## The recovery -/

/-- What a start takes from its surroundings: the clock, as the reading taken
when so many lines have been appended, and the order of a `HashMap`. -/
structure Start where
  clock : Nat → Nat
  order : Requests → Requests
  perm : ∀ rs, (order rs).Perm rs

/-- A recovery under way. -/
structure Recovery where
  store : OperationStore
  appended : List LogLine
  actions : List RecoveryAction

def committedFrom (p : PreparedRecord) (now : Nat) : FsOperationRecord where
  operationId := p.operationId
  requestId := p.requestId
  kind := p.kind
  path := p.path
  beforeHash := p.beforeHash
  afterHash := p.expectedAfterHash
  timestampMs := now

def abortedLine (id : String) (now : Nat) : LogLine :=
  .operation (.aborted { operationId := id, timestampMs := now })

def resultLine (id : String) (m : ServerMessage) : LogLine :=
  .request ((RequestEntry.ofResult m).line id)

def errorLine (id : String) (e : ProtocolError) : LogLine :=
  .request ((RequestEntry.ofError e).line id)

def conflictError (p : PreparedRecord) (reason : String) : ProtocolError :=
  .new .staleFile ("startup recovery could not reconcile operation " ++ p.operationId ++ ": " ++ reason)

namespace Recovery

def append (r : Recovery) (l : LogLine) : Recovery :=
  { r with store := r.store.record l, appended := r.appended ++ [l] }

def act (r : Recovery) (a : RecoveryAction) : Recovery := { r with actions := r.actions ++ [a] }

def abortPrepared (r : Recovery) (now : Nat) (id : String) : Recovery := r.append (abortedLine id now)

def synthesizeCommit (r : Recovery) (now : Nat) (p : PreparedRecord) : Recovery :=
  let record := committedFrom p now
  (r.append (.operation (.fs record))).append (resultLine p.requestId (reconstructFs record))

def resolveAsConflict (r : Recovery) (now : Nat) (p : PreparedRecord) (reason : String) : Recovery :=
  (r.abortPrepared now p.operationId).append (errorLine p.requestId (conflictError p reason))

/-- Resolve a marker whose path resolves, by its verdict. -/
def resolveAs (r : Recovery) (now : Nat) (p : PreparedRecord) : RecoveryOutcome → Recovery
  | .noOp => (r.abortPrepared now p.operationId).act (.dropped p.operationId)
  | .committed => (r.synthesizeCommit now p).act (.synthesized p.operationId)
  | .conflict reason => (r.resolveAsConflict now p reason).act (.conflict p.operationId reason)

end Recovery

def execInterrupted : ProtocolError :=
  .new .execFailed "exec in progress at time of crash; retry with a new request_id"

def unknownInterrupted : ProtocolError :=
  .new .invalidRequest
    ("request was in progress at time of crash and request type is unknown; " ++
      "retry with a new request_id")

/-- In progress with no result: the process died before the request ended. -/
def RequestEntry.isStuck (e : RequestEntry) : Bool := e.status = .inProgress && e.result.isNone

def markersOf (rs : Records) : List PreparedRecord :=
  rs.filterMap fun
    | .prepared p => some p
    | _ => none

/-- The first committed record of a request in a table, by its id and with
the reply it stands for. -/
def rebuiltFrom (rs : Records) (id : String) : Option (String × ServerMessage) :=
  (rs.find? fun r => r.isCommitted && recordRequestId r = some id).bind fun r =>
    (reconstructResult r).map (r.operationId, ·)

/-- Resolve one stuck request. -/
def recoverRequest (r : Recovery) (q : String × RequestEntry) : Recovery :=
  match rebuiltFrom r.store.records q.1 with
  | some (operationId, msg) => (r.append (resultLine q.1 msg)).act (.synthesized operationId)
  | none =>
    if q.2.op = some "exec" then
      (r.append (errorLine q.1 execInterrupted)).act (.stuckExecMarkedError q.1)
    else if q.2.op = none then
      (r.append (errorLine q.1 unknownInterrupted)).act (.stuckExecMarkedError q.1)
    else
      ({ r with store := { r.store with
          requests := Keyed.remove Prod.fst q.1 r.store.requests } }).act (.clearedStuck q.1)

section

variable (ws : Workspace) (sha256 : Sha256) (t : Tree) (b : Start)

/-- Resolve one marker; an unreadable file ends the recovery. -/
def recoverMarker (r : Recovery) (p : PreparedRecord) : Except (Recovery × ProtocolError) Recovery :=
  let now := b.clock r.appended.length
  match ws.resolve t p.path with
  | .error _ =>
    .ok ((r.resolveAsConflict now p "recovery conflict").act
      (.conflict p.operationId "path no longer resolvable"))
  | .ok abs =>
    match hashFile sha256 t abs with
    | .error e => .error (r, ioError e)
    | .ok current => .ok (r.resolveAs now p (judge (continuedFrom r.store.records p) p current))

def recoverMarkers (s : OperationStore) : Except (Recovery × ProtocolError) Recovery :=
  (markersOf s.records).reverse.foldlM (recoverMarker ws sha256 t b)
    { store := s, appended := [], actions := [] }

def recoverRequests (r : Recovery) : Recovery :=
  ((b.order r.store.requests).filter (·.2.isStuck)).foldl recoverRequest r

/-- `OperationStore::recover`, every append of which succeeds. -/
def recover (s : OperationStore) : Except (Recovery × ProtocolError) Recovery :=
  (recoverMarkers ws sha256 t b s).map (recoverRequests b)

end

end RemoteWorkspace
