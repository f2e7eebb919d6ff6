import Mathlib.Data.List.Basic

/-!
# Records and messages

The types of the protocol crate that the operation store writes to its logs
and the server sends to its clients: errors (`error.rs`), the records of the
operation log (`record.rs`), requests and results (`messages.rs`). Unsigned
machine integers are natural numbers and `i32` is `Int`; nothing here computes
with them.
-/

namespace RemoteWorkspace

inductive ErrorCode where
  | invalidRequest | unknownOperation | pathOutsideRoot | notFound | notAFile | notADirectory
  | isADirectory | invalidHash | staleFile | ioError | execFailed | operationNotFound
  | requestNotFound | patchFailed | undoConflict | alreadyExists | noMatch | ambiguousMatch
  deriving DecidableEq, Repr

structure ProtocolError where
  code : ErrorCode
  message : String
  expectedHash : Option String
  actualHash : Option String
  deriving DecidableEq, Repr

/-- An error without hashes. -/
def ProtocolError.new (code : ErrorCode) (message : String) : ProtocolError :=
  { code, message, expectedHash := none, actualHash := none }

def ProtocolError.withHashes (e : ProtocolError) (expected actual : String) : ProtocolError :=
  { e with expectedHash := some expected, actualHash := some actual }

/-! ## Records of the operation log -/

inductive OperationKind where
  | create | edit | delete | write | patch | undo
  deriving DecidableEq, Repr

structure FsOperationRecord where
  operationId : String
  requestId : String
  kind : OperationKind
  path : String
  beforeHash : Option String
  afterHash : String
  timestampMs : Nat
  deriving DecidableEq, Repr

inductive TransferDirection where
  | upload | download
  deriving DecidableEq, Repr

structure TransferOperationRecord where
  operationId : String
  requestId : String
  direction : TransferDirection
  path : String
  size : Nat
  sha256 : String
  durationMs : Nat
  timestampMs : Nat
  deriving DecidableEq, Repr

inductive ExecDisposition where
  | completed | timedOut | rejected
  deriving DecidableEq, Repr

inductive ExecTermination where
  | exited (code : Int)
  | timedOut
  | signaled (signal : Int)
  deriving DecidableEq, Repr

/-- The preview of one output stream: its first and last bytes as text. -/
structure ExecOutput where
  prefixText : String
  suffixText : String
  totalBytes : Nat
  omittedBytes : Nat
  deriving DecidableEq, Repr

/-- The `Default` of `ExecOutput`. -/
def ExecOutput.empty : ExecOutput :=
  { prefixText := "", suffixText := "", totalBytes := 0, omittedBytes := 0 }

structure ExecOperationRecord where
  operationId : String
  requestId : String
  argv : List String
  cwd : Option String
  profile : Option String
  timeoutMs : Option Nat
  disposition : ExecDisposition
  termination : Option ExecTermination
  drainTimedOut : Bool
  durationMs : Nat
  timestampMs : Nat
  error : Option String
  errorCode : Option ErrorCode
  stdout : ExecOutput
  stderr : ExecOutput
  deriving DecidableEq, Repr

structure PreparedRecord where
  operationId : String
  requestId : String
  kind : OperationKind
  path : String
  beforeHash : Option String
  expectedAfterHash : String
  timestampMs : Nat
  deriving DecidableEq, Repr

structure AbortedRecord where
  operationId : String
  timestampMs : Nat
  deriving DecidableEq, Repr

inductive AnyOperationRecord where
  | fs (r : FsOperationRecord)
  | exec (r : ExecOperationRecord)
  | transfer (r : TransferOperationRecord)
  | prepared (r : PreparedRecord)
  | aborted (r : AbortedRecord)
  deriving DecidableEq, Repr

namespace AnyOperationRecord

def operationId : AnyOperationRecord → String
  | fs r => r.operationId
  | exec r => r.operationId
  | transfer r => r.operationId
  | prepared r => r.operationId
  | aborted r => r.operationId

def timestampMs : AnyOperationRecord → Nat
  | fs r => r.timestampMs
  | exec r => r.timestampMs
  | transfer r => r.timestampMs
  | prepared r => r.timestampMs
  | aborted r => r.timestampMs

/-- True for client-facing records only, not for the markers of the log. -/
def isCommitted : AnyOperationRecord → Bool
  | fs _ | exec _ | transfer _ => true
  | prepared _ | aborted _ => false

@[simp] theorem operationId_fs (r : FsOperationRecord) : (fs r).operationId = r.operationId := rfl
@[simp] theorem operationId_exec (r : ExecOperationRecord) : (exec r).operationId = r.operationId := rfl
@[simp] theorem operationId_transfer (r : TransferOperationRecord) :
    (transfer r).operationId = r.operationId := rfl
@[simp] theorem operationId_prepared (r : PreparedRecord) :
    (prepared r).operationId = r.operationId := rfl
@[simp] theorem operationId_aborted (r : AbortedRecord) : (aborted r).operationId = r.operationId := rfl

@[simp] theorem isCommitted_fs (r : FsOperationRecord) : (fs r).isCommitted = true := rfl
@[simp] theorem isCommitted_exec (r : ExecOperationRecord) : (exec r).isCommitted = true := rfl
@[simp] theorem isCommitted_transfer (r : TransferOperationRecord) :
    (transfer r).isCommitted = true := rfl
@[simp] theorem isCommitted_prepared (r : PreparedRecord) : (prepared r).isCommitted = false := rfl
@[simp] theorem isCommitted_aborted (r : AbortedRecord) : (aborted r).isCommitted = false := rfl

end AnyOperationRecord

/-! ## Requests and results -/

/-- One replacement inside an edit. -/
structure EditSpec where
  oldText : String
  newText : String
  replaceAll : Bool
  deriving DecidableEq, Repr

/-- The requests that the server persists, and the ones that read the store. -/
inductive RequestBody where
  | create (path content : String)
  | edit (path baseHash : String) (edits : List EditSpec)
  | exec (argv : List String) (cwd profile : Option String) (timeoutMs : Option Nat)
  | delete (path : String)
  | uploadCommit (transferId : String) (size : Nat) (sha256 : String) (durationMs : Nat)
  | downloadRecord (path : String) (size : Nat) (sha256 : String) (durationMs : Nat)
  | history (limit : Option Nat)
  | operationGet (operationId : String)
  | requestStatus (target : String)
  | gc (keep : Option Nat)
  deriving DecidableEq, Repr

structure Request where
  requestId : String
  body : RequestBody
  deriving DecidableEq, Repr

structure MutationResult where
  operationId : String
  oldHash : Option String
  newHash : String
  deriving DecidableEq, Repr

structure ExecResult where
  operationId : String
  termination : ExecTermination
  durationMs : Nat
  drainTimedOut : Bool
  stdout : ExecOutput
  stderr : ExecOutput
  deriving DecidableEq, Repr

structure TransferResult where
  operationId : String
  direction : TransferDirection
  path : String
  size : Nat
  sha256 : String
  durationMs : Nat
  deriving DecidableEq, Repr

/-- What scratch holds after a sweep, and what the sweep removed. -/
structure ScratchUsage where
  files : Nat
  bytes : Nat
  oldestDays : Option Nat
  removedFiles : Nat
  removedBytes : Nat
  deriving DecidableEq, Repr

structure GcResult where
  removedOperations : Nat
  removedRequests : Nat
  retainedOperations : Nat
  removedStaleStaging : Nat
  scratch : ScratchUsage
  deriving DecidableEq, Repr

inductive RequestStatus where
  | unknown | inProgress | done | error
  deriving DecidableEq, Repr

structure RequestStatusResult where
  target : String
  status : RequestStatus
  error : Option ProtocolError
  deriving DecidableEq, Repr

inductive ResultBody where
  | mutation (r : MutationResult)
  | exec (r : ExecResult)
  | transfer (r : TransferResult)
  | history (operations : List AnyOperationRecord)
  | operation (record : AnyOperationRecord)
  | requestStatus (r : RequestStatusResult)
  | gc (r : GcResult)
  deriving DecidableEq, Repr

inductive ServerMessage where
  | result (requestId : String) (result : ResultBody)
  | error (requestId : String) (error : ProtocolError)
  deriving DecidableEq, Repr

end RemoteWorkspace
