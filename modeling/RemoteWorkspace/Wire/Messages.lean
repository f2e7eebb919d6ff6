import RemoteWorkspace.Lib.Serde
import RemoteWorkspace.Store.Table

/-!
# Everything that goes on the wire

All requests and results (`messages.rs`), the records of the operation log
(`record.rs`), the errors (`error.rs`) and the lines of the request log
(`store.rs`), each as its derived encoding: the names of its fields and
variants, which fields are left out, null or defaulted, and what is flattened
into what. That no object repeats a key is checked where a struct is put
together.
-/

namespace RemoteWorkspace.Wire

open Serde Serde.Fields

/-! ## Messages -/

inductive RequestBody
  | list (path : String) (offset limit : Option Nat)
  | stat (path : String)
  | read (path : String) (offset limit : Option Nat)
  | create (path content : String)
  | edit (path baseHash : String) (edits : List EditSpec)
  | exec (argv : List String) (cwd profile : Option String) (timeoutMs : Option Nat)
  | delete (path : String)
  | wait (argv : List String) (cwd profile : Option String) (timeoutMs : Option Nat)
  | uploadPrepare (path : String) (overwrite : Bool)
  | uploadCommit (transferId : String) (size : Nat) (sha256 : String) (durationMs : Nat)
  | uploadAbort (transferId : String)
  | downloadRecord (path : String) (size : Nat) (sha256 : String) (durationMs : Nat)
  | history (limit : Option Nat)
  | operationGet (operationId : String)
  | requestStatus (target : String)
  | gc (keep : Option Nat)
  deriving DecidableEq

structure Request where
  requestId : String
  body : RequestBody
  deriving DecidableEq

inductive ListKind
  | file | dir | symlink
  deriving DecidableEq

structure ListEntry where
  name : String
  kind : ListKind
  size : Option Nat
  deriving DecidableEq

structure ListResult where
  entries : List ListEntry
  nextOffset : Option Nat
  deriving DecidableEq

structure FileMode where
  readable : Bool
  writable : Bool
  executable : Bool
  deriving DecidableEq

structure FileEntry where
  path : String
  kind : ListKind
  size : Nat
  hash : Option String
  mode : Option FileMode
  deriving DecidableEq

structure ReadResult where
  content : String
  hash : Option String
  truncated : Bool
  nextOffset : Option Nat
  deriving DecidableEq

inductive WaitOutcome
  | gone | timedOut | checkFailed
  deriving DecidableEq

structure WaitCheck where
  termination : ExecTermination
  stdout : ExecOutput
  stderr : ExecOutput
  deriving DecidableEq

structure WaitResult where
  outcome : WaitOutcome
  firstCheck : Bool
  checks : Nat
  waitedMs : Nat
  lastCheck : WaitCheck
  deriving DecidableEq

structure UploadPrepareResult where
  transferId : String
  stagingPath : String
  deriving DecidableEq

structure UndoResult where
  operationId : String
  restoredHash : Option String
  newHash : String
  deriving DecidableEq

structure OperationDetails where
  record : AnyOperationRecord
  deriving DecidableEq

inductive ResultBody
  | list (r : ListResult)
  | stat (stat : FileEntry)
  | read (r : ReadResult)
  | mutation (r : MutationResult)
  | exec (r : ExecResult)
  | wait (r : WaitResult)
  | undo (r : UndoResult)
  | uploadPrepare (r : UploadPrepareResult)
  | uploadAbort (transferId : String)
  | transfer (r : TransferResult)
  | history (operations : List AnyOperationRecord)
  | operation (r : OperationDetails)
  | requestStatus (r : RequestStatusResult)
  | gc (r : GcResult)
  deriving DecidableEq

inductive ServerMessage
  | result (requestId : String) (result : ResultBody)
  | error (requestId : String) (error : ProtocolError)
  deriving DecidableEq

structure RequestLogLine where
  requestId : String
  status : RequestStatus
  resultDone : Option ServerMessage
  resultError : Option ProtocolError
  op : Option String
  deriving DecidableEq

/-! ## Numbers -/

def u64 : Codec Nat := unsigned 64
def u32 : Codec Nat := unsigned 32
def usize : Codec Nat := unsigned 64
def i32 : Codec Int := signed 31

/-! ## Names -/

def errorCodeName : ErrorCode → String
  | .invalidRequest => "INVALID_REQUEST"
  | .unknownOperation => "UNKNOWN_OPERATION"
  | .pathOutsideRoot => "PATH_OUTSIDE_ROOT"
  | .notFound => "NOT_FOUND"
  | .notAFile => "NOT_A_FILE"
  | .notADirectory => "NOT_A_DIRECTORY"
  | .isADirectory => "IS_A_DIRECTORY"
  | .invalidHash => "INVALID_HASH"
  | .staleFile => "STALE_FILE"
  | .ioError => "IO_ERROR"
  | .execFailed => "EXEC_FAILED"
  | .operationNotFound => "OPERATION_NOT_FOUND"
  | .requestNotFound => "REQUEST_NOT_FOUND"
  | .patchFailed => "PATCH_FAILED"
  | .undoConflict => "UNDO_CONFLICT"
  | .alreadyExists => "ALREADY_EXISTS"
  | .noMatch => "NO_MATCH"
  | .ambiguousMatch => "AMBIGUOUS_MATCH"

def errorCode : Codec ErrorCode :=
  enumeration errorCodeName
    [.invalidRequest, .unknownOperation, .pathOutsideRoot, .notFound, .notAFile, .notADirectory, .isADirectory,
      .invalidHash, .staleFile, .ioError, .execFailed, .operationNotFound, .requestNotFound, .patchFailed,
      .undoConflict, .alreadyExists, .noMatch, .ambiguousMatch]

def operationKind : Codec OperationKind :=
  enumeration
    (fun
      | .create => "create"
      | .edit => "edit"
      | .delete => "delete"
      | .write => "write"
      | .patch => "patch"
      | .undo => "undo")
    [.create, .edit, .delete, .write, .patch, .undo]

def transferDirection : Codec TransferDirection :=
  enumeration
    (fun
      | .upload => "upload"
      | .download => "download")
    [.upload, .download]

def execDisposition : Codec ExecDisposition :=
  enumeration
    (fun
      | .completed => "completed"
      | .timedOut => "timed_out"
      | .rejected => "rejected")
    [.completed, .timedOut, .rejected]

def requestStatus : Codec RequestStatus :=
  enumeration
    (fun
      | .unknown => "unknown"
      | .inProgress => "inprogress"
      | .done => "done"
      | .error => "error")
    [.unknown, .inProgress, .done, .error]

def listKind : Codec ListKind :=
  enumeration
    (fun
      | .file => "file"
      | .dir => "dir"
      | .symlink => "symlink")
    [.file, .dir, .symlink]

def waitOutcome : Codec WaitOutcome :=
  enumeration
    (fun
      | .gone => "gone"
      | .timedOut => "timed_out"
      | .checkFailed => "check_failed")
    [.gone, .timedOut, .checkFailed]

/-! ## Errors and records -/

def protocolError : Fields ProtocolError :=
  ((required "code" errorCode).both <| (required "message" string).both <| (skipped "expected_hash" string).both <|
    skipped "actual_hash" string).as
    (fun (code, message, expectedHash, actualHash) => { code, message, expectedHash, actualHash })
    fun e => (e.code, e.message, e.expectedHash, e.actualHash)

def fsOperationRecord : Fields FsOperationRecord :=
  ((required "operation_id" string).both <| (required "request_id" string).both <| (required "kind" operationKind).both <|
    (required "path" string).both <| (skipped "before_hash" string).both <| (required "after_hash" string).both <|
    required "timestamp_ms" u64).as
    (fun (operationId, requestId, kind, path, beforeHash, afterHash, timestampMs) =>
      { operationId, requestId, kind, path, beforeHash, afterHash, timestampMs })
    fun r => (r.operationId, r.requestId, r.kind, r.path, r.beforeHash, r.afterHash, r.timestampMs)

def transferOperationRecord : Fields TransferOperationRecord :=
  ((required "operation_id" string).both <| (required "request_id" string).both <|
    (required "direction" transferDirection).both <| (required "path" string).both <| (required "size" u64).both <|
    (required "sha256" string).both <| (required "duration_ms" u64).both <| required "timestamp_ms" u64).as
    (fun (operationId, requestId, direction, path, size, sha256, durationMs, timestampMs) =>
      { operationId, requestId, direction, path, size, sha256, durationMs, timestampMs })
    fun r => (r.operationId, r.requestId, r.direction, r.path, r.size, r.sha256, r.durationMs, r.timestampMs)

def execTermination : Fields ExecTermination :=
  tagged "kind" [
    variant "exited" (required "code" i32) .exited fun
      | .exited code => some code
      | _ => none,
    variant "timed_out" .empty (fun _ => .timedOut) fun
      | .timedOut => some ()
      | _ => none,
    variant "signaled" (required "signal" i32) .signaled fun
      | .signaled signal => some signal
      | _ => none]

def execOutput : Fields ExecOutput :=
  ((required "prefix" string).both <| (required "suffix" string).both <| (required "total_bytes" u64).both <|
    required "omitted_bytes" u64).as
    (fun (prefixText, suffixText, totalBytes, omittedBytes) => { prefixText, suffixText, totalBytes, omittedBytes })
    fun o => (o.prefixText, o.suffixText, o.totalBytes, o.omittedBytes)

def execOperationRecord : Fields ExecOperationRecord :=
  ((required "operation_id" string).both <| (required "request_id" string).both <| (required "argv" (list string)).both <|
    (skipped "cwd" string).both <| (skipped "profile" string).both <| (skipped "timeout_ms" u64).both <|
    (required "disposition" execDisposition).both <| (skipped "termination" (object execTermination)).both <|
    (withDefault "drain_timed_out" bool false).both <| (required "duration_ms" u64).both <|
    (required "timestamp_ms" u64).both <| (skipped "error" string).both <| (skipped "error_code" errorCode).both <|
    (required "stdout" (object execOutput)).both <| required "stderr" (object execOutput)).as
    (fun (operationId, requestId, argv, cwd, profile, timeoutMs, disposition, termination, drainTimedOut, durationMs,
        timestampMs, error, errorCode, stdout, stderr) =>
      { operationId, requestId, argv, cwd, profile, timeoutMs, disposition, termination, drainTimedOut, durationMs,
        timestampMs, error, errorCode, stdout, stderr })
    fun r =>
      (r.operationId, r.requestId, r.argv, r.cwd, r.profile, r.timeoutMs, r.disposition, r.termination, r.drainTimedOut,
        r.durationMs, r.timestampMs, r.error, r.errorCode, r.stdout, r.stderr)

def preparedRecord : Fields PreparedRecord :=
  ((required "operation_id" string).both <| (required "request_id" string).both <| (required "kind" operationKind).both <|
    (required "path" string).both <| (skipped "before_hash" string).both <|
    (required "expected_after_hash" string).both <| required "timestamp_ms" u64).as
    (fun (operationId, requestId, kind, path, beforeHash, expectedAfterHash, timestampMs) =>
      { operationId, requestId, kind, path, beforeHash, expectedAfterHash, timestampMs })
    fun r => (r.operationId, r.requestId, r.kind, r.path, r.beforeHash, r.expectedAfterHash, r.timestampMs)

def abortedRecord : Fields AbortedRecord :=
  ((required "operation_id" string).both <| required "timestamp_ms" u64).as
    (fun (operationId, timestampMs) => { operationId, timestampMs })
    fun r => (r.operationId, r.timestampMs)

def anyOperationRecord : Fields AnyOperationRecord :=
  tagged "record_kind" [
    variant "fs" fsOperationRecord .fs fun
      | .fs r => some r
      | _ => none,
    variant "exec" execOperationRecord .exec fun
      | .exec r => some r
      | _ => none,
    variant "transfer" transferOperationRecord .transfer fun
      | .transfer r => some r
      | _ => none,
    variant "prepared" preparedRecord .prepared fun
      | .prepared r => some r
      | _ => none,
    variant "aborted" abortedRecord .aborted fun
      | .aborted r => some r
      | _ => none]

/-! ## Requests -/

def editSpec : Fields EditSpec :=
  ((required "old_text" string).both <| (required "new_text" string).both <| withDefault "replace_all" bool false).as
    (fun (oldText, newText, replaceAll) => { oldText, newText, replaceAll })
    fun e => (e.oldText, e.newText, e.replaceAll)

/-- The fields of `exec` and of `wait`. -/
def command : Fields (List String × Option String × Option String × Option Nat) :=
  (required "argv" (list string)).both <| (optional "cwd" string).both <| (optional "profile" string).both <|
    optional "timeout_ms" u64

def requestBody : Fields RequestBody :=
  tagged "op" [
    variant "list" ((required "path" string).both <| (skipped "offset" usize).both <| skipped "limit" usize)
      (fun (path, offset, limit) => .list path offset limit) fun
      | .list path offset limit => some (path, offset, limit)
      | _ => none,
    variant "stat" (required "path" string) .stat fun
      | .stat path => some path
      | _ => none,
    variant "read" ((required "path" string).both <| (optional "offset" u64).both <| optional "limit" u64)
      (fun (path, offset, limit) => .read path offset limit) fun
      | .read path offset limit => some (path, offset, limit)
      | _ => none,
    variant "create" ((required "path" string).both <| required "content" string)
      (fun (path, content) => .create path content) fun
      | .create path content => some (path, content)
      | _ => none,
    variant "edit" ((required "path" string).both <| (required "base_hash" string).both <|
        required "edits" (list (object editSpec)))
      (fun (path, baseHash, edits) => .edit path baseHash edits) fun
      | .edit path baseHash edits => some (path, baseHash, edits)
      | _ => none,
    variant "exec" command (fun (argv, cwd, profile, timeoutMs) => .exec argv cwd profile timeoutMs) fun
      | .exec argv cwd profile timeoutMs => some (argv, cwd, profile, timeoutMs)
      | _ => none,
    variant "delete" (required "path" string) .delete fun
      | .delete path => some path
      | _ => none,
    variant "wait" command (fun (argv, cwd, profile, timeoutMs) => .wait argv cwd profile timeoutMs) fun
      | .wait argv cwd profile timeoutMs => some (argv, cwd, profile, timeoutMs)
      | _ => none,
    variant "upload_prepare" ((required "path" string).both <| required "overwrite" bool)
      (fun (path, overwrite) => .uploadPrepare path overwrite) fun
      | .uploadPrepare path overwrite => some (path, overwrite)
      | _ => none,
    variant "upload_commit" ((required "transfer_id" string).both <| (required "size" u64).both <|
        (required "sha256" string).both <| required "duration_ms" u64)
      (fun (transferId, size, sha256, durationMs) => .uploadCommit transferId size sha256 durationMs) fun
      | .uploadCommit transferId size sha256 durationMs => some (transferId, size, sha256, durationMs)
      | _ => none,
    variant "upload_abort" (required "transfer_id" string) .uploadAbort fun
      | .uploadAbort transferId => some transferId
      | _ => none,
    variant "download_record" ((required "path" string).both <| (required "size" u64).both <|
        (required "sha256" string).both <| required "duration_ms" u64)
      (fun (path, size, sha256, durationMs) => .downloadRecord path size sha256 durationMs) fun
      | .downloadRecord path size sha256 durationMs => some (path, size, sha256, durationMs)
      | _ => none,
    variant "history" (optional "limit" usize) .history fun
      | .history limit => some limit
      | _ => none,
    variant "operation_get" (required "operation_id" string) .operationGet fun
      | .operationGet operationId => some operationId
      | _ => none,
    variant "request_status" (required "target_request_id" string) .requestStatus fun
      | .requestStatus target => some target
      | _ => none,
    variant "gc" (optional "keep" usize) .gc fun
      | .gc keep => some keep
      | _ => none]

def request : Fields Request :=
  ((required "request_id" string).flatten requestBody).as
    (fun (requestId, body) => { requestId, body })
    fun q => (q.requestId, q.body)

/-! ## Results -/

def listEntry : Fields ListEntry :=
  ((required "name" string).both <| (required "kind" listKind).both <| skipped "size" u64).as
    (fun (name, kind, size) => { name, kind, size })
    fun e => (e.name, e.kind, e.size)

def listResult : Fields ListResult :=
  ((required "entries" (list (object listEntry))).both <| skipped "next_offset" usize).as
    (fun (entries, nextOffset) => { entries, nextOffset })
    fun r => (r.entries, r.nextOffset)

def fileMode : Fields FileMode :=
  ((required "readable" bool).both <| (required "writable" bool).both <| required "executable" bool).as
    (fun (readable, writable, executable) => { readable, writable, executable })
    fun m => (m.readable, m.writable, m.executable)

def fileEntry : Fields FileEntry :=
  ((required "path" string).both <| (required "kind" listKind).both <| (required "size" u64).both <|
    (skipped "hash" string).both <| skipped "mode" (object fileMode)).as
    (fun (path, kind, size, hash, mode) => { path, kind, size, hash, mode })
    fun e => (e.path, e.kind, e.size, e.hash, e.mode)

def readResult : Fields ReadResult :=
  ((required "content" string).both <| (skipped "hash" string).both <| (required "truncated" bool).both <|
    skipped "next_offset" u64).as
    (fun (content, hash, truncated, nextOffset) => { content, hash, truncated, nextOffset })
    fun r => (r.content, r.hash, r.truncated, r.nextOffset)

def mutationResult : Fields MutationResult :=
  ((required "operation_id" string).both <| (optional "old_hash" string).both <| required "new_hash" string).as
    (fun (operationId, oldHash, newHash) => { operationId, oldHash, newHash })
    fun r => (r.operationId, r.oldHash, r.newHash)

def execResult : Fields ExecResult :=
  ((required "operation_id" string).both <| (required "termination" (object execTermination)).both <|
    (required "duration_ms" u64).both <| (withDefault "drain_timed_out" bool false).both <|
    (required "stdout" (object execOutput)).both <| required "stderr" (object execOutput)).as
    (fun (operationId, termination, durationMs, drainTimedOut, stdout, stderr) =>
      { operationId, termination, durationMs, drainTimedOut, stdout, stderr })
    fun r => (r.operationId, r.termination, r.durationMs, r.drainTimedOut, r.stdout, r.stderr)

def waitCheck : Fields WaitCheck :=
  ((required "termination" (object execTermination)).both <| (required "stdout" (object execOutput)).both <|
    required "stderr" (object execOutput)).as
    (fun (termination, stdout, stderr) => { termination, stdout, stderr })
    fun c => (c.termination, c.stdout, c.stderr)

def waitResult : Fields WaitResult :=
  ((required "outcome" waitOutcome).both <| (required "first_check" bool).both <| (required "checks" u32).both <|
    (required "waited_ms" u64).both <| required "last_check" (object waitCheck)).as
    (fun (outcome, firstCheck, checks, waitedMs, lastCheck) => { outcome, firstCheck, checks, waitedMs, lastCheck })
    fun r => (r.outcome, r.firstCheck, r.checks, r.waitedMs, r.lastCheck)

def undoResult : Fields UndoResult :=
  ((required "operation_id" string).both <| (optional "restored_hash" string).both <| required "new_hash" string).as
    (fun (operationId, restoredHash, newHash) => { operationId, restoredHash, newHash })
    fun r => (r.operationId, r.restoredHash, r.newHash)

def uploadPrepareResult : Fields UploadPrepareResult :=
  ((required "transfer_id" string).both <| required "staging_path" string).as
    (fun (transferId, stagingPath) => { transferId, stagingPath })
    fun r => (r.transferId, r.stagingPath)

def transferResult : Fields TransferResult :=
  ((required "operation_id" string).both <| (required "direction" transferDirection).both <|
    (required "path" string).both <| (required "size" u64).both <| (required "sha256" string).both <|
    required "duration_ms" u64).as
    (fun (operationId, direction, path, size, sha256, durationMs) =>
      { operationId, direction, path, size, sha256, durationMs })
    fun r => (r.operationId, r.direction, r.path, r.size, r.sha256, r.durationMs)

def operationDetails : Fields OperationDetails :=
  (required "record" (object anyOperationRecord)).as (fun record => { record }) fun d => d.record

def requestStatusResult : Fields RequestStatusResult :=
  ((required "target_request_id" string).both <| (required "status" requestStatus).both <|
    skipped "error" (object protocolError)).as
    (fun (target, status, error) => { target, status, error })
    fun r => (r.target, r.status, r.error)

def scratchUsage : Fields ScratchUsage :=
  ((required "files" usize).both <| (required "bytes" u64).both <| (skipped "oldest_days" u32).both <|
    (withDefault "removed_files" usize 0).both <| withDefault "removed_bytes" u64 0).as
    (fun (files, bytes, oldestDays, removedFiles, removedBytes) =>
      { files, bytes, oldestDays, removedFiles, removedBytes })
    fun u => (u.files, u.bytes, u.oldestDays, u.removedFiles, u.removedBytes)

def gcResult : Fields GcResult :=
  ((required "removed_operations" usize).both <| (required "removed_requests" usize).both <|
    (required "retained_operations" usize).both <| (withDefault "removed_stale_staging" usize 0).both <|
    withDefault "scratch" (object scratchUsage) ⟨0, 0, none, 0, 0⟩).as
    (fun (removedOperations, removedRequests, retainedOperations, removedStaleStaging, scratch) =>
      { removedOperations, removedRequests, retainedOperations, removedStaleStaging, scratch })
    fun r => (r.removedOperations, r.removedRequests, r.retainedOperations, r.removedStaleStaging, r.scratch)

def resultBody : Fields ResultBody :=
  tagged "type" [
    variant "list" listResult .list fun
      | .list r => some r
      | _ => none,
    variant "stat" (required "stat" (object fileEntry)) .stat fun
      | .stat e => some e
      | _ => none,
    variant "read" readResult .read fun
      | .read r => some r
      | _ => none,
    variant "write" mutationResult .mutation fun
      | .mutation r => some r
      | _ => none,
    variant "exec" execResult .exec fun
      | .exec r => some r
      | _ => none,
    variant "wait" waitResult .wait fun
      | .wait r => some r
      | _ => none,
    variant "undo" undoResult .undo fun
      | .undo r => some r
      | _ => none,
    variant "upload_prepare" uploadPrepareResult .uploadPrepare fun
      | .uploadPrepare r => some r
      | _ => none,
    variant "upload_abort" (required "transfer_id" string) .uploadAbort fun
      | .uploadAbort transferId => some transferId
      | _ => none,
    variant "transfer" transferResult .transfer fun
      | .transfer r => some r
      | _ => none,
    variant "history" (required "operations" (list (object anyOperationRecord))) .history fun
      | .history operations => some operations
      | _ => none,
    variant "operation" operationDetails .operation fun
      | .operation r => some r
      | _ => none,
    variant "request_status" requestStatusResult .requestStatus fun
      | .requestStatus r => some r
      | _ => none,
    variant "gc" gcResult .gc fun
      | .gc r => some r
      | _ => none]

/-! ## Server messages and the request log -/

/-- The `Result` variant of a server message. -/
def resultMessage : Fields (String × ResultBody) := (required "request_id" string).flatten resultBody

/-- The `Error` variant of a server message. -/
def errorMessage : Fields (String × ProtocolError) := (required "request_id" string).flatten protocolError

theorem needs_type : resultMessage.Needs "type" := Needs.flatten_right (needs_tagged "type" _ _ _ _) _ _

theorem needs_code : errorMessage.Needs "code" :=
  Needs.flatten_right (Needs.as (Needs.both_left (needs_required "code" errorCode) _ _) _ _ _) _ _

/-- Untagged: a `Result` if it reads as one, or else an `Error`. -/
def serverMessage : Fields ServerMessage :=
  (resultMessage.orElse errorMessage "type" needs_type).as
    (Sum.elim (fun (requestId, result) => .result requestId result) fun (requestId, error) => .error requestId error)
    (fun
      | .result requestId result => .inl (requestId, result)
      | .error requestId error => .inr (requestId, error))
    (by intro m; cases m <;> rfl)

def requestLogLine : Fields RequestLogLine :=
  ((required "request_id" string).both <| (required "status" requestStatus).both <|
    (skipped "result_done" (object serverMessage)).both <| (skipped "result_error" (object protocolError)).both <|
    skipped "op" string).as
    (fun (requestId, status, resultDone, resultError, op) => { requestId, status, resultDone, resultError, op })
    fun l => (l.requestId, l.status, l.resultDone, l.resultError, l.op)

/-! ## Reading back -/

/-- A value whose integers fit their types reads back, and none of its objects
repeats a key. -/
def ReadsBack {α : Type} (F : Fields α) : Prop :=
  ∀ a, F.InRange a → (object F).de ((object F).ser a) = some a ∧ ((object F).ser a).Clean

theorem readsBack {α : Type} (F : Fields α) : ReadsBack F := fun a ha => ⟨(object F).de_ser a ha, (object F).clean a⟩

/-- Requests, server messages, records and lines of the request log read back
from what is written, whatever their strings; an error does not read as a
result, and a result does not read as an error. -/
theorem wire_reads_back :
    ReadsBack request ∧ ReadsBack serverMessage ∧ ReadsBack anyOperationRecord ∧ ReadsBack requestLogLine ∧
      (∀ requestId error, resultMessage.de (serverMessage.ser (.error requestId error)) = none) ∧
      ∀ requestId result, errorMessage.de (serverMessage.ser (.result requestId result)) = none :=
  ⟨readsBack _, readsBack _, readsBack _, readsBack _,
    fun requestId error => needs_type.not_read errorMessage (by decide) (requestId, error),
    fun requestId result => needs_code.not_read resultMessage (by decide) (requestId, result)⟩

/-! ### An upload's longest commit -/

def longestCommit : Request := ⟨"r", .uploadCommit "t" (2 ^ 64 - 1) "s" (2 ^ 64 - 1)⟩

theorem wire_reads_back_longest_commit :
    (object request).de ((object request).ser longestCommit) = some longestCommit := by
  refine (wire_reads_back.1 longestCommit ⟨trivial, fun v hv a ha => ?_⟩).1
  simp only [List.mem_cons, List.not_mem_nil, or_false] at hv
  rcases hv with rfl | rfl | rfl | rfl | rfl | rfl | rfl | rfl | rfl | rfl | rfl | rfl | rfl | rfl | rfl | rfl <;>
    cases ha
  have hmax : (2 : Nat) ^ 64 - 1 < 2 ^ 64 := by decide
  exact ⟨trivial, hmax, trivial, hmax⟩

end RemoteWorkspace.Wire
