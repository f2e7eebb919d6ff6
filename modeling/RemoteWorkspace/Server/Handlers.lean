import RemoteWorkspace.Lib.Alone
import RemoteWorkspace.Lib.Text
import RemoteWorkspace.Server.Edits
import RemoteWorkspace.Server.Steps

/-!
# The handlers

The mutations of `fs_ops.rs`, the upload and download requests of
`transfer.rs`, and `Server::handle` with `handle_exec` and `finish`, as
programs over the steps of `ServerCmd`. A handler that returns a `Result` is an
`ExceptT` over such programs, and its early returns are `throw`.

A new file that is dropped before it is installed is removed (`dropping`).
-/

namespace RemoteWorkspace

open FileTree (Node Errno)
open Interleave

namespace Handler

open Prog (orThrow)

def fs (c : FsCmd) : Handler c.Result := ExceptT.lift (Prog.call (ServerCmd.fs c))

def uploads (c : UploadCmd) : Handler c.Result := ExceptT.lift (Prog.call (ServerCmd.uploads c))

def store {α : Type} (p : StoreProg α) : Handler α := ExceptT.lift (p.embed ServerCmd.store fun _ r => r)

/-- The `?` on an `io::Error`. -/
def io {α : Type} (h : Handler (Except Errno α)) : Handler α := orThrow ioError h

/-- An `io::Error` named by the step that failed. -/
def failed {α : Type} (step : String) (h : Handler (Except Errno α)) : Handler α :=
  orThrow (fun e => .new .ioError (step ++ errnoText e)) h

/-- The `?` on an error of the store. -/
def stored {α : Type} (p : StoreProg (Except ProtocolError α)) : Handler α := orThrow id (store p)

end Handler

open Handler
open Prog (orThrow)

/-! ## Write-ahead mutations -/

/-- A failed install, and whether it left the workspace changed. -/
structure InstallFailure where
  changed : Bool
  error : ProtocolError
  deriving DecidableEq, Repr

/-- What installs a file. -/
abbrev Install := ExceptT InstallFailure ServerProg

/-- A step of an install, which names the step that failed. -/
def Install.step {α : Type} (changed : Bool) (f : Errno → ProtocolError)
    (p : ServerProg (Except Errno α)) : Install α := do
  match ← ExceptT.lift p with
  | .ok a => return a
  | .error e => throw { changed, error := f e }

def Install.fs (c : FsCmd) : ServerProg c.Result := Prog.call (ServerCmd.fs c)

/-- `p`, and if it fails the new file `tmp` is dropped. -/
def dropping {ε α : Type} (tmp : Path) (p : ExceptT ε ServerProg α) : ExceptT ε ServerProg α :=
  ExceptT.mk do
    match ← p.run with
    | .ok a => return .ok a
    | .error e =>
      let _ ← Prog.call (ServerCmd.fs (.removeFile tmp))
      return .error e

def ioFailed (step : String) (e : Errno) : ProtocolError := .new .ioError (step ++ errnoText e)

def alreadyExists (path : String) : ProtocolError :=
  .new .alreadyExists ("already exists: " ++ path ++ "; modify existing files with edit")

/-- `write_temp`. -/
def writeTemp (dir : Path) : FsCmd := .createTemp dir writeStagingPrefix stagingSuffix

def atomicCreateBytes (abs : Path) (content : List UInt8) (clientPath : String) : Install Unit := do
  match abs with
  | [] => throw { changed := false, error := .new .invalidRequest "path has no parent" }
  | _ :: parent =>
    Install.step false (ioFailed "mkdir failed: ") (Install.fs (.createDirAll parent))
    let tmp ← Install.step false (ioFailed "temp file create failed: ") (Install.fs (writeTemp parent))
    dropping tmp do
      Install.step false (ioFailed "temp write failed: ") (Install.fs (.write tmp content))
      Install.step false (ioFailed "chmod temp failed: ") (Install.fs (.setPermissions tmp))
      Install.step false (fun e => if e = .exists then alreadyExists clientPath else ioFailed "install failed: " e)
        (Install.fs (.rename false tmp abs))
    -- the file, its directory and the new directories above it
    Install.step true (ioFailed "fsync after create failed: ") (Install.fs (.sync abs))

section

variable (sha256 : Sha256)

def writeAheadCreate (requestId path : String) (abs : Path) (content : List UInt8) :
    Handler (String × String) := do
  let newHash := hashBytes sha256 content
  let opId ← stored (StoreProg.prepareFsRecord requestId .create path none newHash)
  match ← ExceptT.lift (atomicCreateBytes abs content path).run with
  | .error f =>
    if f.changed = false then stored (StoreProg.abortPrepared opId)
    throw f.error
  | .ok _ =>
    stored (StoreProg.commitFsRecord opId requestId .create path none newHash)
    return (opId, newHash)

/-- A replacement written to a temp file beside its target. -/
structure StagedWrite where
  tmp : Path
  newHash : String
  deriving DecidableEq, Repr

def stageWrite (abs : Path) (content : List UInt8) : Handler StagedWrite := do
  match abs with
  | [] => throw (.new .invalidRequest "path has no parent")
  | _ :: parent =>
    failed "mkdir failed: " (fs (.createDirAll parent))
    let tmp ← failed "temp file create failed: " (fs (writeTemp parent))
    dropping tmp do
      failed "temp write failed: " (fs (.write tmp content))
      let _ ← failed "stat failed: " (fs (.metadata abs))
      failed "chmod temp failed: " (fs (.setPermissions tmp))
    return { tmp, newHash := hashBytes sha256 content }

def verifyUnchanged (abs : Path) (expected clientPath : String) : Handler Unit := do
  let now ← io (fs (.hashFile abs))
  if now ≠ some expected then
    throw ((ProtocolError.new .staleFile (clientPath ++ " changed while the edit was being prepared")).withHashes
      expected (now.getD fileDeletedSentinel))

/-- `StagedWrite::install`. -/
def StagedWrite.install (staged : StagedWrite) (abs : Path) : Install String := do
  dropping staged.tmp
    (Install.step false (ioFailed "atomic persist failed: failed to persist temporary file: ")
      (Install.fs (.rename true staged.tmp abs)))
  Install.step true (ioFailed "fsync after write failed: ") (Install.fs (.sync abs))
  return staged.newHash

def writeAheadInstall (requestId path : String) (abs : Path) (before : String) (staged : StagedWrite) :
    Handler (String × String) := do
  let newHash := staged.newHash
  let opId ← dropping staged.tmp (stored (StoreProg.prepareFsRecord requestId .edit path (some before) newHash))
  match ← ExceptT.lift (verifyUnchanged abs before path).run with
  | .error e =>
    dropping staged.tmp do
      stored (StoreProg.abortPrepared opId)
      throw e
  | .ok _ =>
    match ← ExceptT.lift (staged.install abs).run with
    | .error f =>
      if f.changed = false then stored (StoreProg.abortPrepared opId)
      throw f.error
    | .ok _ =>
      stored (StoreProg.commitFsRecord opId requestId .edit path (some before) newHash)
      return (opId, newHash)

def writeAheadDelete (requestId path : String) (abs : Path) (beforeHash : Option String) : Handler String := do
  let opId ← stored (StoreProg.prepareFsRecord requestId .delete path beforeHash fileDeletedSentinel)
  match ← fs (.removeFile abs) with
  | .error e =>
    stored (StoreProg.abortPrepared opId)
    throw (ioFailed "remove failed: " e)
  | .ok _ =>
    match abs with
    | [] => pure ()
    | _ :: parent => failed "fsync after delete: " (fs (.sync parent))
    stored (StoreProg.commitFsRecord opId requestId .delete path beforeHash fileDeletedSentinel)
    return opId

/-! ## The mutations of files -/

def resolve (path : String) : Handler Path := orThrow id (fs (.resolve path))

/-- What `create` asks of the target. -/
def checkAbsent (path : String) (abs : Path) : Handler Unit := do
  match ← fs (.symlinkMetadata abs) with
  | .ok _ => throw (alreadyExists path)
  | .error .noEntry => pure ()
  | .error e => throw (ioError e)

def create (requestId path content : String) : Handler ResultBody := do
  if content.utf8ByteSize > maxTextBytes then
    throw (.new .invalidRequest ("content exceeds " ++ maxTextBytes.repr ++
      " bytes; use upload_file for large files"))
  let abs ← resolve path
  checkAbsent path abs
  let (operationId, newHash) ← writeAheadCreate sha256 requestId path abs (Text.utf8 content.toList)
  return .mutation { operationId, oldHash := none, newHash }

def notARegularFile (path : String) : ProtocolError := .new .notAFile ("not a regular file: " ++ path)

/-- What `edit` asks of the target. -/
def checkEditable (path : String) (abs : Path) : Handler Unit := do
  match ← fs (.metadata abs) with
  | .ok (.file f) =>
    if f.content.length > maxTextBytes then
      throw (.new .invalidRequest ("file exceeds " ++ maxTextBytes.repr ++
        " bytes; edit does not support files this large"))
  | .ok _ => throw (notARegularFile path)
  | .error .noEntry =>
    throw (.new .notFound ("not found: " ++ path ++ "; new files are created with create, not edit"))
  | .error e => throw (.new .ioError (errnoText e))

/-- What the edits make of the file, as text. -/
def editedText (path current : String) (edits : List EditSpec) (original : List UInt8) : Handler (List Char) := do
  match Text.utf8? original with
  | none => throw (.new .invalidRequest "file is not valid UTF-8; editing binary files is unsupported")
  | some original =>
    let newContent ← orThrow id (pure (applyEdits path edits original))
    if hashBytes sha256 (Text.utf8 newContent) = current then
      throw (.new .invalidRequest ("the replacements leave " ++ path ++ " unchanged; nothing to do"))
    return newContent

/-- A character as `{:?}` shows it. -/
def debugChar (c : Char) : String :=
  if c = '"' then "\\\""
  else if c = '\\' then "\\\\"
  else if c = '\n' then "\\n"
  else if c = '\r' then "\\r"
  else if c = '\t' then "\\t"
  else if c.toNat = 0 then "\\0"
  else if c.toNat < 32 ∨ c.toNat = 127 then "\\u\x7b" ++ String.ofList (Nat.toDigits 16 c.toNat) ++ "\x7d"
  else c.toString

/-- A text as `{:?}` shows it. Beyond ASCII it escapes what a table of Unicode lists as
unprintable; such characters are shown as they are here. -/
def debugText (s : String) : String := "\"" ++ String.join (s.toList.map debugChar) ++ "\""

def edit (requestId path baseHash : String) (edits : List EditSpec) : Handler ResultBody := do
  orThrow id (pure (checkEdits edits))
  let abs ← resolve path
  checkEditable path abs
  if isWellFormedHash baseHash = false then
    throw (.new .invalidRequest ("base_hash " ++ debugText baseHash ++
      " is not a hash; pass the sha256:... value returned by read_file"))
  let original ← failed "read failed: " (fs (.read abs))
  let current := hashBytes sha256 original
  if current ≠ baseHash then
    throw ((ProtocolError.new .staleFile "file changed since base_hash").withHashes baseHash current)
  let newContent ← editedText sha256 path current edits original
  let staged ← stageWrite sha256 abs (Text.utf8 newContent)
  let (operationId, newHash) ← writeAheadInstall requestId path abs current staged
  return .mutation { operationId, oldHash := some current, newHash }

/-- What `delete` asks of the target. -/
def checkDeletable (path : String) (abs : Path) : Handler Unit := do
  if ← orThrow id (fs (.isSymlink path)) then
    throw (.new .notAFile (path ++ " is a symlink; remove the link itself with run_command"))
  match ← fs (.metadata abs) with
  | .ok (.file _) => pure ()
  | .ok .dir => throw (.new .isADirectory ("not a file: " ++ path))
  | .ok _ => throw (notARegularFile path)
  | .error .noEntry => throw (.new .notFound ("not found: " ++ path))
  | .error e => throw (ioError e)

def delete (requestId path : String) : Handler ResultBody := do
  let abs ← resolve path
  checkDeletable path abs
  let beforeHash ← io (fs (.hashFile abs))
  let operationId ← writeAheadDelete requestId path abs beforeHash
  return .mutation { operationId, oldHash := beforeHash, newHash := fileDeletedSentinel }

end

/-! ## Uploads -/

/-- `UploadRegistry::insert`. -/
def registryInsert (id : String) (pending : PendingUpload) : Handler Unit := do
  uploads (.put id pending)
  match ← uploads .save with
  | .ok _ => pure ()
  | .error e =>
    let _ ← uploads (.take id)
    throw (.new .ioError ("persist pending upload: " ++ e))

/-- `UploadRegistry::remove`. -/
def registryRemove (id : String) : Handler (Option PendingUpload) := do
  let removed ← uploads (.take id)
  orThrow (fun e => .new .ioError ("persist pending upload removal: " ++ e)) (uploads .save)
  return removed

def unknownTransfer (transferId : String) : ProtocolError :=
  .new .operationNotFound ("unknown transfer id: " ++ transferId)

structure UploadPrepareResult where
  transferId : String
  stagingPath : String
  deriving DecidableEq, Repr

/-- A path as text. -/
def pathText (p : Path) : String := "/" ++ "/".intercalate p.reverse

/-- As many characters as fit into `n` bytes. -/
def truncateText : Nat → List Char → List Char
  | _, [] => []
  | n, c :: cs => if c.utf8Size ≤ n then c :: truncateText (n - c.utf8Size) cs else []

/-- `STAGING_NAME_BYTES`. -/
def stagingNameBytes : Nat := 64

/-- What `upload_prepare` asks of the directory. -/
def checkParent (path : String) (parent : Path) : Handler Unit := do
  match ← fs (.metadata parent) with
  | .ok .dir => pure ()
  | .ok _ => throw (.new .notADirectory ("parent of " ++ path ++ " is not a directory"))
  | .error .noEntry =>
    throw (.new .notFound ("parent directory of " ++ path ++ " does not exist; create it first"))
  | .error e => throw (ioError e)

/-- What `upload_prepare` asks of the target. -/
def checkTarget (path : String) (abs : Path) (overwrite : Bool) : Handler Unit := do
  match ← fs (.symlinkMetadata abs) with
  | .ok .dir => throw (.new .isADirectory ("is a directory: " ++ path))
  | .ok (.file _) =>
    if overwrite = false then
      throw (.new .invalidRequest ("target already exists: " ++ path ++ "; pass overwrite=true to replace it"))
  | .ok _ => throw (.new .notAFile ("target exists and is not a regular file: " ++ path))
  | .error .noEntry => pure ()
  | .error e => throw (ioError e)

def uploadPrepare (path : String) (overwrite : Bool) : Handler UploadPrepareResult := do
  let abs ← resolve path
  match abs with
  | [] => throw (.new .invalidRequest "path has no parent")
  | fileName :: parent =>
    checkParent path parent
    checkTarget path abs overwrite
    let inFlight ← uploads .inFlight
    fs (.sweepStagingDir parent inFlight)
    let kept := String.ofList (truncateText stagingNameBytes fileName.toList)
    let staging ← failed "create staging file: "
      (fs (.createTemp parent (stagingPrefix ++ kept ++ ".") stagingSuffix))
    let transferId ← uploads .newTransferId
    let pending : PendingUpload := { staging, target := abs, logicalPath := path, overwrite }
    dropping staging (registryInsert transferId pending)
    return { transferId, stagingPath := pathText staging }

/-- What `upload_commit` checks of the staging file. -/
def checkStaging (entry : PendingUpload) (size : Nat) : Handler Unit := do
  match ← failed "staging file unreadable: " (fs (.metadata entry.staging)) with
  | .file f =>
    if f.content.length ≠ size then
      throw (.new .invalidRequest ("staging file has " ++ f.content.length.repr ++
        " bytes but client declared " ++ size.repr))
  | _ => throw (.new .notAFile "staging path is not a regular file")

/-- `set_installed_mode`. -/
def setInstalledMode (entry : PendingUpload) : Handler Unit := do
  match ← fs (.metadata entry.target) with
  | .ok _ => pure ()
  | .error .noEntry => pure ()
  | .error e => throw (ioError e)
  failed "chmod staging file: " (fs (.setPermissions entry.staging))

/-- The part of `upload_commit` that puts the staging file in place. -/
def installUpload (entry : PendingUpload) : Handler Unit := do
  if entry.overwrite then
    failed "rename failed: " (fs (.rename true entry.staging entry.target))
  else
    orThrow
      (fun e =>
        if e = .exists then
          .new .invalidRequest ("target was created while the upload ran: " ++ entry.logicalPath ++
            "; pass overwrite=true to replace it")
        else ioFailed "link into place failed: " e)
      (fs (.hardLink entry.staging entry.target))
    failed "remove staging failed: " (fs (.removeFile entry.staging))

section

variable (requestId transferId : String) (size : Nat) (sha256 : String) (durationMs : Nat)

/-- The part of `upload_commit` after the file is in place. -/
def recordUpload (entry : PendingUpload) : Handler ResultBody := do
  failed "fsync target: " (fs (.sync entry.target))
  let operationId ← store (Prog.call StoreCmd.nextOperationId)
  let timestampMs ← store (Prog.call StoreCmd.now)
  stored (StoreProg.appendTransferRecord
    { operationId, requestId, direction := .upload, path := entry.logicalPath, size, sha256,
      durationMs, timestampMs })
  let _ ← registryRemove transferId
  return .transfer
    { operationId, direction := .upload, path := entry.logicalPath, size, sha256, durationMs }

def uploadCommit : Handler ResultBody := do
  match ← uploads (.get transferId) with
  | none => throw (unknownTransfer transferId)
  | some entry =>
    checkStaging entry size
    setInstalledMode entry
    installUpload entry
    recordUpload requestId transferId size sha256 durationMs entry

end

/-- The answer is the transfer id. -/
def uploadAbort (transferId : String) : Handler String := do
  match ← registryRemove transferId with
  | none => throw (unknownTransfer transferId)
  | some entry =>
    match ← fs (.removeFile entry.staging) with
    | .ok _ => pure ()
    | .error .noEntry => pure ()
    | .error e => throw (ioFailed "remove staging failed: " e)
    return transferId

/-! ## Downloads, gc and the readers of the store -/

def downloadRecord (requestId path : String) (size : Nat) (sha256 : String) (durationMs : Nat) :
    Handler ResultBody := do
  let _ ← resolve path
  let operationId ← store (Prog.call StoreCmd.nextOperationId)
  let timestampMs ← store (Prog.call StoreCmd.now)
  stored (StoreProg.appendTransferRecord
    { operationId, requestId, direction := .download, path, size, sha256, durationMs, timestampMs })
  return .transfer { operationId, direction := .download, path, size, sha256, durationMs }

def gc (ws : Workspace) (historyLimit keep : Option Nat) : Handler ResultBody := do
  match keep.or historyLimit with
  | none =>
    throw (.new .invalidRequest "server has no history limit configured; pass keep explicitly")
  | some k =>
    let s ← stored (Prog.call (StoreCmd.prune k))
    let inFlight ← uploads .inFlight
    let inRoot ← fs (.sweepStagingTree ws.root inFlight)
    let inScratch ← fs (.sweepStagingTree ws.scratchRoot inFlight)
    let scratch ← orThrow (fun e => .new .ioError ("scratch sweep failed: " ++ e)) (fs .sweepScratch)
    return .gc
      { removedOperations := s.removedOperations, removedRequests := s.removedRequests
        retainedOperations := s.retainedOperations, removedStaleStaging := inRoot + inScratch, scratch }

def historyDefaultLimit : Nat := 50

def historyMaxLimit : Nat := 100

def historyOf (limit : Option Nat) : Handler ResultBody := do
  let n := limit.getD historyDefaultLimit
  if n > historyMaxLimit then
    throw (.new .invalidRequest ("history limit must not exceed " ++ historyMaxLimit.repr))
  return .history (← store (Prog.call (StoreCmd.history (some n))))

def operationGet (operationId : String) : Handler ResultBody := do
  match ← store (Prog.call (StoreCmd.findRecord operationId)) with
  | some r => return .operation r
  | none => throw (.new .operationNotFound ("operation not found: " ++ operationId))

/-! ## `Server::handle` -/

structure Server where
  workspace : Workspace
  sha256 : Sha256
  historyLimit : Option Nat

def storeProg {α : Type} (p : StoreProg α) : ServerProg α := p.embed ServerCmd.store fun _ r => r

def opKind : RequestBody → String
  | .create _ _ => "create"
  | .edit _ _ _ => "edit"
  | .exec _ _ _ _ => "exec"
  | .delete _ => "delete"
  | .uploadCommit _ _ _ _ => "upload_commit"
  | .downloadRecord _ _ _ _ => "download_record"
  | .history _ => "history"
  | .operationGet _ => "operation_get"
  | .requestStatus _ => "request_status"
  | .gc _ => "gc"

/-- The message that `finish` makes of a result, once it is remembered. -/
def finish (requestId : String) (result : Except ProtocolError ResultBody) : ServerProg ServerMessage := do
  match result with
  | .ok body =>
    match ← storeProg (StoreProg.rememberResult requestId (.result requestId body)) with
    | .ok _ => return .result requestId body
    | .error e => return .error requestId e
  | .error e =>
    match ← storeProg (StoreProg.rememberError requestId e) with
    | .ok _ => return .error requestId e
    | .error e' => return .error requestId e'

def reply (m : ServerMessage) : ServerProg Unit := Prog.call (ServerCmd.reply m)

/-- A handler's work under the write guard. -/
def underGuard {α : Type} (h : Handler α) : ServerProg (Except ProtocolError α) := do
  Prog.call ServerCmd.acquire
  let result ← h.run
  Prog.call ServerCmd.release
  return result

theorem underGuard_eq {α : Type} (h : Handler α) :
    underGuard h = .op .acquire fun _ => h.run >>= fun o => .op .release fun _ => .pure o := rfl

/-- A mutation under the write guard, and its answer. -/
def guardedMutation (requestId : String) (h : Handler ResultBody) : ServerProg Unit := do
  let result ← underGuard h
  reply (← finish requestId result)

/-- `DEFAULT_TIMEOUT_MS` of `exec.rs`. -/
def defaultTimeoutMs : Nat := 5 * 60 * 1000

def handleExec (requestId : String) (argv : List String) (cwd profile : Option String)
    (timeoutMs : Option Nat) : ServerProg Unit := do
  let operationId ← storeProg (Prog.call StoreCmd.nextOperationId)
  match ← Prog.call (ServerCmd.run argv cwd profile timeoutMs) with
  | .ok o =>
    let timedOut : Bool := match o.termination with | .timedOut => true | _ => false
    let timestampMs ← storeProg (Prog.call StoreCmd.now)
    let record : ExecOperationRecord :=
      { operationId, requestId, argv, cwd, profile
        timeoutMs := some (timeoutMs.getD defaultTimeoutMs)
        disposition := if timedOut then .timedOut else .completed
        termination := some o.termination
        drainTimedOut := o.drainTimedOut
        durationMs := o.durationMs
        timestampMs
        error := if timedOut then
            some ("killed after " ++ (timeoutMs.getD defaultTimeoutMs).repr ++ " ms timeout") else none
        errorCode := if timedOut then some .execFailed else none
        stdout := o.stdout
        stderr := o.stderr }
    match ← storeProg (StoreProg.appendExecRecord record) with
    | .error e =>
      let _ ← storeProg (StoreProg.rememberError requestId e)
      reply (.error requestId e)
    | .ok _ =>
      let body : ServerMessage := .result requestId (.exec
        { operationId, termination := o.termination, durationMs := o.durationMs
          drainTimedOut := o.drainTimedOut, stdout := o.stdout, stderr := o.stderr })
      match ← storeProg (StoreProg.rememberResult requestId body) with
      | .error e => reply (.error requestId e)
      | .ok _ => reply body
  | .error e =>
    let timestampMs ← storeProg (Prog.call StoreCmd.now)
    let record : ExecOperationRecord :=
      { operationId, requestId, argv, cwd, profile, timeoutMs
        disposition := .rejected
        termination := none
        drainTimedOut := false
        durationMs := 0
        timestampMs
        error := some e.message
        errorCode := some e.code
        stdout := .empty
        stderr := .empty }
    let recordErr ← storeProg (StoreProg.appendExecRecord record)
    let rememberErr ← storeProg (StoreProg.rememberError requestId e)
    let report :=
      match rememberErr, recordErr with
      | .error e', _ => e'
      | .ok _, .error e' => e'
      | .ok _, .ok _ => e
    reply (.error requestId report)

/-- The handlers of the kinds that skip the idempotency store. -/
def unpersisted : RequestBody → Option (Handler ResultBody)
  | .history limit => some (historyOf limit)
  | .operationGet id => some (operationGet id)
  | .requestStatus target => some do return .requestStatus (← store (Prog.call (StoreCmd.statusForRequest target)))
  | _ => none

/-- The handlers of the kinds that run under the write guard. -/
def Server.mutation (server : Server) (requestId : String) : RequestBody → Option (Handler ResultBody)
  | .create path content => some (create server.sha256 requestId path content)
  | .edit path baseHash edits => some (edit server.sha256 requestId path baseHash edits)
  | .delete path => some (delete requestId path)
  | .uploadCommit transferId size sha256 durationMs =>
    some (uploadCommit requestId transferId size sha256 durationMs)
  | .downloadRecord path size sha256 durationMs => some (downloadRecord requestId path size sha256 durationMs)
  | .gc keep => some (gc server.workspace server.historyLimit keep)
  | _ => none

/-- What a request does once it is claimed. -/
def Server.execute (server : Server) (requestId : String) : RequestBody → ServerProg Unit
  | .exec argv cwd profile timeoutMs => handleExec requestId argv cwd profile timeoutMs
  | body =>
    match server.mutation requestId body with
    | some h => guardedMutation requestId h
    | none => pure ()

def Server.handle (server : Server) (q : Request) : ServerProg Unit := do
  match unpersisted q.body with
  | some h =>
    match ← h.run with
    | .ok body => reply (.result q.requestId body)
    | .error e => reply (.error q.requestId e)
  | none =>
    match ← storeProg (StoreProg.claimRequest q.requestId (opKind q.body)) with
    | .ok none => server.execute q.requestId q.body
    | .ok (some entry) =>
      match entry.result with
      | some (.done m) => reply m
      | some (.error e) => reply (.error q.requestId e)
      | none => reply (.error q.requestId (.new .invalidRequest "request already in progress"))
    | .error e => reply (.error q.requestId e)

/-! ## What handlers issue -/

section

variable {ok : ServerCmd → Prop} {α ε : Type}

namespace Handler

theorem issues_fs {c : FsCmd} (h : ok (.fs c)) : (Handler.fs c).run.Issues ok := ⟨h, fun _ => trivial⟩

theorem issues_uploads {c : UploadCmd} (h : ok (.uploads c)) : (Handler.uploads c).run.Issues ok :=
  ⟨h, fun _ => trivial⟩

theorem issues_store (h : ∀ c, ok (.store c)) (p : StoreProg α) : (Handler.store p).run.Issues ok :=
  (Prog.issues_embed h p).bind (f := fun a => Prog.pure (Except.ok a)) fun _ => trivial

theorem issues_stored (h : ∀ c, ok (.store c)) (p : StoreProg (Except ProtocolError α)) :
    (Handler.stored p).run.Issues ok := Prog.Issues.orThrow (issues_store h p)

end Handler

theorem issues_lift {p : ServerProg α} (hp : p.Issues ok) : (ExceptT.lift p : ExceptT ε ServerProg α).run.Issues ok :=
  hp.bind (f := fun a => Prog.pure (Except.ok a)) fun _ => trivial

theorem Install.issues_step {changed : Bool} {f : Errno → ProtocolError} {p : ServerProg (Except Errno α)}
    (hp : p.Issues ok) : (Install.step changed f p).run.Issues ok := by
  refine (issues_lift hp).bindE fun r => ?_
  cases r <;> trivial

theorem issues_dropping {tmp : Path} {p : ExceptT ε ServerProg α} (htmp : ok (.fs (.removeFile tmp)))
    (hp : p.run.Issues ok) : (dropping tmp p).run.Issues ok := by
  refine hp.bind fun o => ?_
  cases o with
  | ok a => trivial
  | error e => exact ⟨htmp, fun _ => trivial⟩

theorem issues_underGuard {h : Handler α} (ha : ok .acquire) (hr : ok .release) (hh : h.run.Issues ok) :
    (underGuard h).Issues ok := by
  rw [underGuard_eq]
  refine ⟨ha, fun _ => hh.bind fun o => ?_⟩
  exact ⟨hr, fun _ => trivial⟩

end

/-! ## What handlers keep -/

section

variable {S α ε : Type} {step : (c : ServerCmd) → c.Result → S → S → Prop} {I : ServerCmd → S → Prop} {s : S}

theorem keeps_installStep {Q : α → S → Prop} {E : InstallFailure → S → Prop} {changed : Bool} {f : Errno → ProtocolError}
    {p : ServerProg (Except Errno α)} (hp : p.Keeps step I (Prog.Ends Q fun e => E { changed, error := f e }) s) :
    (Install.step changed f p).run.Keeps step I (Prog.Ends Q E) s := by
  refine Prog.Keeps.bindE hp.lift fun r s' hr => ?_
  cases r with
  | ok a => exact hr
  | error e => exact hr

/-- A new file that is dropped after a failure. -/
theorem keeps_dropping {Q : α → S → Prop} {E : ε → S → Prop} {tmp : Path} {p : ExceptT ε ServerProg α}
    (hp : p.run.Keeps step I (Prog.Ends Q E) s)
    (hdrop : ∀ e s', E e s' → I (.fs (.removeFile tmp)) s' ∧
      ∀ r s'', step (.fs (.removeFile tmp)) r s' s'' → E e s'') :
    (dropping tmp p).run.Keeps step I (Prog.Ends Q E) s := by
  refine Prog.Keeps.bind (fun o s' ho => ?_) hp
  cases o with
  | ok a => exact ho
  | error e => exact hdrop e s' ho

end

/-! A server with empty roots. -/

def homeServer : Server := { workspace := homeWorkspace, sha256 := zeroDigest, historyLimit := none }

def homeTree : Tree :=
  (FileTree.Tree.bare.set ["ws"] (some .dir) (FileTree.Tree.settable_bare "ws")).set ["scratch"] (some .dir) rfl

def homeState (t : Tree) : ServerState where
  store := { dir := .empty, nextId := 1, records := [], requests := [], logTorn := false }
  tree := t
  uploads := { entries := [], saved := [] }
  guarded := false

end RemoteWorkspace
