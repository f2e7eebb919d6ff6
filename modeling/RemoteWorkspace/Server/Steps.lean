import RemoteWorkspace.Store.Commands
import RemoteWorkspace.Workspace

/-!
# What a handler does, step by step

A handler of the server is a program (`ServerProg`). Its commands are what it
shares with other handlers and with other processes: the operation store, the
tree of files, the registry of pending uploads, the write guard, the commands
it runs and the messages it writes. `ServerCmd.exec` says what a command does
to the server (`ServerState`), given what its environment decides
(`ServerChoice`): a system call may fail, and then changes nothing but the
directories that a `mkdir -p` had made by then.

The modes of files, their times and what of them is synced are not in the tree:
which files are old enough to be swept is the environment's choice.
-/

namespace RemoteWorkspace

open FileTree (Node Errno)
open Interleave

/-! ## Files -/

def stagingPrefix : String := ".remote-workspace-upload."

def stagingSuffix : String := ".part"

def writeStagingPrefix : String := ".remote-workspace-write."

/-- Whether a name follows the conventions of staging files. -/
def isStagingName (name : String) : Bool :=
  (stagingPrefix.toList.isPrefixOf name.toList || writeStagingPrefix.toList.isPrefixOf name.toList) &&
    stagingSuffix.toList.isSuffixOf name.toList

inductive FsCmd where
  | resolve (rel : String)
  | isSymlink (rel : String)
  | symlinkMetadata (p : Path)
  | metadata (p : Path)
  | read (p : Path)
  | hashFile (p : Path)
  | createDirAll (p : Path)
  /-- A new file in `dir` whose name has a random part. -/
  | createTemp (dir : Path) (before after : String)
  /-- `write_synced` on a new file. -/
  | write (p : Path) (content : List UInt8)
  | setPermissions (p : Path)
  /-- `rename`, or `persist` of a new file; `persist_noclobber` without
  `overwrite`. -/
  | rename (overwrite : Bool) (src dst : Path)
  | hardLink (src dst : Path)
  | removeFile (p : Path)
  | sync (p : Path)
  | sweepStagingDir (dir : Path) (inFlight : List Path)
  | sweepStagingTree (root : Path) (inFlight : List Path)
  /-- `scratch::enforce`. -/
  | sweepScratch
  deriving DecidableEq, Repr

abbrev FsCmd.Result : FsCmd → Type
  | resolve _ => Except ProtocolError Path
  | isSymlink _ => Except ProtocolError Bool
  | symlinkMetadata _ => Except Errno (Node String File)
  | metadata _ => Except Errno (Node String File)
  | read _ => Except Errno (List UInt8)
  | hashFile _ => Except Errno (Option String)
  | createDirAll _ => Except Errno Unit
  | createTemp _ _ _ => Except Errno Path
  | write _ _ => Except Errno Unit
  | setPermissions _ => Except Errno Unit
  | rename _ _ _ => Except Errno Unit
  | hardLink _ _ => Except Errno Unit
  | removeFile _ => Except Errno Unit
  | sync _ => Except Errno Unit
  | sweepStagingDir _ _ => Unit
  | sweepStagingTree _ _ => Nat
  | sweepScratch => Except String ScratchUsage

/-- What a call on files meets. -/
structure FsChoice where
  /-- The call fails with this. -/
  fault : Option Errno := none
  /-- How many of the last directories a failing `mkdir -p` does not make. -/
  unmade : Nat := 0
  /-- The random part of a new name. -/
  name : String := ""
  /-- Which files are old enough to be swept, and can be removed. -/
  gone : Path → Bool := fun _ => false
  removed : Nat := 0
  scratch : Except String ScratchUsage := .error ""

namespace FsChoice

/-- What a call that reads returns. -/
def reads {α : Type} (ch : FsChoice) (r : Except Errno α) : Except Errno α :=
  match ch.fault with
  | some e => .error e
  | none => r

/-- What a call that changes the tree returns, and the tree. -/
def changes (ch : FsChoice) (t : Tree) (r : Except Errno Tree) : Except Errno Unit × Tree :=
  match ch.reads r with
  | .ok t' => (.ok (), t')
  | .error e => (.error e, t)

theorem changes_cases (ch : FsChoice) (t : Tree) (r : Except Errno Tree) :
    (∃ e, ch.changes t r = (.error e, t)) ∨ ∃ t', r = .ok t' ∧ ch.changes t r = (.ok (), t') := by
  unfold changes reads
  cases ch.fault with
  | some e => exact .inl ⟨e, rfl⟩
  | none =>
    cases r with
    | ok t' => exact .inr ⟨t', rfl, rfl⟩
    | error e => exact .inl ⟨e, rfl⟩

end FsChoice

namespace FsCmd

/-- Run one call of a handler on the workspace `ws`. -/
def exec (ws : Workspace) (sha256 : Sha256) : (c : FsCmd) → FsChoice → Tree → c.Result × Tree
  | resolve rel, ch, t =>
    (match ch.fault with
      | some e => .error (.new .ioError ("failed to resolve path: " ++ errnoText e))
      | none => ws.resolve t rel, t)
  | isSymlink rel, ch, t =>
    (match ch.fault with
      | some e => .error (.new .ioError ("failed to resolve path: " ++ errnoText e))
      | none => ws.isSymlink t rel, t)
  | symlinkMetadata p, ch, t => (ch.reads (t.lstat p), t)
  | metadata p, ch, t => (ch.reads (t.stat p), t)
  | read p, ch, t =>
    (ch.reads do
      match ← t.stat p with
      | .file f => if f.readable then .ok f.content else .error .denied
      | .dir => .error .isDirectory
      | _ => .error .denied, t)
  | hashFile p, ch, t => (ch.reads (RemoteWorkspace.hashFile sha256 t p), t)
  | createDirAll p, ch, t =>
    match ch.fault with
    | none => ch.changes t (t.mkdirAll p)
    | some e =>
      (.error e,
        match t.mkdirAll (p.drop (ch.unmade + 1)) with
        | .ok t' => t'
        | .error _ => t)
  | createTemp dir before after, ch, t =>
    let p := (before ++ ch.name ++ after) :: dir
    match ch.changes t (t.createNew p (.file { content := [], readable := true })) with
    | (.ok _, t') => (.ok p, t')
    | (.error e, t') => (.error e, t')
  | write p content, ch, t => ch.changes t (t.replace p { content, readable := true })
  | setPermissions p, ch, t => (ch.reads ((t.stat p).map fun _ => ()), t)
  | rename overwrite src dst, ch, t => ch.changes t (t.move overwrite src dst)
  | hardLink src dst, ch, t => ch.changes t (t.hardLink src dst)
  | removeFile p, ch, t => ch.changes t (t.unlink p)
  | sync p, ch, t => (ch.reads ((t.stat p).map fun _ => ()), t)
  | sweepStagingDir dir inFlight, ch, t =>
    ((),
      match t.realpath (FileTree.comps dir) with
      | .error _ => t
      | .ok d => t.removeFiles fun
        | [] => false
        | n :: p => p = d && isStagingName n && !inFlight.contains (n :: dir) && ch.gone (n :: p))
  | sweepStagingTree root inFlight, ch, t =>
    (ch.removed,
      match t.realpath (FileTree.comps root) with
      | .error _ => t
      | .ok d => t.removeFiles fun
        | [] => false
        | n :: p => d.isSuffixOf p && isStagingName n &&
            !inFlight.contains (n :: p.take (p.length - d.length) ++ root) && ch.gone (n :: p))
  | sweepScratch, ch, t =>
    (ch.scratch,
      match t.realpath (FileTree.comps ws.scratchRoot) with
      | .error _ => t
      | .ok d => t.removeFiles fun q => d.isSuffixOf q && ch.gone q)

end FsCmd

/-! ## Pending uploads -/

structure PendingUpload where
  staging : Path
  target : Path
  logicalPath : String
  overwrite : Bool
  deriving DecidableEq, Repr

/-- The uploads of the registry, by transfer id. -/
abbrev Uploads := List (String × PendingUpload)

def Uploads.lookup (us : Uploads) (id : String) : Option PendingUpload := (Keyed.get Prod.fst id us).map Prod.snd

def Uploads.insert (us : Uploads) (id : String) (p : PendingUpload) : Uploads := Keyed.put Prod.fst (id, p) us

def Uploads.remove (us : Uploads) (id : String) : Uploads := Keyed.remove Prod.fst id us

namespace Uploads

theorem lookup_insert (us : Uploads) (id id' : String) (p : PendingUpload) :
    (us.insert id p).lookup id' = if id' = id then some p else us.lookup id' := by
  simp only [lookup, insert, Keyed.get_put]
  split <;> rfl

theorem lookup_remove (us : Uploads) (id id' : String) :
    (us.remove id).lookup id' = if id' = id then none else us.lookup id' := by
  simp only [lookup, remove, Keyed.get_remove]
  split <;> rfl

end Uploads

/-- How writing `pending_uploads.json` goes: the old file stays, or the new one
is in place but its directory is not synced. -/
inductive SaveOutcome where
  | done
  | notReplaced (e : String)
  | unsynced (e : String)
  deriving DecidableEq, Repr

/-- The registry: its entries, and the file. -/
structure UploadRegistry where
  entries : Uploads
  saved : Uploads
  deriving DecidableEq, Repr

inductive UploadCmd where
  | get (id : String)
  /-- The removal of an entry from the map. -/
  | take (id : String)
  | put (id : String) (p : PendingUpload)
  /-- `persist`, which holds the lock of the map throughout. -/
  | save
  | inFlight
  | newTransferId
  deriving DecidableEq, Repr

abbrev UploadCmd.Result : UploadCmd → Type
  | get _ => Option PendingUpload
  | take _ => Option PendingUpload
  | put _ _ => Unit
  | save => Except String Unit
  | inFlight => List Path
  | newTransferId => String

structure UploadChoice where
  save : SaveOutcome := .done
  transferId : String := ""
  deriving DecidableEq, Repr

def UploadCmd.exec : (c : UploadCmd) → UploadChoice → UploadRegistry → c.Result × UploadRegistry
  | get id, _, u => (u.entries.lookup id, u)
  | take id, _, u => (u.entries.lookup id, { u with entries := u.entries.remove id })
  | put id p, _, u => ((), { u with entries := u.entries.insert id p })
  | save, ch, u =>
    match ch.save with
    | .done => (.ok (), { u with saved := u.entries })
    | .notReplaced e => (.error e, u)
    | .unsynced e => (.error e, { u with saved := u.entries })
  | inFlight, _, u => (u.entries.map fun x => x.2.staging, u)
  | newTransferId, ch, u => (ch.transferId, u)

/-! ## The server -/

/-- What a command that ran returns. -/
structure ExecOutcome where
  termination : ExecTermination
  stdout : ExecOutput
  stderr : ExecOutput
  durationMs : Nat
  drainTimedOut : Bool
  deriving DecidableEq, Repr

inductive ServerCmd where
  | store (c : StoreCmd)
  | fs (c : FsCmd)
  | uploads (c : UploadCmd)
  /-- The write guard, taken and given back. -/
  | acquire
  | release
  /-- `exec::exec`. -/
  | run (argv : List String) (cwd profile : Option String) (timeoutMs : Option Nat)
  /-- `write_line`. -/
  | reply (m : ServerMessage)
  deriving DecidableEq, Repr

abbrev ServerCmd.Result : ServerCmd → Type
  | store c => c.Result
  | fs c => c.Result
  | uploads c => c.Result
  | acquire => Unit
  | release => Unit
  | run _ _ _ _ => Except ProtocolError ExecOutcome
  | reply _ => Unit

structure ServerChoice where
  store : StoreChoice := {}
  fs : FsChoice := {}
  uploads : UploadChoice := {}
  run : Except ProtocolError ExecOutcome := .error (.new .execFailed "")

/-- A command that meets nothing unusual. -/
def steady : ServerChoice where

structure ServerState where
  store : OperationStore
  tree : Tree
  uploads : UploadRegistry
  guarded : Bool

/-- Run one command. `none` while it blocks, and where the operation ids are
used up. -/
def ServerCmd.exec (ws : Workspace) (sha256 : Sha256) :
    (c : ServerCmd) → ServerChoice → ServerState → Option (c.Result × ServerState)
  | store c, ch, s => (c.exec ch.store s.store).map fun r => (r.1, { s with store := r.2 })
  | fs c, ch, s => some ((c.exec ws sha256 ch.fs s.tree).1, { s with tree := (c.exec ws sha256 ch.fs s.tree).2 })
  | uploads c, ch, s =>
    some ((c.exec ch.uploads s.uploads).1, { s with uploads := (c.exec ch.uploads s.uploads).2 })
  | acquire, _, s => if s.guarded then none else some ((), { s with guarded := true })
  | release, _, s => some ((), { s with guarded := false })
  | run _ _ _ _, ch, s => some (ch.run, s)
  | reply _, _, s => some ((), s)

abbrev ServerProg := Prog ServerCmd ServerCmd.Result

/-- A handler's work, which may end in an error. -/
abbrev Handler := ExceptT ProtocolError ServerProg

end RemoteWorkspace
