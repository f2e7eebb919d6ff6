import RemoteWorkspace.Lib.History
import RemoteWorkspace.Server.Handlers
import RemoteWorkspace.Store.StartUp

/-!
# Sessions of a server

A server over any number of sessions (`Server.machine`): a start loads and
recovers the store, prunes it and loads the registry of uploads; handlers run
side by side; a crash ends the session between two commands or in the middle of
one, and leaves the files. A start can fail or die as well.

What other processes do to the workspace, and what the requests that are not
persisted do to the registry and to staging files, may happen between any two
commands (`Server.machine`'s environment).
-/

namespace RemoteWorkspace

open FileTree (Node Errno)
open Interleave

/-! ## What a process that dies leaves -/

/-- How far the command under way got in the files of the store: how much of
its line, whether a marker's withdrawal was already being written, how many
files of a prune were replaced. -/
structure StoreDeath where
  cut : Cut := .nothing
  withdrawing : Bool := false
  clock : Nat := 0
  replaced : Nat := 0
  deriving DecidableEq, Repr

namespace OperationStore

/-- The files when the process dies in an append. -/
def appendCut (s : OperationStore) (c : Cut) (l : LogLine) : LogDir :=
  if s.logTorn then s.dir else s.dir.writeCut c l

end OperationStore

/-- The files when the process dies in a command. -/
def StoreCmd.dying : StoreCmd → StoreDeath → OperationStore → LogDir
  | .claim id op, x, s =>
    if (s.requests.lookup id).isSome then s.dir else s.appendCut x.cut (OperationStore.inProgressLine id op)
  | .prepare p, x, s =>
    if x.withdrawing then
      (s.appendLine (.syncFails "") (.operation (.prepared p))).2.appendCut x.cut
        (.operation (.aborted { operationId := p.operationId, timestampMs := x.clock }))
    else s.appendCut x.cut (.operation (.prepared p))
  | .append l, x, s => s.appendCut x.cut l
  | .prune keep, x, s => s.pruneCut keep x.replaced
  | _, _, s => s.dir

/-- How far a start got in the files of the store. -/
inductive StartDeath where
  | loading (repaired : Nat)
  | recovering (appended : Nat) (c : Cut)
  | pruning (replaced : Nat)
  deriving DecidableEq, Repr

/-- The logs after so many of them were repaired. -/
def LogDir.repaired (d : LogDir) : Nat → LogDir
  | 0 => d
  | 1 => { d with operations := d.operations.repair }
  | _ => { d with operations := d.operations.repair, requests := d.requests.repair }

section

variable (ws : Workspace) (sha256 : Sha256) (t : Tree) (b : Start) (limit : Option Nat) (o : PruneOutcomes)

/-- The lines a recovery appends, also where it fails. -/
def recoveredLines (s : OperationStore) : List LogLine :=
  match recover ws sha256 t b s with
  | .ok r => r.appended
  | .error (r, _) => r.appended

/-- The files when a start dies. -/
def startCut (d : LogDir) : StartDeath → LogDir
  | .loading n => d.repaired n
  | .recovering n c =>
    match OperationStore.new d with
    | .error _ => d
    | .ok s =>
      let ls := recoveredLines ws sha256 t b s
      let d' := (ls.take n).foldl LogDir.writeLine s.dir
      match ls[n]? with
      | some l => d'.writeCut c l
      | none => d'
  | .pruning n =>
    match OperationStore.new d, limit with
    | .ok s, some keep =>
      match recover ws sha256 t b s with
      | .ok r => r.store.pruneCut keep n
      | .error _ => d
    | _, _ => d

/-- The files when a start fails. -/
def startFailed (d : LogDir) : LogDir :=
  match OperationStore.new d with
  | .error _ => if d.operations.read.isSome && d.counter.isSome then d.repaired 1 else d
  | .ok s =>
    match recover ws sha256 t b s with
    | .error (r, _) => r.store.dir
    | .ok r =>
      match limit with
      | none => r.store.dir
      | some keep => (r.store.prune keep o).2.dir

end

/-! ## The machine -/

/-- What of a server outlives its process. -/
structure ServerFiles where
  dir : LogDir
  tree : Tree
  uploads : Uploads

/-- What a start takes from its surroundings. -/
structure ServerStart where
  start : Start
  prune : PruneOutcomes := .allDone
  /-- Which staging files of the registry are there, and not stale. -/
  staged : PendingUpload → Bool := fun _ => true
  save : SaveOutcome := .done
  dies : Option StartDeath := none

/-- How far the command under way got when the process died. -/
structure ServerDeath where
  store : StoreDeath := {}
  /-- A call on files may have had its effect. -/
  fs : Option FsChoice := none
  save : SaveOutcome := .done

namespace Server

variable (server : Server)

/-- The files when the process dies in a command. -/
def dying (x : ServerDeath) (c : Option ServerCmd) (s : ServerState) : ServerFiles where
  dir :=
    match c with
    | some (.store c) => c.dying x.store s.store
    | _ => s.store.dir
  tree :=
    match c, x.fs with
    | some (.fs c), some ch => (c.exec server.workspace server.sha256 ch s.tree).2
    | _, _ => s.tree
  uploads :=
    match c with
    | some (.uploads c) => (c.exec { save := x.save } s.uploads).2.saved
    | _ => s.uploads.saved

/-- A start, and where it ends: serving, or with files for the next one. -/
def boot (b : ServerStart) (f : ServerFiles) : ServerFiles ⊕ ServerState :=
  match b.dies with
  | some x =>
    .inl { f with dir := startCut server.workspace server.sha256 f.tree b.start server.historyLimit f.dir x }
  | none =>
    match serverNew server.workspace server.sha256 f.tree b.start server.historyLimit b.prune f.dir with
    | .error _ =>
      .inl { f with
        dir := startFailed server.workspace server.sha256 f.tree b.start server.historyLimit b.prune f.dir }
    | .ok s =>
      let entries := f.uploads.filter fun x => b.staged x.2
      match b.save with
      | .done =>
        .inr { store := s, tree := f.tree, uploads := { entries, saved := entries }, guarded := false }
      | .notReplaced _ => .inl { f with dir := s.dir }
      | .unsynced _ => .inl { f with dir := s.dir, uploads := entries }

/-- The server over its sessions. The number of a program is the number of the
request it answers. -/
def machine : Machine ServerCmd ServerCmd.Result where
  Shared := ServerState
  Durable := ServerFiles
  Request := Request
  Choice := ServerChoice
  Cut := ServerDeath
  Boot := ServerStart
  Env := Tree × UploadRegistry
  prog := server.handle
  exec _ := ServerCmd.exec server.workspace server.sha256
  crash x c s := some (server.dying x c s)
  boot b f := some (server.boot b f)
  envUp e s := { s with tree := e.1, uploads := e.2 }
  envDown e f := { f with tree := e.1 }

/-- A server that has never run. -/
def fresh (t : Tree) (us : Uploads) : server.machine.World :=
  .down { dir := .empty, tree := t, uploads := us } 0

end Server

end RemoteWorkspace
