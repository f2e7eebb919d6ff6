import RemoteWorkspace.Server.Confined
import RemoteWorkspace.Server.Sessions
import RemoteWorkspace.Server.Sweeps

/-!
# Sweeps while uploads are under way

A server over any number of sessions that prepares, commits and aborts
uploads and collects garbage (`Server.sweepMachine`), with every staging sweep
run entry by entry, as one step of its program: nothing else happens between its
look at an entry and its removal. Other processes write and remove files; no
directory or link is new.

The registry holds staging paths as `upload_prepare` made them, and a sweep
composes paths from where it starts. The two agree as long as both are
`Physical`: a path that resolved and whose parent is a directory has no link
on it (`dir_of_resolve`), and no link comes into being later (`Narrows`).
-/

namespace RemoteWorkspace

open FileTree (Node Errno)
open FileTree.Tree
open Interleave

/-! ## The machine -/

/-- The requests about uploads that are not persisted, and those that are. -/
inductive UploadRequest where
  | prepare (path : String) (overwrite : Bool)
  | abort (transferId : String)
  | commit (requestId transferId : String) (size : Nat) (sha256 : String) (durationMs : Nat)
  | gc (requestId : String) (keep : Option Nat)

/-- What the server does for a request. The answers of `upload_prepare` and
`upload_abort` are left out. -/
def Server.upload (server : Server) : UploadRequest → ServerProg Unit
  | .prepare path overwrite => do let _ ← (uploadPrepare path overwrite).run
  | .abort transferId => do let _ ← (uploadAbort transferId).run
  | .commit requestId transferId size sha256 durationMs =>
    server.handle { requestId, body := .uploadCommit transferId size sha256 durationMs }
  | .gc requestId keep => server.handle { requestId, body := .gc keep }

/-- What another process does to the files: the clients that write staging
files, and the user. -/
inductive FileChange where
  | write (p : Path) (f : File)
  | remove (p : Path)

def FileChange.apply (t : Tree) : FileChange → Tree
  | .write p f =>
    match t.replace p f with
    | .ok t' => t'
    | .error _ => t
  | .remove p =>
    match t.unlink p with
    | .ok t' => t'
    | .error _ => t

/-- A server, and for each program the uploads that were registered when it
last took the staging paths in flight. -/
structure SweepState where
  server : ServerState
  taken : Nat → Uploads

/-- The uploads that the program number `k` took. -/
def noteTaken (k : Nat) (c : ServerCmd) (s : SweepState) : Nat → Uploads :=
  match c with
  | .uploads .inFlight => Function.update s.taken k s.server.uploads.entries
  | _ => s.taken

/-- Run one call, a staging sweep entry by entry. -/
def FsCmd.sweepExec (server : Server) : (c : FsCmd) → FsChoice → Sweep → Tree → c.Result × Tree
  | .sweepStagingDir dir inFlight, _, w, t => ((), (w.sweepStaleStagingDir inFlight staleStagingMaxAge dir t).1)
  | .sweepStagingTree root inFlight, _, w, t =>
    let swept := w.sweepStaleStagingTree inFlight staleStagingMaxAge w.depth root t
    (swept.2, swept.1)
  | c, ch, _, t => c.exec server.workspace server.sha256 ch t

def ServerCmd.sweepExec (server : Server) :
    (c : ServerCmd) → ServerChoice × Sweep → ServerState → Option (c.Result × ServerState)
  | .fs c, ch, s =>
    let r := c.sweepExec server ch.1.fs ch.2 s.tree
    some (r.1, { s with tree := r.2 })
  | c, ch, s => c.exec server.workspace server.sha256 ch.1 s

/-- Which entries of the registry a start keeps. -/
def Sweep.staged (w : Sweep) (t : Tree) (pending : PendingUpload) : Bool :=
  match t.stat pending.staging with
  | .ok (.file _) => !isStale (w.clock pending.staging) (w.modified pending.staging) staleStagingMaxAge
  | _ => false

namespace Server

variable (server : Server)

/-- The files when the process dies in a command. A sweep that is cut short has
done what one does whose last removals fail. -/
def sweepDying (x : ServerDeath × Sweep) (c : Option ServerCmd) (s : ServerState) : ServerFiles :=
  { server.dying x.1 c s with
    tree :=
      match c, x.1.fs with
      | some (.fs c), some ch => (c.sweepExec server ch x.2 s.tree).2
      | _, _ => s.tree }

def sweepMachine : Machine ServerCmd ServerCmd.Result where
  Shared := SweepState
  Durable := ServerFiles
  Request := UploadRequest
  Choice := ServerChoice × Sweep
  Cut := ServerDeath × Sweep
  Boot := ServerStart × Sweep
  Env := FileChange
  prog := server.upload
  exec k c ch s :=
    (c.sweepExec server ch s.server).map fun r => (r.1, { server := r.2, taken := noteTaken k c s })
  crash x c s := some (server.sweepDying x c s.server)
  boot b f :=
    some ((server.boot { b.1 with staged := b.2.staged f.tree } f).map id fun s =>
      { server := s, taken := fun _ => [] })
  envUp e s := { s with server := { s.server with tree := e.apply s.server.tree } }
  envDown e f := { f with tree := e.apply f.tree }

/-- A server that has never run, over any tree. -/
def sweepFresh (t : Tree) : server.sweepMachine.World :=
  .down { dir := .empty, tree := t, uploads := [] } 0

end Server

/-! ## What a program knows -/

/-- What a program has learnt of paths: the parent of the path it resolved, the
directory that parent is, the staging paths it took, and the staging paths of
the uploads it made or looked up. -/
structure SweepLocal where
  above : Option Path := none
  parent : Option Path := none
  inFlight : Option (List Path) := none
  staging : List Path := []

/-- What a call on files teaches. It makes files in the directory of the target
only, moves staging files only, and sweeps that directory or a whole root. -/
def fsLearns (ws : Workspace) (ℓ : SweepLocal) : (c : FsCmd) → c.Result → Option SweepLocal
  | .resolve _, .ok (_ :: d) => some { ℓ with above := some d }
  | .metadata d, .ok .dir => if ℓ.above = some d then some { ℓ with parent := some d } else some ℓ
  | .createDirAll _, _ => none
  | .createTemp d _ _, .ok p => if ℓ.parent = some d then some { ℓ with staging := p :: ℓ.staging } else none
  | .rename _ src _, _ => if src ∈ ℓ.staging then some ℓ else none
  | .hardLink src _, _ => if src ∈ ℓ.staging then some ℓ else none
  | .sweepStagingDir d inFlight, _ =>
    if ℓ.parent = some d ∧ ℓ.inFlight = some inFlight then some ℓ else none
  | .sweepStagingTree root inFlight, _ =>
    if (root = ws.root ∨ root = ws.scratchRoot) ∧ ℓ.inFlight = some inFlight then some ℓ else none
  | _, _ => some ℓ

def uploadsLearns (ℓ : SweepLocal) : (c : UploadCmd) → c.Result → Option SweepLocal
  | .get _, some pending => some { ℓ with staging := pending.staging :: ℓ.staging }
  | .take _, some pending => some { ℓ with staging := pending.staging :: ℓ.staging }
  | .put _ pending, _ => if pending.staging ∈ ℓ.staging then some ℓ else none
  | .inFlight, inFlight => some { ℓ with inFlight := some inFlight }
  | _, _ => some ℓ

def sweepNext (ws : Workspace) (ℓ : SweepLocal) : (c : ServerCmd) → c.Result → Option SweepLocal
  | .fs c, r => fsLearns ws ℓ c r
  | .uploads c, r => uploadsLearns ℓ c r
  | _, _ => some ℓ

/-! ## What the programs issue -/

section

variable {ws : Workspace} {ℓ : SweepLocal} {α β ε : Type}

/-- A command that teaches nothing, whatever it returns. -/
def ServerCmd.Quiet (ws : Workspace) (c : ServerCmd) : Prop := ∀ ℓ r, sweepNext ws ℓ c r = some ℓ

/-- `x` conforms, and ends without error where `P` holds. -/
def Learned (ws : Workspace) (ℓ : SweepLocal) (x : ExceptT ε ServerProg α) (P : SweepLocal → α → Prop) : Prop :=
  x.run.Conforms (sweepNext ws) (fun m o => ∀ a, o = .ok a → P m a) ℓ

theorem Learned.bind {P : SweepLocal → α → Prop} {Q : SweepLocal → β → Prop} {x : ExceptT ε ServerProg α}
    {f : α → ExceptT ε ServerProg β} (hx : Learned ws ℓ x P) (hf : ∀ m a, P m a → Learned ws m (f a) Q) :
    Learned ws ℓ (x >>= f) Q := by
  refine Prog.Conforms.bind (fun m o hm => ?_) hx
  cases o with
  | ok a => exact hf m a (hm a rfl)
  | error e => exact nofun

theorem learned_pure {P : SweepLocal → α → Prop} {a : α} (h : P ℓ a) :
    Learned ws ℓ (pure a : ExceptT ε ServerProg α) P := by
  rintro _ ⟨⟩
  exact h

theorem learned_throw {P : SweepLocal → α → Prop} (e : ε) : Learned ws ℓ (throw e : ExceptT ε ServerProg α) P := by
  rintro _ ⟨⟩

theorem learned_quiet {p : ServerProg α} (h : p.Issues (ServerCmd.Quiet ws)) :
    p.Conforms (sweepNext ws) (fun m _ => m = ℓ) ℓ := by
  induction p with
  | pure a => exact rfl
  | op c k ih => exact fun r => ⟨ℓ, h.1 ℓ r, ih r (h.2 r)⟩

theorem Learned.of_issues {x : ExceptT ε ServerProg α} (h : x.run.Issues (ServerCmd.Quiet ws)) :
    Learned ws ℓ x fun m _ => m = ℓ :=
  (learned_quiet h).mono fun _ _ hm _ _ => hm

theorem Learned.mono {P Q : SweepLocal → α → Prop} {x : ExceptT ε ServerProg α} (hx : Learned ws ℓ x P)
    (h : ∀ m a, P m a → Q m a) : Learned ws ℓ x Q :=
  Prog.Conforms.mono (fun m _ hm a ha => h m a (hm a ha)) hx

theorem learned_fs {c : FsCmd} {P : SweepLocal → c.Result → Prop}
    (h : ∀ r, ∃ m, fsLearns ws ℓ c r = some m ∧ P m r) : Learned ws ℓ (Handler.fs c) P := by
  intro r
  obtain ⟨m, hm, hP⟩ := h r
  refine ⟨m, hm, ?_⟩
  rintro _ ⟨⟩
  exact hP

theorem learned_uploads {c : UploadCmd} {P : SweepLocal → c.Result → Prop}
    (h : ∀ r, ∃ m, uploadsLearns ℓ c r = some m ∧ P m r) : Learned ws ℓ (Handler.uploads c) P := by
  intro r
  obtain ⟨m, hm, hP⟩ := h r
  refine ⟨m, hm, ?_⟩
  rintro _ ⟨⟩
  exact hP

theorem learned_orThrow {P : SweepLocal → α → Prop} {f : ε → ProtocolError} {h : Handler (Except ε α)}
    (hh : Learned ws ℓ h fun m r => ∀ a, r = .ok a → P m a) : Learned ws ℓ (Prog.orThrow f h) P := by
  refine Learned.bind hh fun m r hr => ?_
  cases r with
  | ok a => exact learned_pure (hr a rfl)
  | error e => exact learned_throw _

theorem learned_dropping {P : SweepLocal → α → Prop} {tmp : Path} {x : ExceptT ε ServerProg α}
    (hx : Learned ws ℓ x P) : Learned ws ℓ (dropping tmp x) P := by
  refine Prog.Conforms.bind (fun m o hm => ?_) hx
  cases o with
  | ok a => exact hm
  | error e => exact fun _ => ⟨m, rfl, nofun⟩

end

namespace ServerCmd

variable (ws : Workspace)

theorem quiet_store (c : StoreCmd) : (ServerCmd.store c).Quiet ws := fun _ _ => rfl

theorem quiet_fs {c : FsCmd} (h : ∀ ℓ r, fsLearns ws ℓ c r = some ℓ) : (ServerCmd.fs c).Quiet ws := h

end ServerCmd

/-! ## The programs -/

section

open Handler

variable {ws : Workspace} {ℓ : SweepLocal} {path : String} {α : Type}

theorem learned_stored (p : StoreProg (Except ProtocolError α)) : Learned ws ℓ (stored p) fun m _ => m = ℓ :=
  .of_issues (issues_stored (ServerCmd.quiet_store ws) p)

theorem learned_store (p : StoreProg α) : Learned ws ℓ (store p) fun m _ => m = ℓ :=
  .of_issues (issues_store (ServerCmd.quiet_store ws) p)

theorem learned_resolve :
    Learned ws ℓ (resolve path) fun m abs => ∀ n d, abs = n :: d → m.above = some d := by
  refine learned_orThrow (learned_fs fun r => ?_)
  cases r with
  | error e => exact ⟨ℓ, rfl, nofun⟩
  | ok abs =>
    cases abs with
    | nil =>
      refine ⟨ℓ, rfl, ?_⟩
      rintro _ ⟨⟩
      exact nofun
    | cons n d =>
      refine ⟨_, rfl, ?_⟩
      rintro _ ⟨⟩ _ _ ⟨⟩
      rfl

theorem learned_checkParent {d : Path} (h : ℓ.above = some d) :
    Learned ws ℓ (checkParent path d) fun m _ => m.parent = some d := by
  refine Learned.bind (P := fun m r => r = .ok .dir → m.parent = some d) (learned_fs fun r => ?_) fun m r hm => ?_
  · rcases r with e | x
    · exact ⟨ℓ, rfl, nofun⟩
    · cases x with
      | dir => exact ⟨{ ℓ with parent := some d }, by simp [fsLearns, h], fun _ => rfl⟩
      | _ => exact ⟨ℓ, rfl, nofun⟩
  · split
    · exact learned_pure (hm rfl)
    · exact learned_throw _
    · exact learned_throw _
    · exact learned_throw _

theorem learned_checkTarget (abs : Path) (overwrite : Bool) :
    Learned ws ℓ (checkTarget path abs overwrite) fun m _ => m = ℓ := by
  refine .of_issues (Prog.Issues.bindE (issues_fs (ServerCmd.quiet_fs ws fun _ _ => rfl)) fun r => ?_)
  split
  · trivial
  · split <;> trivial
  · trivial
  · trivial
  · trivial

theorem learned_registryInsert {id : String} {pending : PendingUpload} (h : pending.staging ∈ ℓ.staging) :
    Learned ws ℓ (registryInsert id pending) fun _ _ => True := by
  refine Learned.bind (P := fun _ _ => True) (learned_uploads fun r => ⟨ℓ, by simp [uploadsLearns, h], trivial⟩) ?_
  intro m _ _
  refine Learned.bind (P := fun _ _ => True) (learned_uploads fun r => ⟨m, rfl, trivial⟩) fun m r _ => ?_
  split
  · exact learned_pure trivial
  · refine Learned.bind (P := fun _ _ => True) (learned_uploads fun r => ?_) fun m _ _ => learned_throw _
    cases r with
    | none => exact ⟨m, rfl, trivial⟩
    | some pending => exact ⟨_, rfl, trivial⟩

theorem learned_uploadPrepare (overwrite : Bool) :
    Learned ws ℓ (uploadPrepare path overwrite) fun _ _ => True := by
  refine Learned.bind learned_resolve fun m abs habs => ?_
  cases abs with
  | nil => exact learned_throw _
  | cons fileName d =>
    refine Learned.bind (learned_checkParent (habs fileName d rfl)) fun m _ hparent => ?_
    refine Learned.bind (learned_checkTarget _ overwrite) ?_
    rintro m _ rfl
    refine Learned.bind (P := fun m r => m.parent = some d ∧ m.inFlight = some r)
      (learned_uploads fun r => ⟨_, rfl, hparent, rfl⟩) ?_
    rintro m inFlight ⟨hparent, hfl⟩
    refine Learned.bind (P := fun k _ => k = m) (learned_fs fun r => ⟨m, by simp [fsLearns, hparent, hfl], rfl⟩) ?_
    rintro m _ rfl
    refine Learned.bind (P := fun m staging => staging ∈ m.staging)
      (learned_orThrow (learned_fs fun r => ?_)) fun m staging hstaging => ?_
    · cases r with
      | error e => exact ⟨m, rfl, nofun⟩
      | ok p =>
        refine ⟨{ m with staging := p :: m.staging }, by simp [fsLearns, hparent], ?_⟩
        rintro _ ⟨⟩
        exact List.mem_cons_self
    · refine Learned.bind (P := fun k _ => k = m) (learned_uploads fun r => ⟨m, rfl, rfl⟩) ?_
      rintro m transferId rfl
      exact Learned.bind (learned_dropping (learned_registryInsert hstaging)) fun _ _ _ => learned_pure trivial

theorem learned_registryRemove (id : String) : Learned ws ℓ (registryRemove id) fun _ _ => True := by
  refine Learned.bind (P := fun _ _ => True) (learned_uploads fun r => ?_) fun m removed _ => ?_
  · cases r with
    | none => exact ⟨ℓ, rfl, trivial⟩
    | some pending => exact ⟨_, rfl, trivial⟩
  · refine Learned.bind (P := fun _ _ => True) (learned_orThrow (learned_uploads fun r => ⟨m, rfl, ?_⟩)) ?_
    · exact fun _ _ => trivial
    · exact fun _ _ _ => learned_pure trivial

theorem learned_uploadAbort (id : String) : Learned ws ℓ (uploadAbort id) fun _ _ => True := by
  refine Learned.bind (learned_registryRemove id) fun m removed _ => ?_
  cases removed with
  | none => exact learned_throw _
  | some pending =>
    refine Learned.bind (P := fun _ _ => True) (learned_fs fun r => ⟨m, rfl, trivial⟩) fun m r _ => ?_
    split
    · exact learned_pure trivial
    · exact learned_pure trivial
    · exact learned_throw _

/-- A look at any path: the staging paths known are the same after it. -/
theorem learned_metadata (p : Path) : Learned ws ℓ (Handler.fs (.metadata p)) fun m _ => m.staging = ℓ.staging := by
  refine learned_fs fun r => ?_
  rcases r with e | x
  · exact ⟨ℓ, rfl, rfl⟩
  · cases x with
    | dir =>
      by_cases h : ℓ.above = some p
      · exact ⟨{ ℓ with parent := some p }, by simp [fsLearns, h], rfl⟩
      · exact ⟨ℓ, by simp [fsLearns, h], rfl⟩
    | _ => exact ⟨ℓ, rfl, rfl⟩

theorem learned_checkStaging (pending : PendingUpload) (size : Nat) :
    Learned ws ℓ (checkStaging pending size) fun m _ => m.staging = ℓ.staging := by
  refine Learned.bind (P := fun m _ => m.staging = ℓ.staging)
    (learned_orThrow ((learned_metadata _).mono fun m _ hm _ _ => hm)) fun m node hm => ?_
  split
  · split
    · exact learned_throw _
    · exact learned_pure hm
  · exact learned_throw _

theorem learned_setInstalledMode (pending : PendingUpload) :
    Learned ws ℓ (setInstalledMode pending) fun m _ => m.staging = ℓ.staging := by
  refine Learned.bind (learned_metadata _) fun m r hm => ?_
  have hmode : Learned ws m (failed "chmod staging file: " (Handler.fs (.setPermissions pending.staging)))
      fun m _ => m.staging = ℓ.staging := learned_orThrow (learned_fs fun r => ⟨m, rfl, fun _ _ => hm⟩)
  split
  · exact hmode
  · exact hmode
  · exact learned_throw _

theorem learned_installUpload {pending : PendingUpload} (h : pending.staging ∈ ℓ.staging) :
    Learned ws ℓ (installUpload pending) fun _ _ => True := by
  unfold installUpload
  split
  · exact learned_orThrow (learned_fs fun r => ⟨ℓ, by simp [fsLearns, h], fun _ _ => trivial⟩)
  · refine Learned.bind (P := fun _ _ => True)
      (learned_orThrow (learned_fs fun r => ⟨ℓ, by simp [fsLearns, h], fun _ _ => trivial⟩)) fun m _ _ => ?_
    exact learned_orThrow (learned_fs fun r => ⟨m, rfl, fun _ _ => trivial⟩)

theorem learned_uploadCommit (requestId transferId : String) (size : Nat) (sha256 : String) (durationMs : Nat) :
    Learned ws ℓ (uploadCommit requestId transferId size sha256 durationMs) fun _ _ => True := by
  refine Learned.bind (P := fun m r => ∀ pending, r = some pending → pending.staging ∈ m.staging)
    (learned_uploads fun r => ?_) fun m r hr => ?_
  · cases r with
    | none => exact ⟨ℓ, rfl, nofun⟩
    | some pending =>
      refine ⟨_, rfl, ?_⟩
      rintro _ ⟨⟩
      exact List.mem_cons_self
  · cases r with
    | none => exact learned_throw _
    | some pending =>
      refine Learned.bind (learned_checkStaging pending size) fun m₁ _ h₁ => ?_
      refine Learned.bind (learned_setInstalledMode pending) fun m₂ _ h₂ => ?_
      have hstaging : pending.staging ∈ m₂.staging := h₂ ▸ h₁ ▸ hr pending rfl
      refine Learned.bind (learned_installUpload hstaging) fun m₃ _ _ => ?_
      refine Learned.bind (P := fun _ _ => True)
        (learned_orThrow (learned_fs fun r => ⟨m₃, rfl, fun _ _ => trivial⟩)) fun m₄ _ _ => ?_
      refine Learned.bind (learned_store _) fun m₅ operationId _ => ?_
      refine Learned.bind (learned_store _) fun m₆ timestampMs _ => ?_
      refine Learned.bind (learned_stored _) fun m₇ _ _ => ?_
      exact Learned.bind (learned_registryRemove transferId) fun _ _ _ => learned_pure trivial

theorem learned_gc (historyLimit keep : Option Nat) : Learned ws ℓ (gc ws historyLimit keep) fun _ _ => True := by
  unfold gc
  split
  · exact learned_throw _
  · refine Learned.bind (learned_stored _) fun m _ _ => ?_
    refine Learned.bind (P := fun m r => m.inFlight = some r) (learned_uploads fun r => ⟨_, rfl, rfl⟩) ?_
    intro m inFlight hfl
    refine Learned.bind (P := fun k _ => k = m) (learned_fs fun r => ⟨m, by simp [fsLearns, hfl], rfl⟩) ?_
    rintro m inRoot rfl
    refine Learned.bind (P := fun k _ => k = m) (learned_fs fun r => ⟨m, by simp [fsLearns, hfl], rfl⟩) ?_
    rintro m inScratch rfl
    refine Learned.bind (P := fun _ _ => True) (learned_orThrow (learned_fs fun r => ?_)) fun m _ _ => learned_pure trivial
    exact ⟨m, rfl, fun _ _ => trivial⟩

theorem quiet_finish (requestId : String) (result : Except ProtocolError ResultBody) :
    (finish requestId result).Issues (ServerCmd.Quiet ws) := by
  unfold finish
  split
  all_goals
    refine (Prog.issues_embed (ServerCmd.quiet_store ws) _).bind fun r => ?_
    split <;> trivial

/-- What runs under the write guard, and all that the server does around it. -/
theorem learned_handle (server : Server) (q : Request) {h : Handler ResultBody}
    (hnone : unpersisted q.body = none)
    (hexec : server.execute q.requestId q.body = guardedMutation q.requestId h)
    (hh : ∀ ℓ, Learned ws ℓ h fun _ _ => True) :
    (server.handle q).Conforms (sweepNext ws) (fun _ _ => True) ℓ := by
  have hreply : ∀ ℓ m, (reply m).Conforms (sweepNext ws) (fun _ _ => True) ℓ := fun ℓ m _ => ⟨ℓ, rfl, trivial⟩
  have hmutation : ∀ ℓ, (guardedMutation q.requestId h).Conforms (sweepNext ws) (fun _ _ => True) ℓ := by
    intro ℓ
    have hguard : (underGuard h).Conforms (sweepNext ws) (fun _ _ => True) ℓ := by
      rw [underGuard_eq]
      refine fun _ => ⟨ℓ, rfl, Prog.Conforms.bind (fun m o _ => ?_) (hh ℓ)⟩
      exact fun _ => ⟨m, rfl, trivial⟩
    refine Prog.Conforms.bind (fun m result _ => ?_) hguard
    exact Prog.Conforms.bind (fun m answer _ => hreply m answer) (learned_quiet (quiet_finish q.requestId result))
  unfold Server.handle
  rw [hnone]
  refine Prog.Conforms.bind (fun m r hm => ?_) (learned_quiet (Prog.issues_embed (ServerCmd.quiet_store ws) _))
  rcases r with e | _ | entry
  · exact hreply m _
  · dsimp only
    rw [hexec]
    exact hmutation m
  · dsimp only
    split
    · exact hreply m _
    · exact hreply m _
    · exact hreply m _

/-- Every program of the machine keeps to `sweepNext`. -/
theorem learned_upload (server : Server) (q : UploadRequest) :
    (server.upload q).Conforms (sweepNext server.workspace) (fun _ _ => True) {} := by
  cases q with
  | prepare path overwrite =>
    refine Prog.Conforms.bind (fun m o _ => ?_) (learned_uploadPrepare overwrite)
    trivial
  | abort transferId =>
    refine Prog.Conforms.bind (fun m o _ => ?_) (learned_uploadAbort transferId)
    trivial
  | commit requestId transferId size sha256 durationMs =>
    refine learned_handle server { requestId, body := .uploadCommit transferId size sha256 durationMs } rfl rfl fun _ => ?_
    exact learned_uploadCommit requestId transferId size sha256 durationMs
  | gc requestId keep =>
    refine learned_handle server { requestId, body := .gc keep } rfl rfl fun _ => ?_
    exact learned_gc server.historyLimit keep

end

/-! ## What holds of paths -/

section

variable {ws : Workspace} {ℓ ℓ' : SweepLocal} {t t' : Tree} {us us' taken : Uploads}

/-- The parent of a path that resolved has no link on it if it is a directory,
then or later. -/
theorem dir_of_resolve {rel n : String} {d : Path} (hr : ws.resolve t rel = .ok (n :: d)) (hn : Narrows t t')
    (hs : t'.stat d = .ok .dir) : t'.node d = some .dir := by
  rw [hn.dir]
  have hs₀ := hn.stat_dir hs
  obtain ⟨j, -, -, hreal | ⟨-, ys, z, p₀, q₀, k, -, heq, hw, hz⟩⟩ := resolve_cases hr
  · obtain ⟨k, hk⟩ := realpath_eq_ok.mp hreal
    obtain ⟨x, hx, -⟩ := stands_of_realpath hk
    exact dir_of_node hx
  · have hq₀ := dir_of_misses (stands_of_realpath hw) hz
    cases ys with
    | nil =>
      cases heq
      exact hq₀
    | cons y ys =>
      have hd : d = ys ++ z :: q₀ := (List.cons.inj heq).2
      rw [hd, stat_missing ys hq₀ (walk_maxLinks_of_misses hw hz)] at hs₀
      cases hs₀

/-- No link is on the way to the roots or to the staging files of the uploads
`us`. -/
structure Grounded (ws : Workspace) (t : Tree) (us : Uploads) : Prop where
  root : t.Physical ws.root
  scratchRoot : t.Physical ws.scratchRoot
  staging : ∀ x ∈ us, t.Physical x.2.staging

theorem Grounded.narrows (h : Grounded ws t us) (hn : Narrows t t') : Grounded ws t' us :=
  ⟨hn.physical h.root, hn.physical h.scratchRoot, fun x hx => hn.physical (h.staging x hx)⟩

theorem Grounded.of_root (h : Grounded ws t us) {root : Path} (hr : root = ws.root ∨ root = ws.scratchRoot) :
    t.Physical root := by
  rcases hr with rfl | rfl
  · exact h.root
  · exact h.scratchRoot

theorem Grounded.of_subset (h : Grounded ws t us) (hsub : ∀ x ∈ us', x ∈ us) : Grounded ws t us' :=
  { h with staging := fun x hx => h.staging x (hsub x hx) }

theorem Grounded.of_lookup (h : Grounded ws t us) {id : String} {pending : PendingUpload}
    (hl : us.lookup id = some pending) : t.Physical pending.staging := by
  obtain ⟨x, hx, rfl⟩ := Option.map_eq_some_iff.mp hl
  exact h.staging x (Keyed.mem_of_get hx)

theorem Grounded.insert (h : Grounded ws t us) {id : String} {pending : PendingUpload}
    (hp : t.Physical pending.staging) : Grounded ws t (us.insert id pending) := by
  refine { h with staging := fun x hx => ?_ }
  rcases Keyed.mem_put hx with rfl | hx
  · exact hp
  · exact h.staging x hx

/-- What a program knows is so, `taken` being the uploads that it took. -/
structure SweepLocal.Sound (ws : Workspace) (ℓ : SweepLocal) (taken : Uploads) (t : Tree) : Prop where
  above : ∀ {d}, ℓ.above = some d → ∀ {t'}, Narrows t t' → t'.stat d = .ok .dir → t'.node d = some .dir
  parent : ∀ {d}, ℓ.parent = some d → t.node d = some .dir
  inFlight : ∀ {fl}, ℓ.inFlight = some fl → fl = taken.map (fun x => x.2.staging) ∧ Grounded ws t taken
  staging : ∀ p ∈ ℓ.staging, t.Physical p

theorem SweepLocal.sound_start : SweepLocal.Sound ws {} taken t where
  above := nofun
  parent := nofun
  inFlight := nofun
  staging := nofun

theorem SweepLocal.Sound.narrows (h : ℓ.Sound ws taken t) (hn : Narrows t t') : ℓ.Sound ws taken t' where
  above hd _ hn' hs := h.above hd (hn.trans hn') hs
  parent hd := (hn.dir _).mpr (h.parent hd)
  inFlight hfl := ⟨(h.inFlight hfl).1, (h.inFlight hfl).2.narrows hn⟩
  staging p hp := hn.physical (h.staging p hp)

/-! ## Steps -/

theorem FsChoice.narrows_changes {ch : FsChoice} {r : Except Errno Tree} (h : ∀ t', r = .ok t' → Narrows t t') :
    Narrows t (ch.changes t r).2 := by
  rcases ch.changes_cases t r with ⟨e, ht⟩ | ⟨t', hr, ht⟩
  · rw [ht]
    exact .refl t
  · rw [ht]
    exact h t' hr

/-- A call that a program makes brings no directory or link into being. -/
theorem narrows_fs {server : Server} {c : FsCmd} {r : c.Result} {ch : FsChoice} {w : Sweep}
    (hn : fsLearns ws ℓ c r = some ℓ') (hs : ℓ.Sound ws taken t) (hg : Grounded ws t us) :
    Narrows t (c.sweepExec server ch w t).2 := by
  cases c with
  | createDirAll p => cases hn
  | createTemp dir before after =>
    have hmade : Narrows t (ch.changes t (t.createNew ((before ++ ch.name ++ after) :: dir)
        (.file { content := [], readable := true }))).2 :=
      FsChoice.narrows_changes fun t' h => narrows_createNew (by simp) (by simp) h
    simp only [FsCmd.sweepExec, FsCmd.exec]
    split
    · next heq => rwa [heq] at hmade
    · next heq => rwa [heq] at hmade
  | write p content => exact FsChoice.narrows_changes fun t' h => narrows_replace h
  | rename overwrite src dst =>
    simp only [fsLearns] at hn
    split at hn
    · next hsrc => exact FsChoice.narrows_changes fun t' h => narrows_move (hs.staging src hsrc) h
    · cases hn
  | hardLink src dst =>
    simp only [fsLearns] at hn
    split at hn
    · next hsrc => exact FsChoice.narrows_changes fun t' h => narrows_hardLink (hs.staging src hsrc) h
    · cases hn
  | removeFile p => exact FsChoice.narrows_changes fun t' h => narrows_unlink h
  | sweepStagingDir dir inFlight =>
    simp only [fsLearns] at hn
    split at hn
    · next hdir => exact (Sweep.removes_dir (stands_dir (hs.parent hdir.1)).physical).narrows
    · cases hn
  | sweepStagingTree root inFlight =>
    simp only [fsLearns] at hn
    split at hn
    · next hroot => exact (Sweep.removes_tree w.depth (hg.of_root hroot.1)).narrows
    · cases hn
  | sweepScratch =>
    simp only [FsCmd.sweepExec, FsCmd.exec]
    split
    · exact .refl t
    · exact narrows_removeFiles _
  | resolve | isSymlink | symlinkMetadata | metadata | read | hashFile | setPermissions | sync => exact .refl t

/-- A new file in a directory has a path without links. -/
theorem physical_createTemp (ws : Workspace) (sha256 : Sha256) {ch : FsChoice} {d p : Path} {before after : String}
    (hd : t.node d = some .dir) (he : (FsCmd.createTemp d before after).exec ws sha256 ch t = (.ok p, t')) :
    t'.Physical p := by
  simp only [FsCmd.exec] at he
  rcases ch.changes_cases t (t.createNew ((before ++ ch.name ++ after) :: d)
      (.file { content := [], readable := true })) with ⟨e, hc⟩ | ⟨t₁, hnew, hc⟩
  · rw [hc] at he
    cases he
  · rw [hc] at he
    cases he
    obtain ⟨-, hnode⟩ := createNew_cons hd hnew
    have hfile := hnode ((before ++ ch.name ++ after) :: d)
    rw [if_pos rfl] at hfile
    exact Stands.physical ⟨_, hfile, by simp⟩

/-- What a call teaches is so. -/
theorem sound_fs {server : Server} {c : FsCmd} {r : c.Result} {ch : FsChoice} {w : Sweep}
    (hn : fsLearns server.workspace ℓ c r = some ℓ') (hs : ℓ.Sound server.workspace taken t)
    (hg : Grounded server.workspace t us) (he : c.sweepExec server ch w t = (r, t')) :
    ℓ'.Sound server.workspace taken t' := by
  have ht' : t' = (c.sweepExec server ch w t).2 := by rw [he]
  have hsame : ℓ.Sound server.workspace taken t' := by
    rw [ht']
    exact hs.narrows (narrows_fs hn hs hg)
  cases c with
  | resolve rel =>
    rcases r with e | _ | ⟨n, d⟩
    · cases hn
      exact hsame
    · cases hn
      exact hsame
    · cases hn
      have hr : server.workspace.resolve t rel = .ok (n :: d) ∧ t = t' := by
        simp only [FsCmd.sweepExec, FsCmd.exec, Prod.mk.injEq] at he
        split at he
        · cases he.1
        · exact he
      obtain ⟨hr, rfl⟩ := hr
      refine { hsame with above := ?_ }
      rintro _ ⟨⟩ t' hn' hs'
      exact dir_of_resolve hr hn' hs'
  | metadata d =>
    rcases r with e | x
    · cases hn
      exact hsame
    · cases x with
      | dir =>
        simp only [fsLearns] at hn
        split at hn
        · next habove =>
          cases hn
          have hd : t.stat d = .ok .dir ∧ t = t' := by
            simp only [FsCmd.sweepExec, FsCmd.exec, Prod.mk.injEq] at he
            exact ⟨reads_ok he.1, he.2⟩
          obtain ⟨hd, rfl⟩ := hd
          refine { hsame with parent := ?_ }
          rintro _ ⟨⟩
          exact hs.above habove (.refl t) hd
        · cases hn
          exact hsame
      | _ =>
        cases hn
        exact hsame
  | createTemp dir before after =>
    rcases r with e | p
    · cases hn
      exact hsame
    · simp only [fsLearns] at hn
      split at hn
      · next hparent =>
        cases hn
        refine { hsame with staging := ?_ }
        rintro q (_ | ⟨_, hq⟩)
        · exact physical_createTemp server.workspace server.sha256 (hs.parent hparent) he
        · exact hsame.staging q hq
      · cases hn
  | createDirAll p => cases hn
  | rename _ src | hardLink src | sweepStagingDir dir | sweepStagingTree root =>
    simp only [fsLearns] at hn
    split at hn
    · cases hn
      exact hsame
    · cases hn
  | isSymlink | symlinkMetadata | read | hashFile | write | setPermissions | removeFile | sync | sweepScratch =>
    cases hn
    exact hsame

/-- A command on the registry leaves entries whose staging paths have no link
on them, and what it teaches is so. -/
theorem sound_uploads {c : UploadCmd} {r : c.Result} {ch : UploadChoice} {u u' : UploadRegistry}
    (hn : uploadsLearns ℓ c r = some ℓ') (hs : ℓ.Sound ws taken t) (hg : Grounded ws t u.entries)
    (he : c.exec ch u = (r, u')) :
    Grounded ws t u'.entries ∧ ℓ'.Sound ws (if c = .inFlight then u.entries else taken) t := by
  have hfound : ∀ id, uploadsLearns ℓ (.get id) (u.entries.lookup id) = some ℓ' → ℓ'.Sound ws taken t := by
    intro id hn
    cases hl : u.entries.lookup id with
    | none =>
      rw [hl] at hn
      cases hn
      exact hs
    | some pending =>
      rw [hl] at hn
      cases hn
      refine { hs with staging := ?_ }
      rintro q (_ | ⟨_, hq⟩)
      · exact hg.of_lookup hl
      · exact hs.staging q hq
  cases c with
  | get id =>
    cases he
    exact ⟨hg, hfound id hn⟩
  | take id =>
    cases he
    refine ⟨hg.of_subset fun x hx => (List.mem_filter.mp hx).1, hfound id ?_⟩
    rw [← hn]
    cases u.entries.lookup id <;> rfl
  | put id pending =>
    simp only [uploadsLearns] at hn
    split at hn
    · next hp =>
      cases hn
      cases he
      exact ⟨hg.insert (hs.staging _ hp), hs⟩
    · cases hn
  | save =>
    cases hn
    simp only [UploadCmd.exec] at he
    split at he
    · cases he
      exact ⟨hg, hs⟩
    · cases he
      exact ⟨hg, hs⟩
    · cases he
      exact ⟨hg, hs⟩
  | inFlight =>
    cases he
    cases hn
    refine ⟨hg, { hs with inFlight := ?_ }⟩
    rintro _ ⟨⟩
    exact ⟨rfl, hg⟩
  | newTransferId =>
    cases he
    cases hn
    exact ⟨hg, hs⟩

theorem saved_uploads (c : UploadCmd) (ch : UploadChoice) (u : UploadRegistry) :
    (c.exec ch u).2.saved = u.saved ∨ (c.exec ch u).2.saved = u.entries := by
  cases c with
  | save =>
    simp only [UploadCmd.exec]
    split
    · exact .inr rfl
    · exact .inl rfl
    · exact .inr rfl
  | _ => exact .inl rfl

theorem narrows_apply (e : FileChange) : Narrows t (e.apply t) := by
  cases e with
  | write p f =>
    simp only [FileChange.apply]
    split
    · next h => exact narrows_replace h
    · exact .refl t
  | remove p =>
    simp only [FileChange.apply]
    split
    · next h => exact narrows_unlink h
    · exact .refl t

/-- A command that is none on files or the registry leaves both. -/
theorem exec_aside {server : Server} {c : ServerCmd} {r : c.Result} {ch : ServerChoice × Sweep} {s s' : ServerState}
    (hfs : ∀ c', c ≠ .fs c') (hup : ∀ c', c ≠ .uploads c') (he : c.sweepExec server ch s = some (r, s')) :
    s'.tree = s.tree ∧ s'.uploads = s.uploads := by
  cases c with
  | fs c => exact absurd rfl (hfs c)
  | uploads c => exact absurd rfl (hup c)
  | store c =>
    obtain ⟨x, -, heq⟩ := Option.map_eq_some_iff.mp he
    cases heq
    exact ⟨rfl, rfl⟩
  | acquire =>
    simp only [ServerCmd.sweepExec, ServerCmd.exec] at he
    split at he
    · cases he
    · cases he
      exact ⟨rfl, rfl⟩
  | release | run | reply =>
    cases he
    exact ⟨rfl, rfl⟩

/-- A start reads the tree and keeps some of the uploads. -/
theorem boot_uploads (server : Server) (b : ServerStart) (f : ServerFiles) :
    match server.boot b f with
    | .inl f' => f'.tree = f.tree ∧ ∀ x ∈ f'.uploads, x ∈ f.uploads
    | .inr s => s.tree = f.tree ∧ (∀ x ∈ s.uploads.entries, x ∈ f.uploads) ∧ s.uploads.saved = s.uploads.entries := by
  have hkept : ∀ x ∈ f.uploads.filter fun x => b.staged x.2, x ∈ f.uploads := fun x hx => (List.mem_filter.mp hx).1
  unfold Server.boot
  cases b.dies with
  | some x => exact ⟨rfl, fun x hx => hx⟩
  | none =>
    dsimp only
    cases serverNew server.workspace server.sha256 f.tree b.start server.historyLimit b.prune f.dir with
    | error e => exact ⟨rfl, fun x hx => hx⟩
    | ok s =>
      cases b.save with
      | notReplaced e => exact ⟨rfl, fun x hx => hx⟩
      | unsynced e => exact ⟨rfl, hkept⟩
      | done => exact ⟨rfl, hkept, rfl⟩

end

/-! ## Runs -/

section

variable {server : Server}

/-- What holds while a server is up: no link is on the way to the staging file
of an upload, and what the programs know is so. -/
structure SweepInv (server : Server) (s : SweepState) (ctx : List SweepLocal) (n : Nat) : Prop where
  entries : Grounded server.workspace s.server.tree s.server.uploads.entries
  saved : Grounded server.workspace s.server.tree s.server.uploads.saved
  known : ∀ i (ℓ : SweepLocal), ctx[i]? = some ℓ → ℓ.Sound server.workspace (s.taken (n + i)) s.server.tree

theorem noteTaken_of_ne {k j : Nat} (h : j ≠ k) (c : ServerCmd) (s : SweepState) :
    noteTaken k c s j = s.taken j := by
  unfold noteTaken
  split
  · exact Function.update_of_ne h _ _
  · rfl

/-- One command of the program number `n + i`. -/
theorem SweepInv.exec {s : SweepState} {s' : ServerState} {ctx : List SweepLocal} {n i : Nat} {c : ServerCmd}
    {ch : ServerChoice × Sweep} {r : c.Result} {ℓ ℓ' : SweepLocal} (h : SweepInv server s ctx n)
    (hℓ : ctx[i]? = some ℓ) (hn : sweepNext server.workspace ℓ c r = some ℓ')
    (he : c.sweepExec server ch s.server = some (r, s')) :
    SweepInv server { server := s', taken := noteTaken (n + i) c s } (ctx.set i ℓ') n := by
  have hown := h.known i ℓ hℓ
  have hothers : ∀ {t' : Tree}, Narrows s.server.tree t' →
      ℓ'.Sound server.workspace (noteTaken (n + i) c s (n + i)) t' →
      ∀ j (m : SweepLocal), (ctx.set i ℓ')[j]? = some m → m.Sound server.workspace (noteTaken (n + i) c s (n + j)) t' := by
    intro t' hnarrow hnew j m hm
    rcases Machine.getElem?_set_cases hm with ⟨rfl, rfl⟩ | ⟨hji, hm⟩
    · exact hnew
    · rw [noteTaken_of_ne (by omega)]
      exact (h.known j m hm).narrows hnarrow
  by_cases hfs : ∃ c', c = .fs c'
  · obtain ⟨c', rfl⟩ := hfs
    cases he
    have hnarrow : Narrows s.server.tree (c'.sweepExec server ch.1.fs ch.2 s.server.tree).2 :=
      narrows_fs hn hown h.entries
    exact ⟨h.entries.narrows hnarrow, h.saved.narrows hnarrow,
      hothers hnarrow (sound_fs hn hown h.entries rfl)⟩
  · by_cases hup : ∃ c', c = .uploads c'
    · obtain ⟨c', rfl⟩ := hup
      cases he
      obtain ⟨hentries, hsound⟩ := sound_uploads hn hown h.entries rfl
      refine ⟨hentries, ?_, hothers (.refl _) ?_⟩
      · rcases saved_uploads c' ch.1.uploads s.server.uploads with hs | hs
        · exact hs ▸ h.saved
        · exact hs ▸ h.entries
      · cases c' with
        | inFlight =>
          simp only [noteTaken, Function.update_self]
          exact hsound
        | _ => exact hsound
    · obtain ⟨htree, huploads⟩ := exec_aside (fun c' hc => hfs ⟨c', hc⟩) (fun c' hc => hup ⟨c', hc⟩) he
      have hquiet : ℓ' = ℓ ∧ noteTaken (n + i) c s = s.taken := by
        cases c with
        | fs c' => exact absurd ⟨c', rfl⟩ hfs
        | uploads c' => exact absurd ⟨c', rfl⟩ hup
        | _ => exact ⟨(Option.some.inj hn).symm, rfl⟩
      obtain ⟨rfl, htaken⟩ := hquiet
      refine ⟨by rw [htree, huploads]; exact h.entries, by rw [htree, huploads]; exact h.saved, ?_⟩
      have hall := hothers (.refl _) (by rw [htaken]; exact hown)
      dsimp only
      rwa [htree]

/-- What a process leaves that dies in a command of one of its programs. -/
theorem grounded_dying {s : SweepState} {ctx : List SweepLocal} {n : Nat} (h : SweepInv server s ctx n)
    {c : Option ServerCmd} {x : ServerDeath × Sweep}
    (hc : ∀ c', c = some c' → ∃ (i : Nat) (ℓ : SweepLocal), ctx[i]? = some ℓ ∧ ∀ r, ∃ ℓ', sweepNext server.workspace ℓ c' r = some ℓ') :
    Grounded server.workspace (server.sweepDying x c s.server).tree (server.sweepDying x c s.server).uploads := by
  have hsaved : Grounded server.workspace s.server.tree (server.dying x.1 c s.server).uploads := by
    unfold Server.dying
    dsimp only
    split
    · next c' =>
      rcases saved_uploads c' { save := x.1.save } s.server.uploads with hs | hs
      · exact hs ▸ h.saved
      · exact hs ▸ h.entries
    · exact h.saved
  refine hsaved.narrows ?_
  unfold Server.sweepDying
  dsimp only
  split
  · next c' ch hfs =>
    obtain ⟨i, ℓ, hℓ, hnext⟩ := hc _ rfl
    obtain ⟨ℓ', hn⟩ := hnext (c'.sweepExec server ch x.2 s.server.tree).1
    exact narrows_fs hn (h.known i ℓ hℓ) h.entries
  · exact .refl _

/-- The machine keeps the invariant. -/
theorem keeps_sweepInv (server : Server) : Machine.Keeps (M := server.sweepMachine) (sweepNext server.workspace)
    (fun _ _ => true) {} (SweepInv server) (fun f _ => Grounded server.workspace f.tree f.uploads) where
  prog q := learned_upload server q
  spawn := by
    intro s ts ctx n q _ h
    refine { h with known := fun i ℓ hi => ?_ }
    rcases Machine.getElem?_concat_cases hi with ⟨rfl, -⟩ | hi
    · exact SweepLocal.sound_start
    · exact h.known i ℓ hi
  exec := by
    intro s s' ts ctx n i c ch r ℓ ℓ' _ _ h hℓ hn he
    obtain ⟨⟨r', s₁⟩, hex, heq⟩ := Option.map_eq_some_iff.mp he
    cases heq
    exact h.exec hℓ hn hex
  crash := by
    rintro s _ ts ctx n x i _ h hc _ ⟨⟩
    refine grounded_dying h fun c' hi => ?_
    cases i with
    | none => cases hi
    | some j =>
      obtain ⟨ℓ, hℓ, hnext⟩ := hc j c' rfl hi
      exact ⟨j, ℓ, hℓ, hnext⟩
  bootUp := by
    intro f s b n _ hg hb
    have hboot := boot_uploads server { b.1 with staged := b.2.staged f.tree } f
    replace hb := Option.some.inj hb
    cases ho : server.boot { b.1 with staged := b.2.staged f.tree } f with
    | inl f' =>
      rw [ho] at hb
      cases hb
    | inr s₁ =>
      rw [ho] at hb hboot
      cases hb
      obtain ⟨htree, hsub, hsaved⟩ := hboot
      have hentries : Grounded server.workspace s₁.tree s₁.uploads.entries := by
        rw [htree]
        exact hg.of_subset hsub
      refine ⟨hentries, hsaved ▸ hentries, ?_⟩
      rintro i ℓ ⟨⟩
  bootDown := by
    intro f f' b n _ hg hb
    have hboot := boot_uploads server { b.1 with staged := b.2.staged f.tree } f
    replace hb := Option.some.inj hb
    cases ho : server.boot { b.1 with staged := b.2.staged f.tree } f with
    | inl f₁ =>
      rw [ho] at hb hboot
      cases hb
      show Grounded server.workspace f₁.tree f₁.uploads
      rw [hboot.1]
      exact hg.of_subset hboot.2
    | inr s =>
      rw [ho] at hb
      cases hb
  envUp := by
    intro s ts ctx n e _ h
    have hn := narrows_apply (t := s.server.tree) e
    exact ⟨h.entries.narrows hn, h.saved.narrows hn, fun i ℓ hi => (h.known i ℓ hi).narrows hn⟩
  envDown := by
    intro f n e _ hg
    exact hg.narrows (narrows_apply e)

/-- A staging sweep: the staging paths that it was given, and the directories
that it may take files from. -/
inductive FsCmd.Sweeps : FsCmd → List Path → (Path → Prop) → Prop where
  | dir (d : Path) (inFlight : List Path) : Sweeps (.sweepStagingDir d inFlight) inFlight (· = d)
  | tree (root : Path) (inFlight : List Path) : Sweeps (.sweepStagingTree root inFlight) inFlight (root <:+ ·)

/-- The program that a step runs, if only until the process dies, and what its
sweep meets. -/
def Server.sweepOf (server : Server) : server.sweepMachine.Label → Option (Nat × Sweep)
  | .step i ch => some (i, ch.2)
  | .crash x (some i) => some (i, x.2)
  | _ => none

def Server.treeOf (server : Server) : server.sweepMachine.World → Tree
  | .down f _ => f.tree
  | .up s _ _ => s.server.tree

/-- A step that runs a call leaves what the call leaves, or nothing was done. -/
theorem tree_of_step {s : SweepState} {ts : List (ServerProg Unit)} {n i : Nat} {c : FsCmd} {w : Sweep}
    {l : server.sweepMachine.Label} {x : server.sweepMachine.World}
    (hc : Machine.inFlight ts (some i) = some (.fs c)) (hl : server.sweepOf l = some (i, w))
    (hs : Machine.step (.up s ts n) l = some x) :
    server.treeOf x = s.server.tree ∨ ∃ ch, server.treeOf x = (c.sweepExec server ch w s.server.tree).2 := by
  cases l with
  | step j ch =>
    cases hl
    obtain ⟨k, hts⟩ := Machine.getElem?_of_inFlight hc
    simp only [Machine.step, hts] at hs
    cases hs
    exact .inr ⟨ch.1.fs, rfl⟩
  | crash y j =>
    cases j with
    | none => cases hl
    | some j =>
      cases hl
      simp only [Machine.step, hc] at hs
      cases hs
      cases hfs : y.1.fs with
      | none => exact .inl (by simp only [Server.treeOf, Server.sweepDying, hfs])
      | some ch => exact .inr ⟨ch, by simp only [Server.treeOf, Server.sweepDying, hfs]⟩
  | spawn q => cases hl
  | boot b => cases hl
  | env e => cases hl

/-- What a sweep that a program issues was given, and what it removes. -/
theorem SweepInv.sweep {s : SweepState} {ctx : List SweepLocal} {n i : Nat} {c : FsCmd} {ℓ : SweepLocal}
    {inFlight : List Path} {within : Path → Prop} (h : SweepInv server s ctx n) (hℓ : ctx[i]? = some ℓ)
    (hn : ∀ r, ∃ ℓ', fsLearns server.workspace ℓ c r = some ℓ') (hc : c.Sweeps inFlight within) :
    inFlight = (s.taken (n + i)).map (fun x => x.2.staging) ∧
      (∀ x ∈ s.taken (n + i), s.server.tree.Physical x.2.staging) ∧
      ∀ (ch : FsChoice) (w : Sweep), w.Removes inFlight staleStagingMaxAge within s.server.tree
        (c.sweepExec server ch w s.server.tree).2 := by
  have hknown := h.known i ℓ hℓ
  cases hc with
  | dir d inFlight =>
    obtain ⟨ℓ', hn⟩ := hn ()
    simp only [fsLearns] at hn
    split at hn
    · next hok =>
      obtain ⟨hfl, hg⟩ := hknown.inFlight hok.2
      exact ⟨hfl, hg.staging, fun _ w => Sweep.removes_dir (stands_dir (hknown.parent hok.1)).physical⟩
    · cases hn
  | tree root inFlight =>
    obtain ⟨ℓ', hn⟩ := hn 0
    simp only [fsLearns] at hn
    split at hn
    · next hok =>
      obtain ⟨hfl, hg⟩ := hknown.inFlight hok.2
      exact ⟨hfl, hg.staging, fun _ w => Sweep.removes_tree w.depth (h.entries.of_root hok.1)⟩
    · cases hn

/-- In every run, a sweep leaves the staging file of every upload that was
registered when its program took the staging paths in flight, and takes away
nothing but abandoned staging files, however it is interleaved with other
requests, restarts and the changes of other processes, and wherever it stops. -/
theorem sweeps_spare_uploads {t : Tree} (hroot : t.Stands server.workspace.root)
    (hscratch : t.Stands server.workspace.scratchRoot) {s : SweepState} {ts : List (ServerProg Unit)} {n i : Nat}
    (hr : Machine.Run (fun _ _ => true) (server.sweepFresh t) (.up s ts n)) {c : FsCmd} {inFlight : List Path}
    {within : Path → Prop} (hc : Machine.inFlight ts (some i) = some (.fs c)) (hsweep : c.Sweeps inFlight within)
    {l : server.sweepMachine.Label} {w : Sweep} (hl : server.sweepOf l = some (i, w))
    {x : server.sweepMachine.World} (hs : Machine.step (.up s ts n) l = some x) :
    inFlight = (s.taken (n + i)).map (fun x => x.2.staging) ∧
      (∀ u ∈ s.taken (n + i), (server.treeOf x).lstat u.2.staging = s.server.tree.lstat u.2.staging) ∧
      w.Removes inFlight staleStagingMaxAge within s.server.tree (server.treeOf x) := by
  have hstart : Grounded server.workspace t [] :=
    { root := hroot.physical, scratchRoot := hscratch.physical, staging := fun _ hu => absurd hu List.not_mem_nil }
  obtain ⟨ctx, hinv, hconf⟩ := Machine.inv_of_run (keeps_sweepInv server) (show Machine.Inv _ _ _ (server.sweepFresh t) from hstart) hr
  obtain ⟨k, hts⟩ := Machine.getElem?_of_inFlight hc
  obtain ⟨ℓ, hℓ, hcf⟩ := Machine.conforms_getElem? hconf hts
  obtain ⟨hfl, hstaging, hremoves⟩ := hinv.sweep hℓ (fun r => let ⟨ℓ', hn, _⟩ := hcf r; ⟨ℓ', hn⟩) hsweep
  have hrem : w.Removes inFlight staleStagingMaxAge within s.server.tree (server.treeOf x) := by
    rcases tree_of_step hc hl hs with heq | ⟨ch, heq⟩
    · rw [heq]
      exact .refl
    · rw [heq]
      exact hremoves ch w
  refine ⟨hfl, fun u hu => ?_, hrem⟩
  have hp := hstaging u hu
  refine hp.lstat_eq (hrem.narrows.physical hp) (hrem.spares ?_)
  rw [hfl]
  exact List.mem_map_of_mem hu

/-- A sweep that finds everything old. -/
def agedEntries (names : List String) : Sweep where
  entries := fun _ => some names
  modified := fun _ => some 0
  clock := fun _ => staleStagingMaxAge

/-- An upload is prepared, and another one up to its sweep. -/
def secondPrepare : List homeServer.sweepMachine.Label :=
  .boot ({ start := plainStart }, {}) :: .spawn (.prepare "a" false) ::
    List.replicate 9 (.step 0 ({ fs := { name := "x" }, uploads := { transferId := "t" } }, {})) ++
    .spawn (.prepare "b" false) :: List.replicate 4 (.step 1 (steady, {}))

theorem sweeps_spare_uploads_prepared : ∃ s ts n x,
    Machine.okSteps (fun _ _ => true) (homeServer.sweepFresh homeTree) secondPrepare = some (.up s ts n) ∧
      Machine.step (.up s ts n) (.step 1 (steady, agedEntries [".remote-workspace-upload.a.x.part"])) = some x ∧
      (s.taken (n + 1)).map (fun u => u.2.staging) = [[".remote-workspace-upload.a.x.part", "ws"]] ∧
      ∀ u ∈ s.taken (n + 1), (homeServer.treeOf x).lstat u.2.staging = s.server.tree.lstat u.2.staging := by
  have hroot : homeTree.Stands homeServer.workspace.root := stands_dir rfl
  have hscratch : homeTree.Stands homeServer.workspace.scratchRoot := stands_dir rfl
  refine ⟨_, _, _, _, rfl, rfl, rfl, ?_⟩
  have hrun := Machine.Run.init.okSteps (w := homeServer.sweepFresh homeTree)
    (rfl : Machine.okSteps (fun _ _ => true) (homeServer.sweepFresh homeTree) secondPrepare = some _)
  exact (sweeps_spare_uploads hroot hscratch hrun rfl (.dir _ _)
    (l := .step 1 (steady, agedEntries [".remote-workspace-upload.a.x.part"])) rfl rfl).2.1

end

end RemoteWorkspace
