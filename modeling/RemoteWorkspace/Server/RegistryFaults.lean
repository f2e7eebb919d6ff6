import RemoteWorkspace.Server.Handlers

/-!
# What a failed change leaves in the registry of uploads

`insert`, `remove`, `upload_prepare` and `upload_abort` of `transfer.rs`, each
run alone in surroundings that say what every command meets. `insert` takes its
entry back when the registry cannot be saved, `remove` does not; and
`upload_abort` removes the entry before it removes the staging file. So a failed
call has left nothing half done exactly where the step that failed comes before
the first change, or is undone (`notHalfMade_iff`).
-/

namespace RemoteWorkspace

open FileTree (Node Errno)
open Interleave

/-- What every command of a call meets. No call here issues a command twice. -/
abbrev Surroundings := ServerCmd → ServerChoice

namespace Handler

variable {server : Server} {env : Surroundings} {s : ServerState} {α β : Type}

/-- What a handler returns when it runs alone, and the state it leaves. -/
def alone (server : Server) (env : Surroundings) (h : Handler α) (s : ServerState) :
    Option (Except ProtocolError α × ServerState) :=
  h.run.runIn (ServerCmd.exec server.workspace server.sha256) env s

theorem alone_bind {h : Handler α} {f : α → Handler β} :
    (h >>= f).alone server env s = (h.alone server env s).bind fun y =>
      match y.1 with
      | .ok a => (f a).alone server env y.2
      | .error e => some (.error e, y.2) := by
  refine Prog.runIn_bindE.trans ?_
  congr 1
  funext y
  obtain ⟨_ | _, s'⟩ := y <;> rfl

theorem alone_pure (a : α) : (pure a : Handler α).alone server env s = some (.ok a, s) := rfl

theorem alone_throw (e : ProtocolError) : (throw e : Handler α).alone server env s = some (.error e, s) := rfl

theorem alone_fs_bind (c : FsCmd) (f : c.Result → Handler β) :
    (fs c >>= f).alone server env s =
      (f (c.exec server.workspace server.sha256 (env (.fs c)).fs s.tree).1).alone server env
        { s with tree := (c.exec server.workspace server.sha256 (env (.fs c)).fs s.tree).2 } := rfl

theorem alone_uploads_bind (c : UploadCmd) (f : c.Result → Handler β) :
    (uploads c >>= f).alone server env s =
      (f (c.exec (env (.uploads c)).uploads s.uploads).1).alone server env
        { s with uploads := (c.exec (env (.uploads c)).uploads s.uploads).2 } := rfl

end Handler

open Handler

/-- The part of `upload_prepare` before the registration. -/
def stageUpload (path : String) (overwrite : Bool) : Handler (String × PendingUpload) := do
  let abs ← resolve path
  match abs with
  | [] => throw (.new .invalidRequest "path has no parent")
  | fileName :: parent =>
    checkParent path parent
    checkTarget path abs overwrite
    let inFlight ← uploads .inFlight
    fs (.sweepStagingDir parent inFlight)
    let kept := String.ofList (truncateText stagingNameBytes fileName.toList)
    let staging ← failed "create staging file: "
      (fs (.createTemp parent (stagingPrefix ++ kept ++ ".") stagingSuffix))
    let transferId ← uploads .newTransferId
    return (transferId, { staging, target := abs, logicalPath := path, overwrite })

theorem uploadPrepare_eq (path : String) (overwrite : Bool) :
    uploadPrepare path overwrite = do
      let (transferId, pending) ← stageUpload path overwrite
      dropping pending.staging (registryInsert transferId pending)
      return { transferId, stagingPath := pathText pending.staging } := by
  rw [uploadPrepare, stageUpload, bind_assoc]
  congr 1
  funext abs
  cases abs with
  | nil => rfl
  | cons fileName parent => simp only [bind_assoc, pure_bind]

/-! ## The steps -/

namespace Surroundings

/-- `persist` works. -/
def Saves (env : Surroundings) : Prop := (env (.uploads .save)).uploads.save = .done

/-- `remove_file` removes the file, or finds none. -/
def Removes (env : Surroundings) (t : Tree) (p : Path) : Prop :=
  let r := ((env (.fs (.removeFile p))).fs.changes t (t.unlink p)).1
  r = .ok () ∨ r = .error .noEntry

/-- A file that is there is not reported missing. -/
def Honest (env : Surroundings) : Prop := ∀ p, (env (.fs (.removeFile p))).fs.fault ≠ some .noEntry

end Surroundings

section

variable {server : Server} {env : Surroundings} {s : ServerState}

theorem registryInsert_alone (id : String) (p : PendingUpload) :
    (registryInsert id p).alone server env s =
      match (env (.uploads .save)).uploads.save with
      | .done => some (.ok (), { s with uploads :=
          { entries := s.uploads.entries.insert id p, saved := s.uploads.entries.insert id p } })
      | .notReplaced e => some (.error (.new .ioError ("persist pending upload: " ++ e)), { s with uploads :=
          { entries := (s.uploads.entries.insert id p).remove id, saved := s.uploads.saved } })
      | .unsynced e => some (.error (.new .ioError ("persist pending upload: " ++ e)), { s with uploads :=
          { entries := (s.uploads.entries.insert id p).remove id, saved := s.uploads.entries.insert id p } }) := by
  refine (alone_uploads_bind (.put id p) _).trans ((alone_uploads_bind .save _).trans ?_)
  simp only [UploadCmd.exec]
  cases (env (.uploads .save)).uploads.save <;> rfl

theorem registryRemove_alone (id : String) :
    (registryRemove id).alone server env s =
      match (env (.uploads .save)).uploads.save with
      | .done => some (.ok (s.uploads.entries.lookup id), { s with uploads :=
          { entries := s.uploads.entries.remove id, saved := s.uploads.entries.remove id } })
      | .notReplaced e => some (.error (.new .ioError ("persist pending upload removal: " ++ e)), { s with uploads :=
          { entries := s.uploads.entries.remove id, saved := s.uploads.saved } })
      | .unsynced e => some (.error (.new .ioError ("persist pending upload removal: " ++ e)), { s with uploads :=
          { entries := s.uploads.entries.remove id, saved := s.uploads.entries.remove id } }) := by
  refine (alone_uploads_bind (.take id) _).trans ?_
  rw [Prog.orThrow, bind_assoc]
  refine (alone_uploads_bind .save _).trans ?_
  simp only [UploadCmd.exec]
  cases (env (.uploads .save)).uploads.save <;> rfl

/-- A failed insertion has taken its entry back. -/
theorem registryInsert_fails (h : ¬env.Saves) (id : String) (p : PendingUpload) :
    ∃ e saved, (registryInsert id p).alone server env s =
      some (.error e, { s with uploads := { entries := (s.uploads.entries.insert id p).remove id, saved } }) := by
  rw [registryInsert_alone]
  cases ho : (env (.uploads .save)).uploads.save with
  | done => exact absurd ho h
  | notReplaced e => exact ⟨_, _, rfl⟩
  | unsynced e => exact ⟨_, _, rfl⟩

/-- A failed removal leaves the entry removed. -/
theorem registryRemove_fails (h : ¬env.Saves) (id : String) :
    ∃ e saved, (registryRemove id).alone server env s =
      some (.error e, { s with uploads := { entries := s.uploads.entries.remove id, saved } }) := by
  rw [registryRemove_alone]
  cases ho : (env (.uploads .save)).uploads.save with
  | done => exact absurd ho h
  | notReplaced e => exact ⟨_, _, rfl⟩
  | unsynced e => exact ⟨_, _, rfl⟩

/-- `upload_abort` of an entry that is registered, once that is removed. -/
theorem uploadAbort_alone (h : env.Saves) {id : String} {entry : PendingUpload}
    (hentry : s.uploads.entries.lookup id = some entry) :
    (uploadAbort id).alone server env s =
      let r := (env (.fs (.removeFile entry.staging))).fs.changes s.tree (s.tree.unlink entry.staging)
      some (match r.1 with
        | .ok _ | .error .noEntry => .ok id
        | .error e => .error (ioFailed "remove staging failed: " e),
        { s with
          tree := r.2
          uploads := { entries := s.uploads.entries.remove id, saved := s.uploads.entries.remove id } }) := by
  rw [uploadAbort, alone_bind, registryRemove_alone, h]
  simp only [Option.bind_some, hentry]
  refine (alone_fs_bind (.removeFile entry.staging) _).trans ?_
  simp only [FsCmd.exec]
  rcases (env (.fs (.removeFile entry.staging))).fs.changes s.tree (s.tree.unlink entry.staging) with ⟨_ | _, t⟩
  · next e => cases e <;> rfl
  · rfl

/-- A file that is dropped after a failure. -/
theorem dropping_alone {α : Type} (tmp : Path) (h : Handler α) :
    Handler.alone server env (dropping tmp h) s = (h.alone server env s).bind fun y =>
      match y.1 with
      | .ok a => some (.ok a, y.2)
      | .error e => some (.error e,
          { y.2 with tree := ((env (.fs (.removeFile tmp))).fs.changes y.2.tree (y.2.tree.unlink tmp)).2 }) := by
  refine Prog.runIn_bind.trans ?_
  rw [alone]
  congr 1
  funext y
  obtain ⟨_ | _, s'⟩ := y <;> rfl

/-! ## What is staged -/

/-- Up to the new file, the registry stays as it is, and nothing new is made. -/
def Unchanged (s s' : ServerState) : Prop := s'.uploads = s.uploads ∧ FileTree.Tree.Grows s'.tree s.tree

/-- Commands that change neither the registry nor what is there. -/
def Idles (server : Server) (env : Surroundings) (c : ServerCmd) : Prop :=
  ∀ s r s', c.exec server.workspace server.sha256 (env c) s = some (r, s') → Unchanged s s'

theorem idles_of_tree {c : FsCmd}
    (h : ∀ ch t, (c.exec server.workspace server.sha256 ch t).2 = t) : Idles server env (.fs c) := by
  intro s r s' hx
  cases hx
  refine ⟨rfl, fun p x hp => ?_⟩
  rwa [h] at hp

theorem idles_sweep (dir : Path) (inFlight : List Path) : Idles server env (.fs (.sweepStagingDir dir inFlight)) := by
  intro s r s' hx
  cases hx
  refine ⟨rfl, fun p x hp => ?_⟩
  simp only [FsCmd.exec] at hp
  split at hp
  · exact hp
  · exact FileTree.Tree.grows_removeFiles _ p x hp

/-- What is staged is a new file, and all else is as it was or swept. -/
def Staged (s : ServerState) (staging : Path) (s' : ServerState) : Prop :=
  s'.uploads = s.uploads ∧ ∃ t : Tree, FileTree.Tree.Grows t s.tree ∧
    t.createNew staging (.file { content := [], readable := true }) = .ok s'.tree

theorem stageUpload_keeps (path : String) (overwrite : Bool) (s : ServerState) :
    (stageUpload path overwrite).run.Keeps
      (fun c r s s' => c.exec server.workspace server.sha256 (env c) s = some (r, s')) (fun _ _ => True)
      (Prog.Ends (fun x => Staged s x.2.staging) fun _ => Unchanged s) s := by
  have hidle : ∀ {α : Type} {h : Handler α} {s₁ : ServerState}, h.run.Issues (Idles server env) → Unchanged s s₁ →
      h.run.Keeps (fun c r s s' => c.exec server.workspace server.sha256 (env c) s = some (r, s')) (fun _ _ => True)
        (Prog.Ends (fun _ => Unchanged s) fun _ => Unchanged s) s₁ := fun hissues hs =>
    Prog.keeps_of_issues (fun _ _ _ _ => trivial)
      (fun c r s₁ s₂ hc h₁ hx => ⟨(hc _ _ _ hx).1.trans h₁.1, fun p x hp => h₁.2 p x ((hc _ _ _ hx).2 p x hp)⟩)
      (fun o s₁ hs₁ => by cases o <;> exact hs₁) hissues hs
  have hreads : ∀ {c : FsCmd}, (∀ ch t, (c.exec server.workspace server.sha256 ch t).2 = t) →
      (fs c).run.Issues (Idles server env) := fun h => issues_fs (idles_of_tree h)
  have hparent : ∀ parent, (checkParent path parent).run.Issues (Idles server env) := fun parent =>
    (hreads fun _ _ => rfl).bindE fun r => by
      rcases r with e | ⟨_ | _ | _ | _⟩
      · cases e <;> trivial
      all_goals trivial
  have htarget : ∀ abs, (checkTarget path abs overwrite).run.Issues (Idles server env) := fun abs =>
    (hreads fun _ _ => rfl).bindE fun r => by
      rcases r with e | ⟨_ | _ | _ | _⟩
      · cases e <;> trivial
      · trivial
      · cases overwrite <;> trivial
      all_goals trivial
  refine (hidle (Prog.Issues.orThrow (hreads fun _ _ => rfl)) ⟨rfl, fun _ _ h => h⟩).bindE fun abs s₁ h₁ => ?_
  cases abs with
  | nil => exact h₁
  | cons fileName parent =>
    refine (hidle (hparent parent) h₁).bindE fun _ s₂ h₂ => ?_
    refine (hidle (htarget _) h₂).bindE fun _ s₃ h₃ => ?_
    refine (hidle (issues_uploads fun s r s' hx => ?_) h₃).bindE fun inFlight s₄ h₄ => ?_
    · cases hx
      exact ⟨rfl, fun _ _ h => h⟩
    refine (hidle (issues_fs (idles_sweep parent inFlight)) h₄).bindE fun _ s₅ h₅ => ?_
    refine Prog.Keeps.bindE (Prog.Keeps.orThrow ⟨trivial, fun r s₆ hx => ?_⟩) fun staging s₆ (h₆ : Staged s staging s₆) =>
      ⟨trivial, fun id s₇ hx => ?_⟩
    · cases hx
      simp only [FsCmd.exec]
      rcases FsChoice.changes_cases _ s₅.tree (s₅.tree.createNew _ _) with ⟨e, heq⟩ | ⟨t', hcreate, heq⟩
      · rw [heq]
        exact h₅
      · rw [heq]
        exact ⟨h₅.1, s₅.tree, h₅.2, hcreate⟩
    · cases hx
      exact h₆

theorem stageUpload_alone {path : String} {overwrite : Bool} {o : Except ProtocolError (String × PendingUpload)}
    {s' : ServerState} (h : (stageUpload path overwrite).alone server env s = some (o, s')) :
    Prog.Ends (fun x => Staged s x.2.staging) (fun _ => Unchanged s) o s' :=
  (stageUpload_keeps path overwrite s).runIn (fun _ _ _ _ hx => hx) h

/-- `upload_prepare`, once the staging file is there. -/
theorem uploadPrepare_alone {path : String} {overwrite : Bool} {id : String} {pending : PendingUpload}
    {s₁ : ServerState} (h : (stageUpload path overwrite).alone server env s = some (.ok (id, pending), s₁)) :
    (uploadPrepare path overwrite).alone server env s =
      (Handler.alone server env (dropping pending.staging (registryInsert id pending)) s₁).bind fun y =>
        match y.1 with
        | .ok _ => some (.ok { transferId := id, stagingPath := pathText pending.staging }, y.2)
        | .error e => some (.error e, y.2) := by
  rw [uploadPrepare_eq, alone_bind, h]
  refine alone_bind.trans ?_
  congr 1
  funext y
  obtain ⟨_ | _, s'⟩ := y <;> rfl

/-- A failed registration has dropped the staging file, or tried to. -/
theorem uploadPrepare_fails (hsaves : ¬env.Saves) {path : String} {overwrite : Bool} {id : String}
    {pending : PendingUpload} {s₁ : ServerState}
    (h : (stageUpload path overwrite).alone server env s = some (.ok (id, pending), s₁)) :
    ∃ e saved, (uploadPrepare path overwrite).alone server env s = some (.error e,
      { s₁ with
        tree := ((env (.fs (.removeFile pending.staging))).fs.changes s₁.tree (s₁.tree.unlink pending.staging)).2
        uploads := { entries := (s₁.uploads.entries.insert id pending).remove id, saved } }) := by
  obtain ⟨e, saved, hinsert⟩ := @registryInsert_fails server env s₁ hsaves id pending
  refine ⟨e, saved, ?_⟩
  rw [uploadPrepare_alone h, dropping_alone, hinsert]
  rfl

/-! ## The calls -/

end

/-- The calls that change the registry of uploads. -/
inductive RegistryCall where
  | insert (id : String) (pending : PendingUpload)
  | remove (id : String)
  | prepare (path : String) (overwrite : Bool)
  | abort (transferId : String)
  deriving DecidableEq, Repr

/-- The registries hold the same uploads. -/
def SameUploads (s s' : ServerState) : Prop :=
  ∀ id, s'.uploads.entries.lookup id = s.uploads.entries.lookup id

namespace RegistryCall

def handler : RegistryCall → Handler Unit
  | insert id pending => registryInsert id pending
  | remove id => do let _ ← registryRemove id
  | prepare path overwrite => do let _ ← uploadPrepare path overwrite
  | abort transferId => do let _ ← uploadAbort transferId

section

variable (server : Server) (env : Surroundings) (s : ServerState)

/-- The call fails, and leaves `s'`. -/
def FailsIn (call : RegistryCall) (s' : ServerState) : Prop := ∃ e, call.handler.alone server env s = some (.error e, s')

/-- What a failed call is to leave: the entries as they were, of an
`upload_prepare` no new file, and of an `upload_abort` an entry by which it can
be repeated, so that its staging file goes. -/
def Undone (s' : ServerState) : RegistryCall → Prop
  | insert _ _ => SameUploads s s'
  | remove _ => SameUploads s s'
  | prepare path overwrite =>
    SameUploads s s' ∧ FileTree.Tree.Grows s'.tree s.tree ∧
      ∀ id pending s₁, (stageUpload path overwrite).alone server env s = some (.ok (id, pending), s₁) →
        ∀ x, s'.tree.lstat pending.staging ≠ .ok x
  | abort transferId =>
    ∀ entry, s.uploads.entries.lookup transferId = some entry →
      s'.uploads.entries.lookup transferId = some entry ∧
      ∀ env' : Surroundings, env'.Honest → env'.Saves → env'.Removes s'.tree entry.staging →
        ∃ s'', (abort transferId).handler.alone server env' s' = some (.ok (), s'') ∧
          s''.uploads.entries.lookup transferId = none ∧ ∀ x, s''.tree.lstat entry.staging ≠ .ok x

/-- No failure leaves the call half done. -/
def NotHalfMade (call : RegistryCall) : Prop := ∀ s', call.FailsIn server env s s' → call.Undone server env s s'

/-- That no step fails behind which nothing is undone. -/
def Safe : RegistryCall → Prop
  | insert id _ => env.Saves ∨ s.uploads.entries.lookup id = none
  | remove id => env.Saves ∨ s.uploads.entries.lookup id = none
  | prepare path overwrite =>
    ∀ id pending s₁, (stageUpload path overwrite).alone server env s = some (.ok (id, pending), s₁) →
      env.Saves ∨ (env (.fs (.removeFile pending.staging))).fs.fault = none ∧ s.uploads.entries.lookup id = none
  | abort transferId =>
    ∀ entry, s.uploads.entries.lookup transferId = some entry → env.Saves ∧ env.Removes s.tree entry.staging

end

variable {server : Server} {env : Surroundings} {s s' : ServerState}

theorem alone_discard {α : Type} (h : Handler α) :
    Handler.alone server env (do let _ ← h) s =
      (h.alone server env s).map fun y => (y.1.map fun _ => (), y.2) := by
  refine alone_bind.trans ?_
  cases h.alone server env s with
  | none => rfl
  | some y => obtain ⟨_ | _, s₁⟩ := y <;> rfl

theorem notHalfMade_insert (id : String) (pending : PendingUpload) :
    (insert id pending).NotHalfMade server env s ↔ (insert id pending).Safe server env s := by
  by_cases hsaves : env.Saves
  · refine ⟨fun _ => .inl hsaves, fun _ s' hs' => ?_⟩
    obtain ⟨e, he⟩ := hs'
    rw [handler, registryInsert_alone, hsaves] at he
    cases he
  · obtain ⟨e, saved, hfail⟩ := @registryInsert_fails server env s hsaves id pending
    constructor
    · intro hundone
      have hid := hundone _ ⟨e, hfail⟩ id
      rw [Uploads.lookup_remove, if_pos rfl] at hid
      exact .inr hid.symm
    · rintro (h | hnone) s' ⟨e', he'⟩
      · exact absurd h hsaves
      · cases hfail.symm.trans he'
        intro id'
        rw [Uploads.lookup_remove]
        by_cases hid : id' = id
        · rw [if_pos hid, hid, hnone]
        · rw [if_neg hid, Uploads.lookup_insert, if_neg hid]

theorem notHalfMade_remove (id : String) :
    (remove id).NotHalfMade server env s ↔ (remove id).Safe server env s := by
  by_cases hsaves : env.Saves
  · refine ⟨fun _ => .inl hsaves, fun _ s' hs' => ?_⟩
    obtain ⟨e, he⟩ := hs'
    rw [handler, alone_discard, registryRemove_alone, hsaves] at he
    cases he
  · obtain ⟨e, saved, hfail⟩ := @registryRemove_fails server env s hsaves id
    have hcall : (remove id).handler.alone server env s = some (.error e, _) :=
      (alone_discard _).trans (congrArg _ hfail)
    constructor
    · intro hundone
      have hid := hundone _ ⟨e, hcall⟩ id
      rw [Uploads.lookup_remove, if_pos rfl] at hid
      exact .inr hid.symm
    · rintro (h | hnone) s' ⟨e', he'⟩
      · exact absurd h hsaves
      · cases hcall.symm.trans he'
        intro id'
        rw [Uploads.lookup_remove]
        by_cases hid : id' = id
        · rw [if_pos hid, hid, hnone]
        · rw [if_neg hid]

/-- Without its staging file `upload_prepare` stops. -/
theorem uploadPrepare_unstaged {path : String} {overwrite : Bool} {e : ProtocolError} {s₁ : ServerState}
    (h : (stageUpload path overwrite).alone server env s = some (.error e, s₁)) :
    (uploadPrepare path overwrite).alone server env s = some (.error e, s₁) := by
  rw [uploadPrepare_eq, alone_bind, h]
  rfl

theorem notHalfMade_prepare (path : String) (overwrite : Bool) :
    (prepare path overwrite).NotHalfMade server env s ↔ (prepare path overwrite).Safe server env s := by
  constructor
  · intro hundone id pending s₁ hstage
    by_cases hsaves : env.Saves
    · exact .inl hsaves
    obtain ⟨huploads, t, -, hcreate⟩ := stageUpload_alone hstage
    obtain ⟨e, saved, hfail⟩ := uploadPrepare_fails hsaves hstage
    obtain ⟨hsame, -, hgone⟩ := hundone _ ⟨e, (alone_discard _).trans (congrArg _ hfail)⟩
    refine .inr ⟨?_, ?_⟩
    · -- a file that is not removed is still there
      by_contra hfault
      obtain ⟨errno, herrno⟩ := Option.ne_none_iff_exists'.mp hfault
      refine hgone id pending s₁ hstage (.file { content := [], readable := true }) ?_
      simp only [FsChoice.changes, FsChoice.reads, herrno]
      exact FileTree.Tree.lstat_createNew hcreate
    · have hid := hsame id
      rw [Uploads.lookup_remove, if_pos rfl] at hid
      exact hid.symm
  · rintro hsafe s' ⟨e, he⟩
    replace he := (alone_discard _).symm.trans he
    cases hstage : (stageUpload path overwrite).alone server env s with
    | none =>
      rw [uploadPrepare_eq, alone_bind, hstage] at he
      cases he
    | some y =>
      obtain ⟨e₁ | ⟨id, pending⟩, s₁⟩ := y
      · rw [uploadPrepare_unstaged hstage] at he
        cases he
        obtain ⟨huploads, hgrows⟩ := stageUpload_alone hstage
        refine ⟨fun id => by rw [huploads], hgrows, fun id pending s₂ hstaged => ?_⟩
        cases hstage.symm.trans hstaged
      · obtain ⟨huploads, t, hgrows, hcreate⟩ := stageUpload_alone hstage
        by_cases hsaves : env.Saves
        · rw [uploadPrepare_alone hstage, dropping_alone, registryInsert_alone, hsaves] at he
          cases he
        · obtain ⟨hfault, hnone⟩ := (hsafe id pending s₁ hstage).resolve_left hsaves
          obtain ⟨e₁, saved, hfail⟩ := uploadPrepare_fails hsaves hstage
          rw [hfail] at he
          cases he
          obtain ⟨t'', hunlink, hnode⟩ := FileTree.Tree.unlink_createNew hcreate
          have hchanges : ((env (.fs (.removeFile pending.staging))).fs.changes s₁.tree
              (s₁.tree.unlink pending.staging)).2 = t'' := by
            simp only [FsChoice.changes, FsChoice.reads, hfault, hunlink]
          refine ⟨fun id' => ?_, ?_, fun id₂ pending₂ s₂ hstaged x => ?_⟩
          · rw [Uploads.lookup_remove, huploads]
            by_cases hid : id' = id
            · rw [if_pos hid, hid, hnone]
            · rw [if_neg hid, Uploads.lookup_insert, if_neg hid]
          · intro p x hp
            rw [hchanges, hnode] at hp
            exact hgrows p x hp
          · cases hstage.symm.trans hstaged
            rw [hchanges]
            exact FileTree.Tree.lstat_unlink hunlink x

theorem notHalfMade_abort (id : String) :
    (abort id).NotHalfMade server env s ↔ (abort id).Safe server env s := by
  constructor
  · intro hundone entry hentry
    have hlookup : (s.uploads.entries.remove id).lookup id ≠ some entry := by
      rw [Uploads.lookup_remove, if_pos rfl]
      nofun
    by_cases hsaves : env.Saves
    · refine ⟨hsaves, ?_⟩
      have hcall : (abort id).handler.alone server env s = _ :=
        (alone_discard _).trans (congrArg _ (uploadAbort_alone hsaves hentry))
      rcases FsChoice.changes_cases (env (.fs (.removeFile entry.staging))).fs s.tree
        (s.tree.unlink entry.staging) with ⟨errno, heq⟩ | ⟨t, -, heq⟩
      · by_cases herrno : errno = .noEntry
        · rw [Surroundings.Removes, heq, herrno]
          exact .inr rfl
        · rw [heq] at hcall
          have hfail : (abort id).FailsIn server env s _ := ⟨ioFailed "remove staging failed: " errno, by
            rw [hcall]
            cases errno <;> first | exact absurd rfl herrno | rfl⟩
          exact absurd (hundone _ hfail entry hentry).1 hlookup
      · rw [Surroundings.Removes, heq]
        exact .inl rfl
    · obtain ⟨e, saved, hfail⟩ := @registryRemove_fails server env s hsaves id
      have hcall : (abort id).handler.alone server env s = some (.error e, _) :=
        (alone_discard _).trans (congrArg _ (alone_bind.trans (by rw [hfail])))
      exact absurd (hundone _ ⟨e, hcall⟩ entry hentry).1 hlookup
  · rintro hsafe s' ⟨e, he⟩ entry hentry
    obtain ⟨hsaves, hremoves⟩ := hsafe entry hentry
    rw [handler, alone_discard, uploadAbort_alone hsaves hentry] at he
    rcases hremoves with hr | hr <;> simp [hr, Except.map] at he

/-- A failed `insert` is taken back, and a failed `remove` is not; an
`upload_prepare` is taken back if its staging file can be removed; and an
`upload_abort` of a registered upload is so only if no step fails. -/
theorem notHalfMade_iff (server : Server) (env : Surroundings) (s : ServerState) (call : RegistryCall) :
    call.NotHalfMade server env s ↔ call.Safe server env s := by
  cases call with
  | insert id pending => exact notHalfMade_insert id pending
  | remove id => exact notHalfMade_remove id
  | prepare path overwrite => exact notHalfMade_prepare path overwrite
  | abort id => exact notHalfMade_abort id

/-- A pending upload of `/ws/f`, its staging file, and a full disk. -/
def pendingState : ServerState :=
  { homeState (homeTree.set ["p", "ws"] (some (.file { content := [], readable := true })) rfl) with
    uploads :=
      { entries := [("x", { staging := ["p", "ws"], target := ["f", "ws"], logicalPath := "f", overwrite := false })]
        saved := [] } }

def fullDisk : Surroundings := fun _ => { uploads := { save := .notReplaced "no space left on device" } }

/-- `upload_abort` fails to save the registry, the next one does not know the
upload any more, and its staging file is still there. -/
theorem abort_strands_staging :
    ¬(abort "x").NotHalfMade homeServer fullDisk pendingState ∧
    ∃ e s', (abort "x").handler.alone homeServer fullDisk pendingState = some (.error e, s') ∧
      (∃ s'', (abort "x").handler.alone homeServer (fun _ => steady) s' = some (.error (unknownTransfer "x"), s'')) ∧
      ∃ f, s'.tree.lstat ["p", "ws"] = .ok (.file f) := by
  refine ⟨fun h => ?_, _, _, rfl, ⟨_, rfl⟩, _, rfl⟩
  obtain ⟨hentry, -⟩ := h _ ⟨_, rfl⟩ _ rfl
  cases hentry

end RegistryCall

end RemoteWorkspace
