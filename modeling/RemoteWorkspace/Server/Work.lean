import RemoteWorkspace.Server.Handlers
import RemoteWorkspace.Store.Mirror

/-!
# The work of the handlers

Between its claim and its terminal line a mutation does its work: it uses
files, the registry of uploads, and the operations of the store, and it leaves
the request table alone (`workNext`). It owes the store what every caller does:
an operation id is used by the handler it was given to, for one marker or one
record, and a marker is committed or withdrawn at most once.
-/

namespace RemoteWorkspace

open FileTree (Node Errno)
open Interleave

/-- What a command of a handler's work makes of the operation it is at. -/
def workNext : StoreLocal → (c : ServerCmd) → c.Result → Option StoreLocal
  | _, .store (.lookupRequest _), _ => none
  | _, .store (.claim _ _), _ => none
  | _, .store (.append (.request _)), _ => none
  | ℓ, .store c, r => ℓ.next c r
  | ℓ, .fs _, _ => some ℓ
  | ℓ, .uploads _, _ => some ℓ
  | _, .acquire, _ => none
  | _, .release, _ => none
  | _, .run _ _ _ _, _ => none
  | _, .reply _, _ => none

/-- The commands of the store that leave the request table alone. -/
def OffRequests : StoreCmd → Prop
  | .lookupRequest _ => False
  | .claim _ _ => False
  | .append (.request _) => False
  | _ => True

theorem workNext_store {c : StoreCmd} (h : OffRequests c) (ℓ : StoreLocal) (r : c.Result) :
    workNext ℓ (.store c) r = ℓ.next c r := by
  cases c with
  | lookupRequest id => exact h.elim
  | claim id op => exact h.elim
  | append l =>
    cases l with
    | operation rec => rfl
    | request l => exact h.elim
  | _ => rfl

namespace Handler

variable {α β ε : Type} {ℓ : StoreLocal}

/-- `x` is work, from `ℓ`. -/
def Works (ℓ : StoreLocal) (x : ExceptT ε ServerProg α) : Prop := x.run.Conforms workNext (fun _ _ => True) ℓ

/-- `x` is work that is at no operation of its own. -/
def Aside (ℓ : StoreLocal) (x : ExceptT ε ServerProg α) : Prop := x.run.Conforms workNext (fun m _ => m = ℓ) ℓ

theorem Aside.works {x : ExceptT ε ServerProg α} (h : Aside ℓ x) : Works ℓ x :=
  Prog.Conforms.mono (fun _ _ _ => trivial) h

theorem works_pure (a : α) : Works ℓ (pure a : ExceptT ε ServerProg α) := trivial

theorem works_throw (e : ε) : Works ℓ (throw e : ExceptT ε ServerProg α) := trivial

theorem aside_pure (a : α) : Aside ℓ (pure a : ExceptT ε ServerProg α) := rfl

theorem aside_throw (e : ε) : Aside ℓ (throw e : ExceptT ε ServerProg α) := rfl

/-- Work that goes on from wherever its first part succeeds. -/
theorem works_bind {x : ExceptT ε ServerProg α} {f : α → ExceptT ε ServerProg β}
    {post : StoreLocal → Except ε α → Prop} (hx : x.run.Conforms workNext post ℓ)
    (hf : ∀ m a, post m (.ok a) → Works m (f a)) : Works ℓ (x >>= f) := by
  refine Prog.Conforms.bind (fun m o hm => ?_) hx
  cases o with
  | ok a => exact hf m a hm
  | error e => trivial

theorem Aside.works_bind {x : ExceptT ε ServerProg α} {f : α → ExceptT ε ServerProg β} (hx : Aside ℓ x)
    (hf : ∀ a, Works ℓ (f a)) : Works ℓ (x >>= f) :=
  Handler.works_bind hx fun _ a hm => hm ▸ hf a

theorem Aside.bind {x : ExceptT ε ServerProg α} {f : α → ExceptT ε ServerProg β} (hx : Aside ℓ x)
    (hf : ∀ a, Aside ℓ (f a)) : Aside ℓ (x >>= f) := by
  refine Prog.Conforms.bind (fun _ o hm => ?_) hx
  cases o with
  | ok a => exact hm ▸ hf a
  | error e => exact hm

theorem aside_fs (c : FsCmd) : Aside ℓ (fs c) := fun _ => ⟨ℓ, rfl, rfl⟩

theorem aside_uploads (c : UploadCmd) : Aside ℓ (uploads c) := fun _ => ⟨ℓ, rfl, rfl⟩

theorem aside_orThrow {f : ε → ProtocolError} {h : Handler (Except ε α)} (hh : Aside ℓ h) :
    Aside ℓ (Prog.orThrow f h) := by
  refine hh.bind fun r => ?_
  cases r with
  | ok a => exact aside_pure a
  | error e => exact aside_throw _

theorem conforms_embed {post : StoreLocal → α → Prop} :
    ∀ {p : StoreProg α} {ℓ : StoreLocal}, p.Issues OffRequests → p.Conforms StoreLocal.next post ℓ →
      Prog.Conforms workNext post (p.embed ServerCmd.store fun _ r => r) ℓ
  | .pure _, _, _, hp => hp
  | .op c k, ℓ, hi, hp => fun r => by
    obtain ⟨m, hn, hk⟩ := hp r
    exact ⟨m, (workNext_store hi.1 ℓ r).trans hn, conforms_embed (hi.2 r) hk⟩

/-- What a method of the store returns, an error included, is where the work
goes on. -/
theorem conforms_stored {p : StoreProg (Except ProtocolError α)}
    {post : StoreLocal → Except ProtocolError α → Prop} (hi : p.Issues OffRequests)
    (hp : p.Conforms StoreLocal.next post ℓ) : (stored p).run.Conforms workNext post ℓ := by
  have hstore : (store p).run.Conforms workNext (fun m o => ∃ r, o = .ok r ∧ post m r) ℓ := by
    refine (conforms_embed hi hp).bind fun m r hr => ?_
    exact ⟨r, rfl, hr⟩
  refine hstore.bind fun m o hm => ?_
  obtain ⟨r, rfl, hr⟩ := hm
  cases r with
  | ok a => exact hr
  | error e => exact hr

theorem conforms_store {p : StoreProg α} {post : StoreLocal → α → Prop} (hi : p.Issues OffRequests)
    (hp : p.Conforms StoreLocal.next post ℓ) :
    (store p).run.Conforms workNext (fun m o => ∀ a, o = .ok a → post m a) ℓ := by
  refine (conforms_embed hi hp).bind fun m r hr => ?_
  rintro _ ⟨⟩
  exact hr

theorem conforms_dropping {tmp : Path} {p : ExceptT ε ServerProg α} {post : StoreLocal → Except ε α → Prop}
    (hp : p.run.Conforms workNext post ℓ) : (dropping tmp p).run.Conforms workNext post ℓ := by
  refine hp.bind fun m o hm => ?_
  cases o with
  | ok a => exact hm
  | error e => exact fun _ => ⟨m, rfl, hm⟩

theorem aside_failed {step : String} {h : Handler (Except Errno α)} (hh : Aside ℓ h) :
    Aside ℓ (failed step h) := aside_orThrow hh

theorem aside_dropping {tmp : Path} {p : ExceptT ε ServerProg α} (hp : Aside ℓ p) : Aside ℓ (dropping tmp p) :=
  conforms_dropping hp

theorem aside_step {changed : Bool} {f : Errno → ProtocolError} {p : ServerProg (Except Errno α)}
    (hp : p.Conforms workNext (fun m _ => m = ℓ) ℓ) : Aside ℓ (Install.step changed f p) := by
  have hlift : Aside ℓ (ExceptT.lift p : Install (Except Errno α)) := Prog.Conforms.bind (fun _ _ hm => hm) hp
  refine hlift.bind fun r => ?_
  cases r with
  | ok a => exact aside_pure a
  | error e => exact aside_throw _

/-- The outcome of an install, which is not passed on as an error. -/
theorem works_outcome {p : ExceptT ε ServerProg α} {f : Except ε α → Handler β} (hp : Aside ℓ p)
    (hf : ∀ r, Works ℓ (f r)) : Works ℓ (ExceptT.lift p.run >>= f) := by
  have hlift : Aside ℓ (ExceptT.lift p.run : Handler (Except ε α)) := Prog.Conforms.bind (fun _ _ hm => hm) hp
  exact hlift.works_bind hf

end Handler

open Handler

/-! ## Write-ahead mutations -/

variable {ℓ : StoreLocal} (sha256 : Sha256) (requestId path : String) (abs : Path)

theorem aside_atomicCreateBytes (content : List UInt8) (clientPath : String) :
    Aside ℓ (atomicCreateBytes abs content clientPath) := by
  cases abs with
  | nil => exact aside_throw _
  | cons n parent =>
    refine Aside.bind (aside_step fun _ => ⟨ℓ, rfl, rfl⟩) fun _ => ?_
    refine Aside.bind (aside_step fun _ => ⟨ℓ, rfl, rfl⟩) fun tmp => ?_
    refine Aside.bind (aside_dropping ?_) fun _ => aside_step fun _ => ⟨ℓ, rfl, rfl⟩
    refine Aside.bind (aside_step fun _ => ⟨ℓ, rfl, rfl⟩) fun _ => ?_
    refine Aside.bind (aside_step fun _ => ⟨ℓ, rfl, rfl⟩) fun _ => ?_
    exact aside_step fun _ => ⟨ℓ, rfl, rfl⟩

theorem conforms_prepare (kind : OperationKind) (before : Option String) (after : String) :
    (stored (StoreProg.prepareFsRecord requestId kind path before after)).run.Conforms workNext
      (fun m o => ∀ id, o = .ok id → ∃ p, m = .marked p ∧ p.operationId = id) ℓ :=
  conforms_stored ⟨trivial, fun _ => ⟨trivial, fun _ => ⟨trivial, fun r => by cases r <;> trivial⟩⟩⟩
    (StoreProg.conforms_prepareFsRecord ℓ requestId kind path before after)

theorem works_commit (p : PreparedRecord) (kind : OperationKind) (before : Option String) (after : String) :
    Works (.marked p) (stored (StoreProg.commitFsRecord p.operationId requestId kind path before after)) := by
  have hi : (StoreProg.commitFsRecord p.operationId requestId kind path before after).Issues OffRequests :=
    ⟨trivial, fun _ => ⟨trivial, fun _ => trivial⟩⟩
  exact (conforms_stored hi (StoreProg.conforms_commitFsRecord p requestId kind path before after)).mono
    fun _ _ _ => trivial

theorem works_abort (p : PreparedRecord) : Works (.marked p) (stored (StoreProg.abortPrepared p.operationId)) := by
  have hi : (StoreProg.abortPrepared p.operationId).Issues OffRequests :=
    ⟨trivial, fun _ => ⟨trivial, fun _ => trivial⟩⟩
  exact (conforms_stored hi (StoreProg.conforms_abortPrepared p)).mono fun _ _ _ => trivial

/-- A marker is withdrawn unless the install changed the workspace. -/
theorem works_failed {α : Type} (p : PreparedRecord) (f : InstallFailure) :
    Works (.marked p) (do
      if f.changed = false then stored (StoreProg.abortPrepared p.operationId)
      throw f.error : Handler α) := by
  split
  · exact works_bind (works_abort p) fun _ _ _ => works_throw _
  · exact works_throw _

theorem works_writeAheadCreate (content : List UInt8) :
    Works ℓ (writeAheadCreate sha256 requestId path abs content) := by
  refine works_bind (conforms_prepare requestId path .create none _) fun m id hm => ?_
  obtain ⟨p, rfl, rfl⟩ := hm id rfl
  refine works_outcome (aside_atomicCreateBytes abs content path) fun r => ?_
  cases r with
  | error f => exact works_failed p f
  | ok _ => exact works_bind (works_commit requestId path p .create none _) fun _ _ _ => works_pure _

theorem aside_stageWrite (content : List UInt8) : Aside ℓ (stageWrite sha256 abs content) := by
  cases abs with
  | nil => exact aside_throw _
  | cons n parent =>
    refine Aside.bind (aside_failed (aside_fs _)) fun _ => Aside.bind (aside_failed (aside_fs _)) fun tmp => ?_
    refine Aside.bind (aside_dropping ?_) fun _ => aside_pure _
    refine Aside.bind (aside_failed (aside_fs _)) fun _ => Aside.bind (aside_failed (aside_fs _)) fun _ => ?_
    exact aside_failed (aside_fs _)

theorem aside_verifyUnchanged (expected clientPath : String) : Aside ℓ (verifyUnchanged abs expected clientPath) := by
  refine Aside.bind (aside_orThrow (aside_fs _)) fun now => ?_
  split
  · exact aside_throw _
  · exact aside_pure _

theorem aside_install (staged : StagedWrite) : Aside ℓ (staged.install abs) := by
  refine Aside.bind (aside_dropping (aside_step fun _ => ⟨ℓ, rfl, rfl⟩)) fun _ => ?_
  exact Aside.bind (aside_step fun _ => ⟨ℓ, rfl, rfl⟩) fun _ => aside_pure _

theorem works_writeAheadInstall (before : String) (staged : StagedWrite) :
    Works ℓ (writeAheadInstall requestId path abs before staged) := by
  refine works_bind (conforms_dropping (conforms_prepare requestId path .edit (some before) _)) fun m id hm => ?_
  obtain ⟨p, rfl, rfl⟩ := hm id rfl
  refine works_outcome (aside_verifyUnchanged abs before path) fun r => ?_
  cases r with
  | error e =>
    exact conforms_dropping (works_bind (works_abort p) fun _ _ _ => works_throw _)
  | ok _ =>
    refine works_outcome (aside_install abs staged) fun r => ?_
    cases r with
    | error f => exact works_failed p f
    | ok _ => exact works_bind (works_commit requestId path p .edit (some before) _) fun _ _ _ => works_pure _

theorem works_writeAheadDelete (before : Option String) :
    Works ℓ (writeAheadDelete requestId path abs before) := by
  refine works_bind (conforms_prepare requestId path .delete before _) fun m id hm => ?_
  obtain ⟨p, rfl, rfl⟩ := hm id rfl
  refine Aside.works_bind (aside_fs _) fun r => ?_
  cases r with
  | error e => exact works_bind (works_abort p) fun _ _ _ => works_throw _
  | ok _ =>
    have hcommit : Works (.marked p) (do
        stored (StoreProg.commitFsRecord p.operationId requestId .delete path before fileDeletedSentinel)
        return p.operationId : Handler String) :=
      works_bind (works_commit requestId path p .delete before _) fun _ _ _ => works_pure _
    cases abs with
    | nil => exact hcommit
    | cons n parent => exact Aside.works_bind (aside_failed (aside_fs _)) fun _ => hcommit

/-! ## The handlers -/

theorem aside_resolve : Aside ℓ (resolve path) := aside_orThrow (aside_fs _)

theorem aside_checkAbsent : Aside ℓ (checkAbsent path abs) := by
  refine Aside.bind (aside_fs _) fun r => ?_
  split
  · exact aside_throw _
  · exact aside_pure _
  · exact aside_throw _

theorem works_create (content : String) : Works ℓ (create sha256 requestId path content) := by
  unfold create
  split
  · exact works_throw _
  · refine Aside.works_bind (aside_resolve path) fun abs => ?_
    refine Aside.works_bind (aside_checkAbsent path abs) fun _ => ?_
    exact works_bind (works_writeAheadCreate sha256 requestId path abs _) fun _ _ _ => works_pure _

theorem aside_checkEditable : Aside ℓ (checkEditable path abs) := by
  refine Aside.bind (aside_fs _) fun r => ?_
  split
  · split
    · exact aside_throw _
    · exact aside_pure _
  · exact aside_throw _
  · exact aside_throw _
  · exact aside_throw _

theorem aside_editedText (current : String) (edits : List EditSpec) (original : List UInt8) :
    Aside ℓ (editedText sha256 path current edits original) := by
  unfold editedText
  split
  · exact aside_throw _
  · refine Aside.bind (aside_orThrow (aside_pure _)) fun newContent => ?_
    split
    · exact aside_throw _
    · exact aside_pure _

theorem works_edit (baseHash : String) (edits : List EditSpec) :
    Works ℓ (edit sha256 requestId path baseHash edits) := by
  refine Aside.works_bind (aside_orThrow (aside_pure _)) fun _ => ?_
  refine Aside.works_bind (aside_resolve path) fun abs => ?_
  refine Aside.works_bind (aside_checkEditable path abs) fun _ => ?_
  split
  · exact works_throw _
  · refine Aside.works_bind (aside_failed (aside_fs _)) fun original => ?_
    dsimp only
    split
    · exact works_throw _
    · refine Aside.works_bind (aside_editedText sha256 path _ edits original) fun newContent => ?_
      refine Aside.works_bind (aside_stageWrite sha256 abs _) fun staged => ?_
      exact works_bind (works_writeAheadInstall requestId path abs _ staged) fun _ _ _ => works_pure _

theorem aside_checkDeletable : Aside ℓ (checkDeletable path abs) := by
  refine Aside.bind (aside_orThrow (aside_fs _)) fun link => ?_
  split
  · exact aside_throw _
  · refine Aside.bind (aside_fs _) fun r => ?_
    split <;> first | exact aside_pure _ | exact aside_throw _

theorem works_delete : Works ℓ (delete requestId path) := by
  refine Aside.works_bind (aside_resolve path) fun abs => ?_
  refine Aside.works_bind (aside_checkDeletable path abs) fun _ => ?_
  refine Aside.works_bind (aside_orThrow (aside_fs _)) fun before => ?_
  exact works_bind (works_writeAheadDelete requestId path abs before) fun _ _ _ => works_pure _

theorem aside_registryRemove (id : String) : Aside ℓ (registryRemove id) :=
  Aside.bind (aside_uploads _) fun _ => Aside.bind (aside_orThrow (aside_uploads _)) fun _ => aside_pure _

theorem aside_checkStaging (entry : PendingUpload) (size : Nat) : Aside ℓ (checkStaging entry size) := by
  refine Aside.bind (aside_failed (aside_fs _)) fun node => ?_
  split
  · split
    · exact aside_throw _
    · exact aside_pure _
  · exact aside_throw _

theorem aside_setInstalledMode (entry : PendingUpload) : Aside ℓ (setInstalledMode entry) := by
  refine Aside.bind (aside_fs _) fun r => ?_
  split
  · exact aside_failed (aside_fs _)
  · exact aside_failed (aside_fs _)
  · exact aside_throw _

theorem aside_installUpload (entry : PendingUpload) : Aside ℓ (installUpload entry) := by
  unfold installUpload
  split
  · exact aside_failed (aside_fs _)
  · exact Aside.bind (aside_orThrow (aside_fs _)) fun _ => aside_failed (aside_fs _)

/-- A record of a transfer under an id issued for it. -/
theorem works_transferRecord {β : Type} {record : String → Nat → TransferOperationRecord} {f : String → Handler β}
    (hid : ∀ id now, (record id now).operationId = id) (hf : ∀ m id, Works m (f id)) :
    Works ℓ (do
      let operationId ← store (Prog.call StoreCmd.nextOperationId)
      let timestampMs ← store (Prog.call StoreCmd.now)
      stored (StoreProg.appendTransferRecord (record operationId timestampMs))
      f operationId) := by
  have hnext : ∀ ℓ : StoreLocal, Prog.Conforms StoreLocal.next (fun m id => m = .fresh id)
      (Prog.call StoreCmd.nextOperationId) ℓ := fun ℓ id => ⟨.fresh id, by cases ℓ <;> rfl, rfl⟩
  have hnow : ∀ ℓ : StoreLocal, Prog.Conforms StoreLocal.next (fun m _ => m = ℓ)
      (Prog.call StoreCmd.now) ℓ := fun ℓ _ => ⟨ℓ, by cases ℓ <;> rfl, rfl⟩
  refine works_bind (conforms_store ⟨trivial, fun _ => trivial⟩ (hnext ℓ)) fun m id hm => ?_
  rw [hm id rfl]
  refine works_bind (conforms_store ⟨trivial, fun _ => trivial⟩ (hnow _)) fun m now hm => ?_
  rw [hm now rfl]
  have hi : (StoreProg.appendTransferRecord (record id now)).Issues OffRequests := ⟨trivial, fun _ => trivial⟩
  have happend := StoreProg.conforms_appendTransferRecord (record id now)
  rw [hid] at happend
  exact works_bind (conforms_stored hi happend) fun m _ _ => hf m id

theorem works_uploadCommit (transferId : String) (size : Nat) (sha256 : String) (durationMs : Nat) :
    Works ℓ (uploadCommit requestId transferId size sha256 durationMs) := by
  refine Aside.works_bind (aside_uploads _) fun o => ?_
  cases o with
  | none => exact works_throw _
  | some entry =>
    refine Aside.works_bind (aside_checkStaging entry size) fun _ => ?_
    refine Aside.works_bind (aside_setInstalledMode entry) fun _ => ?_
    refine Aside.works_bind (aside_installUpload entry) fun _ => ?_
    refine Aside.works_bind (aside_failed (aside_fs _)) fun _ => ?_
    refine works_transferRecord (fun _ _ => rfl) fun m id => ?_
    exact Aside.works_bind (aside_registryRemove transferId) fun _ => works_pure _

theorem works_downloadRecord (size : Nat) (sha256 : String) (durationMs : Nat) :
    Works ℓ (downloadRecord requestId path size sha256 durationMs) := by
  refine Aside.works_bind (aside_resolve path) fun _ => ?_
  exact works_transferRecord (fun _ _ => rfl) fun m id => works_pure _

/-- Reading the store. -/
theorem aside_reads {c : StoreCmd} (hc : OffRequests c) (hn : ∀ r, ℓ.next c r = some ℓ) :
    Aside ℓ (store (Prog.call c)) := by
  have hcall : (Prog.call c).Conforms StoreLocal.next (fun m _ => m = ℓ) ℓ := fun r => ⟨ℓ, hn r, rfl⟩
  have hi : (Prog.call c : StoreProg c.Result).Issues OffRequests := ⟨hc, fun _ => trivial⟩
  exact Prog.Conforms.bind (fun _ _ hm => hm) (conforms_embed hi hcall)

theorem aside_unpersisted {body : RequestBody} {h : Handler ResultBody} (hb : unpersisted body = some h) :
    Aside ℓ h := by
  cases body <;> cases hb
  · rename_i limit
    unfold historyOf
    dsimp only
    split
    · exact aside_throw _
    · exact Aside.bind (aside_reads trivial fun _ => by cases ℓ <;> rfl) fun _ => aside_pure _
  · refine Aside.bind (aside_reads trivial fun _ => by cases ℓ <;> rfl) fun o => ?_
    cases o with
    | some r => exact aside_pure _
    | none => exact aside_throw _
  · exact Aside.bind (aside_reads trivial fun _ => by cases ℓ <;> rfl) fun _ => aside_pure _

theorem aside_gc (ws : Workspace) (historyLimit keep : Option Nat) : Aside ℓ (gc ws historyLimit keep) := by
  unfold gc
  split
  · exact aside_throw _
  · rename_i k _
    have hi : (Prog.call (StoreCmd.prune k) : StoreProg _).Issues OffRequests := ⟨trivial, fun _ => trivial⟩
    have hprune : (Prog.call (StoreCmd.prune k)).Conforms StoreLocal.next (fun m _ => m = ℓ) ℓ :=
      fun _ => ⟨ℓ, by cases ℓ <;> rfl, rfl⟩
    refine Aside.bind (conforms_stored hi hprune) fun s => Aside.bind (aside_uploads _) fun inFlight => ?_
    refine Aside.bind (aside_fs _) fun n => Aside.bind (aside_fs _) fun n' => ?_
    exact Aside.bind (aside_orThrow (aside_fs _)) fun usage => aside_pure _

/-- The work of every mutation is work. -/
theorem works_mutation (server : Server) {body : RequestBody} {h : Handler ResultBody}
    (hb : server.mutation requestId body = some h) : Works ℓ h := by
  cases body <;> cases hb
  · exact works_create _ requestId _ _
  · exact works_edit _ requestId _ _ _
  · exact works_delete requestId _
  · exact works_uploadCommit requestId _ _ _ _
  · exact works_downloadRecord requestId _ _ _ _
  · exact (aside_gc _ _ _).works

end RemoteWorkspace
