import RemoteWorkspace.Server.CommitAbort
import RemoteWorkspace.Server.Confined
import RemoteWorkspace.Server.MarkerFate
import RemoteWorkspace.Server.Sessions

/-!
# The record of an upload

A commit of a pending upload (`upload_commit`) in which every step may go either
way, and which its process may not survive. Others use the server meanwhile, but
leave alone what the commit is about (`Beside`).

The file is put in place before anything is logged. A step that fails behind
that leaves the file without its record, or the registry without its entry.
-/

namespace RemoteWorkspace

open FileTree (Node Errno)
open Interleave

/-- An `upload_commit`, the entry that the registry holds for its transfer, and
the staged file. -/
structure UploadCall where
  requestId : String
  transferId : String
  size : Nat
  sha256 : String
  durationMs : Nat
  entry : PendingUpload
  staged : File

namespace UploadCall

variable (k : UploadCall)

def commit : Handler ResultBody := uploadCommit k.requestId k.transferId k.size k.sha256 k.durationMs

/-- The record of the upload. -/
def record (operationId : String) (timestampMs : Nat) : TransferOperationRecord where
  operationId := operationId
  requestId := k.requestId
  direction := .upload
  path := k.entry.logicalPath
  size := k.size
  sha256 := k.sha256
  durationMs := k.durationMs
  timestampMs := timestampMs

theorem operationId_record (id : String) (now : Nat) :
    (AnyOperationRecord.transfer (k.record id now)).operationId = id := rfl

/-- Its staging file is beside the target, as `upload_prepare` has it. -/
structure Pending (s : ServerState) : Prop where
  entry : s.uploads.entries.lookup k.transferId = some k.entry
  inDir : ∃ d, k.entry.In d
  staged : s.tree.node k.entry.staging = some (.file k.staged)

/-- The target holds the staged bytes. -/
def Holds (t : Tree) : Prop := ∃ g, t.node k.entry.target = some (.file g) ∧ g.content = k.staged.content

/-- The record of the upload is among these, under the operation id that the
commit was given. -/
def OnRecord (operationId : Option String) (rs : Records) : Prop :=
  ∃ id now, operationId = some id ∧ .transfer (k.record id now) ∈ rs

/-- The line of the record is whole in the log. -/
def Logged (operationId : Option String) (d : LogDir) : Prop :=
  ∃ rs, d.operations.read = some rs ∧ k.OnRecord operationId rs

/-- The target is as it was, and the transfer can be committed or aborted. -/
structure Undone (s s' : ServerState) : Prop where
  target : s'.tree.node k.entry.target = s.tree.node k.entry.target
  entry : s'.uploads.entries.lookup k.transferId = some k.entry
  staged : s'.tree.node k.entry.staging = some (.file k.staged)

end UploadCall

/-! ## A commit under way -/

structure UnderWay where
  server : ServerState
  operationId : Option String
  /-- What it has done. -/
  done : List (Event ServerCmd ServerCmd.Result)

def UnderWay.start (s : ServerState) : UnderWay := ⟨s, none, []⟩

/-- What others make of a server while the commit is under way: they neither
touch its two files nor its entry. -/
structure Beside (k : UploadCall) (x y : UnderWay) : Prop where
  operationId : y.operationId = x.operationId
  done : y.done = x.done
  store : Others x.operationId x.server.store y.server.store
  entry : y.server.uploads.entries.lookup k.transferId = x.server.uploads.entries.lookup k.transferId
  target : y.server.tree.node k.entry.target = x.server.tree.node k.entry.target
  staging : y.server.tree.node k.entry.staging = x.server.tree.node k.entry.staging

/-- What one more event makes of it. -/
def UnderWay.after (y : UnderWay) (s : ServerState) (operationId : Option String)
    (e : Event ServerCmd ServerCmd.Result) : UnderWay :=
  ⟨s, operationId, y.done ++ [e]⟩

def givenBy : (c : ServerCmd) → c.Result → Option String → Option String
  | .store c, r, given => givenId c r given
  | _, _, given => given

/-- One command of a commit. -/
def commitStep (server : Server) (k : UploadCall) (c : ServerCmd) (r : c.Result) (x x' : UnderWay) : Prop :=
  ∃ y ch s, Beside k x y ∧ c.exec server.workspace server.sha256 ch y.server = some (r, s) ∧
    x' = y.after s (givenBy c r y.operationId) ⟨c, r⟩

/-- A step that follows the installation fails. -/
def FailsBehind : Event ServerCmd ServerCmd.Result → Prop
  | ⟨.fs (.removeFile _), r⟩ => r ≠ .ok ()
  | ⟨.fs (.sync _), r⟩ => r ≠ .ok ()
  | ⟨.store (.append _), r⟩ => r ≠ .ok ()
  | ⟨.uploads .save, r⟩ => r ≠ .ok ()
  | _ => False

/-- The call on files that was under way when the process died, if it still had
its effect. -/
def Server.lastCall (server : Server) (x : ServerDeath) (c : Option ServerCmd) (s : ServerState) :
    List (Event ServerCmd ServerCmd.Result) :=
  match c, x.fs with
  | some (.fs c), some ch => [⟨.fs c, (c.exec server.workspace server.sha256 ch s.tree).1⟩]
  | _, _ => []

/-! ## What is known of it -/

/-- What the store has of a commit's operation: nothing yet, or records in the
table and lines in the log. -/
inductive Ledger where
  | unnumbered
  | lines (id : String) (table log : Records)

def Ledger.Of (operationId : Option String) (s : OperationStore) : Ledger → Prop
  | unnumbered => operationId = none ∧ ∃ ops reqs, Sound s ops reqs
  | lines id table log => Knows ⟨s, operationId, false, false⟩ id table log

theorem Ledger.Of.others {ℓ : Ledger} {given : Option String} {s s' : OperationStore} (h : ℓ.Of given s)
    (ho : Others given s s') : ℓ.Of given s' := by
  cases ℓ with
  | unnumbered =>
    obtain ⟨hgiven, ops, reqs, hsound⟩ := h
    obtain ⟨-, ops', reqs', hsound', -⟩ := sound_of_others hsound ho
    exact ⟨hgiven, ops', reqs', hsound'⟩
  | lines id table log => exact Knows.others h ho

namespace UploadCall

variable (k : UploadCall) (s : ServerState)

/-- A commit that no step has failed: what it finds of its entry, whether it has
put the file in place, and what the store has of it. -/
structure At (entry : Option PendingUpload) (placed : Bool) (ℓ : Ledger) (x : UnderWay) : Prop where
  entry : x.server.uploads.entries.lookup k.transferId = entry
  target : x.server.tree.node k.entry.target = if placed then some (.file k.staged) else s.tree.node k.entry.target
  staging : placed = false → x.server.tree.node k.entry.staging = some (.file k.staged)
  ledger : ℓ.Of x.operationId x.server.store
  installs : (∃ e ∈ x.done, Installs e) ↔ placed = true
  fails : ¬∃ e ∈ x.done, FailsBehind e

/-- In the log there is nothing of the commit but its record. -/
def Own : Ledger → Prop
  | .unnumbered => True
  | .lines id _ log => log = [] ∨ ∃ now, log = [.transfer (k.record id now)]

/-- What holds of every commit under way. -/
structure Known (x : UnderWay) : Prop where
  placed : (∃ e ∈ x.done, Installs e) → x.server.tree.node k.entry.target = some (.file k.staged)
  unplaced : (¬∃ e ∈ x.done, Installs e) → x.server.tree.node k.entry.target = s.tree.node k.entry.target
  ledger : ∃ ℓ : Ledger, k.Own ℓ ∧ ℓ.Of x.operationId x.server.store
  numbered : x.operationId ≠ none → ∃ e ∈ x.done, Installs e

/-- A commit that has put the file in place and that a later step has failed. -/
structure Lost (x : UnderWay) : Prop where
  known : k.Known s x
  installs : ∃ e ∈ x.done, Installs e
  fails : ∃ e ∈ x.done, FailsBehind e
  lost : ¬k.OnRecord x.operationId x.server.store.records ∨ x.server.uploads.entries.lookup k.transferId = none

end UploadCall

section

variable {k : UploadCall} {s : ServerState} {server : Server} {x x' y : UnderWay} {entry : Option PendingUpload}
  {placed : Bool} {ℓ : Ledger}

theorem UploadCall.At.beside (h : k.At s entry placed ℓ x) (hb : Beside k x y) : k.At s entry placed ℓ y where
  entry := hb.entry.trans h.entry
  target := hb.target.trans h.target
  staging hp := hb.staging.trans (h.staging hp)
  ledger := by
    rw [hb.operationId]
    exact h.ledger.others hb.store
  installs := by
    rw [hb.done]
    exact h.installs
  fails := by
    rw [hb.done]
    exact h.fails

theorem UploadCall.Known.beside (h : k.Known s x) (hb : Beside k x y) : k.Known s y where
  placed hi := hb.target.trans (h.placed (hb.done ▸ hi))
  unplaced hi := hb.target.trans (h.unplaced (hb.done ▸ hi))
  ledger := by
    obtain ⟨ℓ, hown, hℓ⟩ := h.ledger
    rw [hb.operationId]
    exact ⟨ℓ, hown, hℓ.others hb.store⟩
  numbered := by
    rw [hb.operationId, hb.done]
    exact h.numbered

theorem known_of_placed (htarget : x.server.tree.node k.entry.target = some (.file k.staged))
    (hinstalls : ∃ e ∈ x.done, Installs e) (hown : k.Own ℓ) (hℓ : ℓ.Of x.operationId x.server.store) : k.Known s x where
  placed _ := htarget
  unplaced hno := absurd hinstalls hno
  ledger := ⟨ℓ, hown, hℓ⟩
  numbered _ := hinstalls

theorem UploadCall.At.knownPlaced (h : k.At s entry true ℓ x) (hown : k.Own ℓ) : k.Known s x :=
  known_of_placed h.target (h.installs.mpr rfl) hown h.ledger

theorem UploadCall.At.known (h : k.At s entry placed .unnumbered x) : k.Known s x := by
  cases placed with
  | true => exact h.knownPlaced trivial
  | false =>
    have hno : ¬∃ e ∈ x.done, Installs e := fun hi => nomatch h.installs.mp hi
    exact ⟨fun hi => absurd hi hno, fun _ => h.target, ⟨.unnumbered, trivial, h.ledger⟩, fun hne => absurd h.ledger.1 hne⟩

/-! ## One more event -/

theorem exists_done {P : Event ServerCmd ServerCmd.Result → Prop} {es : List (Event ServerCmd ServerCmd.Result)}
    {e : Event ServerCmd ServerCmd.Result} : (∃ e' ∈ es ++ [e], P e') ↔ (∃ e' ∈ es, P e') ∨ P e := by
  simp [or_and_right, exists_or]

section

variable {s' : ServerState} {given : Option String} {ℓ' : Ledger} {entry' : Option PendingUpload}
  {e : Event ServerCmd ServerCmd.Result}

/-- An event that changes neither file. -/
theorem UploadCall.At.after (h : k.At s entry placed ℓ y) (hentry : s'.uploads.entries.lookup k.transferId = entry')
    (htarget : s'.tree.node k.entry.target = y.server.tree.node k.entry.target)
    (hstaging : placed = false → s'.tree.node k.entry.staging = y.server.tree.node k.entry.staging)
    (hℓ : ℓ'.Of given s'.store) (hi : ¬Installs e) (hf : ¬FailsBehind e) :
    k.At s entry' placed ℓ' (y.after s' given e) where
  entry := hentry
  target := htarget.trans h.target
  staging hp := (hstaging hp).trans (h.staging hp)
  ledger := hℓ
  installs := by
    rw [← h.installs]
    exact exists_done.trans (or_iff_left hi)
  fails hfails := (exists_done.mp hfails).elim h.fails hf

/-- A step that fails behind the installation. -/
theorem UploadCall.At.lost (h : k.At s entry true ℓ y)
    (htarget : s'.tree.node k.entry.target = y.server.tree.node k.entry.target) (hown : k.Own ℓ')
    (hℓ : ℓ'.Of given s'.store) (hf : FailsBehind e)
    (hlost : ¬k.OnRecord given s'.store.records ∨ s'.uploads.entries.lookup k.transferId = none) :
    k.Lost s (y.after s' given e) := by
  have hinstalls : ∃ e' ∈ (y.after s' given e).done, Installs e' := exists_done.mpr (.inl (h.installs.mpr rfl))
  exact ⟨known_of_placed (htarget.trans h.target) hinstalls hown hℓ, hinstalls, exists_done.mpr (.inr hf), hlost⟩

theorem not_onRecord_of_unnumbered {rs : Records} {st : OperationStore} (h : Ledger.unnumbered.Of given st) :
    ¬k.OnRecord given rs := by
  rintro ⟨id, now, hid, -⟩
  rw [h.1] at hid
  cases hid

end

theorem UploadCall.At.fsStep (h : k.At s entry placed ℓ x) {c : FsCmd} {r : c.Result}
    (hstep : commitStep server k (.fs c) r x x') : ∃ y ch, k.At s entry placed ℓ y ∧
      r = (c.exec server.workspace server.sha256 ch y.server.tree).1 ∧
      x' = y.after { y.server with tree := (c.exec server.workspace server.sha256 ch y.server.tree).2 } y.operationId
        ⟨.fs c, r⟩ := by
  obtain ⟨y, ch, s', hb, hexec, rfl⟩ := hstep
  cases hexec
  exact ⟨y, ch.fs, h.beside hb, rfl, rfl⟩

/-- A call that reads. -/
theorem UploadCall.At.quiet (h : k.At s entry placed ℓ x) {c : FsCmd} {r : c.Result}
    (hc : ∀ ch t, (c.exec server.workspace server.sha256 ch t).2 = t) (hi : ¬Installs ⟨.fs c, r⟩)
    (hf : ¬FailsBehind ⟨.fs c, r⟩) (hstep : commitStep server k (.fs c) r x x') : k.At s entry placed ℓ x' := by
  obtain ⟨y, ch, hy, -, rfl⟩ := h.fsStep hstep
  rw [hc]
  exact hy.after hy.entry rfl (fun _ => rfl) hy.ledger hi hf

/-! ## Until the file is in place -/

/-- What is known where a command is about to be issued. -/
def UploadCall.Issues (k : UploadCall) (s : ServerState) (c : ServerCmd) (x : UnderWay) : Prop :=
  k.Known s x ∧
    match c with
    | .store .now => True
    | .store .nextOperationId => True
    | .store (.append l) => ∃ id now table, l = .operation (.transfer (k.record id now)) ∧
        (Ledger.lines id table []).Of x.operationId x.server.store
    | .store _ => False
    | _ => True

/-- A judgement for what a commit does. -/
abbrev Commits (server : Server) (k : UploadCall) (s : ServerState) {α ε : Type} (p : ExceptT ε ServerProg α)
    (Q : α → UnderWay → Prop) (E : ε → UnderWay → Prop) (x : UnderWay) : Prop :=
  p.run.Keeps (commitStep server k) (k.Issues s) (Prog.Ends Q E) x

/-- Nothing is done yet. -/
abbrev UploadCall.Before (k : UploadCall) (s : ServerState) (x : UnderWay) : Prop :=
  k.At s (some k.entry) false .unnumbered x

/-- The file is in place, and nothing is logged yet. -/
abbrev UploadCall.Placed (k : UploadCall) (s : ServerState) (x : UnderWay) : Prop :=
  k.At s (some k.entry) true .unnumbered x

theorem commits_fs {c : FsCmd} {Q : c.Result → UnderWay → Prop} {E : ProtocolError → UnderWay → Prop} (h : k.Known s x)
    (hQ : ∀ r x', commitStep server k (.fs c) r x x' → Q r x') : Commits server k s (Handler.fs c) Q E x :=
  ⟨⟨h, trivial⟩, hQ⟩

theorem commits_checkStaging (size : Nat) (h : k.Before s x) :
    Commits server k s (checkStaging k.entry size) (fun _ => k.Before s) (fun _ => k.Before s) x := by
  refine Prog.Keeps.bindE (Q := fun _ => k.Before s) ?_ fun node x' h' => ?_
  · refine Prog.Keeps.orThrow (commits_fs h.known fun r x' hstep => ?_)
    have h' := h.quiet (fun _ _ => rfl) (by simp [Installs]) (by simp [FailsBehind]) hstep
    cases r <;> exact h'
  · split
    · split <;> exact h'
    · exact h'

theorem commits_setInstalledMode (h : k.Before s x) :
    Commits server k s (setInstalledMode k.entry) (fun _ => k.Before s) (fun _ => k.Before s) x := by
  refine Prog.Keeps.bindE (Q := fun _ => k.Before s) ?_ fun r x₁ h₁ => ?_
  · exact commits_fs h.known fun r x' hstep =>
      h.quiet (fun _ _ => rfl) (by simp [Installs]) (by simp [FailsBehind]) hstep
  have hset : Commits server k s (Handler.failed "chmod staging file: " (Handler.fs (.setPermissions k.entry.staging)))
      (fun _ => k.Before s) (fun _ => k.Before s) x₁ := by
    refine Prog.Keeps.orThrow (commits_fs h₁.known fun r x' hstep => ?_)
    have h' := h₁.quiet (fun _ _ => rfl) (by simp [Installs]) (by simp [FailsBehind]) hstep
    cases r <;> exact h'
  cases r with
  | ok node => exact hset
  | error e => cases e <;> first | exact hset | exact h₁

/-! ## Putting it in place -/

/-- An event that puts the staged file at the target. -/
theorem UploadCall.At.install (h : k.Before s y) {t : Tree} {e : Event ServerCmd ServerCmd.Result}
    (ht : t.node k.entry.target = some (.file k.staged)) (hi : Installs e) (hf : ¬FailsBehind e) :
    k.Placed s (y.after { y.server with tree := t } y.operationId e) where
  entry := h.entry
  target := ht
  staging := nofun
  ledger := h.ledger
  installs := iff_of_true (exists_done.mpr (.inr hi)) rfl
  fails hfails := (exists_done.mp hfails).elim h.fails hf

theorem UploadCall.At.lostUnlogged (h : k.Placed s y) {t : Tree} {e : Event ServerCmd ServerCmd.Result}
    (ht : t.node k.entry.target = y.server.tree.node k.entry.target) (hf : FailsBehind e) :
    k.Lost s (y.after { y.server with tree := t } y.operationId e) :=
  h.lost ht (show k.Own .unnumbered from trivial) h.ledger hf (.inl (not_onRecord_of_unnumbered h.ledger))

theorem placed_of_rename (hdir : ∃ d, k.entry.In d) (h : k.Before s x) {r : Except Errno Unit}
    (hstep : commitStep server k (.fs (.rename true k.entry.staging k.entry.target)) r x x') :
    (r = .ok () ∧ k.Placed s x') ∨ (∃ e, r = .error e) ∧ k.Before s x' := by
  obtain ⟨y, ch, hy, hr, rfl⟩ := h.fsStep hstep
  obtain ⟨d, ⟨m, hm⟩, n, hn⟩ := hdir
  have hstaged := hy.staging rfl
  simp only [FsCmd.exec] at hr ⊢
  rcases ch.changes_cases y.server.tree (y.server.tree.move true k.entry.staging k.entry.target) with
    ⟨e, heq⟩ | ⟨t', hmove, heq⟩ <;> rw [heq] at hr ⊢ <;> cases hr
  · exact .inr ⟨⟨e, rfl⟩, hy.after hy.entry rfl (fun _ => rfl) hy.ledger (by simp [Installs]) (by simp [FailsBehind])⟩
  · refine .inl ⟨rfl, hy.install ?_ rfl (by simp [FailsBehind])⟩
    rw [hm] at hstaged
    rw [hm, hn] at hmove
    obtain ⟨x₀, hx₀, -, hnode⟩ := FileTree.Tree.move_cons (FileTree.Tree.dir_of_node hstaged) hmove
    rw [hn, hnode, if_pos rfl, ← hx₀, hstaged]

theorem placed_of_hardLink (hdir : ∃ d, k.entry.In d) (h : k.Before s x) {r : Except Errno Unit}
    (hstep : commitStep server k (.fs (.hardLink k.entry.staging k.entry.target)) r x x') :
    (r = .ok () ∧ k.entry.target ≠ k.entry.staging ∧ k.Placed s x') ∨ (∃ e, r = .error e) ∧ k.Before s x' := by
  obtain ⟨y, ch, hy, hr, rfl⟩ := h.fsStep hstep
  obtain ⟨d, ⟨m, hm⟩, n, hn⟩ := hdir
  have hstaged := hy.staging rfl
  simp only [FsCmd.exec] at hr ⊢
  rcases ch.changes_cases y.server.tree (y.server.tree.hardLink k.entry.staging k.entry.target) with
    ⟨e, heq⟩ | ⟨t', hlink, heq⟩ <;> rw [heq] at hr ⊢ <;> cases hr
  · exact .inr ⟨⟨e, rfl⟩, hy.after hy.entry rfl (fun _ => rfl) hy.ledger (by simp [Installs]) (by simp [FailsBehind])⟩
  · rw [hm] at hstaged
    rw [hm, hn] at hlink
    obtain ⟨x₀, hx₀, hnone, hnode⟩ := FileTree.Tree.hardLink_cons (FileTree.Tree.dir_of_node hstaged) hlink
    refine .inl ⟨rfl, fun heq => ?_, hy.install ?_ rfl (by simp [FailsBehind])⟩
    · rw [hm, hn] at heq
      rw [heq, hstaged] at hnone
      cases hnone
    · rw [hn, hnode, if_pos rfl, ← hx₀, hstaged]

/-- The staging file is taken away, or the commit fails behind its
installation. -/
theorem placed_of_removeFile (hdir : ∃ d, k.entry.In d) (hne : k.entry.target ≠ k.entry.staging) (h : k.Placed s x)
    {r : Except Errno Unit} (hstep : commitStep server k (.fs (.removeFile k.entry.staging)) r x x') :
    (r = .ok () ∧ k.Placed s x') ∨ (∃ e, r = .error e) ∧ k.Lost s x' := by
  obtain ⟨y, ch, hy, hr, rfl⟩ := h.fsStep hstep
  obtain ⟨d, ⟨m, hm⟩, n, hn⟩ := hdir
  have htarget : y.server.tree.node k.entry.target = some (.file k.staged) := hy.target
  simp only [FsCmd.exec] at hr ⊢
  rcases ch.changes_cases y.server.tree (y.server.tree.unlink k.entry.staging) with
    ⟨e, heq⟩ | ⟨t', hunlink, heq⟩ <;> rw [heq] at hr ⊢ <;> cases hr
  · exact .inr ⟨⟨e, rfl⟩, hy.lostUnlogged rfl (by simp [FailsBehind])⟩
  · refine .inl ⟨rfl, hy.after hy.entry ?_ (fun h => by cases h) hy.ledger (by simp [Installs]) (by simp [FailsBehind])⟩
    rw [hn] at htarget
    rw [hm] at hunlink
    show t'.node k.entry.target = y.server.tree.node k.entry.target
    rw [hn, FileTree.Tree.unlink_cons (FileTree.Tree.dir_of_node htarget) hunlink,
      if_neg fun heq => hne (hn.trans (heq.trans hm.symm))]

/-- How a commit ends that fails. -/
def UploadCall.Failed (k : UploadCall) (s : ServerState) (x : UnderWay) : Prop := k.Before s x ∨ k.Lost s x

theorem commits_installUpload (hdir : ∃ d, k.entry.In d) (h : k.Before s x) :
    Commits server k s (installUpload k.entry) (fun _ => k.Placed s) (fun _ => k.Failed s) x := by
  unfold installUpload
  split
  · refine Prog.Keeps.orThrow (commits_fs h.known fun r x' hstep => ?_)
    rcases placed_of_rename hdir h hstep with ⟨rfl, h'⟩ | ⟨⟨e, rfl⟩, h'⟩
    · exact h'
    · exact .inl h'
  · refine Prog.Keeps.bindE (Q := fun _ x' => k.entry.target ≠ k.entry.staging ∧ k.Placed s x') ?_ ?_
    · refine Prog.Keeps.orThrow (commits_fs h.known fun r x' hstep => ?_)
      rcases placed_of_hardLink hdir h hstep with ⟨rfl, hne, h'⟩ | ⟨⟨e, rfl⟩, h'⟩
      · exact ⟨hne, h'⟩
      · exact .inl h'
    · rintro - x₁ ⟨hne, h₁⟩
      refine Prog.Keeps.orThrow (commits_fs h₁.known fun r x' hstep => ?_)
      rcases placed_of_removeFile hdir hne h₁ hstep with ⟨rfl, h'⟩ | ⟨⟨e, rfl⟩, h'⟩
      · exact h'
      · exact .inr h'

/-! ## Behind its installation -/

theorem UploadCall.At.storeStep (h : k.At s entry placed ℓ x) {c : StoreCmd} {r : c.Result}
    (hstep : commitStep server k (.store c) r x x') : ∃ y ch st, k.At s entry placed ℓ y ∧
      c.exec ch y.server.store = some (r, st) ∧
      x' = y.after { y.server with store := st } (givenId c r y.operationId) ⟨.store c, r⟩ := by
  obtain ⟨y, ch, s', hb, hexec, rfl⟩ := hstep
  obtain ⟨⟨r', st⟩, hres, heq⟩ := Option.map_eq_some_iff.mp hexec
  cases heq
  exact ⟨y, ch.store, st, h.beside hb, hres, rfl⟩

theorem numbered_of_next (h : k.Placed s x) {id : String}
    (hstep : commitStep server k (.store .nextOperationId) id x x') :
    k.At s (some k.entry) true (.lines id [] []) x' := by
  obtain ⟨y, ch, st, hy, hres, rfl⟩ := h.storeStep hstep
  obtain ⟨-, ops, reqs, hsound⟩ := hy.ledger
  obtain ⟨-, -, -, hsound', hissued, hops, hnone⟩ := hsound.next hres
  exact hy.after hy.entry rfl nofun ⟨rfl, ops, reqs, hsound', hissued, hnone, hops⟩ (by simp [Installs])
    (by simp [FailsBehind])

theorem numbered_of_now {now : Nat} (h : k.At s entry placed ℓ x) (hstep : commitStep server k (.store .now) now x x') :
    k.At s entry placed ℓ x' := by
  obtain ⟨y, ch, st, hy, hres, rfl⟩ := h.storeStep hstep
  cases hres
  exact hy.after hy.entry rfl (fun _ => rfl) hy.ledger (by simp [Installs]) (by simp [FailsBehind])

/-- The record of the upload alone. -/
def UploadCall.alone (k : UploadCall) (id : String) (now : Nat) : Ledger :=
  .lines id [.transfer (k.record id now)] [.transfer (k.record id now)]

/-- The record is in the table and in the log, or the commit fails with its line
in the log at most. -/
theorem recorded_of_append {id : String} {now : Nat} (h : k.At s (some k.entry) true (.lines id [] []) x)
    {r : Except ProtocolError Unit}
    (hstep : commitStep server k (.store (.append (.operation (.transfer (k.record id now))))) r x x') :
    (r = .ok () ∧ k.At s (some k.entry) true (k.alone id now) x') ∨ (∃ e, r = .error e) ∧ k.Lost s x' := by
  obtain ⟨y, ch, st, hy, hres, rfl⟩ := h.storeStep hstep
  have hcall : callStep .create [] (.store (.append (.operation (.transfer (k.record id now))))) r
      ⟨y.server.store, y.operationId, false, false⟩ ⟨st, y.operationId, false, false⟩ :=
    ⟨y.server.store, st, ch, .refl, hres, rfl⟩
  obtain ⟨-, hok, herr, -⟩ := Knows.append hy.ledger rfl hcall
  cases r with
  | ok u =>
    obtain ⟨table, htable, hknows⟩ := hok rfl
    refine .inl ⟨rfl, hy.after hy.entry rfl nofun ?_ (by simp [Installs]) (by simp [FailsBehind])⟩
    have hrow : ofId id (table.record (.transfer (k.record id now))) = [.transfer (k.record id now)] := by
      rw [show table.record (.transfer (k.record id now)) = table ++ [.transfer (k.record id now)] from rfl, ofId_append,
        htable, ofId_singleton]
      exact if_pos rfl
    rwa [hrow] at hknows
  | error e =>
    obtain ⟨log, hlog, hknows⟩ : ∃ log, (log = [] ∨ log = [.transfer (k.record id now)]) ∧
        Knows ⟨st, y.operationId, false, false⟩ id [] log := by
      rcases herr e rfl with hknows | hknows
      · exact ⟨_, .inl rfl, hknows⟩
      · exact ⟨_, .inr rfl, hknows⟩
    have hown : k.Own (.lines id [] log) := hlog.imp_right fun hlog => ⟨now, hlog⟩
    refine .inr ⟨⟨e, rfl⟩, hy.lost rfl hown hknows (by simp [FailsBehind]) (.inl ?_)⟩
    rintro ⟨id', now', hid', hmem⟩
    obtain ⟨hid, -, -, -, -, htable, -⟩ := hknows
    obtain rfl : id = id' := Option.some.inj (hid.symm.trans hid')
    exact ofId_eq_nil.mp htable _ hmem rfl

theorem UploadCall.At.uploadStep (h : k.At s entry placed ℓ x) {c : UploadCmd} {r : c.Result}
    (hstep : commitStep server k (.uploads c) r x x') : ∃ y ch, k.At s entry placed ℓ y ∧
      r = (c.exec ch y.server.uploads).1 ∧
      x' = y.after { y.server with uploads := (c.exec ch y.server.uploads).2 } y.operationId ⟨.uploads c, r⟩ := by
  obtain ⟨y, ch, s', hb, hexec, rfl⟩ := hstep
  cases hexec
  exact ⟨y, ch.uploads, h.beside hb, rfl, rfl⟩

theorem found_of_get (h : k.At s entry placed ℓ x) {r : Option PendingUpload}
    (hstep : commitStep server k (.uploads (.get k.transferId)) r x x') : r = entry ∧ k.At s entry placed ℓ x' := by
  obtain ⟨y, ch, hy, rfl, rfl⟩ := h.uploadStep hstep
  exact ⟨hy.entry, hy.after hy.entry rfl (fun _ => rfl) hy.ledger (by simp [Installs]) (by simp [FailsBehind])⟩

theorem gone_of_take (h : k.At s entry placed ℓ x) {r : Option PendingUpload}
    (hstep : commitStep server k (.uploads (.take k.transferId)) r x x') : k.At s none placed ℓ x' := by
  obtain ⟨y, ch, hy, rfl, rfl⟩ := h.uploadStep hstep
  refine hy.after ?_ rfl (fun _ => rfl) hy.ledger (by simp [Installs]) (by simp [FailsBehind])
  simp only [UploadCmd.exec, Uploads.lookup_remove, if_pos]

/-- The registry is saved, or the commit fails with its entry gone. -/
theorem recorded_of_save (h : k.At s none true ℓ x) (hown : k.Own ℓ) {r : Except String Unit}
    (hstep : commitStep server k (.uploads .save) r x x') :
    (r = .ok () ∧ k.At s none true ℓ x') ∨ (∃ e, r = .error e) ∧ k.Lost s x' := by
  obtain ⟨y, ch, hy, hr, rfl⟩ := h.uploadStep hstep
  have hentries : (UploadCmd.save.exec ch y.server.uploads).2.entries = y.server.uploads.entries := by
    simp only [UploadCmd.exec]
    split <;> rfl
  have hgone : (UploadCmd.save.exec ch y.server.uploads).2.entries.lookup k.transferId = none := by
    rw [hentries]
    exact hy.entry
  cases r with
  | ok u => exact .inl ⟨rfl, hy.after hgone rfl (fun h => by cases h) hy.ledger (by simp [Installs]) (by simp [FailsBehind])⟩
  | error e => exact .inr ⟨⟨e, rfl⟩, hy.lost rfl hown hy.ledger (by simp [FailsBehind]) (.inr hgone)⟩

/-- The end of a commit that succeeds. -/
def UploadCall.Recorded (k : UploadCall) (s : ServerState) (x : UnderWay) : Prop :=
  ∃ id now, k.At s none true (k.alone id now) x

theorem commits_registryRemove (h : k.At s (some k.entry) true ℓ x) (hown : k.Own ℓ) :
    Commits server k s (registryRemove k.transferId) (fun _ => k.At s none true ℓ) (fun _ => k.Failed s) x := by
  refine ⟨⟨h.knownPlaced hown, trivial⟩, fun taken x₁ h₁ => ?_⟩
  have h₁ := gone_of_take h h₁
  refine ⟨⟨h₁.knownPlaced hown, trivial⟩, fun r x₂ h₂ => ?_⟩
  rcases recorded_of_save h₁ hown h₂ with ⟨rfl, h'⟩ | ⟨⟨e, rfl⟩, h'⟩
  · exact h'
  · exact .inr h'

theorem commits_recordUpload (h : k.Placed s x) :
    Commits server k s (recordUpload k.requestId k.transferId k.size k.sha256 k.durationMs k.entry)
      (fun _ => k.Recorded s) (fun _ => k.Failed s) x := by
  refine Prog.Keeps.bindE (Q := fun _ => k.Placed s) ?_ fun _ x₁ h₁ => ?_
  · refine Prog.Keeps.orThrow (commits_fs h.known fun r x' hstep => ?_)
    cases r with
    | ok u => exact h.quiet (fun _ _ => rfl) (by simp [Installs]) (by simp [FailsBehind]) hstep
    | error e =>
      obtain ⟨y, ch, hy, -, rfl⟩ := h.fsStep hstep
      exact .inr (hy.lostUnlogged rfl (by simp [FailsBehind]))
  refine ⟨⟨h₁.known, trivial⟩, fun id x₂ h₂ => ?_⟩
  have h₂ := numbered_of_next h₁ h₂
  refine ⟨⟨h₂.knownPlaced (.inl rfl), trivial⟩, fun now x₃ h₃ => ?_⟩
  have h₃ := numbered_of_now h₂ h₃
  refine ⟨⟨h₃.knownPlaced (.inl rfl), id, now, [], rfl, h₃.ledger⟩, fun r x₄ h₄ => ?_⟩
  rcases recorded_of_append h₃ h₄ with ⟨rfl, h'⟩ | ⟨⟨e, rfl⟩, h'⟩
  · exact Prog.Keeps.bindE (commits_registryRemove h' (.inr ⟨now, rfl⟩)) fun _ _ h' => ⟨id, now, h'⟩
  · exact .inr h'

theorem commits_uploadCommit (hdir : ∃ d, k.entry.In d) (h : k.Before s x) :
    Commits server k s k.commit (fun _ => k.Recorded s) (fun _ => k.Failed s) x := by
  refine ⟨⟨h.known, trivial⟩, fun found x₁ hstep => ?_⟩
  obtain ⟨rfl, h₁⟩ := found_of_get h hstep
  have hbefore : ∀ {α : Type} {p : Handler α} {x},
      Commits server k s p (fun _ => k.Before s) (fun _ => k.Before s) x →
      Commits server k s p (fun _ => k.Before s) (fun _ => k.Failed s) x := fun hp =>
    hp.mono (fun _ _ h => h) fun r _ h => by cases r <;> first | exact h | exact .inl h
  refine Prog.Keeps.bindE (hbefore (commits_checkStaging k.size h₁)) fun _ x₂ h₂ => ?_
  refine Prog.Keeps.bindE (hbefore (commits_setInstalledMode h₂)) fun _ x₃ h₃ => ?_
  exact Prog.Keeps.bindE (commits_installUpload hdir h₃) fun _ x₄ h₄ => commits_recordUpload h₄

/-! ## After a crash -/

/-- Files that load, and whose log has nothing of the commit but its record. -/
def UploadCall.Loads (k : UploadCall) (operationId : Option String) (d : LogDir) : Prop :=
  ∃ counter ops reqs, RemoteWorkspace.Loads d counter ops reqs ∧
    ∀ id, operationId = some id → ofId id ops = [] ∨ ∃ now, ofId id ops = [.transfer (k.record id now)]

theorem loads_of_ledger {given : Option String} {st : OperationStore} (hown : k.Own ℓ) (h : ℓ.Of given st) :
    k.Loads given st.dir := by
  cases ℓ with
  | unnumbered =>
    obtain ⟨rfl, ops, reqs, hsound⟩ := h
    obtain ⟨counter, -, hloads⟩ := hsound.loads
    exact ⟨counter, ops, reqs, hloads, nofun⟩
  | lines id table log =>
    obtain ⟨hid, ops, reqs, hsound, -, -, rfl⟩ := h
    obtain ⟨counter, -, hloads⟩ := hsound.loads
    refine ⟨counter, ops, reqs, hloads, fun id' hid' => ?_⟩
    obtain rfl : id = id' := Option.some.inj (hid.symm.trans hid')
    exact hown

/-- A commit that dies in a command of the store. -/
theorem loads_of_dying {c : StoreCmd} (h : k.Issues s (.store c) x) (hb : Beside k x y) (death : StoreDeath) :
    k.Loads x.operationId (c.dying death y.server.store) := by
  obtain ⟨ℓ, hown, hℓ⟩ := h.1.ledger
  have hsame : k.Loads x.operationId y.server.store.dir := loads_of_ledger hown (hℓ.others hb.store)
  have hc := h.2
  cases c with
  | now => exact hsame
  | nextOperationId => exact hsame
  | append l =>
    obtain ⟨id, now, table, rfl, hlines⟩ := hc
    rw [StoreCmd.dying, OperationStore.appendCut]
    split
    · exact hsame
    · next ht =>
      obtain ⟨hid, ops, reqs, hsound, -, -, hnone⟩ := hlines.others hb.store
      obtain ⟨counter, -, hloads⟩ := hsound.loads
      obtain ⟨ls, hls, hcut⟩ := hloads.writeCut (hsound.clean (by simpa using ht)) death.cut
        (.operation (.transfer (k.record id now)))
      refine ⟨counter, _, _, hcut, fun id' hid' => ?_⟩
      obtain rfl : id = id' := Option.some.inj (hid.symm.trans hid')
      rw [ofId_append, hnone, List.nil_append]
      rcases hls with rfl | rfl
      · exact .inl rfl
      · refine .inr ⟨now, ?_⟩
        rw [operationsOf_operation, operationsOf_nil, ofId_singleton]
        exact if_pos rfl
  | lookupRequest | claim | prepare | prune | history | findRecord | statusForRequest => exact hc.elim

/-- A restart finds the record if its line is whole in the log. -/
theorem onRecord_of_loads {given : Option String} {d : LogDir} (h : k.Loads given d) :
    ∃ s₀, OperationStore.new d = .ok s₀ ∧ ∀ ws sha256 t b r, recover ws sha256 t b s₀ = .ok r →
      (k.OnRecord given r.store.records ↔ k.Logged given d) := by
  obtain ⟨counter, ops, reqs, hloads, hown⟩ := h
  refine ⟨_, OperationStore.new_of_loads hloads, fun ws sha256 t b r hr => ?_⟩
  have hlogged : k.Logged given d ↔ k.OnRecord given ops := by
    refine ⟨?_, fun h => ⟨ops, hloads.operations, h⟩⟩
    rintro ⟨rs, hrs, h⟩
    obtain rfl : ops = rs := Option.some.inj (hloads.operations.symm.trans hrs)
    exact h
  rw [hlogged]
  refine exists_congr fun id => exists_congr fun now => and_congr_right fun hid => ?_
  have hkept : ofId id r.store.records = ofId id (loadRecords ops) := by
    refine recover_induction (P := fun s' => ofId id s'.records = ofId id (loadRecords ops)) ?_ (fun _ _ h => h) rfl hr
    intro s' l hs' hl
    have hother : l.operationId? ≠ some id := fun hlid => by
      obtain ⟨p, hp, hpid⟩ := hl id hlid
      obtain ⟨hlatest, -⟩ := mem_loadRecords.mp (mem_markersOf.mp hp)
      rw [show (AnyOperationRecord.prepared p).operationId = id from hpid, latestRecord_ofId] at hlatest
      rcases hown id hid with hnone | ⟨n, hone⟩
      · rw [hnone] at hlatest
        cases hlatest
      · rw [hone, latestRecord_single (k.operationId_record ..)] at hlatest
        cases hlatest
    rw [records_record_eq, ofId_recordIn _ hother, hs']
  have hmem : ∀ rs : Records, .transfer (k.record id now) ∈ rs ↔ .transfer (k.record id now) ∈ ofId id rs := fun rs => by
    rw [mem_ofId]
    exact (and_iff_left rfl).symm
  rw [hmem, hkept, ← hmem, mem_loadRecords, hmem ops, k.operationId_record, latestRecord_ofId]
  rcases hown id hid with hnone | ⟨n, hone⟩
  · rw [hnone]
    exact iff_of_false (fun h => nomatch h.1) nofun
  · rw [hone, List.mem_singleton, latestRecord_single (k.operationId_record ..), Option.some_inj, eq_comm]
    exact and_iff_left rfl

/-! ## A file in place is on record -/

/-- The staging file is put in place. -/
def UnderWay.Installed (x : UnderWay) : Prop := ∃ e ∈ x.done, Installs e

/-- A step behind that fails. -/
def UnderWay.FailedBehind (x : UnderWay) : Prop := ∃ e ∈ x.done, FailsBehind e

/-- A commit whose process has died. -/
def Server.atDeath (server : Server) (death : ServerDeath) (c : Option ServerCmd) (y : UnderWay) : UnderWay where
  server := { y.server with tree := (server.dying death c y.server).tree }
  operationId := y.operationId
  done := y.done ++ server.lastCall death c y.server

theorem before_of_pending (hs : Reached server.workspace server.sha256 s.store) (hk : k.Pending s) :
    k.Before s (.start s) where
  entry := hk.entry
  target := rfl
  staging _ := hk.staged
  ledger := ⟨rfl, hs.sound⟩
  installs := by simp [UnderWay.start]
  fails := by simp [UnderWay.start]

theorem holds_of_node {t : Tree} (h : t.node k.entry.target = some (.file k.staged)) : k.Holds t := ⟨_, h, rfl⟩

theorem holds_congr {t t' : Tree} (h : t'.node k.entry.target = t.node k.entry.target) : k.Holds t' ↔ k.Holds t := by
  rw [UploadCall.Holds, h]
  rfl

theorem onRecord_of_recorded (h : k.Recorded s x) : k.OnRecord x.operationId x.server.store.records := by
  obtain ⟨id, now, hat⟩ := h
  obtain ⟨hid, -, -, -, -, htable, -⟩ := hat.ledger
  exact ⟨id, now, hid, (of_ofId htable).1⟩

/-- How a commit that returns has ended. -/
theorem returned_iff {o : Except ProtocolError ResultBody}
    (h : Prog.Ends (fun _ => k.Recorded s) (fun _ => k.Failed s) o x) :
    ((k.Holds x.server.tree ↔ k.OnRecord x.operationId x.server.store.records) ∧
        ∀ e, o = .error e → k.Undone s x.server) ↔
      x.Installed ∧ ¬x.FailedBehind ∨ ¬x.Installed ∧ ¬k.Holds s.tree := by
  cases o with
  | ok b =>
    have hrecorded := onRecord_of_recorded h
    obtain ⟨id, now, hat⟩ := h
    have hinstalled : x.Installed := hat.installs.mpr rfl
    exact iff_of_true ⟨iff_of_true (holds_of_node hat.target) hrecorded, nofun⟩ (.inl ⟨hinstalled, hat.fails⟩)
  | error e =>
    rcases h with hbefore | hlost
    · have hnot : ¬x.Installed := fun hi => nomatch hbefore.installs.mp hi
      have hunrecorded : ¬k.OnRecord x.operationId x.server.store.records := not_onRecord_of_unnumbered hbefore.ledger
      have hundone : k.Undone s x.server := ⟨hbefore.target, hbefore.entry, hbefore.staging rfl⟩
      rw [holds_congr hbefore.target, iff_false_right hunrecorded, and_iff_left fun _ _ => hundone,
        or_iff_right fun hi => hnot hi.1, and_iff_right hnot]
    · have hinstalled : x.Installed := hlost.installs
      have hfailed : x.FailedBehind := hlost.fails
      refine iff_of_false (fun ⟨hiff, hundone⟩ => ?_) (by simp [hinstalled, hfailed])
      have hrecorded := hiff.mp (holds_of_node (hlost.known.placed hinstalled))
      have hentry := (hundone e rfl).entry
      rcases hlost.lost with hno | hnone
      · exact hno hrecorded
      · rw [hnone] at hentry
        cases hentry

theorem crashed_iff (hknown : k.Known s x) {rs : Records} {logged : Prop}
    (hrecord : k.OnRecord x.operationId rs ↔ logged) :
    (k.Holds x.server.tree ↔ k.OnRecord x.operationId rs) ↔
      x.Installed ∧ logged ∨ ¬x.Installed ∧ ¬k.Holds s.tree := by
  rw [hrecord]
  by_cases hi : x.Installed
  · have hholds : k.Holds x.server.tree := holds_of_node (hknown.placed hi)
    simp [hi, hholds]
  · have hnot : ¬logged := fun hl => by
      obtain ⟨id, now, hid, -⟩ := hrecord.mpr hl
      exact hi (hknown.numbered (by simp [hid]))
    rw [holds_congr (hknown.unplaced hi)]
    simp [hi, hnot]

/-- The history shows every transfer. -/
theorem onRecord_history (k : UploadCall) (given : Option String) (st : OperationStore) :
    k.OnRecord given (st.history none) ↔ k.OnRecord given st.records := by
  refine exists_congr fun id => exists_congr fun now => and_congr_right fun _ => ?_
  simp only [OperationStore.history, List.mem_map, List.mem_filter]
  constructor
  · rintro ⟨r, ⟨hr, -⟩, heq⟩
    cases r with
    | transfer r => exact heq ▸ hr
    | exec r => cases heq
    | fs r => cases heq
    | prepared r => cases heq
    | aborted r => cases heq
  · exact fun h => ⟨_, ⟨h, rfl⟩, rfl⟩

theorem known_of_keeps {p : ServerProg (Except ProtocolError ResultBody)}
    (h : p.Keeps (commitStep server k) (k.Issues s) (Prog.Ends (fun _ => k.Recorded s) fun _ => k.Failed s) x) :
    k.Known s x := by
  cases p with
  | op c next => exact h.1.1
  | pure o =>
    cases o with
    | ok b =>
      obtain ⟨id, now, hat⟩ := h
      exact hat.knownPlaced (.inr ⟨now, rfl⟩)
    | error e =>
      rcases h with hbefore | hlost
      · exact hbefore.known
      · exact hlost.known

/-- What a commit leaves that dies on its way. -/
theorem known_atDeath {p : ServerProg (Except ProtocolError ResultBody)}
    (h : p.Keeps (commitStep server k) (k.Issues s) (Prog.Ends (fun _ => k.Recorded s) fun _ => k.Failed s) x)
    (hb : Beside k x y) (death : ServerDeath) :
    k.Loads x.operationId (server.dying death p.command? y.server).dir ∧
      k.Known s (server.atDeath death p.command? y) := by
  have hknown := known_of_keeps h
  have hdir : k.Loads x.operationId y.server.store.dir := by
    obtain ⟨ℓ, hown, hℓ⟩ := hknown.ledger
    exact loads_of_ledger hown (hℓ.others hb.store)
  have hstays : k.Known s ⟨y.server, y.operationId, y.done ++ []⟩ := by
    rw [List.append_nil]
    exact hknown.beside hb
  cases p with
  | pure o => exact ⟨hdir, hstays⟩
  | op c next =>
    cases c with
    | store c => exact ⟨loads_of_dying h.1 hb death.store, hstays⟩
    | fs c =>
      refine ⟨hdir, ?_⟩
      obtain ⟨store, fs, save⟩ := death
      cases fs with
      | none => exact hstays
      | some ch => exact known_of_keeps (h.2 _ _ ⟨y, { fs := ch }, _, hb, rfl, rfl⟩)
    | uploads | acquire | release | run | reply => exact ⟨hdir, hstays⟩

/-- The target of a pending upload holds the staged bytes exactly if history has
the upload's record, and a commit that fails leaves everything as it was,
exactly if the file is put in place and no step behind that fails, or is not put
in place and the target did not hold these bytes before. After a crash and a
restart the first holds exactly if the file is in place and the line of the
record whole in the log, or the file is not in place and the target did not hold
these bytes before. -/
theorem upload_on_record_iff (hs : Reached server.workspace server.sha256 s.store) (hk : k.Pending s)
    {es : List (Event ServerCmd ServerCmd.Result)} {p : ServerProg (Except ProtocolError ResultBody)}
    (hrun : Prog.Run (commitStep server k) k.commit.run (.start s) es p x) :
    (∀ o, p = .pure o →
      (((k.Holds x.server.tree ↔ k.OnRecord x.operationId (x.server.store.history none)) ∧
          ∀ e, o = .error e → k.Undone s x.server) ↔
        x.Installed ∧ ¬x.FailedBehind ∨ ¬x.Installed ∧ ¬k.Holds s.tree)) ∧
    ∀ y death, Beside k x y → ∃ s₀,
      OperationStore.new (server.dying death p.command? y.server).dir = .ok s₀ ∧
      ∀ b r, recover server.workspace server.sha256 (server.dying death p.command? y.server).tree b s₀ = .ok r →
        ((k.Holds (server.dying death p.command? y.server).tree ↔ k.OnRecord x.operationId (r.store.history none)) ↔
          (server.atDeath death p.command? y).Installed ∧
              k.Logged x.operationId (server.dying death p.command? y.server).dir ∨
            ¬(server.atDeath death p.command? y).Installed ∧ ¬k.Holds s.tree) := by
  have hcommits : Commits server k s k.commit (fun _ => k.Recorded s) (fun _ => k.Failed s) (.start s) :=
    commits_uploadCommit hk.inDir (before_of_pending hs hk)
  have hkeeps := hcommits.run hrun
  constructor
  · rintro o rfl
    rw [onRecord_history]
    exact returned_iff hkeeps
  · intro y death hb
    obtain ⟨hloads, hknown⟩ := known_atDeath hkeeps hb death
    obtain ⟨s₀, hs₀, hrestart⟩ := onRecord_of_loads hloads
    refine ⟨s₀, hs₀, fun b r hr => ?_⟩
    have hid : (server.atDeath death p.command? y).operationId = x.operationId := hb.operationId
    have hrecord := hrestart _ _ _ b r hr
    rw [onRecord_history, ← hid]
    rw [← hid] at hrecord
    exact crashed_iff hknown hrecord

end

/-! A commit that no one disturbs. -/

def commitExec (server : Server) (c : ServerCmd) (ch : ServerChoice) (x : UnderWay) : Option (c.Result × UnderWay) :=
  (c.exec server.workspace server.sha256 ch x.server).map fun r =>
    (r.1, x.after r.2 (givenBy c r.1 x.operationId) ⟨c, r.1⟩)

theorem commitStep_of_exec {server : Server} {k : UploadCall} {c : ServerCmd} {ch : ServerChoice} {r : c.Result}
    {x x' : UnderWay} (h : commitExec server c ch x = some (r, x')) : commitStep server k c r x x' := by
  obtain ⟨⟨r', s⟩, hexec, heq⟩ := Option.map_eq_some_iff.mp h
  cases heq
  exact ⟨x, ch, s, ⟨rfl, rfl, .refl, rfl, rfl, rfl⟩, hexec, rfl⟩

def stagedCall : UploadCall where
  requestId := "r"
  transferId := "x"
  size := 2
  sha256 := "h"
  durationMs := 5
  entry := stagedUpload
  staged := { content := [104, 105], readable := true }

def stagedSite : ServerState :=
  { stagedServer with store := { dir := .empty, nextId := 0, records := [], requests := [], logTorn := false } }

theorem reached_stagedSite : Reached homeServer.workspace homeServer.sha256 stagedSite.store :=
  .start (d := .empty) (t := FileTree.Tree.bare) (b := plainStart) rfl rfl

theorem pending_stagedSite : stagedCall.Pending stagedSite where
  entry := rfl
  inDir := ⟨["ws"], ⟨_, rfl⟩, _, rfl⟩
  staged := rfl

theorem run_stagedCall {chs : List ServerChoice} {es : List (Event ServerCmd ServerCmd.Result)}
    {p : ServerProg (Except ProtocolError ResultBody)} {x : UnderWay}
    (h : Prog.drive (commitExec homeServer) chs stagedCall.commit.run (.start stagedSite) = some (es, p, x)) :
    Prog.Run (commitStep homeServer stagedCall) stagedCall.commit.run (.start stagedSite) es p x := by
  have hstep : ∀ (c : ServerCmd) (ch : ServerChoice) (r : c.Result) (y y' : UnderWay), ch ∈ Set.univ →
      commitExec homeServer c ch y = some (r, y') → commitStep homeServer stagedCall c r y y' :=
    fun _ _ _ _ _ _ h => commitStep_of_exec h
  exact Prog.run_of_drive hstep (fun _ _ => trivial) h

theorem upload_on_record_iff_done : ∃ es b x,
    Prog.Run (commitStep homeServer stagedCall) stagedCall.commit.run (.start stagedSite) es (.pure (.ok b)) x ∧
      (((stagedCall.Holds x.server.tree ↔ stagedCall.OnRecord x.operationId (x.server.store.history none)) ∧
          ∀ e, (.ok b : Except ProtocolError ResultBody) = .error e → stagedCall.Undone stagedSite x.server) ↔
        x.Installed ∧ ¬x.FailedBehind ∨ ¬x.Installed ∧ ¬stagedCall.Holds stagedSite.tree) := by
  obtain ⟨es, b, x, h⟩ : ∃ es b x, Prog.drive (commitExec homeServer) (List.replicate 12 steady) stagedCall.commit.run
      (.start stagedSite) = some (es, .pure (.ok b), x) := ⟨_, _, _, rfl⟩
  have hrun := run_stagedCall h
  exact ⟨es, b, x, hrun, (upload_on_record_iff reached_stagedSite pending_stagedSite hrun).1 _ rfl⟩

/-- The log is full once the file is in place: the commit fails, and leaves the
new file at the target without a record. -/
theorem upload_without_a_record : ∃ es e x,
    Prog.Run (commitStep homeServer stagedCall) stagedCall.commit.run (.start stagedSite) es (.pure (.error e)) x ∧
      stagedSite.tree.node stagedUpload.target = none ∧ stagedCall.Holds x.server.tree ∧
      ¬stagedCall.OnRecord x.operationId (x.server.store.history none) ∧ ¬stagedCall.Undone stagedSite x.server := by
  obtain ⟨es, e, x, h, htarget, htree, hrecords⟩ : ∃ es e x, Prog.drive (commitExec homeServer)
      (List.replicate 9 steady ++ [{ store := { append := .openFails "ENOSPC" } }]) stagedCall.commit.run
        (.start stagedSite) = some (es, .pure (.error e), x) ∧ stagedSite.tree.node stagedUpload.target = none ∧
      x.server.tree.node stagedUpload.target = some (.file stagedCall.staged) ∧ x.server.store.history none = [] :=
    ⟨_, _, _, rfl, rfl, rfl, rfl⟩
  refine ⟨es, e, x, run_stagedCall h, htarget, holds_of_node htree, ?_, fun hundone => ?_⟩
  · rintro ⟨id, now, -, hmem⟩
    rw [hrecords] at hmem
    cases hmem
  · have htarget' := hundone.target
    rw [show stagedCall.entry.target = stagedUpload.target from rfl, htarget, htree] at htarget'
    cases htarget'

end RemoteWorkspace
