import RemoteWorkspace.Lib.SideBySide
import RemoteWorkspace.Server.Handlers

/-!
# A commit beside an abort

A client whose commit timed out sends the abort of the same transfer, so both
can be under way at once: the commit under the write guard, the abort without
it. The commit reads the registry entry, puts the file in place and removes the
entry at its end; the abort removes the entry first and then the staging file,
which it does not miss.
-/

namespace RemoteWorkspace

open FileTree (Node Errno)
open Interleave

theorem path_underGuard {α : Type} {h : Handler α} {es : List (Event ServerCmd ServerCmd.Result)}
    {o : Except ProtocolError α} :
    (underGuard h).Path es (.pure o) ↔
      ∃ es', es = ⟨.acquire, ()⟩ :: es' ++ [⟨.release, ()⟩] ∧ h.run.Path es' (.pure o) := by
  rw [underGuard_eq, Prog.path_op_end]
  constructor
  · rintro ⟨-, es₁, rfl, h₁⟩
    obtain ⟨es', es₂, o', rfl, h', h₂⟩ := Prog.path_bind.mp h₁
    obtain ⟨-, es₃, rfl, h₃⟩ := Prog.path_op_end.mp h₂
    obtain ⟨rfl, heq⟩ := Prog.path_pure.mp h₃
    cases heq
    exact ⟨es', rfl, h'⟩
  · rintro ⟨es', rfl, h'⟩
    exact ⟨(), _, rfl, Prog.path_bind.mpr ⟨es', _, o, rfl, h', .cons (.nil _)⟩⟩

/-! ## The abort -/

/-- What an abort does: it takes the entry, saves the registry and removes the
staging file, as far as it comes; and when it succeeds. -/
theorem path_uploadAbort {x : String} {es : List (Event ServerCmd ServerCmd.Result)}
    {p : ServerProg (Except ProtocolError String)} (h : (uploadAbort x).run.Path es p) :
    (p.succeeded = false ∧ (es = [] ∨ (∃ o, es = [⟨.uploads (.take x), o⟩]) ∨
        ∃ o saved, es = [⟨.uploads (.take x), o⟩, ⟨.uploads .save, saved⟩])) ∨
      ∃ entry r, (p.succeeded = true ↔ r = .ok () ∨ r = .error .noEntry) ∧
        es = [⟨.uploads (.take x), some entry⟩, ⟨.uploads .save, .ok ()⟩, ⟨.fs (.removeFile entry.staging), r⟩] := by
  obtain ⟨rfl, rfl⟩ | ⟨o, es₁, rfl, h₁⟩ := Prog.path_op.mp h
  · exact .inl ⟨rfl, .inl rfl⟩
  obtain ⟨rfl, rfl⟩ | ⟨saved, es₂, rfl, h₂⟩ := Prog.path_op.mp h₁
  · exact .inl ⟨rfl, .inr (.inl ⟨o, rfl⟩)⟩
  cases saved with
  | error e =>
    obtain ⟨rfl, rfl⟩ := Prog.path_pure.mp h₂
    exact .inl ⟨rfl, .inr (.inr ⟨o, _, rfl⟩)⟩
  | ok u =>
    cases o with
    | none =>
      obtain ⟨rfl, rfl⟩ := Prog.path_pure.mp h₂
      exact .inl ⟨rfl, .inr (.inr ⟨none, _, rfl⟩)⟩
    | some entry =>
      obtain ⟨rfl, rfl⟩ | ⟨r, es₃, rfl, h₃⟩ := Prog.path_op.mp h₂
      · exact .inl ⟨rfl, .inr (.inr ⟨some entry, _, rfl⟩)⟩
      refine .inr ⟨entry, r, ?_⟩
      cases r with
      | ok u' =>
        obtain ⟨rfl, rfl⟩ := Prog.path_pure.mp h₃
        exact ⟨by simp [Prog.succeeded], rfl⟩
      | error e =>
        by_cases he : e = .noEntry
        · subst he
          obtain ⟨rfl, rfl⟩ := Prog.path_pure.mp h₃
          exact ⟨by simp [Prog.succeeded], rfl⟩
        · have h₄ : Prog.Path (.pure (.error (ioFailed "remove staging failed: " e))) es₃ p := by
            cases e <;> first | exact absurd rfl he | exact h₃
          obtain ⟨rfl, rfl⟩ := Prog.path_pure.mp h₄
          exact ⟨by simp [Prog.succeeded, he], rfl⟩

/-- An abort that succeeds found the entry, and no step of it failed. -/
theorem abort_ok {x : String} {es : List (Event ServerCmd ServerCmd.Result)}
    {p : ServerProg (Except ProtocolError String)} (h : (uploadAbort x).run.Path es p) (hok : p.succeeded = true) :
    ∃ entry r, (r = .ok () ∨ r = .error .noEntry) ∧
      es = [⟨.uploads (.take x), some entry⟩, ⟨.uploads .save, .ok ()⟩, ⟨.fs (.removeFile entry.staging), r⟩] := by
  obtain ⟨hno, -⟩ | ⟨entry, r, hr, hes⟩ := path_uploadAbort h
  · simp [hno] at hok
  · exact ⟨entry, r, hr.mp hok, hes⟩

/-! ## The commit -/

/-- The staging file is put in place. -/
def Installs : Event ServerCmd ServerCmd.Result → Prop
  | ⟨.fs (.rename true _ _), r⟩ => r = .ok ()
  | ⟨.fs (.hardLink _ _), r⟩ => r = .ok ()
  | _ => False

section Commit

variable {requestId x sha256 : String} {size durationMs : Nat} {es : List (Event ServerCmd ServerCmd.Result)}

/-- What is left of a handler that runs under the write guard. -/
def ended {α : Type} (h : Handler α) : ServerProg (Except ProtocolError α) :=
  h.run >>= fun o => .op .release fun _ => .pure o

theorem path_ended_fs {α : Type} {c : FsCmd} {k : c.Result → Handler α} {es : List (Event ServerCmd ServerCmd.Result)}
    {p : ServerProg (Except ProtocolError α)} (h : (ended (Handler.fs c >>= k)).Path es p) :
    es = [] ∨ ∃ r es', es = ⟨.fs c, r⟩ :: es' ∧ (ended (k r)).Path es' p := by
  obtain ⟨rfl, -⟩ | ⟨r, es', rfl, h'⟩ := Prog.path_op.mp h
  · exact .inl rfl
  · exact .inr ⟨r, es', rfl, h'⟩

theorem not_installs_of_throw {α : Type} {e : ProtocolError} {es : List (Event ServerCmd ServerCmd.Result)}
    {p : ServerProg (Except ProtocolError α)} (h : (ended (throw e : Handler α)).Path es p) :
    ¬∃ x ∈ es, Installs x := by
  obtain ⟨rfl, -⟩ | ⟨r, es', rfl, h'⟩ := Prog.path_op.mp h
  · simp
  · obtain ⟨rfl, -⟩ := Prog.path_pure.mp h'
    simp [Installs]

section

variable {α : Type} {entry : PendingUpload} {size : Nat} {k : Unit → Handler α}
  {es : List (Event ServerCmd ServerCmd.Result)} {p : ServerProg (Except ProtocolError α)}

theorem path_checkStaging (h : (ended (checkStaging entry size >>= k)).Path es p) :
    es = [] ∨ ∃ r es', es = ⟨.fs (.metadata entry.staging), r⟩ :: es' ∧
      ((∃ f, r = .ok (.file f) ∧ f.content.length = size) ∧ (ended (k ())).Path es' p ∨
        (¬∃ f, r = .ok (.file f) ∧ f.content.length = size) ∧ ¬∃ x ∈ es', Installs x) := by
  obtain rfl | ⟨r, es', rfl, h'⟩ := path_ended_fs h
  · exact .inl rfl
  refine .inr ⟨r, es', rfl, ?_⟩
  cases r with
  | error e => exact .inr ⟨by simp, not_installs_of_throw h'⟩
  | ok node =>
    cases node with
    | file f =>
      by_cases hf : f.content.length = size
      · have hk : (ended ((if f.content.length ≠ size then throw _ else pure ()) >>= k)).Path es' p := h'
        rw [if_neg (not_not_intro hf)] at hk
        exact .inl ⟨⟨f, rfl, hf⟩, hk⟩
      · have hk : (ended ((if f.content.length ≠ size then throw _ else pure ()) >>= k)).Path es' p := h'
        rw [if_pos hf] at hk
        exact .inr ⟨by simpa using hf, not_installs_of_throw hk⟩
    | _ => exact .inr ⟨by simp, not_installs_of_throw h'⟩

theorem path_setInstalledMode (h : (ended (setInstalledMode entry >>= k)).Path es p) :
    es = [] ∨ ∃ r es', es = ⟨.fs (.metadata entry.target), r⟩ :: es' ∧
      (((∃ n, r = .ok n) ∨ r = .error .noEntry) ∧
          (es' = [] ∨ ∃ r' es'', es' = ⟨.fs (.setPermissions entry.staging), r'⟩ :: es'' ∧
            (r' = .ok () ∧ (ended (k ())).Path es'' p ∨ r' ≠ .ok () ∧ ¬∃ x ∈ es'', Installs x)) ∨
        ¬((∃ n, r = .ok n) ∨ r = .error .noEntry) ∧ ¬∃ x ∈ es', Installs x) := by
  obtain rfl | ⟨r, es', rfl, h'⟩ := path_ended_fs h
  · exact .inl rfl
  refine .inr ⟨r, es', rfl, ?_⟩
  have hchmod : (ended (Handler.failed "chmod staging file: " (Handler.fs (.setPermissions entry.staging)) >>= k)).Path es' p →
      es' = [] ∨ ∃ r' es'', es' = ⟨.fs (.setPermissions entry.staging), r'⟩ :: es'' ∧
        (r' = .ok () ∧ (ended (k ())).Path es'' p ∨ r' ≠ .ok () ∧ ¬∃ x ∈ es'', Installs x) := by
    intro h'
    obtain rfl | ⟨r', es'', rfl, h''⟩ := path_ended_fs h'
    · exact .inl rfl
    refine .inr ⟨r', es'', rfl, ?_⟩
    cases r' with
    | ok u => exact .inl ⟨rfl, h''⟩
    | error e => exact .inr ⟨by simp, not_installs_of_throw h''⟩
  cases r with
  | ok n => exact .inl ⟨.inl ⟨n, rfl⟩, hchmod h'⟩
  | error e =>
    by_cases he : e = .noEntry
    · subst he
      exact .inl ⟨.inr rfl, hchmod h'⟩
    · have h'' : (ended (throw (ioError e) : Handler α)).Path es' p := by
        cases e <;> first | exact absurd rfl he | exact h'
      exact .inr ⟨by simpa using he, not_installs_of_throw h''⟩

theorem path_installUpload (h : (ended (installUpload entry >>= k)).Path es p) :
    es = [] ∨ ∃ e es', es = e :: es' ∧
      (entry.overwrite = true ∧ (∃ r, e = ⟨.fs (.rename true entry.staging entry.target), r⟩) ∨
        entry.overwrite = false ∧ ∃ r, e = ⟨.fs (.hardLink entry.staging entry.target), r⟩) ∧
      (Installs e ∨ ¬∃ x ∈ es', Installs x) := by
  cases ho : entry.overwrite with
  | true =>
    have h' : (ended (Handler.failed "rename failed: " (Handler.fs (.rename true entry.staging entry.target)) >>= k)).Path
        es p := by
      rw [installUpload, if_pos ho] at h
      exact h
    obtain rfl | ⟨r, es', rfl, h''⟩ := path_ended_fs h'
    · exact .inl rfl
    refine .inr ⟨_, es', rfl, .inl ⟨rfl, r, rfl⟩, ?_⟩
    cases r with
    | ok u => exact .inl rfl
    | error e => exact .inr (not_installs_of_throw h'')
  | false =>
    rw [installUpload, if_neg (by simp [ho])] at h
    obtain rfl | ⟨r, es', rfl, h''⟩ := path_ended_fs h
    · exact .inl rfl
    refine .inr ⟨_, es', rfl, .inr ⟨rfl, r, rfl⟩, ?_⟩
    cases r with
    | ok u => exact .inl rfl
    | error e => exact .inr (not_installs_of_throw h'')

end

theorem installs_of_installUpload {entry : PendingUpload}
    (h : (installUpload entry).run.Path es (.pure (.ok ()))) : ∃ e ∈ es, Installs e := by
  unfold installUpload at h
  split at h
  · obtain ⟨r, es₁, rfl, h₁⟩ := Prog.path_op_end.mp h
    cases r with
    | ok u => exact ⟨_, .head _, rfl⟩
    | error e => cases (Prog.path_pure.mp h₁).2
  · obtain ⟨r, es₁, rfl, h₁⟩ := Prog.path_op_end.mp h
    cases r with
    | ok u => exact ⟨_, .head _, rfl⟩
    | error e => cases (Prog.path_pure.mp h₁).2

/-- A commit that succeeds has put the file in place. -/
theorem installs_of_commit_ok {b : ResultBody}
    (h : (underGuard (uploadCommit requestId x size sha256 durationMs)).Path es (.pure (.ok b))) :
    ∃ e ∈ es, Installs e := by
  obtain ⟨es', rfl, h₁⟩ := path_underGuard.mp h
  obtain ⟨es₁, es₂, o, rfl, -, h₂⟩ := Prog.path_ok.mp h₁
  cases o with
  | none => cases (Prog.path_pure.mp h₂).2
  | some entry =>
    obtain ⟨es₃, es₄, u₃, rfl, -, h₃⟩ := Prog.path_ok.mp h₂
    obtain ⟨es₅, es₆, u₄, rfl, -, h₄⟩ := Prog.path_ok.mp h₃
    obtain ⟨es₇, es₈, u₅, rfl, h₅, -⟩ := Prog.path_ok.mp h₄
    obtain ⟨e, he, hi⟩ := installs_of_installUpload h₅
    exact ⟨e, by simp [he], hi⟩

theorem path_uploadCommit {p : ServerProg (Except ProtocolError ResultBody)}
    (h : (underGuard (uploadCommit requestId x size sha256 durationMs)).Path es p) :
    es = [] ∨ ∃ es', es = ⟨.acquire, ()⟩ :: es' ∧ (es' = [] ∨ ∃ o es'', es' = ⟨.uploads (.get x), o⟩ :: es'' ∧
      (o = none ∧ (¬∃ e ∈ es'', Installs e) ∨ ∃ entry, o = some entry ∧
        (ended (checkStaging entry size >>= fun _ => setInstalledMode entry >>= fun _ =>
          installUpload entry >>= fun _ => recordUpload requestId x size sha256 durationMs entry)).Path es'' p)) := by
  obtain ⟨rfl, -⟩ | ⟨u, es₁, rfl, h₁⟩ := Prog.path_op.mp h
  · exact .inl rfl
  refine .inr ⟨es₁, rfl, ?_⟩
  obtain ⟨rfl, -⟩ | ⟨o, es₂, rfl, h₂⟩ := Prog.path_op.mp h₁
  · exact .inl rfl
  refine .inr ⟨o, es₂, rfl, ?_⟩
  cases o with
  | none => exact .inl ⟨rfl, not_installs_of_throw h₂⟩
  | some entry => exact .inr ⟨entry, rfl, h₂⟩

theorem installs_tail {e : Event ServerCmd ServerCmd.Result} (he : ¬Installs e) (hi : ∃ y ∈ e :: es, Installs y) :
    ∃ y ∈ es, Installs y := by
  obtain ⟨y, hy, hi⟩ := hi
  rcases List.mem_cons.mp hy with rfl | hy
  · exact absurd hi he
  · exact ⟨y, hy, hi⟩

/-- The commands of a commit that puts the file in place, up to there. -/
theorem path_of_installs {p : ServerProg (Except ProtocolError ResultBody)}
    (h : (underGuard (uploadCommit requestId x size sha256 durationMs)).Path es p)
    (hi : ∃ e ∈ es, Installs e) :
    ∃ entry f r e es', f.content.length = size ∧ ((∃ n, r = .ok n) ∨ r = .error .noEntry) ∧
      (entry.overwrite = true ∧ (∃ r, e = ⟨.fs (.rename true entry.staging entry.target), r⟩) ∨
        entry.overwrite = false ∧ ∃ r, e = ⟨.fs (.hardLink entry.staging entry.target), r⟩) ∧ Installs e ∧
      es = ⟨.acquire, ()⟩ :: ⟨.uploads (.get x), some entry⟩ ::
        ⟨.fs (.metadata entry.staging), .ok (.file f)⟩ :: ⟨.fs (.metadata entry.target), r⟩ ::
        ⟨.fs (.setPermissions entry.staging), .ok ()⟩ :: e :: es' := by
  have hnil : ¬∃ y ∈ ([] : List (Event ServerCmd ServerCmd.Result)), Installs y := by simp
  obtain rfl | ⟨es₁, rfl, h₁⟩ := path_uploadCommit h
  · exact absurd hi hnil
  have hi₁ := installs_tail id hi
  obtain rfl | ⟨o, es₂, rfl, h₂⟩ := h₁
  · exact absurd hi₁ hnil
  have hi₂ := installs_tail id hi₁
  obtain ⟨-, hno⟩ | ⟨entry, rfl, h₂⟩ := h₂
  · exact absurd hi₂ hno
  obtain rfl | ⟨r₂, es₃, rfl, h₃⟩ := path_checkStaging h₂
  · exact absurd hi₂ hnil
  have hi₃ := installs_tail id hi₂
  obtain ⟨⟨f, rfl, hf⟩, h₃⟩ | ⟨-, hno⟩ := h₃
  rotate_left
  · exact absurd hi₃ hno
  obtain rfl | ⟨r₃, es₄, rfl, h₄⟩ := path_setInstalledMode h₃
  · exact absurd hi₃ hnil
  have hi₄ := installs_tail id hi₃
  obtain ⟨hr₃, h₄⟩ | ⟨-, hno⟩ := h₄
  rotate_left
  · exact absurd hi₄ hno
  obtain rfl | ⟨r₄, es₅, rfl, h₅⟩ := h₄
  · exact absurd hi₄ hnil
  have hi₅ := installs_tail id hi₄
  obtain ⟨rfl, h₅⟩ | ⟨-, hno⟩ := h₅
  rotate_left
  · exact absurd hi₅ hno
  obtain rfl | ⟨e, es₆, rfl, he, hi'⟩ := path_installUpload h₅
  · exact absurd hi₅ hnil
  refine ⟨entry, f, r₃, e, es₆, hf, hr₃, he, ?_, rfl⟩
  by_contra hne
  exact hi'.elim hne fun hno => hno (installs_tail hne hi₅)

end Commit

/-! ## Both -/

/-- Neither program adds to the registry. -/
def NoPut : ServerCmd → Prop
  | .uploads (.put _ _) => False
  | _ => True

theorem noPut_registryRemove (x : String) : (registryRemove x).run.Issues NoPut := by
  refine (Handler.issues_uploads trivial).bindE fun o => ?_
  refine (Prog.Issues.orThrow (Handler.issues_uploads trivial)).bindE fun _ => ?_
  trivial

theorem noPut_uploadAbort (x : String) : (uploadAbort x).run.Issues NoPut := by
  refine (noPut_registryRemove x).bindE fun o => ?_
  cases o with
  | none => trivial
  | some entry =>
    refine (Handler.issues_fs trivial).bindE fun r => ?_
    cases r with
    | ok u => trivial
    | error e => cases e <;> trivial

theorem noPut_uploadCommit (requestId x : String) (size : Nat) (sha256 : String) (durationMs : Nat) :
    (underGuard (uploadCommit requestId x size sha256 durationMs)).Issues NoPut := by
  have hfs : ∀ c, (Handler.fs c).run.Issues NoPut := fun c => Handler.issues_fs trivial
  apply issues_underGuard trivial trivial
  refine (Handler.issues_uploads trivial).bindE fun o => ?_
  cases o with
  | none => trivial
  | some entry =>
    refine Prog.Issues.bindE ?_ fun _ => Prog.Issues.bindE ?_ fun _ => Prog.Issues.bindE ?_ fun _ => ?_
    · refine (Prog.Issues.orThrow (hfs _)).bindE fun node => ?_
      split
      · split <;> trivial
      · trivial
    · refine (hfs _).bindE fun r => ?_
      have hset : (Handler.failed "chmod staging file: " (Handler.fs (.setPermissions entry.staging))).run.Issues NoPut :=
        Prog.Issues.orThrow (hfs _)
      cases r with
      | ok node => exact hset
      | error e => cases e <;> first | exact hset | trivial
    · unfold installUpload
      split
      · exact Prog.Issues.orThrow (hfs _)
      · exact (Prog.Issues.orThrow (hfs _)).bindE fun _ => Prog.Issues.orThrow (hfs _)
    · refine (Prog.Issues.orThrow (hfs _)).bindE fun _ => ?_
      refine (Handler.issues_store (fun _ => trivial) _).bindE fun _ => ?_
      refine (Handler.issues_store (fun _ => trivial) _).bindE fun _ => ?_
      refine (Prog.Issues.orThrow (Handler.issues_store (fun _ => trivial) _)).bindE fun _ => ?_
      exact (noPut_registryRemove x).bindE fun _ => trivial

/-- A commit under the write guard and an abort of the transfer `x`, before
either has done anything. -/
def commitBesideAbort (s : ServerState) (requestId x : String) (size : Nat) (sha256 : String)
    (durationMs : Nat) :
    Pair ServerState ServerCmd ServerCmd.Result (Except ProtocolError ResultBody) (Except ProtocolError String) where
  state := s
  left := underGuard (uploadCommit requestId x size sha256 durationMs)
  right := (uploadAbort x).run

section

variable {ws : Workspace} {sha : Sha256}

/-- What the registry lacks, no command but `put` adds. -/
theorem lookup_ne_step {x : String} {entry : PendingUpload} {e : Event ServerCmd ServerCmd.Result}
    {ch : ServerChoice} {s s' : ServerState} (hc : NoPut e.cmd) (hs : s.uploads.entries.lookup x ≠ some entry)
    (h : e.cmd.exec ws sha ch s = some (e.res, s')) : s'.uploads.entries.lookup x ≠ some entry := by
  obtain ⟨c, r⟩ := e
  cases c with
  | uploads c =>
    cases h
    cases c with
    | take y =>
      show (s.uploads.entries.remove y).lookup x ≠ some entry
      rw [Uploads.lookup_remove]
      split
      · simp
      · exact hs
    | put y p => exact hc.elim
    | save =>
      simp only [UploadCmd.exec]
      split <;> exact hs
    | _ => exact hs
  | store c =>
    obtain ⟨⟨r', st⟩, -, h⟩ := Option.map_eq_some_iff.mp h
    cases h
    exact hs
  | acquire =>
    simp only [ServerCmd.exec] at h
    split at h
    · cases h
    · cases h
      exact hs
  | _ =>
    cases h
    exact hs

/-- What the commit or the abort finds in the registry was there before. -/
theorem found_before {P P' : Pair ServerState ServerCmd ServerCmd.Result (Except ProtocolError ResultBody)
      (Except ProtocolError String)} {ms : List (Side × ServerChoice)}
    {tr : List (Side × Event ServerCmd ServerCmd.Result)} {x : String} {entry : PendingUpload}
    (hl : P.left.Issues NoPut) (hr : P.right.Issues NoPut)
    (h : Pair.run (ServerCmd.exec ws sha) ms P = some (tr, P')) (hf : P'.state.uploads.entries.lookup x = some entry) :
    P.state.uploads.entries.lookup x = some entry := by
  by_contra hne
  have hcmds : ∀ y ∈ tr, NoPut y.2.cmd :=
    Pair.run_trace (J := fun _ => True) (Q := fun c _ => NoPut c) (fun hok _ _ => ⟨trivial, hok⟩) hl hr trivial h
  exact Pair.run_keeps (J := fun s => s.uploads.entries.lookup x ≠ some entry) (E := fun e => NoPut e.cmd)
    lookup_ne_step h hcmds hne hf

/-- A command that leaves the files as they are. -/
def Leaves (ws : Workspace) (sha : Sha256) (e : Event ServerCmd ServerCmd.Result) : Prop :=
  ∀ ch s s', e.cmd.exec ws sha ch s = some (e.res, s') → s'.tree = s.tree

@[simp] theorem leaves_acquire : Leaves ws sha ⟨.acquire, ()⟩ := by
  intro ch s s' h
  simp only [ServerCmd.exec] at h
  split at h
  · cases h
  · cases h
    rfl

@[simp] theorem leaves_uploads (c : UploadCmd) (r : c.Result) : Leaves ws sha ⟨.uploads c, r⟩ := by
  intro ch s s' h
  cases h
  rfl

@[simp] theorem leaves_metadata (p : Path) (r : Except Errno (Node String File)) :
    Leaves ws sha ⟨.fs (.metadata p), r⟩ := by
  intro ch s s' h
  cases h
  rfl

@[simp] theorem leaves_setPermissions (p : Path) (r : Except Errno Unit) :
    Leaves ws sha ⟨.fs (.setPermissions p), r⟩ := by
  intro ch s s' h
  cases h
  rfl

@[simp] theorem leaves_removeFile (p : Path) (e : Errno) : Leaves ws sha ⟨.fs (.removeFile p), .error e⟩ := by
  intro ch s s' h
  simp only [ServerCmd.exec, FsCmd.exec, Option.some.injEq, Prod.mk.injEq] at h
  obtain ⟨h, rfl⟩ := h
  obtain ⟨e', he⟩ | ⟨t', -, he⟩ := ch.fs.changes_cases s.tree (s.tree.unlink p)
  · rw [he]
  · rw [he] at h
    cases h

/-- Of the abort, only the removal of the staging file changes a file. -/
theorem leaves_of_abort {x : String} {es : List (Event ServerCmd ServerCmd.Result)}
    {p : ServerProg (Except ProtocolError String)} (h : (uploadAbort x).run.Path es p) :
    ∀ e ∈ es, Leaves ws sha e ∨ ∃ q, e = ⟨.fs (.removeFile q), .ok ()⟩ := by
  intro e he
  obtain ⟨-, rfl | ⟨o, rfl⟩ | ⟨o, saved, rfl⟩⟩ | ⟨entry, r, -, rfl⟩ := path_uploadAbort h
  · cases he
  · obtain rfl := List.mem_singleton.mp he
    exact .inl (leaves_uploads _ _)
  · simp only [List.mem_cons, List.not_mem_nil, or_false] at he
    obtain rfl | rfl := he <;> exact .inl (leaves_uploads _ _)
  · simp only [List.mem_cons, List.not_mem_nil, or_false] at he
    obtain rfl | rfl | rfl := he
    · exact .inl (leaves_uploads _ _)
    · exact .inl (leaves_uploads _ _)
    · cases r with
      | ok u => exact .inr ⟨_, rfl⟩
      | error e => exact .inl (leaves_removeFile _ _)

end

/-! ## An abort that overtakes a commit -/

section

variable (ws : Workspace) (sha : Sha256)

/-- Whether the staging file can be put in place. -/
def Puts (entry : PendingUpload) (ch : FsChoice) (t : Tree) : Prop :=
  if entry.overwrite then ((FsCmd.rename true entry.staging entry.target).exec ws sha ch t).1 = .ok ()
  else ((FsCmd.hardLink entry.staging entry.target).exec ws sha ch t).1 = .ok ()

/-- On the tree `t` the staging file has the declared size, nothing keeps its
mode from being set, and it can be put in place, given what the four calls of
the commit meet. -/
structure Lands (entry : PendingUpload) (size : Nat) (t : Tree) (check target mode install : FsChoice) : Prop where
  staged : ∃ f, ((FsCmd.metadata entry.staging).exec ws sha check t).1 = .ok (.file f) ∧ f.content.length = size
  target : (∃ n, ((FsCmd.metadata entry.target).exec ws sha target t).1 = .ok n) ∨
    ((FsCmd.metadata entry.target).exec ws sha target t).1 = .error .noEntry
  mode : ((FsCmd.setPermissions entry.staging).exec ws sha mode t).1 = .ok ()
  puts : Puts ws sha entry install t

/-- The schedule and what the commands meet let the abort go through and the
commit put its file in place. -/
structure Overtakes (x : String) (size : Nat)
    (start : Pair ServerState ServerCmd ServerCmd.Result (Except ProtocolError ResultBody) (Except ProtocolError String))
    (ms : List (Side × ServerChoice)) (entry : PendingUpload) : Prop where
  /-- The commit has looked the transfer up before the abort's first command,
  which still finds it. -/
  late : ∃ ms₁ a ms₂ tr P, Pair.cut .right 0 ms = some (ms₁, a, ms₂) ∧ 2 ≤ (Pair.ofSide .left ms₁).length ∧
    Pair.run (ServerCmd.exec ws sha) ms₁ start = some (tr, P) ∧ P.state.uploads.entries.lookup x = some entry
  saves : ∃ a, (Pair.ofSide .right ms)[1]? = some a ∧ a.uploads.save = .done
  /-- The abort's third command removes the staging file or finds none, and this
  after the commit's sixth, which puts the file in place, unless the call itself
  says that there is none. -/
  unlinks : ∃ ms₁ a ms₂ tr P, Pair.cut .right 2 ms = some (ms₁, a, ms₂) ∧
    Pair.run (ServerCmd.exec ws sha) ms₁ start = some (tr, P) ∧
    (a.fs.fault = some .noEntry ∨ 6 ≤ (Pair.ofSide .left ms₁).length) ∧
    (((FsCmd.removeFile entry.staging).exec ws sha a.fs P.state.tree).1 = .ok () ∨
      ((FsCmd.removeFile entry.staging).exec ws sha a.fs P.state.tree).1 = .error .noEntry)
  lands : ∃ c₂ c₃ c₄ c₅, (Pair.ofSide .left ms)[2]? = some c₂ ∧ (Pair.ofSide .left ms)[3]? = some c₃ ∧
    (Pair.ofSide .left ms)[4]? = some c₄ ∧ (Pair.ofSide .left ms)[5]? = some c₅ ∧
    Lands ws sha entry size start.state.tree c₂.fs c₃.fs c₄.fs c₅.fs

end

section

variable {ws : Workspace} {sha : Sha256} {s : ServerState} {requestId x sha256 : String} {size durationMs : Nat}
  {ms : List (Side × ServerChoice)} {tr : List (Side × Event ServerCmd ServerCmd.Result)}
  {P : Pair ServerState ServerCmd ServerCmd.Result (Except ProtocolError ResultBody) (Except ProtocolError String)}

/-- Unless the abort removes the staging file before the commit's sixth command,
the commit's calls up to that one see the files as they were. -/
theorem fs_at (h : Pair.run (ServerCmd.exec ws sha) ms
      (commitBesideAbort s requestId x size sha256 durationMs) = some (tr, P))
    (hq : ∀ t₁ q t₂, tr = t₁ ++ (.right, ⟨.fs (.removeFile q), .ok ()⟩) :: t₂ → 6 ≤ (Pair.ofSide .left t₁).length)
    {n : Nat} {c : FsCmd} {r : c.Result} (hn : n ≤ 5)
    (hleaves : ∀ e ∈ (Pair.ofSide .left tr).take n, Leaves ws sha e)
    (he : (Pair.ofSide .left tr)[n]? = some ⟨.fs c, r⟩) :
    ∃ ch, (Pair.ofSide .left ms)[n]? = some ch ∧ r = (c.exec ws sha ch.fs s.tree).1 := by
  obtain ⟨ms₁, ch, ms₂, tr₁, tr₂, P₁, P₂, hms, htr, h₁, hm, -⟩ := Pair.run_at h he
  refine ⟨ch, Pair.getElem?_of_cut hms, ?_⟩
  obtain ⟨heq, hlen₁⟩ := Pair.split_of_cut htr
  have hkeep : ∀ y ∈ tr₁, Leaves ws sha y.2 := by
    rintro ⟨d, e⟩ hy
    cases d with
    | left =>
      apply hleaves
      rw [heq, Pair.ofSide_append, List.take_left' hlen₁]
      exact Pair.mem_ofSide.mpr hy
    | right =>
      have hy' : e ∈ Pair.ofSide .right tr := by
        rw [Pair.mem_ofSide, heq]
        exact List.mem_append_left _ hy
      obtain hl | ⟨q, rfl⟩ := leaves_of_abort (Pair.run_right h) e hy'
      · exact hl
      · obtain ⟨t₁, t₂, rfl⟩ := List.append_of_mem hy
        have := hq t₁ q (t₂ ++ (.left, ⟨.fs c, r⟩) :: tr₂) (by rw [heq]; simp)
        rw [Pair.ofSide_append, List.length_append] at hlen₁
        omega
  have htree : P₁.state.tree = s.tree :=
    Pair.run_keeps (J := fun s' => s'.tree = s.tree) (E := fun e => Leaves ws sha e)
      (fun hl hJ hx => (hl _ _ _ hx).trans hJ) h₁ hkeep rfl
  obtain ⟨r', hx, hr, -⟩ := Pair.move_cases hm
  rw [← htree]
  exact ((congrArg Prod.fst (Option.some.inj hx)).trans hr).symm

/-- The removal of the staging file is the abort's third command. -/
theorem third_of_removeFile (h : Pair.run (ServerCmd.exec ws sha) ms
      (commitBesideAbort s requestId x size sha256 durationMs) = some (tr, P)) {q : Path} {r : Except Errno Unit}
    {t₁ t₂ : List (Side × Event ServerCmd ServerCmd.Result)} (htr : tr = t₁ ++ (.right, ⟨.fs (.removeFile q), r⟩) :: t₂) :
    Pair.cut .right 2 tr = some (t₁, ⟨.fs (.removeFile q), r⟩, t₂) := by
  have hcut := Pair.cut_append .right (⟨.fs (.removeFile q), r⟩ : Event ServerCmd ServerCmd.Result) t₁ t₂
  rw [← htr] at hcut
  have hget := Pair.getElem?_of_cut hcut
  have hn : (Pair.ofSide .right t₁).length = 2 := by
    generalize (Pair.ofSide .right t₁).length = n at hget
    obtain ⟨-, hes | ⟨o, hes⟩ | ⟨o, saved, hes⟩⟩ | ⟨entry, r', -, hes⟩ := path_uploadAbort (Pair.run_right h) <;>
      rw [hes] at hget
    · simp at hget
    · obtain _ | n := n <;> simp at hget
    · obtain _ | _ | n := n <;> simp at hget
    · obtain _ | _ | _ | n := n
      · simp at hget
      · simp at hget
      · rfl
      · simp at hget
  rwa [hn] at hcut

/-- If the abort overtakes the commit, it removes the staging file after the
commit has put it in place. -/
theorem quiet_of_unlinks {entry : PendingUpload} (h : Pair.run (ServerCmd.exec ws sha) ms
      (commitBesideAbort s requestId x size sha256 durationMs) = some (tr, P))
    (ho : Overtakes ws sha x size (commitBesideAbort s requestId x size sha256 durationMs) ms entry) :
    ∀ t₁ q t₂, tr = t₁ ++ (.right, ⟨.fs (.removeFile q), .ok ()⟩) :: t₂ → 6 ≤ (Pair.ofSide .left t₁).length := by
  rintro t₁ q t₂ htr
  obtain ⟨ms₁, a, ms₂, tr₁, P₁, hms, h₁, hwhen, -⟩ := ho.unlinks
  have hcut := third_of_removeFile h htr
  have hget := Pair.getElem?_of_cut hcut
  obtain ⟨ms₁', a', ms₂', tr₁', tr₂, Q₁, Q₂, hms', htr', h₁', -, -⟩ := Pair.run_at h hget
  cases hms.symm.trans hms'
  cases hcut.symm.trans htr'
  obtain hfault | hlate := hwhen
  · obtain ⟨s', hx⟩ := Pair.exec_at h hms h₁ hget
    have := congrArg Prod.fst (Option.some.inj hx)
    simp [FsCmd.exec, FsChoice.changes, FsChoice.reads, hfault] at this
  · rw [Pair.ofSide_length h₁']
    exact hlate

/-- Where the registry still has the entry, the commit that has looked it up has
found it. -/
theorem get_of_found (h : Pair.run (ServerCmd.exec ws sha) ms
      (commitBesideAbort s requestId x size sha256 durationMs) = some (tr, P)) {entry : PendingUpload}
    (hlen : 2 ≤ (Pair.ofSide .left ms).length) (hf : P.state.uploads.entries.lookup x = some entry) :
    (Pair.ofSide .left tr)[1]? = some ⟨.uploads (.get x), some entry⟩ := by
  rw [← Pair.ofSide_length h] at hlen
  obtain hnil | ⟨es₁, hes, rfl | ⟨o, es₂, rfl, -⟩⟩ := path_uploadCommit (Pair.run_left h)
  · simp [hnil] at hlen
  · simp [hes] at hlen
  have hget : (Pair.ofSide .left tr)[1]? = some ⟨.uploads (.get x), o⟩ := by
    rw [hes]
    rfl
  obtain ⟨ms₁, ch, ms₂, tr₁, tr₂, P₁, P₂, -, -, h₁, hm, h₂⟩ := Pair.run_at h hget
  have hi := Pair.issues_of_run (noPut_uploadCommit requestId x size sha256 durationMs) (noPut_uploadAbort x) h₁
  have hrest : Pair.run (ServerCmd.exec ws sha) ((.left, ch) :: ms₂) P₁ =
      some ((.left, ⟨.uploads (.get x), o⟩) :: tr₂, P) := by
    simp [Pair.run, hm, h₂]
  obtain ⟨r, hx, hr, -⟩ := Pair.move_cases hm
  have ho : P₁.state.uploads.entries.lookup x = o := (congrArg Prod.fst (Option.some.inj hx)).trans hr
  rw [hget, ← ho, found_before hi.1 hi.2 hrest hf]

theorem succeeds_of_overtakes {entry : PendingUpload} (h : Pair.run (ServerCmd.exec ws sha) ms
      (commitBesideAbort s requestId x size sha256 durationMs) = some (tr, P))
    (ho : Overtakes ws sha x size (commitBesideAbort s requestId x size sha256 durationMs) ms entry) :
    P.right.succeeded = true := by
  obtain ⟨ms₀, a₀, ms₀', tr₀, P₀, hms₀, -, h₀, hf⟩ := ho.late
  obtain ⟨ms₁, a, ms₂, tr₁, P₁, hms, h₁, -, hr⟩ := ho.unlinks
  have hlen : 2 < (Pair.ofSide .right tr).length := by
    rw [Pair.ofSide_length h]
    exact (List.getElem?_eq_some_iff.mp (Pair.getElem?_of_cut hms)).1
  obtain ⟨-, hes | ⟨o, hes⟩ | ⟨o, saved, hes⟩⟩ | ⟨entry', r, hok, hes⟩ := path_uploadAbort (Pair.run_right h)
  · simp [hes] at hlen
  · simp [hes] at hlen
  · simp [hes] at hlen
  obtain ⟨s₀, hx₀⟩ := Pair.exec_at h hms₀ h₀ (by rw [hes]; rfl)
  have hentry : P₀.state.uploads.entries.lookup x = some entry' := congrArg Prod.fst (Option.some.inj hx₀)
  obtain rfl := Option.some.inj (hf.symm.trans hentry)
  obtain ⟨s₁, hx₁⟩ := Pair.exec_at h hms h₁ (by rw [hes]; rfl)
  have hres : ((FsCmd.removeFile entry.staging).exec ws sha a.fs P₁.state.tree).1 = r :=
    congrArg Prod.fst (Option.some.inj hx₁)
  rw [hres] at hr
  exact hok.mpr hr

theorem installs_of_overtakes {entry : PendingUpload} (h : Pair.run (ServerCmd.exec ws sha) ms
      (commitBesideAbort s requestId x size sha256 durationMs) = some (tr, P))
    (ho : Overtakes ws sha x size (commitBesideAbort s requestId x size sha256 durationMs) ms entry) :
    ∃ e, (.left, e) ∈ tr ∧ Installs e := by
  have hq := quiet_of_unlinks h ho
  obtain ⟨c₂, c₃, c₄, c₅, hc₂, hc₃, hc₄, hc₅, hlands⟩ := ho.lands
  have hlen : 5 < (Pair.ofSide .left tr).length := by
    rw [Pair.ofSide_length h]
    exact (List.getElem?_eq_some_iff.mp hc₅).1
  have hget : (Pair.ofSide .left tr)[1]? = some ⟨.uploads (.get x), some entry⟩ := by
    obtain ⟨ms₀, a₀, ms₀', tr₀, P₀, hms₀, hleft, h₀, hf⟩ := ho.late
    have hone := get_of_found h₀ hleft hf
    have hright : 0 < (Pair.ofSide .right tr).length := by
      rw [Pair.ofSide_length h]
      exact (List.getElem?_eq_some_iff.mp (Pair.getElem?_of_cut hms₀)).1
    obtain ⟨ms₁, ch, ms₂, tr₁, tr₂, P₁, P₂, hms, htr, h₁, -, -⟩ := Pair.run_at h (List.getElem?_eq_getElem hright)
    cases hms₀.symm.trans hms
    cases h₀.symm.trans h₁
    rw [(Pair.split_of_cut htr).1, Pair.ofSide_append, List.getElem?_append_left]
    · exact hone
    · exact (List.getElem?_eq_some_iff.mp hone).1
  obtain hes | ⟨es₁, hes, rfl | ⟨o, es₂, rfl, h₂⟩⟩ := path_uploadCommit (Pair.run_left h)
  · simp [hes] at hlen
  · simp [hes] at hlen
  obtain rfl : o = some entry := by
    rw [hes] at hget
    cases hget
    rfl
  obtain ⟨ho', -⟩ | ⟨entry', hentry, h₂⟩ := h₂
  · cases ho'
  obtain rfl := Option.some.inj hentry
  -- each call returns what it would on the files as they were
  obtain rfl | ⟨r₂, es₃, rfl, h₃⟩ := path_checkStaging h₂
  · simp [hes] at hlen
  obtain ⟨ch₂, hch₂, hr₂⟩ := fs_at h hq (n := 2) (by decide) (by simp [hes]) (by rw [hes]; rfl)
  cases hc₂.symm.trans hch₂
  obtain ⟨-, h₃⟩ | ⟨hno, -⟩ := h₃
  rotate_left
  · exact absurd hlands.staged (hr₂ ▸ hno)
  obtain rfl | ⟨r₃, es₄, rfl, h₄⟩ := path_setInstalledMode h₃
  · simp [hes] at hlen
  obtain ⟨ch₃, hch₃, hr₃⟩ := fs_at h hq (n := 3) (by decide) (by simp [hes]) (by rw [hes]; rfl)
  cases hc₃.symm.trans hch₃
  obtain ⟨-, h₄⟩ | ⟨hno, -⟩ := h₄
  rotate_left
  · exact absurd hlands.target (hr₃ ▸ hno)
  obtain rfl | ⟨r₄, es₅, rfl, h₅⟩ := h₄
  · simp [hes] at hlen
  obtain ⟨ch₄, hch₄, hr₄⟩ := fs_at h hq (n := 4) (by decide) (by simp [hes]) (by rw [hes]; rfl)
  cases hc₄.symm.trans hch₄
  obtain ⟨-, h₅⟩ | ⟨hno, -⟩ := h₅
  rotate_left
  · exact absurd hlands.mode (hr₄ ▸ hno)
  obtain rfl | ⟨e, es₆, rfl, hcmd, -⟩ := path_installUpload h₅
  · simp [hes] at hlen
  refine ⟨e, Pair.mem_ofSide.mp (by simp [hes]), ?_⟩
  have hputs := hlands.puts
  obtain ⟨hover, r, rfl⟩ | ⟨hover, r, rfl⟩ := hcmd
  · obtain ⟨ch₅, hch₅, hr₅⟩ := fs_at h hq (n := 5) (by decide) (by simp [hes]) (by rw [hes]; rfl)
    cases hc₅.symm.trans hch₅
    rw [Puts, if_pos hover] at hputs
    exact hr₅.trans hputs
  · obtain ⟨ch₅, hch₅, hr₅⟩ := fs_at h hq (n := 5) (by decide) (by simp [hes]) (by rw [hes]; rfl)
    cases hc₅.symm.trans hch₅
    rw [Puts, if_neg (by simp [hover])] at hputs
    exact hr₅.trans hputs

/-- Nothing is at the staging path once the abort has unlinked it. -/
theorem gone_of_removeFile {q : Path} {ch : ServerChoice} {s s' : ServerState} {r : Except Errno Unit}
    (h : (ServerCmd.fs (.removeFile q)).exec ws sha ch s = some (r, s')) (hch : ch.fs.fault ≠ some .noEntry)
    (hr : r = .ok () ∨ r = .error .noEntry) : ∀ y, s'.tree.lstat q ≠ .ok y := by
  simp only [ServerCmd.exec, FsCmd.exec, Option.some.injEq, Prod.mk.injEq] at h
  obtain ⟨rfl, rfl⟩ := h
  simp only [FsChoice.changes, FsChoice.reads] at hr ⊢
  cases hf : ch.fs.fault with
  | some e =>
    simp only [hf, reduceCtorEq, false_or, Except.error.injEq] at hr
    exact absurd (hr ▸ hf) hch
  | none =>
    cases hu : s.tree.unlink q with
    | ok t' => exact FileTree.Tree.lstat_unlink hu
    | error e =>
      simp only [hf, hu, reduceCtorEq, false_or, Except.error.injEq] at hr
      subst hr
      exact FileTree.Tree.lstat_of_unlink hu

/-- What is put in place was there. -/
theorem staged_of_puts {entry : PendingUpload} {e : Event ServerCmd ServerCmd.Result} {ch : ServerChoice}
    {s s' : ServerState}
    (hcmd : entry.overwrite = true ∧ (∃ r, e = ⟨.fs (.rename true entry.staging entry.target), r⟩) ∨
      entry.overwrite = false ∧ ∃ r, e = ⟨.fs (.hardLink entry.staging entry.target), r⟩)
    (hi : Installs e) (h : e.cmd.exec ws sha ch s = some (e.res, s')) : ∃ y, s.tree.lstat entry.staging = .ok y := by
  have hok : ∀ {r : Except Errno Tree}, (ch.fs.changes s.tree r).1 = .ok () → ∃ t', r = .ok t' := by
    intro r hr
    obtain ⟨e, he⟩ | ⟨t', ht, -⟩ := ch.fs.changes_cases s.tree r
    · rw [he] at hr
      cases hr
    · exact ⟨t', ht⟩
  obtain ⟨-, r, rfl⟩ | ⟨-, r, rfl⟩ := hcmd
  · obtain rfl : r = .ok () := hi
    obtain ⟨t', ht⟩ := hok (congrArg Prod.fst (Option.some.inj h))
    exact FileTree.Tree.lstat_of_move ht
  · obtain rfl : r = .ok () := hi
    obtain ⟨t', ht⟩ := hok (congrArg Prod.fst (Option.some.inj h))
    exact FileTree.Tree.lstat_of_hardLink ht

/-- A commit that puts the file in place has done so before the abort unlinks
it. -/
theorem six_before_unlink {entry : PendingUpload} {a : ServerChoice} {ms₁ ms₂ : List (Side × ServerChoice)}
    {t₁ t₂ : List (Side × Event ServerCmd ServerCmd.Result)} {r : Except Errno Unit}
    (h : Pair.run (ServerCmd.exec ws sha) ms
      (commitBesideAbort s requestId x size sha256 durationMs) = some (tr, P))
    {e : Event ServerCmd ServerCmd.Result} (he : (Pair.ofSide .left tr)[5]? = some e)
    (hcmd : entry.overwrite = true ∧ (∃ r, e = ⟨.fs (.rename true entry.staging entry.target), r⟩) ∨
      entry.overwrite = false ∧ ∃ r, e = ⟨.fs (.hardLink entry.staging entry.target), r⟩)
    (hi : Installs e) (hleaves : ∀ e ∈ (Pair.ofSide .left tr).take 5, Leaves ws sha e)
    (hms : Pair.cut .right 2 ms = some (ms₁, a, ms₂)) (ha : a.fs.fault ≠ some .noEntry)
    (htr : Pair.cut .right 2 tr = some (t₁, ⟨.fs (.removeFile entry.staging), r⟩, t₂))
    (hr : r = .ok () ∨ r = .error .noEntry) (hlast : (Pair.ofSide .right tr).length = 3) :
    6 ≤ (Pair.ofSide .left t₁).length := by
  by_contra hlt
  obtain ⟨m₁, ch, m₂, u₁, u₂, Q₁, Q₂, hm₁, hu, hrun, hmove, -⟩ := Pair.run_at h he
  obtain ⟨b, rfl⟩ := Pair.before_of_cut (by decide) htr hu (by omega)
  obtain ⟨n₁, a', n₂, P₁, P₂, rfl, hrun₁, hunlink, hrun₂⟩ := Pair.run_split hrun
  obtain ⟨htr₁, hcount⟩ := Pair.split_of_cut htr
  obtain ⟨hu₁, hfive⟩ := Pair.split_of_cut hu
  obtain rfl : a' = a := by
    obtain ⟨hms₁, -⟩ := Pair.split_of_cut hm₁
    have := Pair.cut_append .right a' n₁ (n₂ ++ (.left, ch) :: m₂)
    rw [← Pair.ofSide_length hrun₁, hcount, ← List.cons_append, ← List.append_assoc, ← hms₁] at this
    cases hms.symm.trans this
    rfl
  -- from the unlink to the installation nothing changes the files
  have hb : ∀ y ∈ b, Leaves ws sha y.2 := by
    rintro ⟨d, e⟩ hy
    cases d with
    | left =>
      apply hleaves
      rw [hu₁, Pair.ofSide_append, List.take_left' hfive, Pair.mem_ofSide]
      simp [hy]
    | right =>
      have hmem := Pair.mem_ofSide.mpr hy
      rw [hu₁, List.append_assoc, List.cons_append, Pair.ofSide_append, Pair.ofSide_same, Pair.ofSide_append,
        List.length_append, List.length_cons, List.length_append, hcount] at hlast
      have := List.length_pos_of_mem hmem
      omega
  obtain ⟨r', hx, hres, -⟩ := Pair.move_cases hunlink
  have hgone : ∀ y, P₂.state.tree.lstat entry.staging ≠ .ok y := gone_of_removeFile hx ha (hres ▸ hr)
  have hgone' : ∀ y, Q₁.state.tree.lstat entry.staging ≠ .ok y :=
    Pair.run_keeps (J := fun s' => ∀ y, s'.tree.lstat entry.staging ≠ .ok y) (E := fun e => Leaves ws sha e)
      (fun hl hJ hx => by rw [hl _ _ _ hx]; exact hJ) hrun₂ hb hgone
  obtain ⟨r'', hx', rfl, -⟩ := Pair.move_cases hmove
  obtain ⟨y, hy⟩ := staged_of_puts hcmd hi hx'
  exact hgone' y hy

/-- A commit that found the entry had looked it up before the abort took it. -/
theorem two_before_take (h : Pair.run (ServerCmd.exec ws sha) ms
      (commitBesideAbort s requestId x size sha256 durationMs) = some (tr, P))
    {entry : PendingUpload} {taken : Option PendingUpload}
    {t₁ t₂ : List (Side × Event ServerCmd ServerCmd.Result)}
    (hg : (Pair.ofSide .left tr)[1]? = some ⟨.uploads (.get x), some entry⟩)
    (htr : Pair.cut .right 0 tr = some (t₁, ⟨.uploads (.take x), taken⟩, t₂)) :
    2 ≤ (Pair.ofSide .left t₁).length := by
  by_contra hlt
  obtain ⟨m₁, ch, m₂, u₁, u₂, Q₁, Q₂, -, hu, hrun, hmove, -⟩ := Pair.run_at h hg
  obtain ⟨b, rfl⟩ := Pair.before_of_cut (by decide) htr hu (by omega)
  obtain ⟨n₁, a, n₂, P₁, P₂, rfl, hrun₁, htake, hrun₂⟩ := Pair.run_split hrun
  have hi₁ := Pair.issues_of_run (noPut_uploadCommit requestId x size sha256 durationMs) (noPut_uploadAbort x) hrun₁
  obtain ⟨-, hi₂⟩ := Pair.issues_of_move hi₁.1 hi₁.2 htake
  obtain ⟨r, hx, hr, -⟩ := Pair.move_cases hmove
  have hfound : Q₁.state.uploads.entries.lookup x = some entry := (congrArg Prod.fst (Option.some.inj hx)).trans hr
  have hthere := found_before hi₂.1 hi₂.2 hrun₂ hfound
  -- once the entry is taken, no one finds it again
  have hnone : P₂.state.uploads.entries.lookup x = none := by
    obtain ⟨r, he, -⟩ := Pair.move_cases htake
    rw [← show _ = P₂.state from congrArg Prod.snd (Option.some.inj he)]
    show (P₁.state.uploads.entries.remove x).lookup x = none
    rw [Uploads.lookup_remove, if_pos rfl]
  rw [hnone] at hthere
  cases hthere

/-- Where the abort succeeds and the commit puts its file in place, the abort
overtakes the commit. -/
theorem overtakes_of_installs (h : Pair.run (ServerCmd.exec ws sha) ms
      (commitBesideAbort s requestId x size sha256 durationMs) = some (tr, P))
    (hok : P.right.succeeded = true) (hi : ∃ e, (.left, e) ∈ tr ∧ Installs e) :
    ∃ entry, Overtakes ws sha x size (commitBesideAbort s requestId x size sha256 durationMs) ms entry := by
  obtain ⟨entry, r, hr, hright⟩ := abort_ok (Pair.run_right h) hok
  obtain ⟨entry', f, r₃, e, es', hf, hr₃, hcmd, hinst, hleft⟩ :=
    path_of_installs (Pair.run_left h) (hi.imp fun _ he => ⟨Pair.mem_ofSide.mpr he.1, he.2⟩)
  obtain ⟨m₀, a₀, m₀', t₀, t₀', P₀, P₀', hm₀, ht₀, hrun₀, hmove₀, -⟩ :=
    Pair.run_at h (d := .right) (n := 0) (by rw [hright]; rfl)
  obtain ⟨m₁, a₁, m₁', t₁, t₁', P₁, P₁', hm₁, -, hrun₁, hmove₁, -⟩ :=
    Pair.run_at h (d := .right) (n := 1) (by rw [hright]; rfl)
  obtain ⟨m₂, a₂, m₂', t₂, t₂', P₂, P₂', hm₂, ht₂, hrun₂, hmove₂, -⟩ :=
    Pair.run_at h (d := .right) (n := 2) (by rw [hright]; rfl)
  have htwo : 2 ≤ (Pair.ofSide .left m₀).length := by
    rw [← Pair.ofSide_length hrun₀]
    exact two_before_take h (by rw [hleft]; rfl) ht₀
  have htaken : P₀.state.uploads.entries.lookup x = some entry := by
    obtain ⟨s', hx, hres, -⟩ := Pair.move_cases hmove₀
    exact (congrArg Prod.fst (Option.some.inj hx)).trans hres
  obtain rfl : entry' = entry := by
    have hone := get_of_found hrun₀ htwo htaken
    have hget : (Pair.ofSide .left tr)[1]? = some ⟨.uploads (.get x), some entry⟩ := by
      rw [(Pair.split_of_cut ht₀).1, Pair.ofSide_append, List.getElem?_append_left]
      · exact hone
      · exact (List.getElem?_eq_some_iff.mp hone).1
    rw [hleft] at hget
    cases hget
    rfl
  have hsix : a₂.fs.fault = some .noEntry ∨ 6 ≤ (Pair.ofSide .left t₂).length := by
    by_cases ha : a₂.fs.fault = some .noEntry
    · exact .inl ha
    · exact .inr (six_before_unlink h (by rw [hleft]; rfl) hcmd hinst (by simp [hleft]) hm₂ ha ht₂ hr (by simp [hright]))
  obtain ⟨s₁, hx₁, hres₁, -⟩ := Pair.move_cases hmove₁
  obtain ⟨s₂, hx₂, hres₂, -⟩ := Pair.move_cases hmove₂
  have hunlinked : ((FsCmd.removeFile entry'.staging).exec ws sha a₂.fs P₂.state.tree).1 = r :=
    (congrArg Prod.fst (Option.some.inj hx₂)).trans hres₂
  have hq : ∀ u₁ q u₂, tr = u₁ ++ (.right, ⟨.fs (.removeFile q), .ok ()⟩) :: u₂ → 6 ≤ (Pair.ofSide .left u₁).length := by
    intro u₁ q u₂ htr
    cases ht₂.symm.trans (third_of_removeFile h htr)
    obtain hfault | hlate := hsix
    · simp [FsCmd.exec, FsChoice.changes, FsChoice.reads, hfault] at hunlinked
    · exact hlate
  obtain ⟨c₂, hc₂, hr₂⟩ := fs_at h hq (n := 2) (by decide) (by simp [hleft]) (by rw [hleft]; rfl)
  obtain ⟨c₃, hc₃, hr₃'⟩ := fs_at h hq (n := 3) (by decide) (by simp [hleft]) (by rw [hleft]; rfl)
  obtain ⟨c₄, hc₄, hr₄⟩ := fs_at h hq (n := 4) (by decide) (by simp [hleft]) (by rw [hleft]; rfl)
  obtain ⟨c₅, hc₅, hputs⟩ : ∃ c₅, (Pair.ofSide .left ms)[5]? = some c₅ ∧ Puts ws sha entry' c₅.fs s.tree := by
    unfold Puts
    obtain ⟨hover, r₅, rfl⟩ | ⟨hover, r₅, rfl⟩ := hcmd
    · obtain rfl : r₅ = .ok () := hinst
      obtain ⟨c₅, hc₅, hr₅⟩ := fs_at h hq (n := 5) (by decide) (by simp [hleft]) (by rw [hleft]; rfl)
      exact ⟨c₅, hc₅, by rw [if_pos hover]; exact hr₅.symm⟩
    · obtain rfl : r₅ = .ok () := hinst
      obtain ⟨c₅, hc₅, hr₅⟩ := fs_at h hq (n := 5) (by decide) (by simp [hleft]) (by rw [hleft]; rfl)
      exact ⟨c₅, hc₅, by rw [if_neg (by simp [hover])]; exact hr₅.symm⟩
  refine ⟨entry', ?_⟩
  exact {
    late := ⟨m₀, a₀, m₀', t₀, P₀, hm₀, htwo, hrun₀, htaken⟩
    saves := by
      refine ⟨a₁, Pair.getElem?_of_cut hm₁, ?_⟩
      have hsaved : (UploadCmd.save.exec a₁.uploads P₁.state.uploads).1 = .ok () :=
        (congrArg Prod.fst (Option.some.inj hx₁)).trans hres₁
      simp only [UploadCmd.exec] at hsaved
      split at hsaved
      · assumption
      · cases hsaved
      · cases hsaved
    unlinks := by
      refine ⟨m₂, a₂, m₂', t₂, P₂, hm₂, hrun₂, ?_, ?_⟩
      · rw [← Pair.ofSide_length hrun₂]
        exact hsix
      · rw [hunlinked]
        exact hr
    lands := by
      refine ⟨c₂, c₃, c₄, c₅, hc₂, hc₃, hc₄, hc₅, ⟨f, hr₂.symm, hf⟩, ?_, hr₄.symm, hputs⟩
      exact hr₃' ▸ hr₃ }

/-- In every interleaving of a commit and an abort of one transfer, not both
succeed, and the file of a transfer whose abort succeeded is not put in place,
unless the schedule lets the abort overtake the commit. -/
theorem commit_or_abort_iff (h : Pair.run (ServerCmd.exec ws sha) ms
      (commitBesideAbort s requestId x size sha256 durationMs) = some (tr, P)) :
    (¬(P.left.succeeded = true ∧ P.right.succeeded = true) ∧
        (P.right.succeeded = true → ¬∃ e, (.left, e) ∈ tr ∧ Installs e)) ↔
      ¬∃ entry, Overtakes ws sha x size (commitBesideAbort s requestId x size sha256 durationMs) ms entry := by
  constructor
  · rintro ⟨-, hno⟩ ⟨entry, ho⟩
    exact hno (succeeds_of_overtakes h ho) (installs_of_overtakes h ho)
  · intro hno
    have key : P.right.succeeded = true → ¬∃ e, (.left, e) ∈ tr ∧ Installs e := fun hok hi =>
      hno (overtakes_of_installs h hok hi)
    refine ⟨?_, key⟩
    rintro ⟨hcommit, habort⟩
    obtain ⟨b, hb⟩ := Prog.succeeded_iff.mp hcommit
    obtain ⟨e, he, hi⟩ := installs_of_commit_ok (hb ▸ Pair.run_left h)
    exact key habort ⟨e, Pair.mem_ofSide.mp he, hi⟩

end

/-! A transfer that is staged, and two runs of its commit beside its abort. -/

def stagedUpload : PendingUpload :=
  { staging := ["f.part", "ws"], target := ["f", "ws"], logicalPath := "f", overwrite := false }

def stagedServer : ServerState where
  store := { dir := .empty, nextId := 1, records := [], requests := [], logTorn := false }
  tree := (FileTree.Tree.bare.set ["ws"] (some .dir) (FileTree.Tree.settable_bare "ws")).set ["f.part", "ws"]
    (some (.file { content := [104, 105], readable := true })) rfl
  uploads := { entries := [("x", stagedUpload)], saved := [("x", stagedUpload)] }
  guarded := false

/-- The abort first; the commit after `n` of its steps; then `m` more of them. -/
def commitAround (n m : Nat) : List (Side × ServerChoice) :=
  List.replicate n (.left, steady) ++ List.replicate 3 (.right, steady) ++ List.replicate m (.left, steady)

/-- A schedule that runs to its end, and who has succeeded there. -/
theorem run_commitAround {n m : Nat} {l r : Bool}
    (h : ((Pair.run (ServerCmd.exec homeWorkspace zeroDigest) (commitAround n m)
      (commitBesideAbort stagedServer "r" "x" 2 "h" 5)).map
        fun y => (y.2.left.succeeded, y.2.right.succeeded)) = some (l, r)) :
    ∃ tr P, Pair.run (ServerCmd.exec homeWorkspace zeroDigest) (commitAround n m)
        (commitBesideAbort stagedServer "r" "x" 2 "h" 5) = some (tr, P) ∧
      P.left.succeeded = l ∧ P.right.succeeded = r := by
  obtain ⟨⟨tr, P⟩, hr, hP⟩ := Option.map_eq_some_iff.mp h
  exact ⟨tr, P, hr, Prod.mk.inj hP⟩

theorem commit_or_abort_iff_abort_first :
    ∃ tr P, Pair.run (ServerCmd.exec homeWorkspace zeroDigest) (commitAround 0 3)
        (commitBesideAbort stagedServer "r" "x" 2 "h" 5) = some (tr, P) ∧
      P.left.succeeded = false ∧ P.right.succeeded = true ∧
      ((¬(P.left.succeeded = true ∧ P.right.succeeded = true) ∧
        (P.right.succeeded = true → ¬∃ e, (.left, e) ∈ tr ∧ Installs e)) ↔
        ¬∃ entry, Overtakes homeWorkspace zeroDigest "x" 2 (commitBesideAbort stagedServer "r" "x" 2 "h" 5)
          (commitAround 0 3) entry) := by
  obtain ⟨tr, P, h, hl, hr⟩ := run_commitAround (n := 0) (m := 3) (l := false) (r := true) (by decide +kernel)
  exact ⟨tr, P, h, hl, hr, commit_or_abort_iff h⟩

/-- An abort between a commit's installation of the file and its removal of the
entry: both succeed. -/
theorem commit_and_abort_succeed :
    ∃ ms tr P, Pair.run (ServerCmd.exec homeWorkspace zeroDigest) ms
        (commitBesideAbort stagedServer "r" "x" 2 "h" 5) = some (tr, P) ∧
      P.left.succeeded = true ∧ P.right.succeeded = true :=
  ⟨_, run_commitAround (n := 7) (m := 7) (by decide +kernel)⟩

end RemoteWorkspace
