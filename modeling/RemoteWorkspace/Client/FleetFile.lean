import RemoteWorkspace.Client.Fleet
import RemoteWorkspace.Install

/-!
# Adding workspaces side by side

Any number of calls of `add_workspace_entry` on one fleet file, each by a path of
its own. A call takes the lock that lies beside its path, reads the file, computes
the text with its entry, follows the links of its path to the file, writes the text
to a temp file beside that, named after its process, renames it over the file and,
on Unix, syncs the directory; any of the steps may fail.

Calls whose paths lie in one directory share a lock, and while one of them has it,
what it has read is what the file holds. A link to the file lies in another
directory as a rule, and a call that goes by it takes a lock of its own.
-/

namespace RemoteWorkspace

section

variable {Text : Type} (T : Toml Text)

/-- `load_fleet` of a file that can be read, or is not there. -/
def loadFleet : Option Text → Except String FleetMap
  | none => .ok []
  | some text => parseFleet T text

inductive PathEntry (Text : Type)
  | absent
  | link (target : Nat)
  | file (text : Text)

/-- What there is, by path. -/
abbrev FleetFiles (Text : Type) := Nat → PathEntry Text

structure FleetDisk (Text : Type) where
  files : FleetFiles Text
  /-- The temp files, by directory and process. -/
  tmp : Nat → Nat → Option Text
  /-- Who has the lock, by directory. -/
  lock : Nat → Option Nat

/-- Where a path leads: to a file at a path, to nothing, or through too many links. -/
inductive FleetTarget (Text : Type)
  | file (path : Nat) (text : Text)
  | nothing
  | loop

/-- Where a path leads, through so many links at the most. -/
def FleetFiles.follow (files : FleetFiles Text) (links path : Nat) : FleetTarget Text :=
  match files path, links with
  | .file text, _ => .file path text
  | .absent, _ => .nothing
  | .link _, 0 => .loop
  | .link target, links + 1 => files.follow links target

/-- The links that the system follows. -/
def followLimit : Nat := 40

/-- `canonicalize`; where there is nothing, the path as it was given. -/
def FleetFiles.resolve (files : FleetFiles Text) (path : Nat) : Option Nat :=
  match files.follow followLimit path with
  | .file target _ => some target
  | .nothing => some path
  | .loop => none

/-- The text that is read at a path. -/
def FleetFiles.text (files : FleetFiles Text) (path : Nat) : Option Text :=
  match files.follow followLimit path with
  | .file _ text => some text
  | .nothing | .loop => none

/-- The system, and the directory that each path lies in. -/
structure FleetHost where
  windows : Bool
  dir : Nat → Nat

/-- A call of `add_workspace_entry`: its entry, its process and its path. -/
structure Addition where
  entry : NewEntry
  pid : Nat
  path : Nat
  /-- The path is a relative one of one component: its parent is the empty path. -/
  bare : Bool

/-- How far a call has come: what it has read, its new text, where it writes that,
and whether the directory of this can be opened. -/
inductive AddPhase (Text : Type)
  | started
  | locked
  | read (text : Text)
  | edited (text newText : Text)
  | resolved (text newText : Text) (target : Nat) (dir : Bool)
  | staged (text newText : Text) (target : Nat) (dir : Bool)
  | renamed (dir : Bool)
  | ended (r : Except DeployError Unit)

structure AddCall (Text : Type) where
  call : Addition
  phase : AddPhase Text

inductive AddStep (Text : Type)
  /-- A step before the temp file fails. -/
  | fail (message : String)
  | lock
  | readFile
  | edit
  | resolve
  | stage
  /-- What a failure leaves of the temp file, which is then removed if that
  succeeds. -/
  | stageFails (left : Option Text) (message : String)
  | rename
  | renameFails (left : Option Text) (message : String)
  | syncDir
  | syncDirFails (message : String)
  /-- On Windows the directory is not synced. -/
  | finish

variable (H : FleetHost)

def FleetDisk.unlock (d : FleetDisk Text) (dir i : Nat) : FleetDisk Text :=
  { d with lock := Function.update d.lock dir (release i (d.lock dir)) }

def FleetDisk.putTmp (d : FleetDisk Text) (dir pid : Nat) (text : Option Text) : FleetDisk Text :=
  { d with tmp := Function.update d.tmp dir (Function.update (d.tmp dir) pid text) }

def addWorkspaceEntry (i : Nat) (step : AddStep Text) (d : FleetDisk Text) (p : AddCall Text) :
    Option (FleetDisk Text × AddCall Text) :=
  let lockDir := H.dir p.call.path
  let stop (d : FleetDisk Text) (r : Except DeployError Unit) : Option (FleetDisk Text × AddCall Text) :=
    some (d.unlock lockDir i, { p with phase := .ended r })
  let fail (d : FleetDisk Text) (message : String) := stop d (.error (writeFailed message))
  match p.phase, step with
  | .started, .fail message => some (d, { p with phase := .ended (.error (writeFailed message)) })
  | .started, .lock =>
    if d.lock lockDir = none then
      some ({ d with lock := Function.update d.lock lockDir (some i) }, { p with phase := .locked })
    else none
  | .locked, .fail message => fail d message
  | .locked, .readFile =>
    match d.files.follow followLimit p.call.path with
    | .file _ text => some (d, { p with phase := .read text })
    | .nothing => some (d, { p with phase := .read T.empty })
    | .loop => none
  | .read text, .edit =>
    match addEntry T text p.call.entry with
    | .ok newText => some (d, { p with phase := .edited text newText })
    | .error e => stop d (.error e)
  | .edited _ _, .fail message => fail d message
  -- A file that is there resolves to an absolute path; one that is not keeps the path it was given.
  | .edited text newText, .resolve =>
    match d.files.follow followLimit p.call.path with
    | .file target _ => some (d, { p with phase := .resolved text newText target true })
    | .nothing => some (d, { p with phase := .resolved text newText p.call.path (!p.call.bare) })
    | .loop => none
  | .resolved text newText target dir, .stage =>
    some (d.putTmp (H.dir target) p.call.pid (some newText), { p with phase := .staged text newText target dir })
  | .resolved _ _ target _, .stageFails left message => fail (d.putTmp (H.dir target) p.call.pid left) message
  | .staged _ _ target dir, .rename =>
    match d.tmp (H.dir target) p.call.pid with
    | some text =>
      some ({ d.putTmp (H.dir target) p.call.pid none with files := Function.update d.files target (.file text) },
        { p with phase := .renamed dir })
    | none => none
  | .staged _ _ target _, .renameFails left message => fail (d.putTmp (H.dir target) p.call.pid left) message
  | .renamed dir, .syncDir => if dir ∧ !H.windows then stop d (.ok ()) else none
  | .renamed _, .syncDirFails message => if H.windows then none else fail d message
  | .renamed _, .finish => if H.windows then stop d (.ok ()) else none
  | _, _ => none

/-- Any number of calls; nothing else writes the file. -/
def adders : Crew (FleetDisk Text) (AddCall Text) (AddStep Text) Empty where
  act := addWorkspaceEntry T H
  env := fun e => e.elim

/-- Calls that have not begun, on what there is. -/
def fleetSite (files : FleetFiles Text) (calls : Nat → Addition) : Crew.World (FleetDisk Text) (AddCall Text) :=
  ⟨⟨files, fun _ _ => none, fun _ => none⟩, fun i => ⟨calls i, .started⟩⟩

/-- Whatever path it is given, each call is about the file at `target`. -/
def NameOneFile (files : FleetFiles Text) (calls : Nat → Addition) (target : Nat) : Prop :=
  ∀ i, files.resolve (calls i).path = some target

/-- The paths of all calls lie in one directory, so their lock is one file. -/
def ShareLock (calls : Nat → Addition) : Prop := ∀ i j, H.dir (calls i).path = H.dir (calls j).path

/-! ## What a step does -/

/-- The call's text is in the fleet file and the call has not failed. -/
def AddPhase.published : AddPhase Text → Bool
  | .renamed _ | .ended (.ok _) => true
  | .started | .locked | .read _ | .edited .. | .resolved .. | .staged .. | .ended (.error _) => false

def AddStep.syncs : AddStep Text → Bool
  | .syncDirFails _ => false
  | _ => true

/-- A text is renamed over the one it was computed from: the file holds what the
call has read, and the temp file the call's new text. -/
def AddStep.fresh [DecidableEq Text] (_i : Nat) (step : AddStep Text) (d : FleetDisk Text) (p : AddCall Text) : Bool :=
  match step, p.phase with
  | .rename, .staged text newText target _ =>
    (d.files.text p.call.path).getD T.empty = text ∧ d.tmp (H.dir target) p.call.pid = some newText
  | _, _ => true

variable {T H}

theorem FleetDisk.putTmp_tmp (d : FleetDisk Text) (dir pid : Nat) (text : Option Text) :
    (d.putTmp dir pid text).tmp dir pid = text := by
  simp [FleetDisk.putTmp]

inductive AddMove (T : Toml Text) (H : FleetHost) (i : Nat) (c : Addition) (d : FleetDisk Text) :
    AddPhase Text → FleetDisk Text → AddPhase Text → Prop
  | refuse (e : DeployError) : AddMove T H i c d .started d (.ended (.error e))
  | lock : d.lock (H.dir c.path) = none → AddMove T H i c d .started
      { d with lock := Function.update d.lock (H.dir c.path) (some i) } .locked
  | readFile : d.files.follow followLimit c.path ≠ .loop →
      AddMove T H i c d .locked d (.read ((d.files.text c.path).getD T.empty))
  | edit {text newText : Text} : addEntry T text c.entry = .ok newText →
      AddMove T H i c d (.read text) d (.edited text newText)
  | resolve {text newText : Text} {target : Nat} (dir : Bool) : d.files.resolve c.path = some target →
      AddMove T H i c d (.edited text newText) d (.resolved text newText target dir)
  | stage {text newText : Text} {target : Nat} {dir : Bool} : AddMove T H i c d (.resolved text newText target dir)
      (d.putTmp (H.dir target) c.pid (some newText)) (.staged text newText target dir)
  | rename {text newText : Text} {target : Nat} {dir : Bool} : (d.files.text c.path).getD T.empty = text →
      AddMove T H i c d (.staged text newText target dir)
        { d.putTmp (H.dir target) c.pid none with files := Function.update d.files target (.file newText) } (.renamed dir)
  | finish {dir : Bool} : AddMove T H i c d (.renamed dir) (d.unlock (H.dir c.path) i) (.ended (.ok ()))
  /-- A failure of a call that has the lock. -/
  | fail {phase : AddPhase Text} (tmp : Nat → Nat → Option Text) (e : DeployError) : phase.published = false →
      phase ≠ .started → (∀ r, phase ≠ .ended r) →
      AddMove T H i c d phase ({ d with tmp }.unlock (H.dir c.path) i) (.ended (.error e))

theorem addMove_of_step [DecidableEq Text] {i : Nat} {step : AddStep Text} {d d' : FleetDisk Text} {p p' : AddCall Text}
    (hsyncs : step.syncs = true) (hfresh : AddStep.fresh T H i step d p = true)
    (h : addWorkspaceEntry T H i step d p = some (d', p')) :
    p'.call = p.call ∧ AddMove T H i p.call d p.phase d' p'.phase := by
  obtain ⟨c, phase⟩ := p
  simp only [addWorkspaceEntry] at h
  split at h
  · cases h
    exact ⟨rfl, .refuse _⟩
  · split at h
    · next hlock =>
      cases h
      exact ⟨rfl, .lock hlock⟩
    · cases h
  · cases h
    exact ⟨rfl, .fail _ _ rfl (by simp) (by simp)⟩
  · have htext : ∀ text, (d.files.text c.path).getD T.empty = text → d.files.follow followLimit c.path ≠ .loop →
        AddMove T H i c d .locked d (.read text) := by
      intro text htext hfollow
      rw [← htext]
      exact .readFile hfollow
    split at h
    · next hfollow =>
      cases h
      exact ⟨rfl, htext _ (by rw [FleetFiles.text, hfollow]; rfl) (by simp [hfollow])⟩
    · next hfollow =>
      cases h
      exact ⟨rfl, htext _ (by rw [FleetFiles.text, hfollow]; rfl) (by simp [hfollow])⟩
    · cases h
  · split at h
    · next newText hedit =>
      cases h
      exact ⟨rfl, .edit hedit⟩
    · cases h
      exact ⟨rfl, .fail _ _ rfl (by simp) (by simp)⟩
  · cases h
    exact ⟨rfl, .fail _ _ rfl (by simp) (by simp)⟩
  · split at h
    · next hfollow =>
      cases h
      exact ⟨rfl, .resolve _ (by rw [FleetFiles.resolve, hfollow])⟩
    · next hfollow =>
      cases h
      exact ⟨rfl, .resolve _ (by rw [FleetFiles.resolve, hfollow])⟩
    · cases h
  · cases h
    exact ⟨rfl, .stage⟩
  · cases h
    exact ⟨rfl, .fail _ _ rfl (by simp) (by simp)⟩
  · split at h
    · next htmp =>
      cases h
      obtain ⟨htext, hput⟩ := of_decide_eq_true hfresh
      obtain rfl := Option.some.inj (htmp.symm.trans hput)
      exact ⟨rfl, .rename htext⟩
    · cases h
  · cases h
    exact ⟨rfl, .fail _ _ rfl (by simp) (by simp)⟩
  · split at h
    · cases h
      exact ⟨rfl, .finish⟩
    · cases h
  · cases hsyncs
  · split at h
    · cases h
      exact ⟨rfl, .finish⟩
    · cases h
  · cases h

/-! ## The paths of a file -/

variable {files : FleetFiles Text} {target : Nat}

theorem FleetFiles.follow_of_file {path : Nat} {text : Text} (h : files path = .file text) (links : Nat) :
    files.follow links path = .file path text := by
  rw [follow.eq_def, h]

theorem FleetFiles.file_of_follow {text : Text} {links : Nat} : ∀ {path : Nat},
    files.follow links path = .file target text → files target = .file text := by
  induction links with
  | zero =>
    intro path h
    rw [follow.eq_def] at h
    cases hfile : files path with
    | file _ =>
      rw [hfile] at h
      cases h
      exact hfile
    | absent | link _ =>
      rw [hfile] at h
      cases h
  | succ links ih =>
    intro path h
    rw [follow.eq_def] at h
    split at h
    · cases h
      assumption
    · cases h
    · cases h
    · next hlinks =>
      cases hlinks
      exact ih h

theorem FleetFiles.follow_update {text put : Text} {links : Nat} : ∀ {path : Nat},
    files.follow links path = .file target text →
      FleetFiles.follow (Function.update files target (.file put)) links path = .file target put := by
  have hself : ∀ links, FleetFiles.follow (Function.update files target (.file put)) links target = .file target put :=
    fun links => follow_of_file (Function.update_self ..) links
  induction links with
  | zero =>
    intro path h
    rw [follow.eq_def] at h
    cases hfile : files path with
    | file _ =>
      rw [hfile] at h
      cases h
      exact hself _
    | absent | link _ =>
      rw [hfile] at h
      cases h
  | succ links ih =>
    intro path h
    by_cases hpath : path = target
    · rw [hpath]
      exact hself _
    · rw [follow.eq_def] at h ⊢
      rw [Function.update_of_ne hpath]
      split at h
      · cases h
        exact absurd rfl hpath
      · cases h
      · cases h
      · next hlinks =>
        cases hlinks
        exact ih h

/-- What is read at a path is what is read at the path it resolves to. -/
theorem FleetFiles.text_of_resolve {path : Nat} (h : files.resolve path = some target) :
    files.text path = files.text target := by
  unfold resolve at h
  split at h
  · next text hfollow =>
    cases h
    rw [FleetFiles.text, FleetFiles.text, hfollow, follow_of_file (file_of_follow hfollow)]
  · cases h
    rfl
  · cases h

/-- Whoever names the file names it still when it has been put there. -/
theorem FleetFiles.resolve_update {path : Nat} (h : files.resolve path = some target) (put : Text) :
    FleetFiles.resolve (Function.update files target (.file put)) path = some target ∧
      FleetFiles.text (Function.update files target (.file put)) path = some put := by
  have hfollow : FleetFiles.follow (Function.update files target (.file put)) followLimit path = .file target put := by
    unfold resolve at h
    split at h
    · cases h
      exact follow_update (by assumption)
    · cases h
      exact follow_of_file (Function.update_self ..) _
    · cases h
  rw [FleetFiles.resolve, FleetFiles.text, hfollow]
  exact ⟨rfl, rfl⟩

/-! ## Calls that share a lock -/

/-- What holds of call `i`: it has the lock from when it takes it to its end, and
until it renames its text the file is what it has read. -/
def AddCall.Lawful (T : Toml Text) (H : FleetHost) (i : Nat) (d : FleetDisk Text) (p : AddCall Text) : Prop :=
  match p.phase with
  | .started | .ended _ => d.lock (H.dir p.call.path) ≠ some i
  | .locked | .renamed _ => d.lock (H.dir p.call.path) = some i
  | .read text | .edited text _ | .resolved text _ _ _ =>
    d.lock (H.dir p.call.path) = some i ∧ (d.files.text p.call.path).getD T.empty = text
  | .staged text newText target _ =>
    d.lock (H.dir p.call.path) = some i ∧ (d.files.text p.call.path).getD T.empty = text ∧
      d.tmp (H.dir target) p.call.pid = some newText

theorem AddCall.Lawful.fresh [DecidableEq Text] {i : Nat} {d : FleetDisk Text} {p : AddCall Text} (h : p.Lawful T H i d)
    (step : AddStep Text) : AddStep.fresh T H i step d p = true := by
  unfold AddStep.fresh
  split
  · next hphase =>
    rw [AddCall.Lawful, hphase] at h
    exact decide_eq_true h.2
  · rfl

theorem release_ne (i : Nat) (lock : Option Nat) : release i lock ≠ some i := by
  unfold release
  split <;> simp_all

theorem release_self (i : Nat) : release i (some i) = none := by
  simp [release]

theorem FleetDisk.unlock_lock (d : FleetDisk Text) (dir i : Nat) : (d.unlock dir i).lock dir = release i (d.lock dir) :=
  Function.update_self ..

theorem AddCall.Lawful.move {i : Nat} {d d' : FleetDisk Text} {p p' : AddCall Text} (h : p.Lawful T H i d)
    (hcall : p'.call = p.call) (hmove : AddMove T H i p.call d p.phase d' p'.phase) : p'.Lawful T H i d' := by
  unfold AddCall.Lawful at h ⊢
  rw [hcall]
  generalize p'.phase = phase' at hmove
  generalize p.phase = phase at hmove h
  cases hmove with
  | refuse => exact h
  | lock => exact Function.update_self ..
  | readFile => exact ⟨h, rfl⟩
  | edit => exact h
  | resolve => exact h
  | stage => exact ⟨h.1, h.2, FleetDisk.putTmp_tmp ..⟩
  | rename => exact h.1
  | finish | fail =>
    dsimp only
    rw [FleetDisk.unlock_lock]
    exact release_ne i _

/-- Only the call that has the lock writes. -/
theorem AddCall.Lawful.frame {i : Nat} {d d' : FleetDisk Text} {p p' : AddCall Text} (h : p.Lawful T H i d)
    (hmove : AddMove T H i p.call d p.phase d' p'.phase) {dir : Nat} (hdir : H.dir p.call.path = dir) :
    d' = d ∨ (d.lock dir = none ∨ d.lock dir = some i) ∧ (d'.lock dir = none ∨ d'.lock dir = some i) := by
  unfold AddCall.Lawful at h
  rw [hdir] at h
  generalize p'.phase = phase' at hmove
  generalize p.phase = phase at hmove h
  have hreleased : ∀ d : FleetDisk Text, d.lock dir = some i → (d.unlock (H.dir p.call.path) i).lock dir = none := by
    intro d hlock
    rw [hdir, FleetDisk.unlock_lock, hlock, release_self]
  cases hmove with
  | refuse | readFile | edit | resolve => exact .inl rfl
  | lock hlock =>
    rw [hdir] at hlock ⊢
    exact .inr ⟨.inl hlock, .inr (Function.update_self ..)⟩
  | stage => exact .inr ⟨.inr h.1, .inr h.1⟩
  | rename => exact .inr ⟨.inr h.1, .inr h.1⟩
  | finish => exact .inr ⟨.inr h, .inl (hreleased d h)⟩
  | fail tmp e _ hstarted hended =>
    have hlock : d.lock dir = some i := by
      cases phase with
      | started => exact absurd rfl hstarted
      | ended r => exact absurd rfl (hended r)
      | locked | renamed => exact h
      | read | edited | resolved | staged => exact h.1
    exact .inr ⟨.inr hlock, .inl (hreleased _ hlock)⟩

theorem AddCall.Lawful.elsewhere {j : Nat} {d d' : FleetDisk Text} {q : AddCall Text} (h : q.Lawful T H j d)
    (hlock : d.lock (H.dir q.call.path) ≠ some j) (hlock' : d'.lock (H.dir q.call.path) ≠ some j) :
    q.Lawful T H j d' := by
  unfold AddCall.Lawful at h ⊢
  cases hphase : q.phase <;> simp_all

/-- Another call's move leaves alone what this one relies on. -/
theorem AddCall.Lawful.other {i j : Nat} (hij : j ≠ i) {d d' : FleetDisk Text} {p p' q : AddCall Text}
    (hshared : H.dir p.call.path = H.dir q.call.path) (h : p.Lawful T H i d)
    (hmove : AddMove T H i p.call d p.phase d' p'.phase) (hq : q.Lawful T H j d) : q.Lawful T H j d' := by
  rcases h.frame hmove hshared with rfl | ⟨hlock, hlock'⟩
  · exact hq
  · exact hq.elsewhere (Crew.not_held hij hlock) (Crew.not_held hij hlock')

section
open Crew

variable {calls : Nat → Addition} {w : World (FleetDisk Text) (AddCall Text)}

def AddLabel.syncs : Label (AddStep Text) Empty → Bool
  | .act _ step => step.syncs
  | .env e => e.elim

/-- Calls that share a lock always rename their texts over what they were computed
from. -/
theorem fresh_of_shareLock [DecidableEq Text] (hshared : ShareLock H calls)
    (hrun : Run (adders T H) (fun l => AddLabel.syncs l = true) (fleetSite files calls) w) :
    Run ((adders T H).under (AddStep.fresh T H)) (fun l => AddLabel.syncs l = true) (fleetSite files calls) w := by
  have hinit : ∀ i, ((fleetSite files calls).party i).call = calls i ∧
      ((fleetSite files calls).party i).Lawful T H i (fleetSite files calls).shared :=
    fun i => ⟨rfl, (Option.some_ne_none i).symm⟩
  refine (hrun.under (I := fun w => ∀ i, (w.party i).call = calls i ∧ (w.party i).Lawful T H i w.shared) hinit
    (fun w i step d p hinv hok hact => ?_) fun _ e => e.elim).1
  have hlawful := (hinv i).2
  obtain ⟨hcall, hmove⟩ := addMove_of_step hok (hlawful.fresh step) hact
  refine ⟨hlawful.fresh step, forall_update (P := fun j (q : AddCall Text) => q.call = calls j ∧ q.Lawful T H j d)
    ⟨hcall.trans (hinv i).1, hlawful.move hcall hmove⟩ fun j hj => ?_⟩
  refine ⟨(hinv j).1, hlawful.other hj ?_ hmove (hinv j).2⟩
  rw [(hinv i).1, (hinv j).1]
  exact hshared i j

/-! ## Runs -/

/-- A fleet holds the workspaces of `initial` and those of the calls that have
published theirs, and no two of all these share a name. -/
structure HoldsExactly (initial : FleetMap) (calls : Nat → Addition) (published : Nat → Prop) (out : FleetMap) :
    Prop where
  get_iff : ∀ name ws, out.get name = some ws ↔
    initial.get name = some ws ∨ ∃ i, published i ∧ (calls i).entry.name = name ∧ ws = (calls i).entry.workspace
  fresh : ∀ i, published i → initial.get (calls i).entry.name = none
  inj : ∀ i j, published i → published j → (calls i).entry.name = (calls j).entry.name → i = j

theorem HoldsExactly.congr {initial out : FleetMap} {published published' : Nat → Prop}
    (h : HoldsExactly initial calls published out) (heq : ∀ i, published' i ↔ published i) :
    HoldsExactly initial calls published' out := by
  rw [show published' = published from funext fun i => propext (heq i)]
  exact h

/-- One workspace more. -/
theorem HoldsExactly.add {initial out out' : FleetMap} {published published' : Nat → Prop} {i : Nat}
    (h : HoldsExactly initial calls published out) (hnone : out.get (calls i).entry.name = none)
    (hget : ∀ name, out'.get name = if name = (calls i).entry.name then some (calls i).entry.workspace else out.get name)
    (heq : ∀ j, published' j ↔ published j ∨ j = i) : HoldsExactly initial calls published' out' := by
  have hother : ∀ j, published j → (calls j).entry.name ≠ (calls i).entry.name := by
    intro j hj hname
    have := (h.get_iff (calls i).entry.name (calls j).entry.workspace).mpr (.inr ⟨j, hj, hname, rfl⟩)
    rw [hnone] at this
    cases this
  have hinitial : initial.get (calls i).entry.name = none := by
    cases hi : initial.get (calls i).entry.name with
    | none => rfl
    | some ws =>
      have := (h.get_iff _ ws).mpr (.inl hi)
      rw [hnone] at this
      cases this
  refine ⟨fun name ws => ?_, fun j hj => ?_, fun j k hj hk hname => ?_⟩
  · rw [hget]
    split
    · next heq' =>
      subst heq'
      rw [hinitial]
      constructor
      · intro hws
        exact .inr ⟨i, (heq i).mpr (.inr rfl), rfl, (Option.some.inj hws).symm⟩
      · rintro (hws | ⟨j, hj, hname, rfl⟩)
        · cases hws
        · rcases (heq j).mp hj with hj | rfl
          · exact absurd hname (hother j hj)
          · rfl
    · next hne =>
      rw [h.get_iff]
      refine or_congr Iff.rfl ⟨?_, ?_⟩
      · rintro ⟨j, hj, hname, rfl⟩
        exact ⟨j, (heq j).mpr (.inl hj), hname, rfl⟩
      · rintro ⟨j, hj, hname, rfl⟩
        rcases (heq j).mp hj with hj | rfl
        · exact ⟨j, hj, hname, rfl⟩
        · exact absurd hname.symm hne
  · rcases (heq j).mp hj with hj | rfl
    · exact h.fresh j hj
    · exact hinitial
  · rcases (heq j).mp hj with hj | rfl
    · rcases (heq k).mp hk with hk | rfl
      · exact h.inj j k hj hk hname
      · exact absurd hname (hother j hj)
    · rcases (heq k).mp hk with hk | rfl
      · exact absurd hname.symm (hother k hk)
      · rfl

/-- What a call has computed, and where it writes it. -/
def AddPhase.Drafted (T : Toml Text) (entry : NewEntry) (target : Nat) : AddPhase Text → Prop
  | .edited text newText => addEntry T text entry = .ok newText
  | .resolved text newText place _ | .staged text newText place _ => addEntry T text entry = .ok newText ∧ place = target
  | .started | .locked | .read _ | .renamed _ | .ended _ => True

/-- The invariant of the runs in which texts are renamed over those they were
computed from and the directory can be synced. -/
structure FleetInv (T : Toml Text) (target : Nat) (initial : FleetMap) (calls : Nat → Addition)
    (w : World (FleetDisk Text) (AddCall Text)) : Prop where
  call_eq : ∀ i, (w.party i).call = calls i
  names : ∀ i, w.shared.files.resolve (calls i).path = some target
  drafted : ∀ i, (w.party i).phase.Drafted T (calls i).entry target
  holds : ∃ out, parseFleet T ((w.shared.files.text target).getD T.empty) = .ok out ∧
    HoldsExactly initial calls (fun i => (w.party i).phase.published = true) out

theorem published_update {party : Nat → AddCall Text} {i : Nat} {p : AddCall Text}
    (h : p.phase.published = (party i).phase.published) (j : Nat) :
    (Function.update party i p j).phase.published = true ↔ (party j).phase.published = true := by
  by_cases hj : j = i
  · subst hj
    rw [Function.update_self, h]
  · rw [Function.update_of_ne hj]

theorem published_insert {party : Nat → AddCall Text} {i : Nat} {p : AddCall Text} (h : p.phase.published = true)
    (j : Nat) :
    (Function.update party i p j).phase.published = true ↔ (party j).phase.published = true ∨ j = i := by
  by_cases hj : j = i
  · subst hj
    rw [Function.update_self, h]
    simp
  · rw [Function.update_of_ne hj]
    simp [hj]

/-- A call that keeps to the file drafts its text for it. -/
theorem AddMove.drafted {i : Nat} {c : Addition} {d d' : FleetDisk Text} {phase phase' : AddPhase Text}
    (hmove : AddMove T H i c d phase d' phase') (hnames : d.files.resolve c.path = some target)
    (h : phase.Drafted T c.entry target) : phase'.Drafted T c.entry target := by
  cases hmove with
  | edit hedit => exact hedit
  | resolve dir hresolve => exact ⟨h, Option.some.inj (hresolve.symm.trans hnames)⟩
  | stage => exact h
  | refuse | lock | readFile | rename | finish | fail => trivial

/-- Only a rename changes a file, and it publishes the call's text. -/
theorem AddMove.publishes {i : Nat} {c : Addition} {d d' : FleetDisk Text} {phase phase' : AddPhase Text}
    (hmove : AddMove T H i c d phase d' phase') (h : phase.Drafted T c.entry target) :
    (d'.files = d.files ∧ phase'.published = phase.published) ∨
      ∃ newText, d'.files = Function.update d.files target (.file newText) ∧ phase'.published = true ∧
        addEntry T ((d.files.text c.path).getD T.empty) c.entry = .ok newText := by
  cases hmove with
  | rename htext =>
    obtain ⟨hedit, rfl⟩ := h
    rw [htext]
    exact .inr ⟨_, rfl, rfl, hedit⟩
  | fail _ _ hunpublished => exact .inl ⟨rfl, hunpublished.symm⟩
  | refuse | lock | readFile | edit | resolve | stage | finish => exact .inl ⟨rfl, rfl⟩

theorem FleetInv.move (hT : T.Lawful) {initial : FleetMap} {i : Nat} {d : FleetDisk Text} {p : AddCall Text}
    (h : FleetInv T target initial calls w) (hcall : p.call = (w.party i).call)
    (hmove : AddMove T H i (w.party i).call w.shared (w.party i).phase d p.phase) :
    FleetInv T target initial calls ⟨d, Function.update w.party i p⟩ := by
  rw [h.call_eq i] at hcall hmove
  obtain ⟨out, hout, hholds⟩ := h.holds
  have hcalls : ∀ j, (Function.update w.party i p j).call = calls j :=
    forall_update (P := fun j (q : AddCall Text) => q.call = calls j) hcall fun j _ => h.call_eq j
  have hdrafted : ∀ j, (Function.update w.party i p j).phase.Drafted T (calls j).entry target :=
    forall_update (P := fun j (q : AddCall Text) => q.phase.Drafted T (calls j).entry target)
      (hmove.drafted (h.names i) (h.drafted i)) fun j _ => h.drafted j
  rcases hmove.publishes (h.drafted i) with ⟨hfiles, hpublished⟩ | ⟨newText, hfiles, hpublished, hedit⟩
  · refine ⟨hcalls, fun j => by rw [hfiles]; exact h.names j, hdrafted, out, by rw [hfiles]; exact hout, ?_⟩
    exact hholds.congr (published_update hpublished)
  · rw [FleetFiles.text_of_resolve (h.names i)] at hedit
    obtain ⟨out', hout', hnone, hget⟩ := addEntry_ok hT hout hedit
    refine ⟨hcalls, fun j => ?_, hdrafted, out', ?_, hholds.add hnone hget (published_insert hpublished)⟩
    · rw [hfiles]
      exact (FleetFiles.resolve_update (h.names j) newText).1
    · obtain ⟨hresolve, htext⟩ := FleetFiles.resolve_update (h.names i) newText
      rw [hfiles, ← FleetFiles.text_of_resolve hresolve, htext]
      exact hout'

theorem loadFleet_eq (hT : T.Lawful) (text : Option Text) : loadFleet T text = parseFleet T (text.getD T.empty) := by
  cases text with
  | none => exact (parseFleet_empty hT).symm
  | some text => rfl

theorem fleetInv_of_run [DecidableEq Text] (hT : T.Lawful) {initial : FleetMap} (hone : NameOneFile files calls target)
    (hinitial : loadFleet T (files.text target) = .ok initial)
    (hrun : Run ((adders T H).under (AddStep.fresh T H)) (fun l => AddLabel.syncs l = true) (fleetSite files calls) w) :
    FleetInv T target initial calls w := by
  refine hrun.inv (I := FleetInv T target initial calls) ?_ (fun w₁ i a s l hinv hok hact => ?_) fun _ e => e.elim
  · refine ⟨fun _ => rfl, hone, fun _ => trivial, initial, ?_, ?_⟩
    · rw [← loadFleet_eq hT]
      exact hinitial
    · exact ⟨fun name ws => by simp [fleetSite, AddPhase.published], fun i hi => absurd hi Bool.false_ne_true,
        fun i j hi => absurd hi Bool.false_ne_true⟩
  · obtain ⟨hfresh, hact⟩ := under_act.mp hact
    obtain ⟨hcall, hmove⟩ := addMove_of_step hok hfresh hact
    exact hinv.move hT hcall hmove

/-- By whatever path it is loaded, the file holds the workspaces it held at first as
they were and those of the calls that have published theirs, which in the end are
the calls that returned `Ok`; what it holds under the name of a call that failed is
not that call's. -/
def AllOrNothing (T : Toml Text) (initial : FleetMap) (calls : Nat → Addition)
    (w : World (FleetDisk Text) (AddCall Text)) : Prop :=
  ∃ out, (∀ i, loadFleet T (w.shared.files.text (calls i).path) = .ok out) ∧
    HoldsExactly initial calls (fun i => (w.party i).phase.published = true) out ∧
    ((∀ i, (w.party i).phase = .started ∨ ∃ r, (w.party i).phase = .ended r) →
      HoldsExactly initial calls (fun i => (w.party i).phase = .ended (.ok ())) out) ∧
    ∀ i e, (w.party i).phase = .ended (.error e) → ∀ ws, out.get (calls i).entry.name = some ws →
      initial.get (calls i).entry.name = some ws ∨
        ∃ j, j ≠ i ∧ (w.party j).phase.published = true ∧ (calls j).entry.name = (calls i).entry.name ∧
          ws = (calls j).entry.workspace

theorem FleetInv.allOrNothing (hT : T.Lawful) {initial : FleetMap} (h : FleetInv T target initial calls w) :
    AllOrNothing T initial calls w := by
  obtain ⟨out, hout, hholds⟩ := h.holds
  refine ⟨out, fun i => ?_, hholds, fun hended => hholds.congr fun i => ?_, fun i e hfailed ws hws => ?_⟩
  · rw [loadFleet_eq hT, FleetFiles.text_of_resolve (h.names i), hout]
  · rcases hended i with hi | ⟨r, hi⟩
    · simp [hi, AddPhase.published]
    · cases r <;> simp [hi, AddPhase.published]
  · rcases (hholds.get_iff _ ws).mp hws with hi | ⟨j, hj, hname, hws⟩
    · exact .inl hi
    · refine .inr ⟨j, ?_, hj, hname, hws⟩
      rintro rfl
      rw [hfailed] at hj
      cases hj

/-- Additions to one file, by whatever paths, are all or nothing in every state of
every run in which no directory sync fails and every text is renamed over the one
it was computed from. Calls that share a lock always do the latter. -/
theorem additions_are_all_or_nothing [DecidableEq Text] (hT : T.Lawful) (H : FleetHost) (calls : Nat → Addition)
    {target : Nat} (hone : NameOneFile files calls target) {initial : FleetMap}
    (hinitial : loadFleet T (files.text target) = .ok initial) (w : World (FleetDisk Text) (AddCall Text)) :
    (Run ((adders T H).under (AddStep.fresh T H)) (fun l => AddLabel.syncs l = true) (fleetSite files calls) w →
      AllOrNothing T initial calls w) ∧
    (ShareLock H calls → Run (adders T H) (fun l => AddLabel.syncs l = true) (fleetSite files calls) w →
      AllOrNothing T initial calls w) :=
  ⟨fun hrun => (fleetInv_of_run hT hone hinitial hrun).allOrNothing hT,
    fun hshared hrun => (fleetInv_of_run hT hone hinitial (fresh_of_shareLock hshared hrun)).allOrNothing hT⟩

end

end

/-! ## A directory that cannot be opened, and two locks -/

section
open Crew

mutual

def Item.beq : Item → Item → Bool
  | .str s, .str t => s == t
  | .table inline entries, .table inline' entries' => inline == inline' && Item.beqEntries entries entries'
  | .other, .other => true
  | _, _ => false

def Item.beqEntries : Table → Table → Bool
  | [], [] => true
  | e :: entries, e' :: entries' => Item.beqEntry e e' && Item.beqEntries entries entries'
  | _, _ => false

def Item.beqEntry : String × Item → String × Item → Bool
  | (k, x), (k', x') => k == k' && x.beq x'

end

mutual

theorem Item.beq_iff : ∀ x y : Item, x.beq y = true ↔ x = y
  | .str s, y => by cases y <;> simp [Item.beq]
  | .table inline entries, y => by cases y <;> simp [Item.beq, Item.beqEntries_iff entries]
  | .other, y => by cases y <;> simp [Item.beq]

theorem Item.beqEntries_iff : ∀ t t' : Table, Item.beqEntries t t' = true ↔ t = t'
  | [], t' => by cases t' <;> simp [Item.beqEntries]
  | e :: t, t' => by cases t' <;> simp [Item.beqEntries, Item.beqEntry_iff e, Item.beqEntries_iff t]

theorem Item.beqEntry_iff : ∀ e e' : String × Item, Item.beqEntry e e' = true ↔ e = e'
  | (k, x), (k', x') => by simp [Item.beqEntry, Item.beq_iff x]

end

instance : DecidableEq Item := fun x y => decidable_of_iff _ (Item.beq_iff x y)

/-- Tables as they are for their texts. -/
abbrev PlainTable := { t : Table // Keyed.Distinct Prod.fst (workspacesOf t) }

theorem toOption_eq_some {ε α : Type} {x : Except ε α} {a : α} (h : x.toOption = some a) : x = .ok a := by
  cases x with
  | ok a' => exact congrArg _ (Option.some.inj h)
  | error e => cases h

def plainToml : Toml PlainTable where
  Document := PlainTable
  empty := ⟨[], Keyed.distinct_nil⟩
  parse := .ok
  contents := Subtype.val
  insert doc name entry := ⟨insertWorkspace doc.1 name entry, by
    rw [workspacesOf_insertWorkspace]
    exact doc.2.put _⟩
  print := id
  schemaError _ := ""

theorem plainToml_lawful : plainToml.Lawful where
  print doc := ⟨doc, rfl, rfl⟩
  insert _ _ _ _ := rfl
  empty := ⟨⟨[], Keyed.distinct_nil⟩, rfl, rfl⟩
  distinct text doc ws _ hws := by
    have hd := doc.2
    unfold workspacesOf at hd
    rw [show ((doc.1.get "workspaces").bind Item.asTableLike) = some ws from hws] at hd
    exact hd

def labEntry : NewEntry where
  name := "lab"
  host := "h"
  remoteShell := .posix
  root := "/r"
  bin := none
  label := none
  config := none
  stateBase := none

def gpuEntry : NewEntry := { labEntry with name := "gpu", root := "/s" }

def noTable : PlainTable := ⟨[], Keyed.distinct_nil⟩

/-- On Linux, with each path in a directory of its own. -/
def apart : FleetHost := ⟨false, id⟩

/-- The fleet file is at path 0 and path 1 is a link to it. -/
def linked : FleetFiles PlainTable := fun path =>
  if path = 0 then .file noTable else if path = 1 then .link 0 else .absent

/-- Call 0 goes by the file's own path, the others go by the link. -/
def byLink (i : Nat) : Addition := if i = 0 then ⟨labEntry, 1, 0, false⟩ else ⟨gpuEntry, 2, 1, false⟩

def bareCalls : Nat → Addition := fun _ => ⟨labEntry, 1, 0, true⟩

theorem nameOneFile_byLink : NameOneFile linked byLink 0 := by
  intro i
  by_cases hi : i = 0
  · subst hi
    decide
  · have hpath : (byLink i).path = 1 := by simp [byLink, hi]
    rw [hpath]
    decide

/-- The steps of call `i` up to the rename. -/
def upToRename (i : Nat) : List (Label (AddStep PlainTable) Empty) :=
  [.lock, .readFile, .edit, .resolve, .stage, .rename].map (.act i)

/-- Two calls, step by step. -/
def alternately : List (Label (AddStep PlainTable) Empty) :=
  [.lock, .readFile, .edit, .resolve, .stage, .rename, .syncDir].flatMap fun step => [.act 0 step, .act 1 step]

def AddPhase.result? {Text : Type} : AddPhase Text → Option (Except DeployError Unit)
  | .ended r => some r
  | _ => none

theorem AddPhase.eq_of_result? {Text : Type} {phase : AddPhase Text} {r : Except DeployError Unit}
    (h : phase.result? = some r) : phase = .ended r := by
  unfold AddPhase.result? at h
  split at h
  · rw [Option.some.inj h]
  · cases h

/-- Additions fail in two ways. The fleet file is named by a bare relative name and
does not exist yet: its directory, the empty path, cannot be opened, so the call
fails with its workspace in the file. And two calls, of which one goes by a link to
the file, take different locks: both read the file before either renames its text,
both return `Ok`, and the first one's workspace is lost. -/
theorem additions_are_lost_or_published :
    (∃ w e, NameOneFile (fun _ => .absent : FleetFiles PlainTable) bareCalls 0 ∧
      Run (adders plainToml apart) (fun _ => True) (fleetSite (fun _ => .absent) bareCalls) w ∧
      (w.party 0).phase = .ended (.error e) ∧ (∀ j, j ≠ 0 → (w.party j).phase = .started) ∧
      ∃ out, loadFleet plainToml (w.shared.files.text 0) = .ok out ∧ out.get "lab" = some labEntry.workspace) ∧
    ∃ w, NameOneFile linked byLink 0 ∧
      Run (adders plainToml apart) (fun l => AddLabel.syncs l = true) (fleetSite linked byLink) w ∧
      (w.party 0).phase = .ended (.ok ()) ∧ (w.party 1).phase = .ended (.ok ()) ∧
      ∃ out, loadFleet plainToml (w.shared.files.text 0) = .ok out ∧ out.get "lab" = none := by
  constructor
  · have hrun : ((steps (adders plainToml apart) (fleetSite (fun _ => .absent) bareCalls)
        (upToRename 0 ++ [.act 0 (.syncDirFails "write \"workspaces.toml\": No such file or directory (os error 2)")])).map
          fun w => ((w.party 0).phase.result?,
            (loadFleet plainToml (w.shared.files.text 0)).toOption.map fun out => out.get "lab")) =
        some (some (.error (writeFailed "write \"workspaces.toml\": No such file or directory (os error 2)")),
          some (some labEntry.workspace)) := by decide +kernel
    obtain ⟨w, hw, hend⟩ := Option.map_eq_some_iff.mp hrun
    obtain ⟨hresult, hload⟩ := Prod.mk.inj hend
    obtain ⟨out, hout, hget⟩ := Option.map_eq_some_iff.mp hload
    refine ⟨w, _, fun _ => rfl, run_of_steps (fun _ _ => trivial) hw, AddPhase.eq_of_result? hresult, fun j hj => ?_,
      out, ?_, hget⟩
    · rw [party_of_steps hj (by simp [upToRename]) hw]
      rfl
    · exact toOption_eq_some hout
  · have hrun : ((steps (adders plainToml apart) (fleetSite linked byLink) alternately).map
        fun w => ((w.party 0).phase.result?, (w.party 1).phase.result?,
          (loadFleet plainToml (w.shared.files.text 0)).toOption.map fun out => out.get "lab")) =
        some (some (.ok ()), some (.ok ()), some none) := by decide +kernel
    obtain ⟨w, hw, hend⟩ := Option.map_eq_some_iff.mp hrun
    obtain ⟨hresult, hend⟩ := Prod.mk.inj hend
    obtain ⟨hresult', hload⟩ := Prod.mk.inj hend
    obtain ⟨out, hout, hget⟩ := Option.map_eq_some_iff.mp hload
    refine ⟨w, nameOneFile_byLink, run_of_steps ?_ hw, AddPhase.eq_of_result? hresult, AddPhase.eq_of_result? hresult',
      out, ?_, hget⟩
    · simp [alternately, AddLabel.syncs, AddStep.syncs]
    · exact toOption_eq_some hout

/-- With every path in one directory. -/
def together : FleetHost := ⟨false, fun _ => 0⟩

/-- Two calls, one after the other. -/
def inTurn : List (Label (AddStep PlainTable) Empty) :=
  upToRename 0 ++ [.act 0 .syncDir] ++ upToRename 1 ++ [.act 1 .syncDir]

/-- A call by the file's path and then one by a link, from another directory and
from the same. -/
theorem additions_are_all_or_nothing_inTurn :
    (∃ w, Run ((adders plainToml apart).under (AddStep.fresh plainToml apart)) (fun l => AddLabel.syncs l = true)
        (fleetSite linked byLink) w ∧
      (w.party 0).phase.published = true ∧ (w.party 1).phase.published = true ∧ AllOrNothing plainToml [] byLink w) ∧
    ∃ w, Run (adders plainToml together) (fun l => AddLabel.syncs l = true) (fleetSite linked byLink) w ∧
      (w.party 0).phase.published = true ∧ (w.party 1).phase.published = true ∧ AllOrNothing plainToml [] byLink w := by
  have hsyncs : ∀ l ∈ inTurn, AddLabel.syncs l = true := by
    simp [inTurn, upToRename, AddLabel.syncs, AddStep.syncs]
  constructor
  · have hrun : ((steps ((adders plainToml apart).under (AddStep.fresh plainToml apart)) (fleetSite linked byLink)
        inTurn).map fun w => (w.party 0).phase.published && (w.party 1).phase.published) = some true := by decide +kernel
    obtain ⟨w, hw, hend⟩ := Option.map_eq_some_iff.mp hrun
    rw [Bool.and_eq_true] at hend
    have hreached := run_of_steps hsyncs hw
    exact ⟨w, hreached, hend.1, hend.2,
      (additions_are_all_or_nothing plainToml_lawful apart byLink nameOneFile_byLink rfl w).1 hreached⟩
  · have hrun : ((steps (adders plainToml together) (fleetSite linked byLink) inTurn).map
        fun w => (w.party 0).phase.published && (w.party 1).phase.published) = some true := by decide +kernel
    obtain ⟨w, hw, hend⟩ := Option.map_eq_some_iff.mp hrun
    rw [Bool.and_eq_true] at hend
    have hreached := run_of_steps hsyncs hw
    exact ⟨w, hreached, hend.1, hend.2,
      (additions_are_all_or_nothing plainToml_lawful together byLink nameOneFile_byLink rfl w).2 (fun _ _ => rfl) hreached⟩

end

end RemoteWorkspace
