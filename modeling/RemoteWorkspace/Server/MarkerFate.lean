import RemoteWorkspace.Lib.Alone
import RemoteWorkspace.Server.Handlers
import RemoteWorkspace.Store.Reached

/-!
# The marker's fate is the file's

Calls of `write_ahead_create`, `write_ahead_install` and `write_ahead_delete`
(`FsCall`), in which every step on files may go either way, whatever is done to
the file meanwhile, and every append may fail in each of its ways. Other callers
use the store between the steps, but no prune runs: the call has the write guard.

A call is described by the records of its operation in the table and by its
lines in the log (`Knows`). What it may do to them is little: the marker, then
its commit or its withdrawal.
-/

namespace RemoteWorkspace

open FileTree (Errno)
open Interleave

/-! ## Calls -/

/-- What other callers make of the store while the operation `mine` is under
way. -/
inductive Others (mine : Option String) (s : OperationStore) : OperationStore → Prop
  | refl : Others mine s s
  | step {s₁ s₂ : OperationStore} {c : StoreCmd} {ch : StoreChoice} {r : c.Result} : Others mine s s₁ →
      (∀ keep, c ≠ .prune keep) → (∀ id, c.operationId? = some id → Issued s₁.nextId id ∧ mine ≠ some id) →
      c.exec ch s₁ = some (r, s₂) → Others mine s s₂

/-- A call under way. `landed` says that its own rename or unlink has succeeded,
`stranded` that a withdrawal of its marker has failed. -/
structure FsCall where
  store : OperationStore
  operationId : Option String
  landed : Bool
  stranded : Bool

/-- Whether a command is the step that changes the workspace, and succeeded. -/
def lands (kind : OperationKind) (abs : Path) : (c : FsCmd) → c.Result → Bool
  | .rename _ _ dst, .ok _ => kind ≠ .delete && dst = abs
  | .removeFile p, .ok _ => kind = .delete && p = abs
  | _, _ => false

def givenId : (c : StoreCmd) → c.Result → Option String → Option String
  | .nextOperationId, id, _ => some id
  | _, _, given => given

/-- One command of a call. A step on files returns anything. -/
def callStep (kind : OperationKind) (abs : Path) : (c : ServerCmd) → c.Result → FsCall → FsCall → Prop
  | .store c, r, x, x' => ∃ s s' ch, Others x.operationId x.store s ∧ c.exec ch s = some (r, s') ∧
      x' = ⟨s', givenId c r x.operationId, x.landed, x.stranded || c.strands ch s⟩
  | .fs c, r, x, x' => x' = { x with landed := x.landed || lands kind abs c r }
  | _, _, x, x' => x' = x

/-- A call that has not begun. -/
def FsCall.start (s : OperationStore) : FsCall := ⟨s, none, false, false⟩

/-- A mutation of one file. -/
structure Mutation where
  requestId : String
  kind : OperationKind
  path : String
  beforeHash : Option String
  afterHash : String

def Mutation.marker (m : Mutation) (id : String) (now : Nat) : PreparedRecord where
  operationId := id
  requestId := m.requestId
  kind := m.kind
  path := m.path
  beforeHash := m.beforeHash
  expectedAfterHash := m.afterHash
  timestampMs := now

/-- What a call that returned has made of its marker, in the table and in what
the log is loaded as. -/
def MarkerFate (m : Mutation) (ok : Bool) (x : FsCall) : Prop :=
  ∃ id s₁, x.operationId = some id ∧ OperationStore.new x.store.dir = .ok s₁ ∧
    (ok = true → x.landed = true ∧
      ∃ p now, p = m.marker id p.timestampMs ∧ .fs (committedFrom p now) ∈ x.store.records) ∧
    (ok = false → x.landed = false → x.stranded = false → ∀ p : PreparedRecord, p.operationId = id →
      .prepared p ∉ x.store.records ∧ .prepared p ∉ s₁.records) ∧
    (ok = false → x.landed = true → ∃ p, p = m.marker id p.timestampMs ∧ .prepared p ∈ x.store.records ∧
      (.prepared p ∈ s₁.records ∨ ∃ now, .fs (committedFrom p now) ∈ s₁.records))

/-- So it is when the call returns, and as long as it keeps the write guard. -/
def SettledAs (m : Mutation) (ok : Bool) (x : FsCall) : Prop :=
  ∀ s, Others x.operationId x.store s → MarkerFate m ok { x with store := s }

/-! ## What a call knows -/

/-- The records of the operation in the table, and its lines in the log. -/
def Knows (x : FsCall) (id : String) (rs ls : Records) : Prop :=
  x.operationId = some id ∧ ∃ ops reqs, Sound x.store ops reqs ∧ Issued x.store.nextId id ∧
    ofId id x.store.records = rs ∧ ofId id ops = ls

section

variable {kind : OperationKind} {abs : Path} {x x' : FsCall} {id : String} {rs ls : Records} {s : OperationStore}

theorem sound_of_others {mine : Option String} {s₀ : OperationStore} {ops : Records} {reqs : List RequestLogLine}
    (h : Sound s₀ ops reqs) (ho : Others mine s₀ s) :
    s₀.nextId ≤ s.nextId ∧ ∃ ops' reqs', Sound s ops' reqs' ∧
      ∀ id, mine = some id → ofId id ops' = ofId id ops ∧ ofId id s.records = ofId id s₀.records := by
  induction ho with
  | refl => exact ⟨le_rfl, ops, reqs, h, fun _ _ => ⟨rfl, rfl⟩⟩
  | step _ hprune hc hres ih =>
    obtain ⟨hle, ops₁, reqs₁, h₁, hsame₁⟩ := ih
    obtain ⟨hle', ops', reqs', h', hothers⟩ := h₁.exec (fun id hid => (hc id hid).1) hres
    refine ⟨hle.trans hle', ops', reqs', h', fun id hid => ?_⟩
    obtain ⟨hops, hrecords⟩ := hothers hprune id fun hc' => (hc id hc').2 hid
    exact ⟨hops.trans (hsame₁ id hid).1, hrecords.trans (hsame₁ id hid).2⟩

theorem Knows.others (h : Knows x id rs ls) (ho : Others x.operationId x.store s) : Knows { x with store := s } id rs ls := by
  obtain ⟨hid, ops, reqs, hsound, hissued, hrs, hls⟩ := h
  obtain ⟨hle, ops', reqs', hsound', hsame⟩ := sound_of_others hsound ho
  obtain ⟨hops, hrecords⟩ := hsame id hid
  exact ⟨hid, ops', reqs', hsound', hissued.mono hle, hrecords.trans hrs, hops.trans hls⟩

/-- What is loaded, of the operation. -/
theorem Knows.reload (h : Knows x id rs ls) : ∃ s₁, OperationStore.new x.store.dir = .ok s₁ ∧
    ∀ r : AnyOperationRecord, r.operationId = id → (r ∈ s₁.records ↔ latestRecord ls id = some r ∧ isAborted r = false) := by
  obtain ⟨-, ops, reqs, hsound, -, -, rfl⟩ := h
  obtain ⟨s₁, hs₁, hrecords⟩ := hsound.reload
  refine ⟨s₁, hs₁, fun r hr => ?_⟩
  rw [hrecords, mem_loadRecords, hr, latestRecord_ofId]

/-! ## How a call ends -/

variable {m : Mutation} {n : Nat}

/-- The marker is in the table and in the log. -/
def Marked (m : Mutation) (id : String) (now : Nat) (landed : Bool) (x : FsCall) : Prop :=
  Knows x id [.prepared (m.marker id now)] [.prepared (m.marker id now)] ∧ x.landed = landed ∧ x.stranded = false

theorem latestRecord_single {r : AnyOperationRecord} (h : r.operationId = id) : latestRecord [r] id = some r :=
  (Keyed.latest_concat [] r id).trans (if_pos h)

theorem latestRecord_pair {r r' : AnyOperationRecord} (h : r'.operationId = id) : latestRecord [r, r'] id = some r' :=
  (Keyed.latest_concat [r] r' id).trans (if_pos h)

/-- A call that has changed nothing: its marker is in neither place, or withdrawn,
or stranded. -/
theorem fate_of_withdrawn {ls : Records} (h : Knows x id rs ls) (hlanded : x.landed = false)
    (hrs : x.stranded = false → rs = [])
    (hls : x.stranded = false → ls = [] ∨ ∃ p a, ls = [.prepared p, .aborted a] ∧ a.operationId = id) :
    SettledAs m false x := by
  intro s ho
  have h := h.others ho
  obtain ⟨s₁, hs₁, hreload⟩ := h.reload
  obtain ⟨hid, ops, reqs, -, -, htable, -⟩ := h
  refine ⟨id, s₁, hid, hs₁, nofun, fun _ _ hstranded p hp => ⟨fun hmem => ?_, fun hmem => ?_⟩, fun _ hlanded' => ?_⟩
  · rw [hrs hstranded, ofId_eq_nil] at htable
    exact htable _ hmem hp
  · obtain ⟨hlatest, -⟩ := (hreload (.prepared p) hp).mp hmem
    rcases hls hstranded with rfl | ⟨p', a, rfl, ha⟩
    · cases hlatest
    · rw [latestRecord_pair (show (AnyOperationRecord.aborted a).operationId = id from ha)] at hlatest
      cases hlatest
  · rw [hlanded] at hlanded'
    cases hlanded'

/-- A call that has changed the file and fails: the marker stays, and in the log
the commit may be behind it. -/
theorem fate_of_landed (h : Knows x id [.prepared (m.marker id n)] ls) (hlanded : x.landed = true)
    (hls : ls = [.prepared (m.marker id n)] ∨
      ∃ t, ls = [.prepared (m.marker id n), .fs (committedFrom (m.marker id n) t)]) : SettledAs m false x := by
  intro s ho
  have h := h.others ho
  obtain ⟨s₁, hs₁, hreload⟩ := h.reload
  obtain ⟨hid, ops, reqs, -, -, htable, -⟩ := h
  refine ⟨id, s₁, hid, hs₁, nofun, fun _ hlanded' => ?_, fun _ _ => ⟨m.marker id n, rfl, (of_ofId htable).1, ?_⟩⟩
  · rw [hlanded] at hlanded'
    cases hlanded'
  · rcases hls with rfl | ⟨t, rfl⟩
    · exact .inl ((hreload (.prepared (m.marker id n)) rfl).mpr ⟨latestRecord_single rfl, rfl⟩)
    · exact .inr ⟨t, (hreload (.fs (committedFrom (m.marker id n) t)) rfl).mpr ⟨latestRecord_pair rfl, rfl⟩⟩

theorem fate_of_committed {t : Nat} (h : Knows x id [.fs (committedFrom (m.marker id n) t)] ls)
    (hlanded : x.landed = true) : SettledAs m true x := by
  intro s ho
  have h := h.others ho
  obtain ⟨s₁, hs₁, -⟩ := h.reload
  obtain ⟨hid, ops, reqs, -, -, htable, -⟩ := h
  exact ⟨id, s₁, hid, hs₁, fun _ => ⟨hlanded, m.marker id n, t, rfl, (of_ofId htable).1⟩, nofun, nofun⟩

/-! ## The store's part -/

/-- A judgement for what a call does; its result is all that counts. -/
abbrev Calls (kind : OperationKind) (abs : Path) {α ε : Type} (p : ExceptT ε ServerProg α) (Q : α → FsCall → Prop)
    (E : ε → FsCall → Prop) (x : FsCall) : Prop :=
  p.run.Keeps (callStep kind abs) (fun _ _ => True) (Prog.Ends Q E) x

/-- Commands that do not change the operation's lines. -/
theorem Knows.command (h : Knows x id rs ls) {c : StoreCmd} {r : c.Result} (hstep : callStep kind abs (.store c) r x x')
    (hc : c.operationId? = none) (hprune : ∀ keep, c ≠ .prune keep) (hgiven : givenId c r x.operationId = x.operationId)
    (hstrands : ∀ ch s, c.strands ch s = false) :
    Knows x' id rs ls ∧ x'.landed = x.landed ∧ x'.stranded = x.stranded := by
  obtain ⟨s, s', ch, ho, hres, rfl⟩ := hstep
  obtain ⟨hid, ops, reqs, hsound, hissued, hrs, hls⟩ := h.others ho
  obtain ⟨hle, ops', reqs', hsound', hothers⟩ := hsound.exec (fun id' hid' => by rw [hc] at hid'; cases hid') hres
  obtain ⟨hops, hrecords⟩ := hothers hprune id (by rw [hc]; exact nofun)
  exact ⟨⟨hgiven.trans hid, ops', reqs', hsound', hissued.mono hle, hrecords.trans hrs, hops.trans hls⟩, rfl,
    by simp [hstrands]⟩

theorem Knows.clock (h : Knows x id rs ls) {r : Nat} (hstep : callStep kind abs (.store .now) r x x') :
    Knows x' id rs ls ∧ x'.landed = x.landed ∧ x'.stranded = x.stranded :=
  h.command hstep rfl nofun rfl fun _ _ => rfl

/-- What the store is like as one of the call's commands runs. -/
theorem Knows.before (h : Knows x id rs ls) {c : StoreCmd} {r : c.Result} (hstep : callStep kind abs (.store c) r x x') :
    ∃ s s' ch ops reqs, c.exec ch s = some (r, s') ∧
      x' = ⟨s', givenId c r x.operationId, x.landed, x.stranded || c.strands ch s⟩ ∧
      Sound s ops reqs ∧ Issued s.nextId id ∧ ofId id s.records = rs ∧ ofId id ops = ls := by
  obtain ⟨s, s', ch, ho, hres, rfl⟩ := hstep
  obtain ⟨-, ops, reqs, hsound, hissued, hrs, hls⟩ := h.others ho
  exact ⟨s, s', ch, ops, reqs, hres, rfl, hsound, hissued, hrs, hls⟩

theorem ofId_eq_self (h : ∀ r ∈ rs, r.operationId = id) : ofId id rs = rs :=
  List.filter_eq_self.mpr fun r hr => decide_eq_true (h r hr)

theorem prepare_step (h : Knows x id [] []) (hlanded : x.landed = false) (hstranded : x.stranded = false)
    {r : Except ProtocolError Unit} (hstep : callStep kind abs (.store (.prepare (m.marker id n))) r x x') :
    (r = .ok () → Marked m id n false x') ∧ ∀ e, r = .error e → SettledAs m false x' := by
  obtain ⟨s, s', ch, ops, reqs, hres, rfl, hsound, hissued, hrs, hls⟩ := h.before hstep
  obtain ⟨hnext, X, hX, hsound', hok, herr⟩ := hsound.prepare hissued (Option.some.inj hres)
  have hX : ∀ y ∈ X, y.operationId = id := hX
  have hown : ofId id (ops ++ X) = X := by rw [ofId_append, hls, List.nil_append, ofId_eq_self hX]
  have hissued' : Issued s'.nextId id := by rw [hnext]; exact hissued
  constructor
  · rintro rfl
    obtain ⟨rfl, hrecords, hstrands⟩ := hok rfl
    refine ⟨⟨h.1, _, _, hsound', hissued', ?_, hown⟩, hlanded, by rw [hstranded, hstrands]; rfl⟩
    rw [hrecords, ofId_append, hrs, ofId_eq_self fun r hr => List.mem_singleton.mp hr ▸ rfl, List.nil_append]
  · rintro e rfl
    obtain ⟨hrecords, hX'⟩ := herr e rfl
    have hknows : Knows ⟨s', x.operationId, x.landed, x.stranded || StoreCmd.strands (.prepare (m.marker id n)) ch s⟩
        id [] X := ⟨h.1, _, _, hsound', hissued', by rw [hrecords, hrs], hown⟩
    refine fate_of_withdrawn hknows hlanded (fun _ => rfl) fun hnot => ?_
    rcases hX' (Bool.or_eq_false_iff.mp hnot).2 with rfl | ⟨a, rfl⟩
    · exact .inl rfl
    · exact .inr ⟨_, a, rfl, hX (.aborted a) (by simp)⟩

theorem calls_prepare (m : Mutation) (hs : ∃ ops reqs, Sound s ops reqs) :
    Calls kind abs (Handler.stored (StoreProg.prepareFsRecord m.requestId m.kind m.path m.beforeHash m.afterHash))
      (fun id x => ∃ n, Marked m id n false x) (fun _ => SettledAs m false) (.start s) := by
  refine ⟨trivial, fun id x₁ h₁ => ⟨trivial, fun n x₂ h₂ => ⟨trivial, fun r x₃ h₃ => ?_⟩⟩⟩
  have hfresh : Knows x₁ id [] [] ∧ x₁.landed = false ∧ x₁.stranded = false := by
    obtain ⟨ops, reqs, hsound⟩ := hs
    obtain ⟨s', s₁, ch, ho, hres, rfl⟩ := h₁
    obtain ⟨-, ops', reqs', hsound', -⟩ := sound_of_others hsound ho
    obtain ⟨-, -, -, hnext, hissued, hops, hnone⟩ := hsound'.next hres
    exact ⟨⟨rfl, ops', reqs', hnext, hissued, hnone, hops⟩, rfl, rfl⟩
  obtain ⟨hknows, hlanded, hstranded⟩ := hfresh
  obtain ⟨hknows, hlanded', hstranded'⟩ := hknows.clock h₂
  obtain ⟨hok, herr⟩ := prepare_step (m := m) (n := n) hknows (hlanded'.trans hlanded) (hstranded'.trans hstranded) h₃
  cases r with
  | ok u => exact ⟨n, hok rfl⟩
  | error e => exact herr e rfl

/-- An append of one more line of the operation. -/
theorem Knows.append (h : Knows x id rs ls) {y : AnyOperationRecord} (hy : y.operationId = id)
    {r : Except ProtocolError Unit} (hstep : callStep kind abs (.store (.append (.operation y))) r x x') :
    x'.landed = x.landed ∧
      (r = .ok () → ∃ table, ofId id table = rs ∧ Knows x' id (ofId id (table.record y)) (ls ++ [y])) ∧
      (∀ e, r = .error e → Knows x' id rs ls ∨ Knows x' id rs (ls ++ [y])) ∧
      (∀ f, y = .fs f → x'.stranded = x.stranded) ∧
      ∀ a, y = .aborted a → x'.stranded = (x.stranded || !r.isOk) := by
  obtain ⟨s, s', ch, ops, reqs, hres, rfl, hsound, hissued, hrs, hls⟩ := h.before hstep
  have hres : s.appendTracked ch.append (.operation y) = (r, s') := Option.some.inj hres
  obtain ⟨hnext, ws, hws, hsound', hok, herr⟩ :=
    hsound.appendTracked (l := .operation y) ch.append fun id' hid' => Option.some.inj hid' ▸ hy ▸ hissued
  rw [hres] at hnext hsound' hok herr
  have hissued' : Issued s'.nextId id := by rw [show s'.nextId = s.nextId from hnext]; exact hissued
  have hlines : ws = [.operation y] → ofId id (ops ++ operationsOf ws) = ls ++ [y] := by
    rintro rfl
    rw [ofId_append, hls, operationsOf_operation, operationsOf_nil, ofId_eq_self fun r hr => List.mem_singleton.mp hr ▸ hy]
  refine ⟨rfl, ?_, ?_, ?_, ?_⟩
  · rintro rfl
    obtain ⟨rfl, hrecords⟩ := hok rfl
    exact ⟨s.records, hrs, h.1, _, _, hsound', hissued', by rw [hrecords]; rfl, hlines rfl⟩
  · rintro e rfl
    have htable : ofId id s'.records = rs := by rw [herr e rfl, hrs]
    rcases hws with rfl | rfl
    · exact .inl ⟨h.1, _, _, hsound', hissued', htable, by simpa using hls⟩
    · exact .inr ⟨h.1, _, _, hsound', hissued', htable, hlines rfl⟩
  · rintro f rfl
    exact Bool.or_false _
  · rintro a rfl
    show (x.stranded || !(s.appendTracked ch.append (.operation (.aborted a))).1.isOk) = _
    rw [hres]

/-- A marker of a call that has changed nothing is withdrawn. -/
theorem calls_abort (h : Marked m id n false x) :
    Calls kind abs (Handler.stored (StoreProg.abortPrepared id)) (fun _ => SettledAs m false)
      (fun _ => SettledAs m false) x := by
  refine ⟨trivial, fun t x₁ h₁ => ⟨trivial, fun r x₂ h₂ => ?_⟩⟩
  obtain ⟨hknows, hlanded, hstranded⟩ := h
  obtain ⟨hknows, hlanded₁, hstranded₁⟩ := hknows.clock h₁
  obtain ⟨hlanded₂, hok, herr, -, hstranded₂⟩ := hknows.append (y := .aborted ⟨id, t⟩) rfl h₂
  have hlanded : x₂.landed = false := hlanded₂.trans (hlanded₁.trans hlanded)
  have hstranded : x₂.stranded = !r.isOk := by
    rw [hstranded₂ _ rfl, hstranded₁, hstranded, Bool.false_or]
  cases r with
  | ok u =>
    obtain ⟨table, htable, hknows⟩ := hok rfl
    rw [ofId_record_aborted htable rfl] at hknows
    exact fate_of_withdrawn hknows hlanded (fun _ => rfl) fun _ => .inr ⟨_, _, rfl, rfl⟩
  | error e =>
    have hnot : x₂.stranded ≠ false := by simp [hstranded, Except.isOk, Except.toBool]
    rcases herr e rfl with hknows | hknows <;>
      exact fate_of_withdrawn hknows hlanded (fun hf => absurd hf hnot) fun hf => absurd hf hnot

/-- The marker of a call that has changed the file is committed, or stays. -/
theorem calls_commit (h : Marked m id n true x) :
    Calls kind abs (Handler.stored (StoreProg.commitFsRecord id m.requestId m.kind m.path m.beforeHash m.afterHash))
      (fun _ => SettledAs m true) (fun _ => SettledAs m false) x := by
  refine ⟨trivial, fun t x₁ h₁ => ⟨trivial, fun r x₂ h₂ => ?_⟩⟩
  obtain ⟨hknows, hlanded, -⟩ := h
  obtain ⟨hknows, hlanded₁, -⟩ := hknows.clock h₁
  obtain ⟨hlanded₂, hok, herr, -, -⟩ := hknows.append (y := .fs (committedFrom (m.marker id n) t)) rfl h₂
  have hlanded : x₂.landed = true := hlanded₂.trans (hlanded₁.trans hlanded)
  cases r with
  | ok u =>
    obtain ⟨table, htable, hknows⟩ := hok rfl
    rw [ofId_record_fs htable rfl] at hknows
    exact fate_of_committed hknows hlanded
  | error e =>
    rcases herr e rfl with hknows | hknows
    · exact fate_of_landed hknows hlanded (.inl rfl)
    · exact fate_of_landed hknows hlanded (.inr ⟨t, rfl⟩)

/-! ## The steps on files -/

theorem Marked.fs {landed : Bool} (h : Marked m id n landed x) {c : FsCmd} {r : c.Result}
    (hstep : callStep kind abs (.fs c) r x x') : Marked m id n (landed || lands kind abs c r) x' := by
  obtain rfl := hstep
  obtain ⟨hknows, rfl, hstranded⟩ := h
  exact ⟨hknows, rfl, hstranded⟩

/-- An install, in whose failures `changed` tells whether it has landed. -/
abbrev KeepsMarker (kind : OperationKind) (abs : Path) (m : Mutation) (id : String) (n : Nat) {α : Type} (p : Install α)
    (landed : Bool) (x : FsCall) : Prop :=
  Calls kind abs p (fun _ => Marked m id n landed) (fun f => Marked m id n f.changed) x

/-- A command that does not change the workspace. -/
theorem keeps_quiet {landed : Bool} {c : FsCmd} (hc : ∀ r, lands kind abs c r = false) (h : Marked m id n landed x) :
    (Install.fs c).Keeps (callStep kind abs) (fun _ _ => True) (fun _ => Marked m id n landed) x := by
  refine ⟨trivial, fun r x' hstep => ?_⟩
  have hmarked := h.fs hstep
  rwa [hc, Bool.or_false] at hmarked

theorem installs_quiet {α : Type} {landed : Bool} {f : Errno → ProtocolError} {p : ServerProg (Except Errno α)}
    (hp : p.Keeps (callStep kind abs) (fun _ _ => True) (fun _ => Marked m id n landed) x) :
    KeepsMarker kind abs m id n (Install.step landed f p) landed x :=
  keeps_installStep (hp.mono (fun _ _ h => h) fun r _ h => by cases r <;> exact h)

theorem lands_removeFile (hkind : kind ≠ .delete) (p : Path) (r : Except Errno Unit) :
    lands kind abs (.removeFile p) r = false := by
  cases r <;> simp [lands, hkind]

theorem installs_dropping {α : Type} {tmp : Path} {p : Install α} {landed : Bool} (hkind : kind ≠ .delete)
    (hp : KeepsMarker kind abs m id n p landed x) : KeepsMarker kind abs m id n (dropping tmp p) landed x :=
  keeps_dropping hp fun _ _ hf => keeps_quiet (lands_removeFile hkind tmp) hf

/-- The rename of an install, and the sync after it. -/
theorem installs_rename {overwrite : Bool} {src : Path} {f : Errno → ProtocolError} (hkind : kind ≠ .delete)
    (h : Marked m id n false x) :
    KeepsMarker kind abs m id n (Install.step false f (Install.fs (.rename overwrite src abs))) true x := by
  refine keeps_installStep ⟨trivial, fun r x' hstep => ?_⟩
  have hmarked := h.fs hstep
  cases r with
  | ok u =>
    rw [show lands kind abs (.rename overwrite src abs) (.ok u) = true by simp [lands, hkind]] at hmarked
    exact hmarked
  | error e => exact hmarked

theorem installs_create (content : List UInt8) (path : String) (hkind : kind ≠ .delete) (h : Marked m id n false x) :
    KeepsMarker kind abs m id n (atomicCreateBytes abs content path) true x := by
  unfold atomicCreateBytes
  split
  · exact h
  · next name parent =>
    refine Prog.Keeps.bindE (installs_quiet (keeps_quiet (fun _ => rfl) h)) fun _ x₁ h₁ => ?_
    refine Prog.Keeps.bindE (installs_quiet (keeps_quiet (fun _ => rfl) h₁)) fun tmp x₂ h₂ => ?_
    refine Prog.Keeps.bindE (installs_dropping hkind ?_) fun _ x₃ h₃ => installs_quiet (keeps_quiet (fun _ => rfl) h₃)
    refine Prog.Keeps.bindE (installs_quiet (keeps_quiet (fun _ => rfl) h₂)) fun _ x₄ h₄ => ?_
    refine Prog.Keeps.bindE (installs_quiet (keeps_quiet (fun _ => rfl) h₄)) fun _ x₅ h₅ => ?_
    exact installs_rename hkind h₅

theorem installs_install (staged : StagedWrite) (hkind : kind ≠ .delete) (h : Marked m id n false x) :
    KeepsMarker kind abs m id n (staged.install abs) true x := by
  refine Prog.Keeps.bindE (installs_dropping hkind (installs_rename hkind h)) fun _ x₁ h₁ => ?_
  exact Prog.Keeps.bindE (installs_quiet (keeps_quiet (fun _ => rfl) h₁)) fun _ x₂ h₂ => h₂

/-! ## The calls -/

/-- The marker of an install that failed is withdrawn if the install has changed
nothing. -/
theorem calls_failed {α : Type} {f : InstallFailure} (h : Marked m id n f.changed x) :
    Calls kind abs
      (do
        if f.changed = false then Handler.stored (StoreProg.abortPrepared id)
        throw f.error : Handler α)
      (fun _ => SettledAs m true) (fun _ => SettledAs m false) x := by
  cases hchanged : f.changed with
  | false =>
    rw [hchanged] at h
    exact Prog.Keeps.bindE (calls_abort h) fun _ _ hfate => hfate
  | true =>
    rw [hchanged] at h
    exact fate_of_landed h.1 h.2.1 (.inl rfl)

theorem calls_create (sha256 : Sha256) (requestId path : String) (content : List UInt8)
    (hs : ∃ ops reqs, Sound s ops reqs) :
    Calls .create abs (writeAheadCreate sha256 requestId path abs content)
      (fun _ => SettledAs ⟨requestId, .create, path, none, hashBytes sha256 content⟩ true)
      (fun _ => SettledAs ⟨requestId, .create, path, none, hashBytes sha256 content⟩ false) (.start s) := by
  refine Prog.Keeps.bindE (calls_prepare ⟨requestId, .create, path, none, hashBytes sha256 content⟩ hs) ?_
  rintro opId x ⟨n, h⟩
  refine Prog.Keeps.bindE (Prog.Keeps.lift (installs_create content path (by decide) h)) fun o x₁ h₁ => ?_
  cases o with
  | error f => exact calls_failed h₁
  | ok u => exact Prog.Keeps.bindE (calls_commit h₁) fun _ _ hfate => hfate

theorem eq_of_quiet {c : FsCmd} {r : c.Result} (hc : lands kind abs c r = false)
    (hstep : callStep kind abs (.fs c) r x x') : x' = x := by
  obtain rfl := hstep
  rw [hc, Bool.or_false]

theorem calls_dropping {α : Type} {tmp : Path} {p : Handler α} {Q : α → FsCall → Prop} {E : ProtocolError → FsCall → Prop}
    (hkind : kind ≠ .delete) (hp : Calls kind abs p Q E x) : Calls kind abs (dropping tmp p) Q E x :=
  keeps_dropping hp fun _ _ he => ⟨trivial, fun r _ hstep => eq_of_quiet (lands_removeFile hkind tmp r) hstep ▸ he⟩

theorem keeps_verifyUnchanged (expected path : String) (h : Marked m id n false x) :
    (verifyUnchanged abs expected path).run.Keeps (callStep kind abs) (fun _ _ => True)
      (fun _ => Marked m id n false) x := by
  refine ⟨trivial, fun r x' hstep => ?_⟩
  obtain rfl : x' = x := eq_of_quiet (by cases r <;> rfl) hstep
  cases r with
  | error e => exact h
  | ok now =>
    show Prog.Keeps _ _ _ (ExceptT.run (if now ≠ some expected then _ else _)) _
    split <;> exact h

theorem calls_install (requestId path before : String) (staged : StagedWrite) (hs : ∃ ops reqs, Sound s ops reqs) :
    Calls .edit abs (writeAheadInstall requestId path abs before staged)
      (fun _ => SettledAs ⟨requestId, .edit, path, some before, staged.newHash⟩ true)
      (fun _ => SettledAs ⟨requestId, .edit, path, some before, staged.newHash⟩ false) (.start s) := by
  have hkind : OperationKind.edit ≠ .delete := by decide
  refine Prog.Keeps.bindE (calls_dropping hkind
    (calls_prepare ⟨requestId, .edit, path, some before, staged.newHash⟩ hs)) ?_
  rintro opId x ⟨n, h⟩
  refine Prog.Keeps.bindE (Q := fun _ => Marked _ opId n false)
    (Prog.Keeps.lift (keeps_verifyUnchanged before path h)) fun o x₁ h₁ => ?_
  cases o with
  | error e => exact calls_dropping hkind (Prog.Keeps.bindE (calls_abort h₁) fun _ _ hfate => hfate)
  | ok u =>
    refine Prog.Keeps.bindE (Prog.Keeps.lift (installs_install staged hkind h₁)) fun o x₂ h₂ => ?_
    cases o with
    | error f => exact calls_failed h₂
    | ok newHash => exact Prog.Keeps.bindE (calls_commit h₂) fun _ _ hfate => hfate

theorem calls_delete (requestId path : String) (beforeHash : Option String) (hs : ∃ ops reqs, Sound s ops reqs) :
    Calls .delete abs (writeAheadDelete requestId path abs beforeHash)
      (fun _ => SettledAs ⟨requestId, .delete, path, beforeHash, fileDeletedSentinel⟩ true)
      (fun _ => SettledAs ⟨requestId, .delete, path, beforeHash, fileDeletedSentinel⟩ false) (.start s) := by
  refine Prog.Keeps.bindE (calls_prepare ⟨requestId, .delete, path, beforeHash, fileDeletedSentinel⟩ hs) ?_
  rintro opId x ⟨n, h⟩
  refine ⟨trivial, fun r x₁ hstep => ?_⟩
  have h₁ := h.fs hstep
  cases r with
  | error e => exact Prog.Keeps.bindE (calls_abort h₁) fun _ _ hfate => hfate
  | ok u =>
    rw [show lands .delete abs (.removeFile abs) (.ok u) = true by simp [lands]] at h₁
    have hcommit : ∀ {x₂}, Marked _ opId n true x₂ → Calls .delete abs
        (do
          Handler.stored (StoreProg.commitFsRecord opId requestId .delete path beforeHash fileDeletedSentinel)
          return opId : Handler String)
        (fun _ => SettledAs ⟨requestId, .delete, path, beforeHash, fileDeletedSentinel⟩ true)
        (fun _ => SettledAs ⟨requestId, .delete, path, beforeHash, fileDeletedSentinel⟩ false) x₂ :=
      fun h₂ => Prog.Keeps.bindE (calls_commit h₂) fun _ _ hfate => hfate
    cases abs with
    | nil => exact hcommit h₁
    | cons name parent =>
      refine ⟨trivial, fun r x₂ hstep => ?_⟩
      obtain rfl : x₂ = x₁ := eq_of_quiet (by cases r <;> rfl) hstep
      cases r with
      | error e => exact fate_of_landed h₁.1 h₁.2.1 (.inl rfl)
      | ok u => exact hcommit h₁

/-! ## The fate of a marker -/

/-- However the steps of a call go, and whatever others do to the file and to the
store meanwhile: it returns `Ok` only with its own change made and its commit in
the table; a marker whose change was not made is left nowhere, unless its
withdrawal failed; and a change that was made keeps its marker in the table, and
the marker or the commit in the log. -/
theorem markers_follow_files {ws : Workspace} {sha256 : Sha256} (hs : Reached ws sha256 s) (requestId path : String)
    (abs : Path) :
    (∀ content es r x, Prog.Run (callStep .create abs) (writeAheadCreate sha256 requestId path abs content).run
        (.start s) es (.pure r) x →
      SettledAs ⟨requestId, .create, path, none, hashBytes sha256 content⟩ r.isOk x) ∧
    (∀ before staged es r x, Prog.Run (callStep .edit abs) (writeAheadInstall requestId path abs before staged).run
        (.start s) es (.pure r) x →
      SettledAs ⟨requestId, .edit, path, some before, staged.newHash⟩ r.isOk x) ∧
    ∀ beforeHash es r x, Prog.Run (callStep .delete abs) (writeAheadDelete requestId path abs beforeHash).run
        (.start s) es (.pure r) x →
      SettledAs ⟨requestId, .delete, path, beforeHash, fileDeletedSentinel⟩ r.isOk x := by
  have hends : ∀ {α : Type} {m : Mutation} {r : Except ProtocolError α} {x : FsCall},
      Prog.Ends (fun _ => SettledAs m true) (fun _ => SettledAs m false) r x → SettledAs m r.isOk x := by
    intro α m r x h
    cases r <;> exact h
  refine ⟨fun content es r x hrun => ?_, fun before staged es r x hrun => ?_, fun beforeHash es r x hrun => ?_⟩
  · exact hends ((calls_create sha256 requestId path content hs.sound).run hrun)
  · exact hends ((calls_install requestId path before staged hs.sound).run hrun)
  · exact hends ((calls_delete requestId path beforeHash hs.sound).run hrun)

end

/-- A delete that no one disturbs, and whose steps on files succeed. -/
def deleteExec (abs : Path) : (c : ServerCmd) → StoreChoice → FsCall → Option (c.Result × FsCall)
  | .store c, ch, x => (c.exec ch x.store).map fun p =>
    (p.1, ⟨p.2, givenId c p.1 x.operationId, x.landed, x.stranded || c.strands ch x.store⟩)
  | .fs (.removeFile p), _, x => some (.ok (), { x with landed := x.landed || lands .delete abs (.removeFile p) (.ok ()) })
  | .fs (.sync p), _, x => some (.ok (), { x with landed := x.landed || lands .delete abs (.sync p) (.ok ()) })
  | _, _, _ => none

theorem callStep_of_deleteExec {abs : Path} {c : ServerCmd} {ch : StoreChoice} {r : c.Result} {x x' : FsCall}
    (h : deleteExec abs c ch x = some (r, x')) : callStep .delete abs c r x x' := by
  unfold deleteExec at h
  split at h
  · obtain ⟨p, hp, heq⟩ := Option.map_eq_some_iff.mp h
    cases heq
    exact ⟨x.store, p.2, ch, .refl, hp, rfl⟩
  · cases h
    rfl
  · cases h
    rfl
  · cases h

/-- A delete whose commit cannot be appended: its marker stays. -/
theorem markers_follow_files_uncommitted :
    ∃ s es e x, Reached emptyWorkspace zeroDigest s ∧
      Prog.Run (callStep .delete ["f", "ws"]) (writeAheadDelete "r1" "f" ["f", "ws"] (some "sha256:aa")).run (.start s) es
        (.pure (.error e)) x ∧
      x.landed = true ∧ SettledAs ⟨"r1", .delete, "f", some "sha256:aa", fileDeletedSentinel⟩ false x := by
  have hs : Reached emptyWorkspace zeroDigest
      { dir := .empty, nextId := 0, records := [], requests := [], logTorn := false } :=
    .start (d := .empty) (t := FileTree.Tree.bare) (b := plainStart) rfl rfl
  have hdrive : ∃ es e x, Prog.drive (deleteExec ["f", "ws"])
      [{}, { clock := 1 }, {}, {}, {}, { clock := 2 }, { append := .openFails "ENOSPC" }]
      (writeAheadDelete "r1" "f" ["f", "ws"] (some "sha256:aa")).run
      (.start { dir := .empty, nextId := 0, records := [], requests := [], logTorn := false }) =
        some (es, .pure (.error e), x) ∧ x.landed = true := ⟨_, _, _, rfl, rfl⟩
  obtain ⟨es, e, x, hdrive, hlanded⟩ := hdrive
  have hstep : ∀ (c : ServerCmd) (ch : StoreChoice) (r : c.Result) (y y' : FsCall), ch ∈ Set.univ →
      deleteExec ["f", "ws"] c ch y = some (r, y') → callStep .delete ["f", "ws"] c r y y' :=
    fun _ _ _ _ _ _ h => callStep_of_deleteExec h
  have hrun := Prog.run_of_drive hstep (fun _ _ => trivial) hdrive
  exact ⟨_, es, e, x, hs, hrun, hlanded, (markers_follow_files hs "r1" "f" ["f", "ws"]).2.2 _ es _ x hrun⟩

end RemoteWorkspace
