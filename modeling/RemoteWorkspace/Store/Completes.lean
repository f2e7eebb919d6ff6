import RemoteWorkspace.Store.Terminal

/-!
# When recovery completes

Over a state directory that the store's own appends have left (`LeftBehind`),
recovery ends with no marker pending and no request in progress, unless it
meets a marker whose path resolves and whose file cannot be hashed: the `?` on
`hash_file` then ends it, and with it the start of the server
(`recover_completes_iff`). A path that does not resolve is a conflict instead.
-/

namespace RemoteWorkspace

/-- The lines that the store appends to `requests.jsonl`: a claim, from older
servers without an `op`, a result, and an error. -/
inductive StoreLine : RequestLogLine → Prop
  | claimed (id : String) (op : Option String) :
      StoreLine (({ status := .inProgress, result := none, op } : RequestEntry).line id)
  | result (id : String) (m : ServerMessage) : StoreLine ((RequestEntry.ofResult m).line id)
  | error (id : String) (e : ProtocolError) : StoreLine ((RequestEntry.ofError e).line id)

/-- A state directory whose requests are lines of the store, in any order and
cut off anywhere. -/
def LeftBehind (d : LogDir) : Prop := d.requests.Every StoreLine

/-- What a store has in its directory and in its table. -/
structure OwnStore (s : OperationStore) : Prop where
  dir : LeftBehind s.dir
  table : ∀ x ∈ s.requests, StoreLine (x.2.line x.1)

theorem StoreLine.entry {l : RequestLogLine} (h : StoreLine l) : StoreLine (l.entry.line l.requestId) := by
  cases h with
  | claimed id op => exact .claimed id op
  | result id m => exact .result id m
  | error id e => exact .error id e

/-- In progress, and with a result: no line of the store says so. -/
theorem StoreLine.result_none {id : String} {e : RequestEntry} (h : StoreLine (e.line id))
    (hstatus : e.status = .inProgress) : e.result = none := by
  generalize hl : e.line id = l at h
  obtain rfl : l.entry = e := by rw [← hl, RequestEntry.entry_line]
  cases h with
  | claimed id op => rfl
  | result id m => cases hstatus
  | error id e => cases hstatus

section

variable {d : LogDir} {s : OperationStore}

theorem OwnStore.of_new (hd : LeftBehind d) (h : OperationStore.new d = .ok s) : OwnStore s := by
  obtain ⟨counter, ops, reqs, hl, rfl⟩ := OperationStore.new_eq_ok.mp h
  refine ⟨hd.repair, fun x hx => ?_⟩
  obtain ⟨l, hlog, hid, hentry⟩ := mem_loadRequests hx
  have hline := (hd.read hl.requests l hlog).entry
  rwa [hid, hentry] at hline

end

/-! ## Recovery -/

/-- A file that can be hashed, no regular file, or nothing. -/
def Hashable (t : Tree) (p : Path) : Prop :=
  match t.stat p with
  | .ok (.file f) => f.readable = true
  | .ok _ => True
  | .error e => e = .noEntry

theorem hashable_iff {sha256 : Sha256} {t : Tree} {p : Path} :
    Hashable t p ↔ ∃ current, hashFile sha256 t p = .ok current := by
  unfold Hashable hashFile
  rcases t.stat p with e | (_ | f | _ | _)
  · cases e <;> simp
  · simp
  · obtain ⟨content, readable⟩ := f
    cases readable <;> simp
  · simp
  · simp

section

variable (ws : Workspace) (sha256 : Sha256) (t : Tree) (b : Start)

/-- Recovery returns `Ok`, and leaves no marker and no request in progress. -/
def Completes (s : OperationStore) : Prop :=
  ∃ r, recover ws sha256 t b s = .ok r ∧ markersOf r.store.records = [] ∧
    ∀ x ∈ r.store.requests, x.2.status ≠ .inProgress

end

section

variable {ws : Workspace} {sha256 : Sha256} {t : Tree} {b : Start} {d : LogDir} {s : OperationStore}

/-- An entry that recovery makes: a result or an error. -/
inductive EndedEntry : RequestEntry → Prop
  | result (m : ServerMessage) : EndedEntry (.ofResult m)
  | error (e : ProtocolError) : EndedEntry (.ofError e)

theorem EndedEntry.status {e : RequestEntry} (h : EndedEntry e) : e.status ≠ .inProgress := by
  cases h <;> simp [RequestEntry.ofResult, RequestEntry.ofError]

theorem ended_verdictEntry {x : PreparedRecord × RecoveryOutcome} {e : RequestEntry} (h : verdictEntry x = some e) :
    EndedEntry e := by
  obtain ⟨p, _ | _ | reason⟩ := x <;> cases h
  · exact .result _
  · exact .error _

theorem ended_stuckEntry {rs : Records} {id : String} {e e' : RequestEntry} (h : stuckEntry rs id e = some e') :
    EndedEntry e' := by
  unfold stuckEntry at h
  repeat' split at h
  all_goals cases h
  · exact .result _
  · exact .error _
  · exact .error _

/-- A request that recovery leaves was ended by it, or is as it was and not
stuck. -/
theorem ended_of_settled {rs : Records} {id : String} {e₀ : Option RequestEntry}
    {vs : List (PreparedRecord × RecoveryOutcome)} {e : RequestEntry}
    (h : settledEntry rs id (afterVerdicts id e₀ vs) = some e) : EndedEntry e ∨ e₀ = some e ∧ e.isStuck = false := by
  obtain ⟨e₁, he₁, hsettled⟩ := Option.bind_eq_some_iff.mp h
  split at hsettled
  · exact .inl (ended_stuckEntry hsettled)
  · next hstuck =>
    obtain rfl := Option.some.inj hsettled
    rw [afterVerdicts_eq_or] at he₁
    rcases Option.or_eq_some_iff.mp he₁ with hv | ⟨-, h₀⟩
    · obtain ⟨x, -, -, hx⟩ := exists_verdict hv
      exact .inl (ended_verdictEntry hx)
    · exact .inr ⟨h₀, by simpa using hstuck⟩

theorem OwnStore.lookup (h : OwnStore s) {id : String} {e : RequestEntry} (he : s.requests.lookup id = some e) :
    StoreLine (e.line id) := by
  obtain ⟨x, hx, rfl⟩ := Option.map_eq_some_iff.mp he
  rw [← Keyed.key_of_get hx]
  exact h.table x (Keyed.mem_of_get hx)

/-- Over a directory that the store's appends have left and any tree, recovery
returns `Ok`, with no marker pending and no request in progress, exactly if every
marker whose path resolves names something that can be hashed, or nothing. -/
theorem recover_completes_iff (hd : LeftBehind d) (hnew : OperationStore.new d = .ok s) :
    Completes ws sha256 t b s ↔
      ∀ p ∈ markersOf s.records, ∀ abs, ws.resolve t p.path = .ok abs → Hashable t abs := by
  obtain ⟨hids, hrequests⟩ := distinct_of_new hnew
  constructor
  · rintro ⟨r, hr, -⟩ p hp abs habs
    exact hashable_iff.mpr (readable_of_recover hr p hp abs habs)
  · intro hhash
    obtain ⟨r, hr, hrec⟩ := recover_spec (b := b) hids hrequests fun p hp abs habs =>
      hashable_iff.mp (hhash p hp abs habs)
    refine ⟨r, hr, hrec.noMarker, fun x hx hstatus => ?_⟩
    have hlook := (mem_iff_lookup (distinct_of_recover hids hrequests hr)).mp hx
    rw [hrec.lookup] at hlook
    rcases ended_of_settled hlook with hended | ⟨hentry, hstuck⟩
    · exact hended.status hstatus
    · -- in the log, what is in progress has no result, so it was stuck
      have hnone := ((OwnStore.of_new hd hnew).lookup hentry).result_none hstatus
      simp [RequestEntry.isStuck, hstatus, hnone] at hstuck

/-- A server died with an edit under way. -/
def unjudgedEdit : LogDir :=
  { LogDir.empty with
    operations := .ofRecords [.prepared
      { operationId := "op_0000000000000001", requestId := "r1", kind := .edit, path := "f"
        beforeHash := some "sha256:0", expectedAfterHash := "sha256:1", timestampMs := 0 }]
    requests := .ofRecords [(RequestEntry.inProgress "edit").line "r1"] }

theorem leftBehind_unjudgedEdit : LeftBehind unjudgedEdit :=
  LogFile.every_ofRecords fun l hl => by
    rw [List.mem_singleton.mp hl]
    exact .claimed "r1" (some "edit")

/-- A tree with one file in the workspace. -/
def treeWith (f : File) : Tree :=
  (FileTree.Tree.bare.set ["ws"] (some .dir) (FileTree.Tree.settable_bare "ws")).set ["f", "ws"] (some (.file f)) rfl

theorem recover_completes_iff_readable : ∃ s, OperationStore.new unjudgedEdit = .ok s ∧
    Completes homeWorkspace zeroDigest (treeWith { content := [], readable := true }) plainStart s := by
  refine ⟨_, rfl, (recover_completes_iff leftBehind_unjudgedEdit rfl).mpr fun p hp abs habs => ?_⟩
  obtain rfl := List.mem_singleton.mp hp
  cases habs
  rfl

/-- If the server may not read the file, it does not start. -/
theorem unreadable_blocks_start : LeftBehind unjudgedEdit ∧ ∃ s, OperationStore.new unjudgedEdit = .ok s ∧
    ¬Completes homeWorkspace zeroDigest (treeWith { content := [], readable := false }) plainStart s ∧
    serverNew homeWorkspace zeroDigest (treeWith { content := [], readable := false }) plainStart none .allDone
      unjudgedEdit = .error (ioError .denied) := by
  refine ⟨leftBehind_unjudgedEdit, _, rfl, ?_, rfl⟩
  rintro ⟨r, hr, -⟩
  cases hr

end

end RemoteWorkspace
