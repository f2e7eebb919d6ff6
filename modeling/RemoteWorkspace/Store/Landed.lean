import RemoteWorkspace.Resolution
import RemoteWorkspace.Store.Conclusions

/-!
# Mutations that landed and lost their commit

A mutation whose sync or commit line failed after the file was changed leaves
its marker. The marker of one that another mutation followed no longer matches
the file, and is known to have landed only through a later operation that
started from its result. `continues` looks for that operation by the text of
the path, and a file may be named in several ways: `landed_recovered_iff` says
which markers are recognised.
-/

namespace RemoteWorkspace

open FileTree.Tree

/-- A mutation of a file: how it named the file, and the hashes before and
after it. -/
structure FileOp where
  kind : OperationKind
  path : String
  before : Option String
  after : String
  deriving DecidableEq, Repr

/-- The hash of the file after a mutation, if there is one. -/
def FileOp.leaves (op : FileOp) : Option String :=
  if op.after = fileDeletedSentinel then none else some op.after

/-- What the successful steps of a `create`, an `edit` and a `delete` of the
file `q` make of the tree. -/
inductive Applied (ws : Workspace) (sha256 : Sha256) (q : Path) : FileOp → Tree → Tree → Prop where
  | create {path content t t'} (hr : ws.resolve t path = .ok q) (hl : t.lstat q = .error .noEntry)
      (h : createFile t q { content, readable := true } = .ok t') :
      Applied ws sha256 q
        { kind := .create, path, before := none, after := hashBytes sha256 content } t t'
  | edit {path content f t t'} (hr : ws.resolve t path = .ok q) (hs : t.stat q = .ok (.file f))
      (hread : f.readable = true) (hne : hashBytes sha256 content ≠ hashBytes sha256 f.content)
      (h : t.replace q { content, readable := true } = .ok t') :
      Applied ws sha256 q
        { kind := .edit, path, before := some (hashBytes sha256 f.content)
          after := hashBytes sha256 content } t t'
  | delete {path f before t t'} (hr : ws.resolve t path = .ok q)
      (hlink : ws.isSymlink t path = .ok false) (hs : t.stat q = .ok (.file f))
      (hb : hashFile sha256 t q = .ok before) (h : t.unlink q = .ok t') :
      Applied ws sha256 q { kind := .delete, path, before, after := fileDeletedSentinel } t t'

section

variable {ws : Workspace} {sha256 : Sha256} {q : Path} {t t' : Tree} {op : FileOp}

/-- What the tree shows of a mutation once it is applied. -/
structure Landed (ws : Workspace) (sha256 : Sha256) (q : Path) (op : FileOp) (t : Tree) : Prop where
  ne_nil : q ≠ []
  dir : t.node q.tail = some .dir
  file : ∃ f : Option File, t.node q = f.map .file ∧ (∀ g, f = some g → g.readable = true) ∧
    f.map (fun g => hashBytes sha256 g.content) = op.leaves
  leads : ∃ j, ws.join op.path = .ok j ∧ LeadsTo t j q
  changes : op.before ≠ op.leaves
  hashed : op.before ≠ some fileDeletedSentinel

theorem Applied.landed (h : Applied ws sha256 q op t t') :
    Landed ws sha256 q op t' ∧ (q ≠ [] → t.node q.tail = some .dir → SameBut q t t') := by
  have hleaves : ∀ {kind path before content},
      FileOp.leaves { kind, path, before, after := hashBytes sha256 content } =
        some (hashBytes sha256 content) := fun {_ _ _ _} =>
    if_neg (hashBytes_ne_sentinel sha256 _)
  cases h with
  | @create path content t t' hr hl h =>
    have hc := created hr hl h
    obtain ⟨j, hj, -, ns, p, d, k, hp, hq, hns, hw, hd, hclear⟩ := hc.leads
    have hleads : LeadsTo t' j q := by
      rw [hq]
      exact leadsTo_of_clear hp (hc.grows.walk hw) (hc.grows _ _ hd) hclear (hq ▸ hc.new)
    refine ⟨⟨mutation_ne_nil hc.new, dir_of_file hc.new, ⟨some _, hc.new, ?_, hleaves.symm⟩,
      ⟨j, hj, hleads⟩, by simp [hleaves], by simp⟩, fun hne hd => ?_⟩
    · rintro g ⟨⟩
      rfl
    · obtain ⟨-, hnode⟩ := createFile_in_dir hne hd h
      exact ⟨fun p hp => by rw [hnode, if_neg hp], hd⟩
  | @edit path content f t t' hr hs hread hne h =>
    obtain ⟨hnode, j, hj, hreal⟩ := node_of_stat hr hs
    have hq := mutation_ne_nil hnode
    have hd := dir_of_file hnode
    have hall : ∀ p, t'.node p = if p = q then some (.file { content, readable := true }) else t.node p := by
      cases q with
      | nil => exact absurd rfl hq
      | cons n d => exact replace_cons hd h
    have hsame : SameBut q t t' := ⟨fun p hp => by rw [hall, if_neg hp], hd⟩
    refine ⟨⟨hq, hsame.dir' hq, ⟨some { content, readable := true }, by simp [hall], ?_, hleaves.symm⟩,
      ⟨j, hj, (leadsTo_of_realpath hnode hreal).mono hsame⟩, ?_, ?_⟩, fun _ _ => hsame⟩
    · rintro g ⟨⟩
      rfl
    · rw [hleaves]
      exact fun heq => hne (Option.some.inj heq).symm
    · exact fun heq => hashBytes_ne_sentinel sha256 _ (Option.some.inj heq)
  | @delete path f before t t' hr hlink hs hb h =>
    obtain ⟨hnode, j, hj, hreal⟩ := node_of_stat hr hs
    have hq := mutation_ne_nil hnode
    have hd := dir_of_file hnode
    have hall : ∀ p, t'.node p = if p = q then none else t.node p := by
      cases q with
      | nil => exact absurd rfl hq
      | cons n d => exact unlink_cons hd h
    have hsame : SameBut q t t' := ⟨fun p hp => by rw [hall, if_neg hp], hd⟩
    have hbefore : before = some (hashBytes sha256 f.content) := by
      rw [hashFile, hs] at hb
      cases hread : f.readable with
      | true => simpa [hread] using hb.symm
      | false => simp [hread] at hb
    refine ⟨⟨hq, hsame.dir' hq, ⟨none, by simp [hall], by simp, rfl⟩,
      ⟨j, hj, (leadsTo_of_realpath hnode hreal).mono hsame⟩, ?_, ?_⟩, fun _ _ => hsame⟩
    · simp [hbefore, FileOp.leaves]
    · exact fun heq => hashBytes_ne_sentinel sha256 f.content (Option.some.inj (hbefore.symm.trans heq))

end

/-! ## A chain of mutations and its log -/

/-- A mutation with what the log has of it: a committed record, or a marker
that was kept. -/
structure LoggedOp extends FileOp where
  operationId : String
  requestId : String
  preparedAt : Nat
  committedAt : Option Nat
  deriving DecidableEq, Repr

namespace LoggedOp

def marker (op : LoggedOp) : PreparedRecord where
  operationId := op.operationId
  requestId := op.requestId
  kind := op.kind
  path := op.path
  beforeHash := op.before
  expectedAfterHash := op.after
  timestampMs := op.preparedAt

@[simp] theorem path_marker (op : LoggedOp) : op.marker.path = op.path := rfl
@[simp] theorem beforeHash_marker (op : LoggedOp) : op.marker.beforeHash = op.before := rfl
@[simp] theorem expectedAfterHash_marker (op : LoggedOp) : op.marker.expectedAfterHash = op.after := rfl

/-- What a start reads of the mutation. -/
def record (op : LoggedOp) : AnyOperationRecord :=
  match op.committedAt with
  | some now => .fs (committedFrom op.marker now)
  | none => .prepared op.marker

def time (op : LoggedOp) : Nat := op.committedAt.getD op.preparedAt

@[simp] theorem operationId_record (op : LoggedOp) : op.record.operationId = op.operationId := by
  unfold record
  split <;> rfl

@[simp] theorem timestampMs_record (op : LoggedOp) : op.record.timestampMs = op.time := by
  unfold record time
  split <;> simp_all [AnyOperationRecord.timestampMs, committedFrom, marker]

theorem isAborted_record (op : LoggedOp) : isAborted op.record = false := by
  unfold record
  split <;> rfl

end LoggedOp

/-- Mutations of one file, each applied to the tree that the one before it
left. -/
inductive Chain (ws : Workspace) (sha256 : Sha256) (q : Path) : Tree → List LoggedOp → Tree → Prop where
  | nil {t} : Chain ws sha256 q t [] t
  | cons {t t₁ t₂ op ops} (h : Applied ws sha256 q op.toFileOp t t₁) (hs : Chain ws sha256 q t₁ ops t₂) :
      Chain ws sha256 q t (op :: ops) t₂

/-- A log with these mutations in it, in their order, and with no other
operation whose outcome is open or which could be taken for a later one on a
path of theirs. -/
structure Logged (ops : List LoggedOp) (log : Records) : Prop where
  latest : ∀ op ∈ ops, latestRecord log op.operationId = some op.record
  clock : ops.Pairwise fun a b => a.time < b.time
  others : ∀ r ∈ loadRecords log, r ∉ ops.map LoggedOp.record → isPending r = false ∧
    ∀ f, r = .fs f → ∀ op ∈ ops, op.path = f.path → f.timestampMs < op.time

variable {ws : Workspace} {sha256 : Sha256} {q : Path} {t₀ t : Tree} {ops : List LoggedOp} {b : Start}

theorem Chain.split {A B : List LoggedOp} {op : LoggedOp} (h : Chain ws sha256 q t₀ (A ++ op :: B) t) :
    ∃ t₁ t₂, Applied ws sha256 q op.toFileOp t₁ t₂ ∧ Chain ws sha256 q t₂ B t := by
  induction A generalizing t₀ with
  | nil =>
    cases h with
    | cons h hs => exact ⟨_, _, h, hs⟩
  | cons a A ih =>
    cases h with
    | cons h hs => exact ih hs

theorem Chain.sameBut (hq : q ≠ []) (hd : t₀.node q.tail = some .dir) (h : Chain ws sha256 q t₀ ops t) :
    SameBut q t₀ t := by
  induction h with
  | nil => exact .refl hd
  | cons h _ ih =>
    have hs := h.landed.2 hq hd
    exact hs.trans (ih (hs.dir' hq))

/-- What the last tree of a chain shows of each of its mutations. -/
structure Chained (ws : Workspace) (sha256 : Sha256) (q : Path) (op : FileOp) (t : Tree)
    (file : Option File) : Prop where
  hash : ∀ abs, ws.resolve t op.path = .ok abs →
    hashFile sha256 t abs = .ok (file.map fun g => hashBytes sha256 g.content)
  changes : op.before ≠ op.leaves
  hashed : op.before ≠ some fileDeletedSentinel

theorem Chain.chained (h : Chain ws sha256 q t₀ ops t) (hne : ops ≠ []) :
    ∃ file : Option File,
      hashFile sha256 t q = .ok (file.map fun g => hashBytes sha256 g.content) ∧
        ∀ op ∈ ops, Chained ws sha256 q op.toFileOp t file := by
  obtain ⟨A, last, rfl⟩ : ∃ A last, ops = A ++ [last] :=
    ⟨_, _, (List.dropLast_append_getLast hne).symm⟩
  obtain ⟨t₁, t₂, happ, hend⟩ := h.split
  cases hend
  obtain ⟨hq, hdir, ⟨file, hfile, hread, -⟩, -, -, -⟩ := happ.landed.1
  refine ⟨file, ?_, fun op hop => ?_⟩
  · cases file with
    | none =>
      cases q with
      | nil => exact absurd rfl hq
      | cons n d => exact hashFile_of_noEntry (stat_of_none hdir hfile)
    | some f =>
      rw [hashFile, stat_of_node hfile (by simp)]
      simp [hread f rfl]
  · obtain ⟨C, D, hCD⟩ := List.append_of_mem hop
    rw [hCD] at h
    obtain ⟨t₁, t₂, happ', hD⟩ := h.split
    obtain ⟨-, hdir', -, ⟨j, hj, hleads⟩, hch, hh⟩ := happ'.landed.1
    exact ⟨fun abs habs => hashFile_of_leadsTo hleads hj (hD.sameBut hq hdir') hfile hread sha256 habs,
      hch, hh⟩

/-! ## What recovery reports -/

/-- Every marker that a recovery reported as dropped or as a conflict was
aborted by it. -/
def ActionsBacked (r : Recovery) : Prop := ∀ a ∈ r.actions, ∀ id,
  (a = .dropped id ∨ ∃ reason, a = .conflict id reason) → ∃ now, abortedLine id now ∈ r.appended

theorem ActionsBacked.append {r : Recovery} (h : ActionsBacked r) (l : LogLine) :
    ActionsBacked (r.append l) := fun a ha id hid =>
  let ⟨now, hnow⟩ := h a ha id hid
  ⟨now, List.mem_append_left _ hnow⟩

theorem ActionsBacked.act {r : Recovery} (h : ActionsBacked r) {a : RecoveryAction}
    (ha : ∀ id, (a = .dropped id ∨ ∃ reason, a = .conflict id reason) →
      ∃ now, abortedLine id now ∈ r.appended) : ActionsBacked (r.act a) := fun x hx id hid => by
  rcases List.mem_append.mp hx with hx | hx
  · exact h x hx id hid
  · rw [List.mem_singleton] at hx
    exact ha id (hx ▸ hid)

theorem ActionsBacked.recoverMarker {r r' : Recovery} {p : PreparedRecord} (h : ActionsBacked r)
    (hr : recoverMarker ws sha256 t b r p = .ok r') : ActionsBacked r' := by
  have haborted : ∀ now, abortedLine p.operationId now ∈ (r.abortPrepared now p.operationId).appended :=
    fun now => List.mem_append_right _ (List.mem_singleton.mpr rfl)
  have hkeep : ∀ now reason, ActionsBacked ((r.resolveAsConflict now p reason).act
      (.conflict p.operationId reason)) ∧ ActionsBacked ((r.resolveAsConflict now p "recovery conflict").act
      (.conflict p.operationId reason)) := fun now reason => by
    constructor <;>
    · refine ((h.append _).append _).act fun id hid => ?_
      simp only [reduceCtorEq, RecoveryAction.conflict.injEq, false_or] at hid
      obtain ⟨_, rfl, -⟩ := hid
      exact ⟨now, List.mem_append_left _ (haborted now)⟩
  unfold RemoteWorkspace.recoverMarker at hr
  split at hr
  · cases hr
    exact (hkeep _ _).2
  · split at hr
    · cases hr
    · cases hr
      unfold Recovery.resolveAs
      split
      · refine (h.append _).act fun id hid => ?_
        simp only [RecoveryAction.dropped.injEq, reduceCtorEq, exists_false, or_false] at hid
        subst hid
        exact ⟨_, haborted _⟩
      · exact ((h.append _).append _).act fun id hid => by simp at hid
      · exact (hkeep _ _).1

theorem ActionsBacked.recoverRequest {r : Recovery} (h : ActionsBacked r) (q : String × RequestEntry) :
    ActionsBacked (recoverRequest r q) := by
  unfold RemoteWorkspace.recoverRequest
  split
  · exact (h.append _).act fun id hid => by simp at hid
  · split
    · exact (h.append _).act fun id hid => by simp at hid
    · split
      · exact (h.append _).act fun id hid => by simp at hid
      · exact ActionsBacked.act h fun id hid => by simp at hid

theorem actionsBacked_of_recover {s : OperationStore} {r : Recovery}
    (h : recover ws sha256 t b s = .ok r) : ActionsBacked r := by
  have hmarkers : ∀ (ps : List PreparedRecord) {r r' : Recovery}, ActionsBacked r →
      ps.foldlM (recoverMarker ws sha256 t b) r = .ok r' → ActionsBacked r' := by
    intro ps
    induction ps with
    | nil =>
      intro r r' hr h
      cases h
      exact hr
    | cons p ps ih =>
      intro r r' hr h
      rw [List.foldlM_cons] at h
      cases h₁ : recoverMarker ws sha256 t b r p with
      | error e => rw [h₁] at h; cases h
      | ok r₁ =>
        rw [h₁] at h
        exact ih (hr.recoverMarker h₁) h
  have hrequests : ∀ (qs : Requests) {r : Recovery}, ActionsBacked r →
      ActionsBacked (qs.foldl recoverRequest r) := by
    intro qs
    induction qs with
    | nil => exact fun h => h
    | cons q qs ih => exact fun h => ih (h.recoverRequest q)
  unfold recover at h
  cases hm : recoverMarkers ws sha256 t b s with
  | error e => rw [hm] at h; cases h
  | ok r₁ =>
    rw [hm] at h
    cases h
    exact hrequests _ (hmarkers _ (fun a ha => by cases ha) hm)

theorem mem_resolutions {b : Start} {l : LogLine} {vs : List (PreparedRecord × RecoveryOutcome)} {n : Nat}
    (h : l ∈ resolutions b n vs) : ∃ x ∈ vs, ∃ now, l ∈ resolution now x.1 x.2 := by
  induction vs generalizing n with
  | nil => cases h
  | cons x vs ih =>
    rcases List.mem_append.mp h with h | h
    · exact ⟨x, List.mem_cons_self, _, h⟩
    · obtain ⟨y, hy, now, hl⟩ := ih h
      exact ⟨y, List.mem_cons_of_mem _ hy, now, hl⟩

theorem resolution_mem_resolutions {b : Start} {x : PreparedRecord × RecoveryOutcome}
    {vs : List (PreparedRecord × RecoveryOutcome)} (hx : x ∈ vs) (n : Nat) :
    ∃ now, ∀ l ∈ resolution now x.1 x.2, l ∈ resolutions b n vs := by
  induction vs generalizing n with
  | nil => cases hx
  | cons y vs ih =>
    rcases List.mem_cons.mp hx with rfl | hx
    · exact ⟨_, fun l hl => List.mem_append_left _ hl⟩
    · obtain ⟨now, h⟩ := ih hx _
      exact ⟨now, fun l hl => List.mem_append_right _ (h l hl)⟩

theorem operation_not_mem_stuckLines {rs : Records} {qs : Requests} {r : AnyOperationRecord} :
    LogLine.operation r ∉ qs.flatMap (stuckLines rs) := by
  rw [List.mem_flatMap]
  rintro ⟨q, -, h⟩
  unfold stuckLines at h
  repeat' split at h
  all_goals simp [resultLine, errorLine] at h

/-- That a recovery commits every marker which these mutations kept, aborts
none and reports no conflict for one. -/
def KeptRecovered (ops : List LoggedOp) (r : Recovery) : Prop :=
  ∀ op ∈ ops, op.committedAt = none →
    (∃ now, .operation (.fs (committedFrom op.marker now)) ∈ r.appended) ∧
      (∀ now, abortedLine op.operationId now ∉ r.appended) ∧
      ∀ a ∈ r.actions, a ≠ .dropped op.operationId ∧ ∀ reason, a ≠ .conflict op.operationId reason

/-- A kept marker is recovered exactly if its verdict is that it committed. -/
theorem keptRecovered_iff {seen : String → Option (Option String)} {s : OperationStore} {r : Recovery}
    (hd : DistinctIds s.records) (h : Recovered seen b s r) (hact : ActionsBacked r)
    (hops : ∀ op ∈ ops, op.record ∈ s.records) : KeptRecovered ops r ↔
      ∀ op ∈ ops, op.committedAt = none → (op.marker, .committed) ∈ (settle seen s.records).verdicts := by
  obtain ⟨qs, -, -, happ⟩ := h.appended
  have hunique : ∀ {x y}, x ∈ (settle seen s.records).verdicts → y ∈ (settle seen s.records).verdicts →
      x.1.operationId = y.1.operationId → x = y := fun hx hy heq =>
    List.inj_on_of_nodup_map (nodup_verdict_ids hd) hx hy heq
  have hline : ∀ {rec : AnyOperationRecord}, .operation rec ∈ r.appended →
      ∃ x ∈ (settle seen s.records).verdicts, ∃ now, .operation rec ∈ resolution now x.1 x.2 := by
    intro rec hrec
    rw [happ, List.mem_append] at hrec
    exact mem_resolutions (hrec.resolve_right operation_not_mem_stuckLines)
  constructor
  · intro hk op hop hkept
    obtain ⟨⟨now, hnow⟩, -, -⟩ := hk op hop hkept
    obtain ⟨⟨p, v⟩, hx, now', hl⟩ := hline hnow
    have hrec : .prepared op.marker ∈ s.records := by
      simpa [LoggedOp.record, hkept] using hops op hop
    obtain ⟨w, hw⟩ := exists_verdict_of_marker seen hrec
    cases v with
    | committed =>
      have hid : p.operationId = op.marker.operationId := by
        simp [resolution, resultLine, committedFrom] at hl
        exact hl.1.symm
      exact (Prod.mk.inj (hunique hx hw hid)).1 ▸ hx
    | noOp => simp [resolution, abortedLine] at hl
    | conflict reason => simp [resolution, abortedLine, errorLine] at hl
  · intro hv op hop hkept
    have hx := hv op hop hkept
    have hnot : ∀ now, abortedLine op.operationId now ∉ r.appended := by
      intro now hnow
      obtain ⟨⟨p, v⟩, hy, now', hl⟩ := hline hnow
      have hpv : v ≠ .committed ∧ p.operationId = op.operationId := by
        cases v <;> simp_all [resolution, abortedLine, errorLine, resultLine]
      have := hunique hy hx hpv.2
      simp_all
    refine ⟨?_, hnot, fun a ha => ⟨?_, ?_⟩⟩
    · obtain ⟨now, hmem⟩ := resolution_mem_resolutions (b := b) hx 0
      refine ⟨now, ?_⟩
      rw [happ]
      exact List.mem_append_left _ (hmem _ (by simp [resolution]))
    · rintro rfl
      obtain ⟨now, hnow⟩ := hact _ ha _ (.inl rfl)
      exact hnot now hnow
    · rintro reason rfl
      obtain ⟨now, hnow⟩ := hact _ ha _ (.inr ⟨_, rfl⟩)
      exact hnot now hnow

/-! ## Which markers are recognised -/

theorem hash_ne_sentinel (sha256 : Sha256) (file : Option File) :
    file.map (fun g => hashBytes sha256 g.content) ≠ some fileDeletedSentinel := by
  cases file with
  | none => simp
  | some f => exact fun h => hashBytes_ne_sentinel sha256 f.content (Option.some.inj h)

theorem continues_marker {op : LoggedOp} {f : FsOperationRecord}
    (hf : f.beforeHash ≠ some fileDeletedSentinel) :
    continues op.marker (.fs f) = true ↔ f.path = op.path ∧ f.beforeHash = op.leaves := by
  rw [continues, Bool.and_eq_true, decide_eq_true_eq]
  refine and_congr_right fun _ => ?_
  cases hb : f.beforeHash with
  | none =>
    change decide (op.after = fileDeletedSentinel) = true ↔ none = op.leaves
    rw [decide_eq_true_eq, FileOp.leaves]
    split <;> simp_all
  | some before =>
    change decide (before = op.after) = true ↔ some before = op.leaves
    rw [hb] at hf
    rw [decide_eq_true_eq, FileOp.leaves]
    split <;> simp_all

theorem judge_committed_iff {op : LoggedOp} {file : Option File} (h : op.before ≠ op.leaves) (c : Bool) :
    judge c op.marker (file.map fun g => hashBytes sha256 g.content) = .committed ↔
      c = true ∨ (file.map fun g => hashBytes sha256 g.content) = op.leaves := by
  have hs := hash_ne_sentinel sha256 file
  generalize (file.map fun g => hashBytes sha256 g.content) = current at hs ⊢
  cases c with
  | true => simp [judge]
  | false =>
    simp only [judge, LoggedOp.beforeHash_marker, LoggedOp.expectedAfterHash_marker, FileOp.leaves,
      Bool.false_eq_true, if_false, false_or] at h ⊢
    by_cases ha : op.after = fileDeletedSentinel
    · cases current <;> simp_all
      split <;> simp_all
    · cases current <;> simp_all <;> split <;> simp_all

/-- Through what recovery can tell that a mutation landed: its path resolves,
and either a later mutation named the file by the same text and started from
its result, or the file still is as it left it. -/
def Recognised (ws : Workspace) (sha256 : Sha256) (q : Path) (t : Tree) (ops : List LoggedOp)
    (op : LoggedOp) : Prop :=
  (∃ abs, ws.resolve t op.path = .ok abs) ∧
    ((∃ A B, ops = A ++ op :: B ∧ ∃ later ∈ B, later.path = op.path ∧ later.before = op.leaves) ∨
      hashFile sha256 t q = .ok op.leaves)

theorem verdict_committed_iff {op : LoggedOp} {file : Option File}
    (h : Chained ws sha256 q op.toFileOp t file) (c : Bool) :
    verdict (seenAt ws sha256 t op.path) c op.marker = .committed ↔
      (∃ abs, ws.resolve t op.path = .ok abs) ∧
        (c = true ∨ (file.map fun g => hashBytes sha256 g.content) = op.leaves) := by
  unfold seenAt
  cases hr : ws.resolve t op.path with
  | error e => simp [verdict]
  | ok abs =>
    simp only [h.hash abs hr, verdict, Except.ok.injEq, exists_eq', true_and]
    exact judge_committed_iff h.changes c

theorem after_of_time {op later : LoggedOp} (hclock : ops.Pairwise fun a b => a.time < b.time)
    (hop : op ∈ ops) (hl : later ∈ ops) (ht : op.time ≤ later.time) (hne : later ≠ op) :
    ∃ A B, ops = A ++ op :: B ∧ later ∈ B := by
  obtain ⟨A, B, rfl⟩ := List.append_of_mem hop
  refine ⟨A, B, rfl, ?_⟩
  rcases List.mem_append.mp hl with hA | hB
  · have := (List.pairwise_append.mp hclock).2.2 later hA op List.mem_cons_self
    omega
  · exact (List.mem_cons.mp hB).resolve_left hne

variable {log : Records}

theorem mem_of_logged (h : Logged ops log) {op : LoggedOp} (hop : op ∈ ops) :
    op.record ∈ loadRecords log :=
  mem_loadRecords.mpr ⟨by simpa using h.latest op hop, op.isAborted_record⟩

theorem marker_of_logged (h : Logged ops log) {p : PreparedRecord} (hp : .prepared p ∈ loadRecords log) :
    ∃ op ∈ ops, op.committedAt = none ∧ p = op.marker := by
  by_cases hmem : .prepared p ∈ ops.map LoggedOp.record
  · obtain ⟨op, hop, heq⟩ := List.mem_map.mp hmem
    unfold LoggedOp.record at heq
    split at heq
    · cases heq
    · cases heq
      exact ⟨op, hop, ‹_›, rfl⟩
  · have := (h.others _ hp hmem).1
    cases this

/-- A committed or recovered mutation of the chain, as a record that another
marker may be continued by. -/
theorem fs_of_settled (h : Logged ops log) {seen : String → Option (Option String)} {A B : Records}
    {op : LoggedOp} (hop : op ∈ ops) (hrs : loadRecords log = A ++ .prepared op.marker :: B)
    {f : FsOperationRecord} (hf : .fs f ∈ (settle seen B).records) (hpath : f.path = op.path)
    (hkept : op.committedAt = none) :
    ∃ later ∈ ops, op.time ≤ later.time ∧ later ≠ op ∧ ∃ now, f = committedFrom later.marker now := by
  have hd := distinct_loadRecords log
  have holder := loadRecords_older log
  rw [hrs] at hd holder
  have hafter : ∀ y ∈ B, OlderRecord (.prepared op.marker) y :=
    (List.pairwise_cons.mp (List.pairwise_append.mp holder).2.1).1
  have htime : op.time = op.preparedAt := by simp [LoggedOp.time, hkept]
  rcases mem_settle seen |>.mp hf with ⟨hB, -⟩ | ⟨p, hp, heq⟩
  · have hmem : .fs f ∈ loadRecords log := by
      rw [hrs]
      exact List.mem_append_right _ (List.mem_cons_of_mem _ hB)
    have hle : op.time ≤ f.timestampMs := by
      rw [htime]
      rcases hafter _ hB with hlt | ⟨heq, -⟩
      · exact Nat.le_of_lt hlt
      · exact Nat.le_of_eq heq
    by_cases hin : .fs f ∈ ops.map LoggedOp.record
    · obtain ⟨later, hl, heq⟩ := List.mem_map.mp hin
      have hts : later.time = f.timestampMs := by
        rw [← later.timestampMs_record, heq]
        rfl
      unfold LoggedOp.record at heq
      split at heq
      · rename_i now hc
        refine ⟨later, hl, hts ▸ hle, ?_, now, (AnyOperationRecord.fs.inj heq).symm⟩
        rintro rfl
        rw [hkept] at hc
        cases hc
      · cases heq
    · have := (h.others _ hmem hin).2 f rfl op hop hpath.symm
      omega
  · have hB : .prepared p ∈ B := mem_markersOf_of_verdict hp
    have hmem : .prepared p ∈ loadRecords log := by
      rw [hrs]
      exact List.mem_append_right _ (List.mem_cons_of_mem _ hB)
    obtain ⟨later, hl, hc, rfl⟩ := marker_of_logged h hmem
    refine ⟨later, hl, ?_, ?_, 0, AnyOperationRecord.fs.inj heq⟩
    · rw [htime]
      have : later.time = later.preparedAt := by simp [LoggedOp.time, hc]
      rw [this]
      rcases hafter _ hB with hlt | ⟨heq, -⟩
      · exact Nat.le_of_lt hlt
      · exact Nat.le_of_eq heq
    · rintro rfl
      exact Keyed.Older.irrefl (hafter _ hB)

/-- If every kept marker is recognised, each gets the verdict that it
committed: the newer ones have theirs when an older one needs them. -/
theorem committed_of_recognised (h : Logged ops log) {file : Option File}
    (hfile : hashFile sha256 t q = .ok (file.map fun g => hashBytes sha256 g.content))
    (hch : ∀ op ∈ ops, Chained ws sha256 q op.toFileOp t file)
    (hrec : ∀ op ∈ ops, op.committedAt = none → Recognised ws sha256 q t ops op) (B : Records) :
    ∀ A, loadRecords log = A ++ B → ∀ x ∈ (settle (seenAt ws sha256 t) B).verdicts, x.2 = .committed := by
  induction B with
  | nil =>
    intro A _ x hx
    cases hx
  | cons r B ih =>
    intro A hrs x hx
    have ih := ih (A ++ [r]) (by simpa using hrs)
    cases hr : isPending r with
    | false =>
      rw [settle_cons_of_not_pending hr] at hx
      exact ih x hx
    | true =>
      cases r with
      | prepared p =>
        simp only [settle, List.mem_append, List.mem_singleton] at hx
        rcases hx with hx | rfl
        · exact ih x hx
        obtain ⟨op, hop, hkept, rfl⟩ := marker_of_logged h (p := p) (by rw [hrs]; simp)
        obtain ⟨hres, hcase⟩ := hrec op hop hkept
        refine (verdict_committed_iff (hch op hop) _).mpr ⟨hres, ?_⟩
        rcases hcase with ⟨C, D, hCD, later, hl, hpath, hbefore⟩ | hnow
        · left
          have hlater : later ∈ ops := by
            rw [hCD]
            exact List.mem_append_right _ (List.mem_cons_of_mem _ hl)
          have htime : op.time < later.time := by
            have := h.clock
            rw [hCD] at this
            exact (List.pairwise_cons.mp (List.pairwise_append.mp this).2.1).1 later hl
          have hB : later.record ∈ B := by
            have hmem := mem_of_logged h hlater
            have holder := loadRecords_older log
            rw [hrs] at hmem holder
            have hop_time : op.time = op.preparedAt := by simp [LoggedOp.time, hkept]
            rcases List.mem_append.mp hmem with hA | hB
            · have := (List.pairwise_append.mp holder).2.2 _ hA _ List.mem_cons_self
              exfalso
              rcases this with hlt | ⟨heq, -⟩
              · rw [LoggedOp.timestampMs_record] at hlt
                change later.time < op.preparedAt at hlt
                omega
              · rw [LoggedOp.timestampMs_record] at heq
                change later.time = op.preparedAt at heq
                omega
            · rcases List.mem_cons.mp hB with heq | hB
              · have := congrArg AnyOperationRecord.timestampMs heq
                rw [LoggedOp.timestampMs_record] at this
                change later.time = op.preparedAt at this
                omega
              · exact hB
          have hcont : ∀ now, continues op.marker (.fs (committedFrom later.marker now)) = true :=
            fun now => (continues_marker (hch later hlater).hashed).mpr ⟨hpath, hbefore⟩
          rw [List.any_eq_true]
          cases hc : later.committedAt with
          | some now =>
            refine ⟨_, (mem_settle _).mpr (.inl ⟨hB, ?_⟩), ?_⟩
            · simp [LoggedOp.record, hc, isPending]
            · simpa [LoggedOp.record, hc] using hcont now
          | none =>
            have hm : .prepared later.marker ∈ B := by simpa [LoggedOp.record, hc] using hB
            obtain ⟨v, hv⟩ := exists_verdict_of_marker (seenAt ws sha256 t) hm
            have : v = .committed := ih _ hv
            exact ⟨_, (mem_settle _).mpr (.inr ⟨later.marker, this ▸ hv, rfl⟩), hcont 0⟩
        · right
          rw [hfile] at hnow
          exact Except.ok.inj hnow
      | _ => cases hr

/-- Every marker that a chain of mutations kept is recovered exactly if each
of them is recognised. -/
theorem landed_recovered_iff (hc : Chain ws sha256 q t₀ ops t) {d : LogDir} {s : OperationStore}
    (hs : OperationStore.new d = .ok s) (hlog : d.operations.read = some log) (h : Logged ops log) :
    ∃ r, recover ws sha256 t b s = .ok r ∧ (KeptRecovered ops r ↔
      ∀ op ∈ ops, op.committedAt = none → Recognised ws sha256 q t ops op) := by
  obtain ⟨counter, operations, requests, hload, rfl⟩ := OperationStore.new_eq_ok.mp hs
  have hops := hload.operations
  rw [hlog, Option.some.injEq] at hops
  subst hops
  have hd : DistinctIds (loadRecords log) := distinct_loadRecords _
  have hq : DistinctRequests (loadRequests requests) := distinct_loadRequests _
  rcases List.eq_nil_or_concat ops with rfl | ⟨_, last, hconcat⟩
  · have hread : ∀ p ∈ markersOf (loadRecords log), Readable ws sha256 t p.path := fun p hp => by
      obtain ⟨op, hop, -⟩ := marker_of_logged h (mem_markersOf.mp hp)
      cases hop
    obtain ⟨r, hr, -⟩ := recover_spec (b := b) (s := .loaded d counter log requests) hd hq hread
    exact ⟨r, hr, by simp [KeptRecovered]⟩
  obtain ⟨file, hfile, hch⟩ := hc.chained (by rw [hconcat]; simp)
  have hread : ∀ p ∈ markersOf (loadRecords log), Readable ws sha256 t p.path := fun p hp => by
    obtain ⟨op, hop, -, rfl⟩ := marker_of_logged h (mem_markersOf.mp hp)
    exact fun abs habs => ⟨_, (hch op hop).hash abs habs⟩
  obtain ⟨r, hr, hspec⟩ := recover_spec (b := b) (s := .loaded d counter log requests) hd hq hread
  refine ⟨r, hr, ?_⟩
  rw [keptRecovered_iff hd hspec (actionsBacked_of_recover hr) fun op hop => mem_of_logged h hop]
  constructor
  · intro hv op hop hkept
    have hmem : .prepared op.marker ∈ loadRecords log := by
      simpa [LoggedOp.record, hkept] using mem_of_logged h hop
    obtain ⟨A, B, hrs⟩ := List.append_of_mem hmem
    have hx := hv op hop hkept
    have hown : (op.marker, verdict (seenAt ws sha256 t op.path)
        ((settle (seenAt ws sha256 t) B).records.any (continues op.marker)) op.marker) ∈
        (settle (seenAt ws sha256 t) (loadRecords log)).verdicts :=
      mem_verdicts_iff.mpr ⟨A, B, hrs, rfl⟩
    have heq := List.inj_on_of_nodup_map (nodup_verdict_ids hd) hown hx rfl
    obtain ⟨hres, hcase⟩ := (verdict_committed_iff (hch op hop) _).mp (Prod.mk.inj heq).2
    refine ⟨hres, ?_⟩
    rcases hcase with hany | hnow
    · left
      obtain ⟨y, hy, hcont⟩ := List.any_eq_true.mp hany
      cases y with
      | fs f =>
        have hpath : f.path = op.path := by
          simp only [continues, Bool.and_eq_true, decide_eq_true_eq] at hcont
          exact hcont.1
        obtain ⟨later, hl, htime, hne, now, rfl⟩ := fs_of_settled h hop hrs hy hpath hkept
        obtain ⟨C, D, hCD, hD⟩ := after_of_time h.clock hop hl htime hne
        exact ⟨C, D, hCD, later, hD, (continues_marker (hch later hl).hashed).mp hcont⟩
      | _ => cases hcont
    · right
      rw [hfile, hnow]
  · intro hrec op hop hkept
    have hmem : .prepared op.marker ∈ loadRecords log := by
      simpa [LoggedOp.record, hkept] using mem_of_logged h hop
    obtain ⟨v, hv⟩ := exists_verdict_of_marker (seenAt ws sha256 t) hmem
    have : v = .committed := committed_of_recognised h hfile hch hrec _ [] rfl _ hv
    exact this ▸ hv

/-! ## One file under two names -/

/-- A tree with an empty workspace. -/
def rootOnly : Tree := FileTree.Tree.bare.set ["ws"] (some .dir) (FileTree.Tree.settable_bare "ws")

def emptyFile : File := { content := [], readable := true }

def rootAndFile : Tree := rootOnly.set ["f", "ws"] (some (.file emptyFile)) rfl

def fileRemoved : Tree := rootAndFile.set ["f", "ws"] none rfl

/-- A `create` whose commit line failed. -/
def createdF : LoggedOp where
  kind := .create
  path := "f"
  before := none
  after := hashBytes zeroDigest []
  operationId := "op-1"
  requestId := "r1"
  preparedAt := 1
  committedAt := none

/-- A `delete` of the same file, written otherwise. -/
def deletedF : LoggedOp where
  kind := .delete
  path := "./f"
  before := some (hashBytes zeroDigest [])
  after := fileDeletedSentinel
  operationId := "op-2"
  requestId := "r2"
  preparedAt := 2
  committedAt := some 3

def twoNamesLog : Records :=
  [.prepared createdF.marker, .prepared deletedF.marker, deletedF.record]

def twoNamesDir : LogDir := { LogDir.empty with operations := .ofRecords twoNamesLog }

theorem twoNames_chain :
    Chain emptyWorkspace zeroDigest ["f", "ws"] rootOnly [createdF, deletedF] fileRemoved := by
  have hcreate : Applied emptyWorkspace zeroDigest ["f", "ws"] createdF.toFileOp rootOnly rootAndFile :=
    .create rfl rfl rfl
  have hdelete : Applied emptyWorkspace zeroDigest ["f", "ws"] deletedF.toFileOp rootAndFile fileRemoved :=
    .delete (f := emptyFile) rfl rfl rfl rfl rfl
  exact .cons hcreate (.cons hdelete .nil)

theorem twoNames_logged : Logged [createdF, deletedF] twoNamesLog where
  latest := by decide
  clock := by decide
  others r hr hnot := by
    have hall : ∀ r ∈ loadRecords twoNamesLog, r ∈ [createdF, deletedF].map LoggedOp.record := by decide
    exact absurd (hall r hr) hnot

theorem landed_recovered_iff_twoNames : ∃ s r, OperationStore.new twoNamesDir = .ok s ∧
    recover emptyWorkspace zeroDigest fileRemoved plainStart s = .ok r ∧
    (KeptRecovered [createdF, deletedF] r ↔ ∀ op ∈ [createdF, deletedF], op.committedAt = none →
      Recognised emptyWorkspace zeroDigest ["f", "ws"] fileRemoved [createdF, deletedF] op) := by
  obtain ⟨r, hr, hiff⟩ :=
    landed_recovered_iff (b := plainStart) twoNames_chain (d := twoNamesDir) rfl rfl twoNames_logged
  exact ⟨_, r, rfl, hr, hiff⟩

/-- The create landed, and the delete that followed it shows that; but it
named the file otherwise, and the file being gone reads as if the create had
never been. -/
theorem created_under_other_name_dropped :
    Chain emptyWorkspace zeroDigest ["f", "ws"] rootOnly [createdF, deletedF] fileRemoved ∧
    Logged [createdF, deletedF] twoNamesLog ∧
    ∃ s r, OperationStore.new twoNamesDir = .ok s ∧
      recover emptyWorkspace zeroDigest fileRemoved plainStart s = .ok r ∧
      r.actions = [.dropped "op-1"] ∧ ¬ KeptRecovered [createdF, deletedF] r := by
  refine ⟨twoNames_chain, twoNames_logged, _, _, rfl, rfl, by decide, fun h => ?_⟩
  exact ((h createdF (by decide) rfl).2.2 (.dropped "op-1") (by decide)).1 rfl

end RemoteWorkspace
