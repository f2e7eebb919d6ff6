import RemoteWorkspace.Store.Landed

/-!
# What a prune does to the evidence for a marker

`prune` keeps every marker, but it removes committed records by their age
alone, and `continued_from` may need one of them to see that an older marker
landed. `prune_keeps_verdicts_iff` says that the verdicts on the markers survive
a prune exactly if what the later records show (`Shown`) does.
-/

namespace RemoteWorkspace

open Keyed

section

variable (ws : Workspace) (sha256 : Sha256) (t : Tree)

/-- That a prune, however it ends, leaves every marker the verdict which a
restart and a recovery would have given it. -/
def PruneKeepsVerdicts (s : OperationStore) (keep : Nat) : Prop :=
  ∀ o s₁ s₂ b₁ b₂ r₁ r₂, OperationStore.new s.dir = .ok s₁ →
    OperationStore.new (s.prune keep o).2.dir = .ok s₂ →
    recover ws sha256 t b₁ s₁ = .ok r₁ → recover ws sha256 t b₂ s₂ = .ok r₂ →
    ∀ p, .prepared p ∈ s₁.records → .prepared p ∈ s₂.records →
      r₁.verdictOn p.operationId = r₂.verdictOn p.operationId

variable {ws sha256 t} {s s₁ : OperationStore} {keep : Nat}

/-- The operations that a start reads after a prune. -/
theorem records_after_prune {o : PruneOutcomes} {s₂ : OperationStore} (hs : OperationStore.new s.dir = .ok s₁)
    (hs₂ : OperationStore.new (s.prune keep o).2.dir = .ok s₂) :
    s₂.records = s₁.records ∨ s₂.records = loadRecords (keptRecords keep s.records) := by
  obtain ⟨counter, operations, requests, hl, rfl⟩ := OperationStore.new_eq_ok.mp hs
  obtain ⟨counter', operations', requests', hl', rfl⟩ := OperationStore.new_eq_ok.mp hs₂
  have hops := hl'.operations
  obtain ⟨n, hn, hdir⟩ := s.prune_dir keep o
  rw [hdir] at hops
  have hcases : (s.pruneCut keep n).operations = s.dir.operations ∨
      (s.pruneCut keep n).operations = .ofRecords (keptRecords keep s.records) := by
    unfold OperationStore.pruneCut
    split
    · exact .inl rfl
    · exact .inl rfl
    · exact .inr rfl
    · exact .inr rfl
  rcases hcases with h | h
  · rw [h, hl.operations] at hops
    exact .inl (congrArg loadRecords (Option.some.inj hops).symm)
  · rw [h, LogFile.read_ofRecords] at hops
    exact .inr (congrArg loadRecords (Option.some.inj hops).symm)

/-- A store whose id counter is a `u64` starts again after a prune. -/
theorem new_after_prune (keep : Nat) (hn : s.nextId < u64Bound) : ∃ s₂,
    OperationStore.new (s.prune keep .allDone).2.dir = .ok s₂ ∧
      s₂.records = loadRecords (keptRecords keep s.records) := by
  have hl : Loads (s.pruneCut keep 3) s.nextId (keptRecords keep s.records)
      ((keptRequests (keptRecords keep s.records) s.requests).map fun q => q.2.line q.1) :=
    ⟨counterNumber_counterText hn, LogFile.read_ofRecords _, LogFile.read_ofRecords _⟩
  exact ⟨_, OperationStore.new_of_loads hl, rfl⟩

theorem verdictAction_inj {seen : String → Option (Option String)} {p : PreparedRecord}
    {v w : RecoveryOutcome} (hv : v = .committed ∨ v = aloneVerdict seen p)
    (hw : w = .committed ∨ w = aloneVerdict seen p) :
    verdictAction seen (p, v) = verdictAction seen (p, w) ↔ v = w := by
  refine ⟨fun h => ?_, fun h => h ▸ rfl⟩
  rcases hv with rfl | rfl
  · rcases hw with rfl | rfl
    · rfl
    · cases ha : aloneVerdict seen p <;> rw [ha] at h <;> first | rfl | cases h
  · rcases hw with rfl | rfl
    · cases ha : aloneVerdict seen p <;> rw [ha] at h <;> first | rfl | cases h
    · rfl

/-- A prune keeps the verdicts exactly if recovery fails on an unreadable file,
with the prune or without it, or for each marker that its own file does not
show to have landed the records that the prune keeps show what those of the log
do. -/
theorem prune_keeps_verdicts_iff (hs : OperationStore.new s.dir = .ok s₁) (hn : s.nextId < u64Bound) :
    PruneKeepsVerdicts ws sha256 t s keep ↔
      (∃ p, (.prepared p ∈ s₁.records ∨ .prepared p ∈ loadRecords (keptRecords keep s.records)) ∧
        ¬ Readable ws sha256 t p.path) ∨
      ∀ p, .prepared p ∈ s₁.records → .prepared p ∈ loadRecords (keptRecords keep s.records) →
        seenAt ws sha256 t p.path ≠ none → aloneVerdict (seenAt ws sha256 t) p ≠ .committed →
        (Shown (seenAt ws sha256 t) s₁.records p ↔
          Shown (seenAt ws sha256 t) (loadRecords (keptRecords keep s.records)) p) := by
  obtain ⟨hd₁, hq₁⟩ := distinct_of_new hs
  constructor
  · intro h
    obtain ⟨s₂, hs₂, hrecords₂⟩ := new_after_prune keep hn
    obtain ⟨hd₂, hq₂⟩ := distinct_of_new hs₂
    by_cases hread : ∀ p, (.prepared p ∈ s₁.records ∨ .prepared p ∈ s₂.records) → Readable ws sha256 t p.path
    · refine .inr fun p hp₁ hp₂ => ?_
      rw [← hrecords₂] at hp₂ ⊢
      obtain ⟨r₁, hr₁, -⟩ := recover_spec (b := plainStart) hd₁ hq₁ fun p hp =>
        hread p (.inl (mem_markersOf.mp hp))
      obtain ⟨r₂, hr₂, -⟩ := recover_spec (b := plainStart) hd₂ hq₂ fun p hp =>
        hread p (.inr (mem_markersOf.mp hp))
      obtain ⟨v, hv⟩ := exists_verdict_of_marker (seenAt ws sha256 t) hp₁
      obtain ⟨w, hw⟩ := exists_verdict_of_marker (seenAt ws sha256 t) hp₂
      have hsame := h _ _ _ _ _ _ _ hs hs₂ hr₁ hr₂ p hp₁ hp₂
      rw [verdictOn_of_recover hd₁ hr₁ hv, verdictOn_of_recover hd₂ hr₂ hw, Option.some.injEq,
        verdictAction_inj (committed_or_alone hv) (committed_or_alone hw)] at hsame
      exact (verdicts_agree_iff (older_of_new hs) (older_of_new hs₂) hv hw).mp hsame
    · obtain ⟨p, hp⟩ := not_forall.mp hread
      obtain ⟨hp, hunreadable⟩ := Classical.not_imp.mp hp
      exact .inl ⟨p, hrecords₂ ▸ hp, hunreadable⟩
  · intro h o s₁' s₂ b₁ b₂ r₁ r₂ hs' hs₂ hr₁ hr₂ p hp₁ hp₂
    cases hs.symm.trans hs'
    obtain ⟨hd₂, hq₂⟩ := distinct_of_new hs₂
    obtain ⟨v, hv⟩ := exists_verdict_of_marker (seenAt ws sha256 t) hp₁
    obtain ⟨w, hw⟩ := exists_verdict_of_marker (seenAt ws sha256 t) hp₂
    rw [verdictOn_of_recover hd₁ hr₁ hv, verdictOn_of_recover hd₂ hr₂ hw, Option.some.injEq,
      verdictAction_inj (committed_or_alone hv) (committed_or_alone hw),
      verdicts_agree_iff (older_of_new hs) (older_of_new hs₂) hv hw]
    rcases records_after_prune hs hs₂ with hrecords | hrecords
    · intro _ _
      rw [hrecords]
    · rcases h with ⟨q, hq, hunreadable⟩ | h
      · refine absurd ?_ hunreadable
        rcases hq with hq | hq
        · exact readable_of_recover hr₁ q (mem_markersOf.mpr hq)
        · exact readable_of_recover hr₂ q (mem_markersOf.mpr (hrecords ▸ hq))
      · rw [hrecords] at hp₂ ⊢
        exact h p hp₁ hp₂

end

/-! ## An edit that showed a create to have landed -/

/-- A `create` that landed and whose commit line failed. -/
def createdBeforeEdit : PreparedRecord where
  operationId := "op-1"
  requestId := "r1"
  kind := .create
  path := "f"
  beforeHash := none
  expectedAfterHash := "sha256:aa"
  timestampMs := 1

def editAfterCreate : FsOperationRecord where
  operationId := "op-2"
  requestId := "r2"
  kind := .edit
  path := "f"
  beforeHash := some "sha256:aa"
  afterHash := hashBytes zeroDigest []
  timestampMs := 2

/-- The store that has served both. -/
def createdThenEdited : OperationStore where
  dir := { LogDir.empty with
    operations := .ofRecords [.prepared createdBeforeEdit, .fs editAfterCreate] }
  nextId := 2
  records := [.prepared createdBeforeEdit, .fs editAfterCreate]
  requests := []
  logTorn := false

theorem prune_keeps_verdicts_iff_createdThenEdited : ∃ s₁,
    OperationStore.new createdThenEdited.dir = .ok s₁ ∧
      (PruneKeepsVerdicts emptyWorkspace zeroDigest rootAndFile createdThenEdited 0 ↔
        (∃ p, (.prepared p ∈ s₁.records ∨
            .prepared p ∈ loadRecords (keptRecords 0 createdThenEdited.records)) ∧
          ¬ Readable emptyWorkspace zeroDigest rootAndFile p.path) ∨
        ∀ p, .prepared p ∈ s₁.records → .prepared p ∈ loadRecords (keptRecords 0 createdThenEdited.records) →
          seenAt emptyWorkspace zeroDigest rootAndFile p.path ≠ none →
          aloneVerdict (seenAt emptyWorkspace zeroDigest rootAndFile) p ≠ .committed →
          (Shown (seenAt emptyWorkspace zeroDigest rootAndFile) s₁.records p ↔
            Shown (seenAt emptyWorkspace zeroDigest rootAndFile)
              (loadRecords (keptRecords 0 createdThenEdited.records)) p)) :=
  ⟨_, rfl, prune_keeps_verdicts_iff rfl (by decide)⟩

/-- Without the edit, which `prune 0` removes, the create that it showed to
have landed is in conflict with the file. -/
theorem created_and_edited_in_conflict_once_pruned : ∃ s₁ s₂ r₁ r₂,
    OperationStore.new createdThenEdited.dir = .ok s₁ ∧
      OperationStore.new (createdThenEdited.prune 0 .allDone).2.dir = .ok s₂ ∧
      recover emptyWorkspace zeroDigest rootAndFile plainStart s₁ = .ok r₁ ∧
      recover emptyWorkspace zeroDigest rootAndFile plainStart s₂ = .ok r₂ ∧
      r₁.verdictOn "op-1" = some (.synthesized "op-1") ∧
      (∃ reason, r₂.verdictOn "op-1" = some (.conflict "op-1" reason)) ∧
      ¬ PruneKeepsVerdicts emptyWorkspace zeroDigest rootAndFile createdThenEdited 0 := by
  refine ⟨_, _, _, _, rfl, rfl, rfl, rfl, by decide, ⟨_, rfl⟩, fun h => ?_⟩
  have := h .allDone _ _ plainStart plainStart _ _ rfl rfl rfl rfl createdBeforeEdit (by decide) (by decide)
  revert this
  decide

end RemoteWorkspace
