import RemoteWorkspace.Store.Conclusions

/-!
# Recovery after a recovery that died

A recovery that dies has left a prefix of its lines in the logs. The next
start loads them and recovers again; `restart_same_iff` says when its tables
are those of a recovery that was not interrupted. What was synthesized before
the interruption is loaded at the time of its synthesis, not in its marker's
place (`Resumed`). So a clock that is behind the log can move it before a marker
that is still open, and what it shows of that marker is lost.
-/

namespace RemoteWorkspace

open Keyed

/-! ## Loading what was appended -/

/-- The request table in memory is the one that the lines appended are read
into. -/
theorem loadRequests_foldl_record {s : OperationStore} {log : List RequestLogLine}
    (h : s.requests = loadRequests log) (ls : List LogLine) :
    (ls.foldl OperationStore.record s).requests = loadRequests (log ++ requestsOf ls) := by
  induction ls generalizing s log with
  | nil => simpa using h
  | cons l ls ih =>
    cases l with
    | operation r => exact ih h
    | request l =>
      have hnext : (s.record (.request l)).requests = loadRequests (log ++ [l]) := by
        rw [loadRequests_concat, ← h]
        rfl
      simpa using ih hnext

/-! ## Loading a table that was settled in part -/

/-- The line that a verdict leaves in the log of operations. -/
def operationLine (now : Nat) : PreparedRecord × RecoveryOutcome → AnyOperationRecord
  | (p, .committed) => .fs (committedFrom p now)
  | (p, .noOp) | (p, .conflict _) => .aborted { operationId := p.operationId, timestampMs := now }

@[simp] theorem operationId_operationLine (now : Nat) (x : PreparedRecord × RecoveryOutcome) :
    (operationLine now x).operationId = x.1.operationId := by
  obtain ⟨p, _ | _ | _⟩ := x <;> rfl

theorem operationsOf_resolution (now : Nat) (p : PreparedRecord) (v : RecoveryOutcome) :
    operationsOf (resolution now p v) = [operationLine now (p, v)] := by
  cases v <;> rfl

/-- The lines of a log of operations that give these verdicts, each at a time
that the clock has shown. -/
def GivenAt (clock : Nat → Nat) (vs : List (PreparedRecord × RecoveryOutcome)) (log : Records) : Prop :=
  List.Forall₂ (fun x r => ∃ k, r = operationLine (clock k) x) vs log

theorem givenAt_resolutions (b : Start) (vs : List (PreparedRecord × RecoveryOutcome)) (n : Nat) :
    GivenAt b.clock vs (operationsOf (resolutions b n vs)) := by
  induction vs generalizing n with
  | nil => exact .nil
  | cons x vs ih =>
    rw [resolutions, operationsOf_append, operationsOf_resolution]
    exact .cons ⟨n, rfl⟩ (ih _)

theorem GivenAt.map_id {clock : Nat → Nat} {vs : List (PreparedRecord × RecoveryOutcome)} {log : Records}
    (h : GivenAt clock vs log) :
    log.map AnyOperationRecord.operationId = vs.map fun x => x.1.operationId := by
  induction h with
  | nil => rfl
  | cons hx _ ih =>
    obtain ⟨k, rfl⟩ := hx
    simp [ih]

theorem GivenAt.of_mem {clock : Nat → Nat} {vs : List (PreparedRecord × RecoveryOutcome)} {log : Records}
    (h : GivenAt clock vs log) {r : AnyOperationRecord} (hr : r ∈ log) :
    ∃ x ∈ vs, ∃ k, r = operationLine (clock k) x := by
  induction h with
  | nil => cases hr
  | cons hx _ ih =>
    rcases List.mem_cons.mp hr with rfl | hr
    · exact ⟨_, List.mem_cons_self, hx⟩
    · obtain ⟨y, hy, hk⟩ := ih hr
      exact ⟨y, List.mem_cons_of_mem _ hy, hk⟩

theorem GivenAt.exists_of_mem {clock : Nat → Nat} {vs : List (PreparedRecord × RecoveryOutcome)}
    {log : Records} (h : GivenAt clock vs log) {x : PreparedRecord × RecoveryOutcome} (hx : x ∈ vs) :
    ∃ k, operationLine (clock k) x ∈ log := by
  induction h with
  | nil => cases hx
  | cons hy _ ih =>
    rcases List.mem_cons.mp hx with rfl | hx
    · obtain ⟨k, rfl⟩ := hy
      exact ⟨k, List.mem_cons_self⟩
    · obtain ⟨k, hk⟩ := ih hx
      exact ⟨k, List.mem_cons_of_mem _ hk⟩

/-- The table loaded from a log that holds the lines of some verdicts: without
the markers they are on, and with what was synthesized. -/
theorem mem_loadRecords_given {clock : Nat → Nat} {operations log : Records}
    {given : List (PreparedRecord × RecoveryOutcome)}
    (hmarkers : ∀ x ∈ given, .prepared x.1 ∈ loadRecords operations)
    (hnodup : (given.map fun x => x.1.operationId).Nodup) (hlog : GivenAt clock given log)
    {r : AnyOperationRecord} : r ∈ loadRecords (operations ++ log) ↔
      (r ∈ loadRecords operations ∧ ∀ x ∈ given, r ≠ .prepared x.1) ∨ r ∈ log ∧ isAborted r = false := by
  have hdistinct : DistinctIds log := by
    rw [DistinctIds, Distinct, hlog.map_id]
    exact hnodup
  have hlatest : ∀ id, latestRecord (operations ++ log) id =
      (get AnyOperationRecord.operationId id log).or (latestRecord operations id) := by
    intro id
    rw [latestRecord, latest_append, latest_of_distinct hdistinct]
  rw [mem_loadRecords, hlatest]
  constructor
  · rintro ⟨h, hab⟩
    rcases Option.or_eq_some_iff.mp h with h | ⟨hnone, h⟩
    · exact .inr ⟨mem_of_get h, hab⟩
    · refine .inl ⟨mem_loadRecords.mpr ⟨h, hab⟩, ?_⟩
      rintro x hx rfl
      obtain ⟨k, hk⟩ := hlog.exists_of_mem hx
      exact get_eq_none.mp hnone _ hk (operationId_operationLine _ _)
  · rintro (⟨hr, hne⟩ | ⟨hr, hab⟩)
    · obtain ⟨h, hab⟩ := mem_loadRecords.mp hr
      have hnone : get AnyOperationRecord.operationId r.operationId log = none := by
        refine get_eq_none.mpr fun y hy hid => ?_
        obtain ⟨x, hx, k, rfl⟩ := hlog.of_mem hy
        rw [operationId_operationLine] at hid
        exact hne x hx (eq_of_key_eq (distinct_loadRecords operations) hr (hmarkers x hx) hid.symm)
      exact ⟨by rw [hnone, h]; rfl, hab⟩
    · exact ⟨by rw [get_of_mem hdistinct hr]; rfl, hab⟩

/-- The records of a request in a settled table, none of whose markers was
settled for that request. -/
theorem settle_filter {seen : String → Option (Option String)} {rs : Records} {id : String}
    (h : ∀ p, (p, .committed) ∈ (settle seen rs).verdicts → p.requestId ≠ id) :
    (settle seen rs).records.filter (committedFor id) = rs.filter (committedFor id) := by
  induction rs with
  | nil => rfl
  | cons r rs ih =>
    cases hr : isPending r with
    | false =>
      rw [settle_cons_of_not_pending hr] at h ⊢
      rw [List.filter_cons, List.filter_cons, ih h]
    | true =>
      cases r with
      | prepared p =>
        have ih := ih fun q hq => h q (by simp [settle, hq])
        have hmarker : committedFor id (.prepared p) = false := rfl
        simp only [settle]
        split
        · rename_i hv
          have hp : p.requestId ≠ id := h p (by simp [settle, hv])
          have hrecord : committedFor id (.fs (committedFrom p 0)) = false := by
            simp [committedFor, recordRequestId, committedFrom, hp]
          rw [List.filter_cons, List.filter_cons, hrecord, hmarker, ih]
          rfl
        · rw [List.filter_cons, hmarker, ih]
          rfl
      | _ => cases hr

/-! ## A table that is settled in two goes -/

/-- How a table `R` relates to the table `R₁` that is loaded once the verdicts
`given` on it are in the log and the verdicts `open'` are not. -/
structure Resumed (seen : String → Option (Option String)) (clock : Nat → Nat) (R R₁ log : Records)
    (given open' : List (PreparedRecord × RecoveryOutcome)) : Prop where
  verdicts : (settle seen R).verdicts = given ++ open'
  lines : GivenAt clock given log
  older : R.Pairwise OlderRecord
  older₁ : R₁.Pairwise OlderRecord
  distinct : DistinctIds R
  distinct₁ : DistinctIds R₁
  mem : ∀ r, r ∈ R₁ ↔ (r ∈ R ∧ ∀ x ∈ given, r ≠ .prepared x.1) ∨ r ∈ log ∧ isAborted r = false

/-- That what the later records show of a marker they show in the second table
too, if it stands there and its own file does not decide it. -/
def ShowsStill (seen : String → Option (Option String)) (R R₁ : Records) : Prop :=
  ∀ p, .prepared p ∈ R₁ → seen p.path ≠ none → aloneVerdict seen p ≠ .committed →
    Shown seen R p → Shown seen R₁ p

section

variable {seen : String → Option (Option String)} {clock : Nat → Nat} {operations log : Records}
  {given open' : List (PreparedRecord × RecoveryOutcome)}

theorem resumed_loadRecords (hv : (settle seen (loadRecords operations)).verdicts = given ++ open')
    (hlog : GivenAt clock given log) :
    Resumed seen clock (loadRecords operations) (loadRecords (operations ++ log)) log given open' where
  verdicts := hv
  lines := hlog
  older := loadRecords_older _
  older₁ := loadRecords_older _
  distinct := distinct_loadRecords _
  distinct₁ := distinct_loadRecords _
  mem := by
    intro r
    have hnodup := @nodup_verdict_ids seen _ (distinct_loadRecords operations)
    rw [hv, List.map_append] at hnodup
    refine mem_loadRecords_given (fun x hx => ?_) (List.Nodup.of_append_left hnodup) hlog
    exact mem_markersOf_of_verdict (hv ▸ List.mem_append_left _ hx)

variable {R R₁ : Records} (h : Resumed seen clock R R₁ log given open')

include h

theorem Resumed.given_mem {x : PreparedRecord × RecoveryOutcome} (hx : x ∈ given) : .prepared x.1 ∈ R :=
  mem_markersOf_of_verdict (h.verdicts ▸ List.mem_append_left _ hx)

theorem Resumed.open_mem {x : PreparedRecord × RecoveryOutcome} (hx : x ∈ open') : .prepared x.1 ∈ R :=
  mem_markersOf_of_verdict (h.verdicts ▸ List.mem_append_right _ hx)

/-- What was synthesized is a committed record. -/
theorem Resumed.synthesized {r : AnyOperationRecord} (hr : r ∈ log) (hab : isAborted r = false) :
    ∃ p k, (p, .committed) ∈ given ∧ r = .fs (committedFrom p (clock k)) := by
  obtain ⟨⟨p, v⟩, hx, k, rfl⟩ := h.lines.of_mem hr
  cases v with
  | committed => exact ⟨p, k, hx, rfl⟩
  | noOp => cases hab
  | conflict reason => cases hab

/-- The markers that still stand are those of the open verdicts. -/
theorem Resumed.marker_iff {p : PreparedRecord} : .prepared p ∈ R₁ ↔ ∃ v, (p, v) ∈ open' := by
  have hids := @nodup_verdict_ids seen _ h.distinct
  rw [h.verdicts, List.map_append] at hids
  rw [h.mem]
  constructor
  · rintro (⟨hp, hne⟩ | ⟨hp, hab⟩)
    · obtain ⟨v, hv⟩ : ∃ v, (p, v) ∈ given ++ open' := by
        have hfst : p ∈ (settle seen R).verdicts.map Prod.fst := by
          rw [verdicts_map_fst, List.mem_reverse]
          exact mem_markersOf.mpr hp
        rw [h.verdicts] at hfst
        obtain ⟨⟨q, v⟩, hx, rfl⟩ := List.mem_map.mp hfst
        exact ⟨v, hx⟩
      rcases List.mem_append.mp hv with hv | hv
      · exact absurd rfl (hne _ hv)
      · exact ⟨v, hv⟩
    · obtain ⟨q, k, -, heq⟩ := h.synthesized hp hab
      cases heq
  · rintro ⟨v, hv⟩
    refine .inl ⟨h.open_mem hv, fun x hx heq => ?_⟩
    obtain rfl : p = x.1 := AnyOperationRecord.prepared.inj heq
    exact (List.nodup_append.mp hids).2.2 _ (List.mem_map_of_mem hx) _ (List.mem_map_of_mem hv) rfl

/-- The markers resolved first are the later ones. -/
theorem Resumed.markersOf_eq : markersOf R = (open'.map Prod.fst).reverse ++ (given.map Prod.fst).reverse := by
  rw [← List.reverse_append, ← List.map_append, ← h.verdicts, verdicts_map_fst, List.reverse_reverse]

theorem Resumed.later_given {x y : PreparedRecord × RecoveryOutcome} (hx : x ∈ open') (hy : y ∈ given) :
    OlderRecord (.prepared x.1) (.prepared y.1) := by
  have hsub := h.older.sublist (List.filter_sublist (p := isPending))
  rw [← map_markersOf, h.markersOf_eq, List.map_append] at hsub
  refine (List.pairwise_append.mp hsub).2.2 _ (List.mem_map_of_mem ?_) _ (List.mem_map_of_mem ?_)
  · rw [List.mem_reverse]
    exact List.mem_map_of_mem hx
  · rw [List.mem_reverse]
    exact List.mem_map_of_mem hy

/-- The second recovery judges the open markers, in the same order. -/
theorem Resumed.markers : (settle seen R₁).verdicts.map Prod.fst = open'.map Prod.fst := by
  have hmap : (markersOf R₁).map AnyOperationRecord.prepared =
      ((open'.map Prod.fst).reverse).map AnyOperationRecord.prepared := by
    have holder₁ : ((markersOf R₁).map AnyOperationRecord.prepared).Pairwise OlderRecord := by
      rw [map_markersOf]
      exact h.older₁.sublist List.filter_sublist
    have hsub := h.older.sublist (List.filter_sublist (p := isPending))
    rw [← map_markersOf, h.markersOf_eq, List.map_append] at hsub
    refine eq_of_pairwise_older holder₁ (List.pairwise_append.mp hsub).1 fun r => ?_
    simp only [List.mem_map, mem_markersOf, h.marker_iff, List.mem_reverse, Prod.exists, exists_and_right,
      exists_eq_right]
  have hmarkers := List.map_injective_iff.mpr (fun p q heq => AnyOperationRecord.prepared.inj heq) hmap
  rw [verdicts_map_fst, hmarkers, List.reverse_reverse]

theorem Resumed.verdicts_eq (hagree : ∀ p v w, (p, v) ∈ open' → (p, w) ∈ (settle seen R₁).verdicts → v = w) :
    (settle seen R₁).verdicts = open' := by
  have hlen : (settle seen R₁).verdicts.length = open'.length := by
    simpa using congrArg List.length h.markers
  refine List.ext_getElem hlen fun i hi hi' => ?_
  have hfst : (settle seen R₁).verdicts[i].1 = open'[i].1 := by
    have := congrArg (fun l : List PreparedRecord => l[i]?) h.markers
    simpa [hi, hi'] using this
  have hx := List.getElem_mem hi
  have hy := List.getElem_mem hi'
  generalize (settle seen R₁).verdicts[i] = x at hfst hx ⊢
  generalize open'[i] = y at hfst hy ⊢
  obtain ⟨p, w⟩ := x
  obtain ⟨q, v⟩ := y
  obtain rfl : p = q := hfst
  rw [hagree p v w hy hx]

theorem Resumed.marker_mem {p : PreparedRecord} (hp : .prepared p ∈ R₁) : .prepared p ∈ R := by
  obtain ⟨v, hv⟩ := h.marker_iff.mp hp
  exact h.open_mem hv

/-- The second table shows nothing that the first did not. -/
theorem Resumed.shown_of_shown {p : PreparedRecord} (hshown : Shown seen R₁ p) : .prepared p ∈ R₁ → Shown seen R p := by
  induction hshown with
  | @record p x hx hlater hpend hc =>
    intro hp
    rcases (h.mem x).mp hx with ⟨hxR, -⟩ | ⟨hx, hab⟩
    · exact .record hxR hlater hpend hc
    · -- It was synthesized: its marker showed the same.
      obtain ⟨q, k, hq, rfl⟩ := h.synthesized hx hab
      obtain ⟨v, hv⟩ := h.marker_iff.mp hp
      have hlater' := h.later_given hv hq
      rcases (verdict_committed_iff_shown h.older (h.verdicts ▸ List.mem_append_left _ hq)).mp rfl with
        halone | ⟨hseen, hshown⟩
      · exact .marker (h.given_mem hq) hlater' hc halone
      · exact .chain (h.given_mem hq) hlater' hc hseen hshown
  | @marker p q hq hlater hc halone =>
    intro _
    exact .marker (h.marker_mem hq) hlater hc halone
  | @chain p q hq hlater hc hseen _ ih =>
    intro _
    exact .chain (h.marker_mem hq) hlater hc hseen (ih hq)

/-- The second recovery gives the verdicts that were still open exactly if the
later records still show what they showed. -/
theorem Resumed.verdicts_iff : (settle seen R₁).verdicts = open' ↔ ShowsStill seen R R₁ := by
  have hmem : ∀ {p v}, (p, v) ∈ open' → (p, v) ∈ (settle seen R).verdicts := fun hv =>
    h.verdicts ▸ List.mem_append_right _ hv
  constructor
  · intro heq p hp hseen halone
    obtain ⟨v, hv⟩ := h.marker_iff.mp hp
    exact ((verdicts_agree_iff h.older h.older₁ (hmem hv) (heq ▸ hv)).mp rfl hseen halone).mp
  · intro hshow
    refine h.verdicts_eq fun p v w hv hw => (verdicts_agree_iff h.older h.older₁ (hmem hv) hw).mpr ?_
    intro hseen halone
    have hp : .prepared p ∈ R₁ := mem_markersOf_of_verdict hw
    exact ⟨hshow p hp hseen halone, fun hshown => h.shown_of_shown hshown hp⟩

end

/-! ## A clock ahead of the log -/

section

variable {seen : String → Option (Option String)} {clock : Nat → Nat} {R R₁ log : Records}
  {given open' : List (PreparedRecord × RecoveryOutcome)} (h : Resumed seen clock R R₁ log given open')

include h

/-- If the clock is ahead of the table, what was synthesized shows the same from
its new place. -/
theorem Resumed.showsStill_of_clock (hclock : ∀ k, ∀ x ∈ R, x.timestampMs < clock k) : ShowsStill seen R R₁ := by
  -- A later marker that landed stands in the second table as it is, or synthesized.
  have hlanded : ∀ {p q}, .prepared p ∈ R → .prepared q ∈ R → OlderRecord (.prepared p) (.prepared q) →
      continues p (.fs (committedFrom q 0)) = true →
      (aloneVerdict seen q = .committed ∨ seen q.path ≠ none ∧ Shown seen R q) →
      (.prepared q ∈ R₁ → aloneVerdict seen q = .committed ∨ seen q.path ≠ none ∧ Shown seen R₁ q) →
      Shown seen R₁ p := by
    intro p q hp hq hlater hc hq' hopen
    by_cases hq₁ : .prepared q ∈ R₁
    · rcases hopen hq₁ with halone | ⟨hseen, hshown⟩
      · exact .marker hq₁ hlater hc halone
      · exact .chain hq₁ hlater hc hseen hshown
    · obtain ⟨v, hv⟩ := exists_verdict_of_marker seen hq
      obtain rfl := (verdict_committed_iff_shown h.older hv).mpr hq'
      have hgiven : (q, .committed) ∈ given := by
        rw [h.verdicts] at hv
        exact (List.mem_append.mp hv).resolve_right fun hv => hq₁ (h.marker_iff.mpr ⟨_, hv⟩)
      obtain ⟨k, hk⟩ := h.lines.exists_of_mem hgiven
      exact .record ((h.mem _).mpr (.inr ⟨hk, rfl⟩)) (.inl (hclock k _ hp)) rfl hc
  have hforth : ∀ p, Shown seen R p → .prepared p ∈ R → Shown seen R₁ p := by
    intro p hshown
    induction hshown with
    | @record q x hx hlater hpend hc =>
      intro _
      refine .record ((h.mem x).mpr (.inl ⟨hx, fun y _ heq => ?_⟩)) hlater hpend hc
      rw [heq] at hpend
      cases hpend
    | @marker q q' hq' hlater hc halone =>
      intro hq
      exact hlanded hq hq' hlater hc (.inl halone) fun _ => .inl halone
    | @chain q q' hq' hlater hc hseen hshown ih =>
      intro hq
      exact hlanded hq hq' hlater hc (.inr ⟨hseen, hshown⟩) fun _ => .inr ⟨hseen, ih hq'⟩
  intro p hp _ _ hshown
  exact hforth p hshown (h.marker_mem hp)

end

/-! ## The same records under the same ids -/

/-- A marker's record is in the settled table exactly if it was found to have
landed. -/
theorem exists_settled_iff {seen : String → Option (Option String)} {rs : Records} (hd : DistinctIds rs)
    {p : PreparedRecord} {v : RecoveryOutcome} (hv : (p, v) ∈ (settle seen rs).verdicts) :
    (∃ y ∈ (settle seen rs).records, y.operationId = p.operationId) ↔ v = .committed := by
  constructor
  · rintro ⟨y, hy, hid⟩
    rcases (mem_settle seen).mp hy with ⟨hy, hpend⟩ | ⟨q, hq, rfl⟩
    · obtain rfl := eq_of_key_eq hd hy (mem_markersOf_of_verdict hv) hid
      cases hpend
    · have := List.inj_on_of_nodup_map (nodup_verdict_ids hd) hq hv hid
      exact (congrArg Prod.snd this).symm
  · rintro rfl
    exact ⟨_, (mem_settle seen).mpr (.inr ⟨p, hv, rfl⟩), rfl⟩

section

variable {seen : String → Option (Option String)} {clock : Nat → Nat} {R R₁ log : Records}
  {given open' : List (PreparedRecord × RecoveryOutcome)} (h : Resumed seen clock R R₁ log given open')

include h

/-- If the verdicts are the same, so are the records, times aside. -/
theorem Resumed.same (hv : (settle seen R₁).verdicts = open') (u : AnyOperationRecord) :
    u ∈ (settle seen R₁).records.map untimed ↔ u ∈ (settle seen R).records.map untimed := by
  simp only [List.mem_map, mem_settle, hv, h.verdicts, h.mem, List.mem_append]
  constructor
  · rintro ⟨y, ⟨⟨hy, -⟩ | ⟨hy, hab⟩, hpend⟩ | ⟨p, hp, rfl⟩, rfl⟩
    · exact ⟨y, .inl ⟨hy, hpend⟩, rfl⟩
    · obtain ⟨p, k, hp, rfl⟩ := h.synthesized hy hab
      exact ⟨_, .inr ⟨p, .inl hp, rfl⟩, rfl⟩
    · exact ⟨_, .inr ⟨p, .inr hp, rfl⟩, rfl⟩
  · rintro ⟨y, ⟨hy, hpend⟩ | ⟨p, hp | hp, rfl⟩, rfl⟩
    · refine ⟨y, .inl ⟨.inl ⟨hy, fun x _ heq => ?_⟩, hpend⟩, rfl⟩
      rw [heq] at hpend
      cases hpend
    · obtain ⟨k, hk⟩ := h.lines.exists_of_mem hp
      exact ⟨_, .inl ⟨.inr ⟨hk, rfl⟩, rfl⟩, rfl⟩
    · exact ⟨_, .inr ⟨p, hp, rfl⟩, rfl⟩

/-- The two tables hold the same records under the same ids exactly if the
later records still show what they showed. -/
theorem Resumed.get_iff : (∀ id, (get AnyOperationRecord.operationId id (settle seen R₁).records).map untimed =
      (get AnyOperationRecord.operationId id (settle seen R).records).map untimed) ↔ ShowsStill seen R R₁ := by
  rw [← h.verdicts_iff]
  constructor
  · intro hget
    refine h.verdicts_eq fun p v w hopen hw => ?_
    have hv : (p, v) ∈ (settle seen R).verdicts := h.verdicts ▸ List.mem_append_right _ hopen
    have hexists : ∀ rs : Records, (∃ y ∈ rs, y.operationId = p.operationId) ↔
        (get AnyOperationRecord.operationId p.operationId rs).map untimed ≠ none := by
      intro rs
      rw [Ne, Option.map_eq_none_iff, get_eq_none]
      simp
    have hiff : w = .committed ↔ v = .committed := by
      rw [← exists_settled_iff h.distinct hv, ← exists_settled_iff h.distinct₁ hw, hexists, hexists, hget]
    by_cases hc : v = .committed
    · rw [hc, hiff.mpr hc]
    · rw [verdict_of_not_committed hv hc, verdict_of_not_committed hw fun hw => hc (hiff.mp hw)]
  · intro hv
    exact get_untimed_congr ((settle_ids_sublist seen _).nodup h.distinct₁) ((settle_ids_sublist seen _).nodup h.distinct)
      (h.same hv)

/-- The committed records of a request for which nothing was synthesized stand
in the same order. -/
theorem Resumed.filter_eq {id : String} (hid : ∀ p, (p, .committed) ∈ given ++ open' → p.requestId ≠ id)
    (hv : (settle seen R₁).verdicts = open') :
    (settle seen R₁).records.filter (committedFor id) = (settle seen R).records.filter (committedFor id) := by
  have hid₁ : ∀ p, (p, .committed) ∈ (settle seen R₁).verdicts → p.requestId ≠ id := by
    rw [hv]
    exact fun p hp => hid p (List.mem_append_right _ hp)
  rw [← h.verdicts] at hid
  rw [settle_filter hid, settle_filter hid₁]
  refine eq_of_pairwise_older (h.older₁.sublist List.filter_sublist) (h.older.sublist List.filter_sublist) fun r => ?_
  rw [List.mem_filter, List.mem_filter, h.mem]
  constructor
  · rintro ⟨⟨hr, -⟩ | ⟨hr, hab⟩, hc⟩
    · exact ⟨hr, hc⟩
    · obtain ⟨p, k, hp, rfl⟩ := h.synthesized hr hab
      exact absurd (by simpa [committedFor, recordRequestId, committedFrom] using hc)
        (hid p (h.verdicts ▸ List.mem_append_left _ hp))
  · rintro ⟨hr, hc⟩
    refine ⟨.inl ⟨hr, fun x _ heq => ?_⟩, hc⟩
    rw [heq] at hc
    cases hc

/-- What a request is settled into does not depend on the interruption, unless
it is stuck and something was synthesized for it. -/
theorem Resumed.settledEntry_eq (hv : (settle seen R₁).verdicts = open') {id : String} {e : Option RequestEntry}
    (he : e.any RequestEntry.isStuck = true → ∀ p, (p, .committed) ∈ given ++ open' → p.requestId ≠ id) :
    settledEntry (settle seen R₁).records id e = settledEntry (settle seen R).records id e := by
  cases e with
  | none => rfl
  | some e =>
    simp only [settledEntry, Option.bind_some]
    split
    · rename_i hstuck
      have hbuilt : rebuiltFrom (settle seen R₁).records id = rebuiltFrom (settle seen R).records id := by
        rw [rebuiltFrom_eq, rebuiltFrom_eq, ← List.head?_filter, ← List.head?_filter,
          h.filter_eq (he (by simpa using hstuck)) hv]
      simp only [stuckEntry, hbuilt]
    · rfl

end

/-! ## A marker whose request has no line yet -/

theorem operationId_of_reconstructFs {r : AnyOperationRecord} {f : FsOperationRecord}
    (h : reconstructResult r = some (reconstructFs f)) : r.operationId = f.operationId := by
  cases r with
  | fs r => simp_all [reconstructResult, reconstructFs]
  | exec r =>
    simp only [reconstructResult, reconstructExec, reconstructFs, Option.some.injEq] at h
    repeat' split at h
    all_goals simp at h
  | transfer r => simp [reconstructResult, reconstructTransfer, reconstructFs] at h
  | prepared r => cases h
  | aborted r => cases h

section

variable {seen : String → Option (Option String)} {clock : Nat → Nat} {R R₁ log : Records}
  {given open' : List (PreparedRecord × RecoveryOutcome)} {p : PreparedRecord} {now : Nat}

/-- A request for which only `p` was synthesized is rebuilt from `p`, unless
another committed record of it is the older one. -/
theorem Resumed.rebuilt_marker_iff (h : Resumed seen clock R R₁ log given open')
    (hv : (settle seen R₁).verdicts = open') (hp : (p, .committed) ∈ given)
    (hline : .fs (committedFrom p now) ∈ log)
    (hgiven : ∀ q, (q, .committed) ∈ given → q.requestId = p.requestId → q = p)
    (hopen : ∀ q, (q, .committed) ∈ open' → q.requestId ≠ p.requestId) :
    (rebuiltFrom (settle seen R₁).records p.requestId).map Prod.snd =
        some (reconstructFs (committedFrom p 0)) ↔
      ∀ r ∈ R, committedFor p.requestId r = true → OlderRecord (.fs (committedFrom p now)) r := by
  let L := R₁.filter (committedFor p.requestId)
  have hbuilt : rebuiltFrom (settle seen R₁).records p.requestId =
      L.head?.bind fun r => (reconstructResult r).map (r.operationId, ·) := by
    rw [rebuiltFrom_eq, ← List.head?_filter, settle_filter (by rw [hv]; exact hopen)]
  have hL : L.Pairwise OlderRecord := h.older₁.sublist List.filter_sublist
  have hown : .fs (committedFrom p now) ∈ L := by
    refine List.mem_filter.mpr ⟨(h.mem _).mpr (.inr ⟨hline, rfl⟩), ?_⟩
    simp [committedFor, recordRequestId, committedFrom]
  have hnotR : .fs (committedFrom p now) ∉ R := fun hr => by
    have := eq_of_key_eq h.distinct hr (h.given_mem hp) rfl
    cases this
  -- All others of the request are records of the first table.
  have hother : ∀ r ∈ L, r = .fs (committedFrom p now) ∨ r ∈ R := by
    intro r hr
    obtain ⟨hr₁, hc⟩ := List.mem_filter.mp hr
    rcases (h.mem r).mp hr₁ with ⟨hr, -⟩ | ⟨hr, hab⟩
    · exact .inr hr
    · obtain ⟨q, k, hq, rfl⟩ := h.synthesized hr hab
      obtain rfl := hgiven q hq (by simpa [committedFor, recordRequestId, committedFrom] using hc)
      exact .inl (eq_of_key_eq h.distinct₁ hr₁ (List.mem_filter.mp hown).1 rfl)
  have hofR : ∀ r ∈ R, committedFor p.requestId r = true → r ∈ L := by
    intro r hr hc
    refine List.mem_filter.mpr ⟨(h.mem r).mpr (.inl ⟨hr, fun x _ heq => ?_⟩), hc⟩
    rw [heq] at hc
    cases hc
  rw [hbuilt]
  cases hcases : L with
  | nil => rw [hcases] at hown; cases hown
  | cons y L' =>
    rw [hcases] at hL hown hother hofR
    have hfirst := (List.pairwise_cons.mp hL).1
    constructor
    · intro heq r hr hc
      have hid : y.operationId = p.operationId := by
        rw [List.head?_cons, Option.bind_some, Option.map_map, Option.map_eq_some_iff] at heq
        obtain ⟨m, hm, rfl⟩ := heq
        exact operationId_of_reconstructFs hm
      obtain rfl : y = .fs (committedFrom p now) := by
        rcases hother y List.mem_cons_self with rfl | hyR
        · rfl
        · obtain rfl := eq_of_key_eq h.distinct hyR (h.given_mem hp) hid
          have hc : committedFor p.requestId (.prepared p) = true :=
            (List.mem_filter.mp (hcases ▸ List.mem_cons_self : AnyOperationRecord.prepared p ∈ L)).2
          cases hc
      rcases List.mem_cons.mp (hofR r hr hc) with rfl | hr'
      · exact absurd hr hnotR
      · exact hfirst r hr'
    · intro holder
      obtain rfl : y = .fs (committedFrom p now) := by
        rcases List.mem_cons.mp hown with heq | hown'
        · exact heq.symm
        · rcases hother y List.mem_cons_self with rfl | hyR
          · rfl
          · have hc : committedFor p.requestId y = true :=
              (List.mem_filter.mp (hcases ▸ List.mem_cons_self : y ∈ L)).2
            exact absurd ((holder y hyR hc).trans (hfirst _ hown')) Older.irrefl
      rfl

end

/-! ## Cutting the lines of a recovery -/

/-- A prefix of the lines of verdicts ends between two markers, or between the
two lines of one. -/
theorem take_resolutions (b : Start) (vs : List (PreparedRecord × RecoveryOutcome)) (n m : Nat) :
    (∃ vs₁ vs₂, vs = vs₁ ++ vs₂ ∧ (resolutions b n vs).take m = resolutions b n vs₁) ∨
      ∃ vs₁ p v vs₂, vs = vs₁ ++ (p, v) :: vs₂ ∧ v ≠ .noOp ∧
        m = (resolutions b n vs₁).length + 1 := by
  induction vs generalizing n m with
  | nil => exact .inl ⟨[], [], rfl, by simp [resolutions]⟩
  | cons x vs ih =>
    obtain ⟨p, v⟩ := x
    rcases Nat.lt_or_ge m (resolution (b.clock n) p v).length with hm | hm
    · cases m with
      | zero => exact .inl ⟨[], (p, v) :: vs, rfl, by simp [resolutions]⟩
      | succ m =>
        refine .inr ⟨[], p, v, vs, rfl, ?_, ?_⟩
        · rintro rfl
          simp [resolution] at hm
        · cases v <;> simp [resolution, resolutions] at hm ⊢ <;> omega
    · rcases ih (n + (resolution (b.clock n) p v).length) (m - (resolution (b.clock n) p v).length) with
        ⟨vs₁, vs₂, rfl, h⟩ | ⟨vs₁, q, w, vs₂, rfl, hw, h⟩
      · refine .inl ⟨(p, v) :: vs₁, vs₂, rfl, ?_⟩
        rw [resolutions, List.take_append, List.take_of_length_le hm, h]
        rfl
      · refine .inr ⟨(p, v) :: vs₁, q, w, vs₂, rfl, hw, ?_⟩
        simp only [resolutions, List.length_append]
        omega

/-- The lines up to the first of a verdict that has two. -/
theorem take_between (b : Start) (vs₁ vs₂ : List (PreparedRecord × RecoveryOutcome))
    (p : PreparedRecord) {v : RecoveryOutcome} (hv : v ≠ .noOp) (n : Nat) (ls : List LogLine) :
    (resolutions b n (vs₁ ++ (p, v) :: vs₂) ++ ls).take ((resolutions b n vs₁).length + 1) =
      resolutions b n vs₁ ++
        [.operation (operationLine (b.clock (n + (resolutions b n vs₁).length)) (p, v))] := by
  rw [resolutions_append, List.append_assoc, List.take_length_add_append]
  cases v with
  | noOp => exact absurd rfl hv
  | committed => rfl
  | conflict reason => rfl

/-! ## Starting again -/

/-- The same records under the same ids, times aside, and the same entries. -/
def SameTables (s s' : OperationStore) : Prop :=
  (∀ id, (get AnyOperationRecord.operationId id s.records).map untimed =
    (get AnyOperationRecord.operationId id s'.records).map untimed) ∧
  ∀ id, s.requests.lookup id = s'.requests.lookup id

section

variable (ws : Workspace) (sha256 : Sha256) (t : Tree) (b b' : Start)

/-- That a recovery `r` of `s` which dies after `m` of its lines is made good
by the next start, whose recovery ends with the same tables. -/
def RestartSame (s : OperationStore) (r : Recovery) (m : Nat) : Prop :=
  ∃ s₁ r₁, OperationStore.new ((r.appended.take m).foldl LogDir.writeLine s.dir) = .ok s₁ ∧
    recover ws sha256 t b' s₁ = .ok r₁ ∧ SameTables r₁.store r.store

/-- That of the markers which still stand once the first `m` lines are in the
log, the records later than them show what they showed: none that was
synthesized and is needed for that bears an earlier time than they do. -/
def StillShown (s : OperationStore) (r : Recovery) (m : Nat) : Prop :=
  ∀ s₁, OperationStore.new ((r.appended.take m).foldl LogDir.writeLine s.dir) = .ok s₁ →
    ShowsStill (seenAt ws sha256 t) s.records s₁.records

/-- That the line which a marker's verdict owes its request does not matter:
an older marker decides the request anyway, or it has that entry already, or it
is stuck and will be rebuilt from the record that was synthesized at `now`, its
other committed records being later. -/
def RequestFixed (s : OperationStore) (given : List (PreparedRecord × RecoveryOutcome))
    (p : PreparedRecord) (v : RecoveryOutcome) (open' : List (PreparedRecord × RecoveryOutcome)) (now : Nat) :
    Prop :=
  let entry := afterVerdicts p.requestId (s.requests.lookup p.requestId) given
  afterVerdicts p.requestId none open' ≠ none ∨ entry = verdictEntry (p, v) ∨
    v = .committed ∧ entry.any RequestEntry.isStuck = true ∧
      ∀ r ∈ s.records, committedFor p.requestId r = true → OlderRecord (.fs (committedFrom p now)) r

variable {ws sha256 t b b'}

variable {d : LogDir} {s : OperationStore} {r : Recovery}

theorem SameUntimed.get_eq {rs rs' : Records} (h : SameUntimed rs rs') (id : String) :
    (get AnyOperationRecord.operationId id rs).map untimed =
      (get AnyOperationRecord.operationId id rs').map untimed := by
  rw [← get_map_untimed, h, get_map_untimed]

/-- The second start, after lines that gave a part of the verdicts. -/
theorem restart_core (b' : Start) (hs : OperationStore.new d = .ok s) (hr : recover ws sha256 t b s = .ok r)
    (ls : List LogLine) {given open' : List (PreparedRecord × RecoveryOutcome)}
    (hv : (settle (seenAt ws sha256 t) s.records).verdicts = given ++ open')
    (hls : GivenAt b.clock given (operationsOf ls)) :
    ∃ s₁ r₁, OperationStore.new (ls.foldl LogDir.writeLine s.dir) = .ok s₁ ∧
      recover ws sha256 t b' s₁ = .ok r₁ ∧
      Resumed (seenAt ws sha256 t) b.clock s.records s₁.records (operationsOf ls) given open' ∧
      ((∀ id, (get AnyOperationRecord.operationId id r₁.store.records).map untimed =
          (get AnyOperationRecord.operationId id r.store.records).map untimed) ↔
        ShowsStill (seenAt ws sha256 t) s.records s₁.records) ∧
      ∀ id, r₁.store.requests.lookup id = settledEntry (settle (seenAt ws sha256 t) s₁.records).records id
        (afterVerdicts id ((ls.foldl OperationStore.record s).requests.lookup id)
          (settle (seenAt ws sha256 t) s₁.records).verdicts) := by
  obtain ⟨counter, operations, requests, hload, rfl⟩ := OperationStore.new_eq_ok.mp hs
  have hload' : Loads (OperationStore.loaded d counter operations requests).dir counter operations
      requests :=
    ⟨hload.counter, LogFile.read_repair hload.operations, LogFile.read_repair hload.requests⟩
  obtain ⟨hload₁, -⟩ := hload'.foldl_writeLine ⟨LogFile.clean_repair _, LogFile.clean_repair _⟩ ls
  have hres : Resumed (seenAt ws sha256 t) _ (loadRecords operations) _ _ _ _ := resumed_loadRecords hv hls
  have hdist₁ : DistinctIds (loadRecords (operations ++ operationsOf ls)) := distinct_loadRecords _
  have hread : ∀ p ∈ markersOf (loadRecords (operations ++ operationsOf ls)),
      Readable ws sha256 t p.path := by
    intro p hp
    obtain ⟨v, hv⟩ := hres.marker_iff.mp (mem_markersOf.mp hp)
    exact readable_of_recover hr p (mem_markersOf.mpr (hres.open_mem hv))
  obtain ⟨r₁, hr₁, hspec₁⟩ := recover_spec (b := b')
    (s := .loaded (ls.foldl LogDir.writeLine _) counter _ _) hdist₁ (distinct_loadRequests _) hread
  have hspec := recovered_of_recover (distinct_loadRecords _) (distinct_loadRequests _) hr
  refine ⟨_, r₁, OperationStore.new_of_loads hload₁, hr₁, hres, ?_, fun id => ?_⟩
  · refine Iff.trans ?_ hres.get_iff
    simp only [hspec₁.records.get_eq, hspec.records.get_eq]
    rfl
  · have hreq := loadRequests_foldl_record (s := .loaded d counter operations requests) rfl ls
    rw [hspec₁.lookup, hreq]
    rfl

theorem afterVerdicts_append (id : String) (e : Option RequestEntry)
    (vs vs' : List (PreparedRecord × RecoveryOutcome)) :
    afterVerdicts id e (vs ++ vs') = afterVerdicts id (afterVerdicts id e vs) vs' :=
  List.foldl_append

/-- A request that is stuck after these verdicts got nothing from them. -/
theorem not_committed_of_stuck {id : String} {e : Option RequestEntry}
    {vs : List (PreparedRecord × RecoveryOutcome)}
    (h : (afterVerdicts id e vs).any RequestEntry.isStuck = true) (p : PreparedRecord)
    (hp : (p, .committed) ∈ vs) : p.requestId ≠ id := by
  intro hid
  obtain ⟨e', he'⟩ := Option.ne_none_iff_exists'.mp
    (afterVerdicts_ne_none hp hid (by simp [verdictEntry]))
  obtain ⟨x, -, -, hx⟩ := exists_verdict he'
  rw [afterVerdicts_eq_or, he', Option.some_or, Option.any_some, verdictEntry_not_stuck hx] at h
  cases h

theorem restartSame_iff_of_new {m : Nat} {s₁ : OperationStore} {r₁ : Recovery}
    (hs₁ : OperationStore.new ((r.appended.take m).foldl LogDir.writeLine s.dir) = .ok s₁)
    (hr₁ : recover ws sha256 t b' s₁ = .ok r₁) :
    RestartSame ws sha256 t b' s r m ↔ SameTables r₁.store r.store := by
  constructor
  · rintro ⟨s₂, r₂, hs₂, hr₂, h⟩
    cases hs₁.symm.trans hs₂
    cases hr₁.symm.trans hr₂
    exact h
  · exact fun h => ⟨s₁, r₁, hs₁, hr₁, h⟩

theorem stillShown_iff_of_new {m : Nat} {s₁ : OperationStore}
    (hs₁ : OperationStore.new ((r.appended.take m).foldl LogDir.writeLine s.dir) = .ok s₁) :
    StillShown ws sha256 t s r m ↔ ShowsStill (seenAt ws sha256 t) s.records s₁.records := by
  constructor
  · exact fun h => h s₁ hs₁
  · intro h s₂ hs₂
    cases hs₁.symm.trans hs₂
    exact h

/-- Interrupted between two markers or later, a recovery is made good exactly if
the later records still show what they showed. -/
theorem restartSame_of_given (hs : OperationStore.new d = .ok s) (hr : recover ws sha256 t b s = .ok r)
    {m : Nat} {ls : List LogLine}
    (hm : r.appended.take m = ls) {given open' : List (PreparedRecord × RecoveryOutcome)}
    (hv : (settle (seenAt ws sha256 t) s.records).verdicts = given ++ open')
    (hls : GivenAt b.clock given (operationsOf ls))
    (hlook : ∀ id, settledEntry (settle (seenAt ws sha256 t) s.records).records id
        (afterVerdicts id ((ls.foldl OperationStore.record s).requests.lookup id) open') =
      settledEntry (settle (seenAt ws sha256 t) s.records).records id
        (afterVerdicts id (s.requests.lookup id) (given ++ open')) ∧
      ((afterVerdicts id ((ls.foldl OperationStore.record s).requests.lookup id) open').any
        RequestEntry.isStuck = true → ∀ p, (p, .committed) ∈ given → p.requestId ≠ id)) :
    RestartSame ws sha256 t b' s r m ↔ StillShown ws sha256 t s r m := by
  obtain ⟨s₁, r₁, hs₁, hr₁, hres, hrec, hreq⟩ := restart_core b' hs hr ls hv hls
  obtain ⟨hd, hq⟩ := distinct_of_new hs
  have hspec := recovered_of_recover hd hq hr
  rw [restartSame_iff_of_new (hm ▸ hs₁) hr₁, stillShown_iff_of_new (hm ▸ hs₁), SameTables, hrec]
  refine and_iff_left_of_imp fun hshow id => ?_
  have hv₁ := hres.verdicts_iff.mpr hshow
  rw [hreq, hv₁, hres.settledEntry_eq hv₁, (hlook id).1, ← hv]
  · exact (hspec.lookup id).symm
  · intro hstuck p hp
    rcases List.mem_append.mp hp with hp | hp
    · exact (hlook id).2 hstuck p hp
    · exact not_committed_of_stuck hstuck p hp

theorem stuckLines_entry {rs : Records} {q : String × RequestEntry} {l : LogLine}
    (h : l ∈ stuckLines rs q) : ∃ e, l = .request (e.line q.1) ∧
      stuckEntry rs q.1 q.2 = some e ∧ e.isStuck = false := by
  unfold stuckLines at h
  unfold stuckEntry
  cases hm : rebuiltFrom rs q.1 with
  | some x =>
    rw [hm] at h
    exact ⟨_, List.mem_singleton.mp h, rfl, rfl⟩
  | none =>
    rw [hm] at h
    simp only at h ⊢
    split at h
    · exact ⟨_, List.mem_singleton.mp h, by rw [if_pos ‹_›], rfl⟩
    split at h
    · exact ⟨_, List.mem_singleton.mp h, by rw [if_neg ‹_›, if_pos ‹_›], rfl⟩
    · cases h

/-- After some of the lines of stuck requests, each request has the entry it
had or the one it is settled into. -/
theorem lookup_stuckLines {rs : Records} {qs : Requests} {id : String} {e : Option RequestEntry}
    (hqs : ∀ q ∈ qs, q.1 = id → e = some q.2 ∧ q.2.isStuck = true) {ls : List LogLine}
    (hls : ∀ l ∈ ls, ∃ q ∈ qs, l ∈ stuckLines rs q) {s : OperationStore}
    (hs : s.requests.lookup id = e ∨ ∃ e', settledEntry rs id e = some e' ∧
      e'.isStuck = false ∧ s.requests.lookup id = some e') :
    (ls.foldl OperationStore.record s).requests.lookup id = e ∨ ∃ e', settledEntry rs id e = some e' ∧
      e'.isStuck = false ∧ (ls.foldl OperationStore.record s).requests.lookup id = some e' := by
  induction ls generalizing s with
  | nil => exact hs
  | cons l ls ih =>
    refine ih (fun l hl => hls l (List.mem_cons_of_mem _ hl)) ?_
    obtain ⟨q, hq, hl⟩ := hls l List.mem_cons_self
    obtain ⟨e', rfl, he', hstuck⟩ := stuckLines_entry hl
    simp only [OperationStore.record, RequestEntry.requestId_line, RequestEntry.entry_line,
      Requests.lookup_insert]
    by_cases hid : id = q.1
    · obtain ⟨rfl, hq'⟩ := hqs q hq hid.symm
      refine .inr ⟨e', ?_, hstuck, by rw [if_pos hid]⟩
      rw [settledEntry, Option.bind_some, if_pos hq', hid, he']
    · rw [if_neg hid]
      exact hs

theorem operationsOf_stuckLines {rs : Records} {qs : Requests} {ls : List LogLine}
    (hls : ∀ l ∈ ls, ∃ q ∈ qs, l ∈ stuckLines rs q) : operationsOf ls = [] := by
  refine List.eq_nil_iff_forall_not_mem.mpr fun r hr => ?_
  obtain ⟨l, hl, hlr⟩ := List.mem_filterMap.mp hr
  obtain ⟨q, -, hq⟩ := hls l hl
  obtain ⟨e, rfl, -⟩ := stuckLines_entry hq
  cases hlr

/-- A request that is stuck is settled into no conflict. -/
theorem stuckEntry_ne_conflict {rs : Records} {id : String} {e : RequestEntry} {p : PreparedRecord}
    {reason : String} : stuckEntry rs id e ≠ some (.ofError (conflictError p reason)) := by
  unfold stuckEntry
  cases rebuiltFrom rs id with
  | some x => simp [RequestEntry.ofResult, RequestEntry.ofError]
  | none =>
    simp only
    repeat' split
    all_goals
      simp [RequestEntry.ofError, execInterrupted, unknownInterrupted, conflictError, ProtocolError.new]

theorem stuckEntry_eq_ofResult {rs : Records} {id : String} {e : RequestEntry} {m : ServerMessage} :
    stuckEntry rs id e = some (.ofResult m) ↔ (rebuiltFrom rs id).map Prod.snd = some m := by
  unfold stuckEntry
  cases rebuiltFrom rs id with
  | some x => simp [RequestEntry.ofResult]
  | none =>
    simp only
    repeat' split
    all_goals simp [RequestEntry.ofResult, RequestEntry.ofError]

/-- What becomes of the request of a marker whose second line is missing. -/
theorem between_entry_iff {clock : Nat → Nat} {R R₁ log : Records} {seen : String → Option (Option String)}
    {vs₁ vs₂ : List (PreparedRecord × RecoveryOutcome)} {p : PreparedRecord} {v : RecoveryOutcome} {now : Nat}
    (h : Resumed seen clock R R₁ log (vs₁ ++ [(p, v)]) vs₂) (hv₁ : (settle seen R₁).verdicts = vs₂)
    (hline : operationLine now (p, v) ∈ log) (hne : v ≠ .noOp) (e : Option RequestEntry) :
    settledEntry (settle seen R₁).records p.requestId
        (afterVerdicts p.requestId (afterVerdicts p.requestId e vs₁) vs₂) =
      settledEntry (settle seen R).records p.requestId
        (afterVerdicts p.requestId e (vs₁ ++ (p, v) :: vs₂)) ↔
    afterVerdicts p.requestId none vs₂ ≠ none ∨
      afterVerdicts p.requestId e vs₁ = verdictEntry (p, v) ∨
      v = .committed ∧ (afterVerdicts p.requestId e vs₁).any RequestEntry.isStuck = true ∧
        ∀ r ∈ R, committedFor p.requestId r = true → OlderRecord (.fs (committedFrom p now)) r := by
  obtain ⟨w, hw⟩ : ∃ w, verdictEntry (p, v) = some w := by
    cases v with
    | noOp => exact absurd rfl hne
    | committed => exact ⟨_, rfl⟩
    | conflict reason => exact ⟨_, rfl⟩
  have hwstuck := verdictEntry_not_stuck hw
  have hfull : afterVerdicts p.requestId e (vs₁ ++ (p, v) :: vs₂) =
      (afterVerdicts p.requestId none vs₂).or (some w) := by
    rw [afterVerdicts_append, ← afterVerdicts_eq_or, ← List.singleton_append, afterVerdicts_append]
    simp [afterVerdicts, hw]
  rw [hfull, afterVerdicts_eq_or p.requestId (afterVerdicts p.requestId e vs₁)]
  cases hopen : afterVerdicts p.requestId none vs₂ with
  | some e' =>
    obtain ⟨x, -, -, hx⟩ := exists_verdict hopen
    simp [settledEntry, verdictEntry_not_stuck hx]
  | none =>
    rw [Option.none_or, Option.none_or, hw]
    cases he₁ : afterVerdicts p.requestId e vs₁ with
    | none => simp [settledEntry, hwstuck]
    | some e₁ =>
      cases hstuck : e₁.isStuck with
      | false => simp [settledEntry, hwstuck, hstuck]
      | true =>
        have hne₁ : e₁ ≠ w := fun h => by rw [h, hwstuck] at hstuck; cases hstuck
        have hany : (afterVerdicts p.requestId e vs₁).any RequestEntry.isStuck = true := by
          rw [he₁]
          simpa using hstuck
        have hnot := not_committed_of_stuck hany
        have hopen' : ∀ q, (q, .committed) ∈ vs₂ → q.requestId ≠ p.requestId := fun q hq hid =>
          afterVerdicts_ne_none hq hid (by simp [verdictEntry]) hopen
        simp only [settledEntry, Option.bind_some, hstuck, if_true, hwstuck, Bool.false_eq_true, if_false,
          ne_eq, not_true_eq_false, Option.some.injEq, hne₁, false_or, Option.any_some, true_and]
        cases v with
        | noOp => exact absurd rfl hne
        | conflict reason =>
          cases hw
          exact iff_of_false stuckEntry_ne_conflict (by simp)
        | committed =>
          cases hw
          rw [stuckEntry_eq_ofResult, h.rebuilt_marker_iff hv₁ (by simp) hline ?_ hopen']
          · simp
          · intro q hq hid
            rcases List.mem_append.mp hq with hq | hq
            · exact absurd hid (hnot q hq)
            · simpa using hq

/-- Interrupted between the two lines of a marker, a recovery is made good
exactly if the later records still show what they showed and the second line
does not matter. -/
theorem restartSame_between_iff (hs : OperationStore.new d = .ok s)
    (hr : recover ws sha256 t b s = .ok r)
    {vs₁ vs₂ : List (PreparedRecord × RecoveryOutcome)} {p : PreparedRecord} {v : RecoveryOutcome}
    (hv : (settle (seenAt ws sha256 t) s.records).verdicts = vs₁ ++ (p, v) :: vs₂) (hne : v ≠ .noOp) :
    RestartSame ws sha256 t b' s r ((resolutions b 0 vs₁).length + 1) ↔
      StillShown ws sha256 t s r ((resolutions b 0 vs₁).length + 1) ∧
        RequestFixed s vs₁ p v vs₂ (b.clock (resolutions b 0 vs₁).length) := by
  obtain ⟨hd, hq⟩ := distinct_of_new hs
  have hspec := recovered_of_recover hd hq hr
  obtain ⟨qs, -, -, happ⟩ := hspec.appended
  let line := operationLine (b.clock (resolutions b 0 vs₁).length) (p, v)
  have htake : r.appended.take ((resolutions b 0 vs₁).length + 1) = resolutions b 0 vs₁ ++ [.operation line] := by
    rw [happ, hv, take_between b vs₁ vs₂ p hne 0, Nat.zero_add]
  have hv' : (settle (seenAt ws sha256 t) s.records).verdicts = (vs₁ ++ [(p, v)]) ++ vs₂ := by simp [hv]
  have hgiven : GivenAt b.clock (vs₁ ++ [(p, v)]) (operationsOf (resolutions b 0 vs₁ ++ [.operation line])) := by
    rw [operationsOf_append]
    exact List.rel_append (givenAt_resolutions b vs₁ 0) (.cons ⟨_, rfl⟩ .nil)
  have hline : line ∈ operationsOf (resolutions b 0 vs₁ ++ [.operation line]) := by
    rw [operationsOf_append]
    exact List.mem_append_right _ (List.mem_singleton.mpr rfl)
  obtain ⟨s₁, r₁, hs₁, hr₁, hres, hrec, hreq⟩ := restart_core b' hs hr _ hv' hgiven
  have hlook : ∀ id, ((resolutions b 0 vs₁ ++ [LogLine.operation line]).foldl OperationStore.record
        s).requests.lookup id = afterVerdicts id (s.requests.lookup id) vs₁ := by
    intro id
    rw [List.foldl_append, ← lookup_resolutions b id vs₁ 0 s]
    rfl
  rw [← htake] at hs₁
  rw [restartSame_iff_of_new hs₁ hr₁, stillShown_iff_of_new hs₁, SameTables, hrec]
  refine and_congr_right fun hshow => ?_
  have hv₁ := hres.verdicts_iff.mpr hshow
  rw [RequestFixed, ← between_entry_iff hres hv₁ hline hne]
  constructor
  · intro h
    have := h p.requestId
    rwa [hreq, hlook, hv₁, hspec.lookup, hv] at this
  · intro h id
    rw [hreq, hlook, hv₁, hspec.lookup, hv]
    by_cases hid : id = p.requestId
    · rw [hid]
      exact h
    · have hskip : afterVerdicts id (s.requests.lookup id) (vs₁ ++ (p, v) :: vs₂) =
          afterVerdicts id (afterVerdicts id (s.requests.lookup id) vs₁) vs₂ := by
        rw [afterVerdicts_append, ← List.singleton_append, afterVerdicts_append]
        simp [afterVerdicts, Ne.symm hid]
      rw [hskip]
      refine hres.settledEntry_eq hv₁ fun hstuck q hq => ?_
      rw [← hskip] at hstuck
      apply not_committed_of_stuck hstuck q
      rwa [List.append_assoc, List.singleton_append] at hq

/-- Interrupted anywhere else, a recovery is made good exactly if the later
records still show what they showed. -/
theorem restartSame_outside_iff (hs : OperationStore.new d = .ok s) (hr : recover ws sha256 t b s = .ok r)
    {m : Nat} {vs₁ vs₂ : List (PreparedRecord × RecoveryOutcome)}
    (hv : (settle (seenAt ws sha256 t) s.records).verdicts = vs₁ ++ vs₂)
    (htake : (resolutions b 0 (settle (seenAt ws sha256 t) s.records).verdicts).take m = resolutions b 0 vs₁) :
    RestartSame ws sha256 t b' s r m ↔ StillShown ws sha256 t s r m := by
  obtain ⟨hd, hq⟩ := distinct_of_new hs
  obtain ⟨qs, -, hqs, happ⟩ := (recovered_of_recover hd hq hr).appended
  rcases Nat.le_total m (resolutions b 0 (settle (seenAt ws sha256 t) s.records).verdicts).length with hm | hm
  · -- Within the lines of the markers.
    have hcut : r.appended.take m = resolutions b 0 vs₁ := by
      rw [happ, List.take_append_of_le_length hm, htake]
    refine restartSame_of_given hs hr hcut hv (givenAt_resolutions b vs₁ 0) fun id => ?_
    rw [lookup_resolutions, ← afterVerdicts_append]
    exact ⟨rfl, fun hstuck p hp => not_committed_of_stuck hstuck p (List.mem_append_left _ hp)⟩
  · -- Within those of the stuck requests.
    let stuck := qs.flatMap (stuckLines (settle (seenAt ws sha256 t) s.records).records)
    let ls := stuck.take (m - (resolutions b 0 (settle (seenAt ws sha256 t) s.records).verdicts).length)
    have hls : ∀ l ∈ ls, ∃ q ∈ qs, l ∈ stuckLines (settle (seenAt ws sha256 t) s.records).records q :=
      fun l hl => List.mem_flatMap.mp (List.mem_of_mem_take hl)
    have hcut : r.appended.take m =
        resolutions b 0 (settle (seenAt ws sha256 t) s.records).verdicts ++ ls := by
      rw [happ, List.take_append, List.take_of_length_le hm]
    refine restartSame_of_given hs hr hcut (List.append_nil _).symm ?_ fun id => ?_
    · rw [operationsOf_append, operationsOf_stuckLines hls, List.append_nil]
      exact givenAt_resolutions b _ 0
    · have hlook := lookup_stuckLines (fun q hq hid => hid ▸ ((hqs q).mp hq).symm) hls
        (.inl (lookup_resolutions b id (settle (seenAt ws sha256 t) s.records).verdicts 0 s))
      rw [List.foldl_append, List.append_nil]
      show settledEntry _ id (Requests.lookup _ id) = _ ∧
        (Option.any RequestEntry.isStuck (Requests.lookup _ id) = true → _)
      rcases hlook with hlook | ⟨e', he', hstuck, hlook⟩
      · rw [hlook]
        exact ⟨rfl, fun h => not_committed_of_stuck h⟩
      · rw [hlook, he']
        simp [settledEntry, hstuck]

/-- The verdicts that the first `m` lines of a recovery give. -/
theorem exists_given (hs : OperationStore.new d = .ok s) (hr : recover ws sha256 t b s = .ok r) (m : Nat) :
    ∃ given open', (settle (seenAt ws sha256 t) s.records).verdicts = given ++ open' ∧
      GivenAt b.clock given (operationsOf (r.appended.take m)) := by
  obtain ⟨hd, hq⟩ := distinct_of_new hs
  obtain ⟨qs, -, hqs, happ⟩ := (recovered_of_recover hd hq hr).appended
  rw [happ]
  rcases take_resolutions b (settle (seenAt ws sha256 t) s.records).verdicts 0 m with
    ⟨vs₁, vs₂, hv, htake⟩ | ⟨vs₁, p, v, vs₂, hv, hne, rfl⟩
  · rcases Nat.le_total m (resolutions b 0 (settle (seenAt ws sha256 t) s.records).verdicts).length with hm | hm
    · refine ⟨vs₁, vs₂, hv, ?_⟩
      rw [List.take_append_of_le_length hm, htake]
      exact givenAt_resolutions b vs₁ 0
    · refine ⟨_, [], (List.append_nil _).symm, ?_⟩
      rw [List.take_append, List.take_of_length_le hm, operationsOf_append,
        operationsOf_stuckLines fun l hl => List.mem_flatMap.mp (List.mem_of_mem_take hl), List.append_nil]
      exact givenAt_resolutions b _ 0
  · refine ⟨vs₁ ++ [(p, v)], vs₂, by simp [hv], ?_⟩
    rw [hv, take_between b vs₁ vs₂ p hne 0, operationsOf_append]
    exact List.rel_append (givenAt_resolutions b vs₁ 0) (.cons ⟨_, rfl⟩ .nil)

/-- With a clock that is ahead of the log, what was synthesized shows what it
showed. -/
theorem stillShown_of_clock (hs : OperationStore.new d = .ok s) (hr : recover ws sha256 t b s = .ok r)
    (hclock : ∀ k, ∀ x ∈ s.records, x.timestampMs < b.clock k) (m : Nat) : StillShown ws sha256 t s r m := by
  obtain ⟨given, open', hv, hgiven⟩ := exists_given hs hr m
  obtain ⟨s₁, r₁, hs₁, -, hres, -⟩ := restart_core b hs hr _ hv hgiven
  exact (stillShown_iff_of_new hs₁).mpr (hres.showsStill_of_clock hclock)

/-- A recovery that dies after `m` of its lines is made good by the next start
exactly if the records synthesized until then still show what they showed, and
it did not die between the two lines of a marker whose second line matters to
its request. -/
theorem restart_same_iff (hs : OperationStore.new d = .ok s) (hr : recover ws sha256 t b s = .ok r) (m : Nat) :
    RestartSame ws sha256 t b' s r m ↔ StillShown ws sha256 t s r m ∧
      ∀ vs₁ p v vs₂, (settle (seenAt ws sha256 t) s.records).verdicts = vs₁ ++ (p, v) :: vs₂ →
        v ≠ .noOp → m = (resolutions b 0 vs₁).length + 1 →
        RequestFixed s vs₁ p v vs₂ (b.clock (resolutions b 0 vs₁).length) := by
  have hcases := take_resolutions b (settle (seenAt ws sha256 t) s.records).verdicts 0 m
  constructor
  · intro h
    constructor
    · rcases hcases with ⟨vs₁, vs₂, hv, htake⟩ | ⟨vs₁, p, v, vs₂, hv, hne, rfl⟩
      · exact (restartSame_outside_iff hs hr hv htake).mp h
      · exact ((restartSame_between_iff hs hr hv hne).mp h).1
    · rintro vs₁ p v vs₂ hv hne rfl
      exact ((restartSame_between_iff hs hr hv hne).mp h).2
  · rintro ⟨hshow, hfixed⟩
    rcases hcases with ⟨vs₁, vs₂, hv, htake⟩ | ⟨vs₁, p, v, vs₂, hv, hne, rfl⟩
    · exact (restartSame_outside_iff hs hr hv htake).mpr hshow
    · exact (restartSame_between_iff hs hr hv hne).mpr ⟨hshow, hfixed vs₁ p v vs₂ hv hne rfl⟩

end

/-! ### An edit whose file is gone -/

def lostEdit : PreparedRecord where
  operationId := "op-1"
  requestId := "r1"
  kind := .edit
  path := "f"
  beforeHash := some "sha256:aa"
  expectedAfterHash := "sha256:bb"
  timestampMs := 1

/-- The state directory of a server that died with an edit under way, whose
file was then removed by someone else. -/
def interruptedEdit : LogDir :=
  { LogDir.empty with
    operations := .ofRecords [.prepared lostEdit]
    requests := .ofRecords [(RequestEntry.inProgress "edit").line "r1"] }

theorem restart_same_iff_interruptedEdit : ∃ s r, OperationStore.new interruptedEdit = .ok s ∧
    recover emptyWorkspace zeroDigest .bare plainStart s = .ok r ∧
    (RestartSame emptyWorkspace zeroDigest .bare plainStart s r 2 ↔
      StillShown emptyWorkspace zeroDigest .bare s r 2 ∧
        ∀ vs₁ p v vs₂, (settle (seenAt emptyWorkspace zeroDigest .bare) s.records).verdicts =
            vs₁ ++ (p, v) :: vs₂ →
          v ≠ .noOp → 2 = (resolutions plainStart 0 vs₁).length + 1 →
          RequestFixed s vs₁ p v vs₂ (plainStart.clock (resolutions plainStart 0 vs₁).length)) :=
  ⟨_, _, rfl, rfl, restart_same_iff (d := interruptedEdit) rfl rfl 2⟩

/-- A recovery that died after withdrawing the marker has not failed the
request: the next start forgets it, so that it can be sent and run again. -/
theorem interrupted_conflict_cleared : ∃ s r, OperationStore.new interruptedEdit = .ok s ∧
    recover emptyWorkspace zeroDigest .bare plainStart s = .ok r ∧
    r.store.requests.lookup "r1" = some (.ofError (conflictError lostEdit
      "file expected to exist after mutation but is absent")) ∧
    (∃ s₁ r₁, OperationStore.new ((r.appended.take 1).foldl LogDir.writeLine s.dir) = .ok s₁ ∧
      recover emptyWorkspace zeroDigest .bare plainStart s₁ = .ok r₁ ∧
      r₁.store.requests.lookup "r1" = none) ∧
    ¬ RestartSame emptyWorkspace zeroDigest .bare plainStart s r 1 := by
  refine ⟨_, _, rfl, rfl, by decide, ⟨_, _, rfl, rfl, by decide⟩, fun h => ?_⟩
  have hfixed : RequestFixed _ [] lostEdit _ [] _ :=
    ((restartSame_between_iff (d := interruptedEdit) rfl rfl rfl (by decide)).mp h).2
  rcases hfixed with hopen | hentry | ⟨hcommitted, -⟩
  · revert hopen
    decide
  · revert hentry
    decide
  · revert hcommitted
    decide

end RemoteWorkspace
