import RemoteWorkspace.Store.StartUp

/-!
# What a recovery concludes of each marker

`recover` reports what it did as a list of actions. `verdictOn` reads the one
on a marker off that list, and `verdictOn_of_recover` says that it is the
verdict of `settle`. `mem_verdicts_iff` says on what a verdict rests: what the
path of the marker shows, and the settled records behind the marker. `Shown`
says what those show in terms of the table before recovery.
-/

namespace RemoteWorkspace

open Keyed

/-! ## A table once it is settled -/

section

variable (seen : String → Option (Option String))

theorem verdicts_map_fst (rs : Records) :
    (settle seen rs).verdicts.map Prod.fst = (markersOf rs).reverse := by
  induction rs with
  | nil => rfl
  | cons r rs ih =>
    cases hr : isPending r with
    | false => rw [settle_cons_of_not_pending hr, markersOf_cons_of_not_pending hr, ih]
    | true =>
      cases r <;> cases hr
      simp [settle, ih]

theorem mem_settle {rs : Records} {y : AnyOperationRecord} : y ∈ (settle seen rs).records ↔
    y ∈ rs ∧ isPending y = false ∨
      ∃ p, (p, .committed) ∈ (settle seen rs).verdicts ∧ y = .fs (committedFrom p 0) := by
  induction rs with
  | nil => simp [settle]
  | cons r rs ih =>
    cases hr : isPending r with
    | false =>
      rw [settle_cons_of_not_pending hr, List.mem_cons, ih, List.mem_cons]
      constructor
      · rintro (rfl | ⟨h, h'⟩ | h)
        · exact .inl ⟨.inl rfl, hr⟩
        · exact .inl ⟨.inr h, h'⟩
        · exact .inr h
      · rintro (⟨rfl | h, h'⟩ | h)
        · exact .inl rfl
        · exact .inr (.inl ⟨h, h'⟩)
        · exact .inr (.inr h)
    | true =>
      cases r with
      | prepared p =>
        have hne : y = .prepared p → isPending y = false → False := by
          rintro rfl h
          cases h
        simp only [settle, List.mem_cons, List.mem_append, Prod.mk.injEq, List.not_mem_nil, or_false]
        split
        · rename_i hv
          rw [List.mem_cons, ih, hv]
          constructor
          · rintro (rfl | ⟨h, h'⟩ | ⟨q, hq, h⟩)
            · exact .inr ⟨p, .inr ⟨rfl, rfl⟩, rfl⟩
            · exact .inl ⟨.inr h, h'⟩
            · exact .inr ⟨q, .inl hq, h⟩
          · rintro (⟨h | h, h'⟩ | ⟨q, hq | ⟨rfl, -⟩, h⟩)
            · exact (hne h h').elim
            · exact .inr (.inl ⟨h, h'⟩)
            · exact .inr (.inr ⟨q, hq, h⟩)
            · exact .inl h
        · rename_i hv
          rw [ih]
          constructor
          · rintro (⟨h, h'⟩ | ⟨q, hq, h⟩)
            · exact .inl ⟨.inr h, h'⟩
            · exact .inr ⟨q, .inl hq, h⟩
          · rintro (⟨h | h, h'⟩ | ⟨q, hq | ⟨-, hv'⟩, h⟩)
            · exact (hne h h').elim
            · exact .inl ⟨h, h'⟩
            · exact .inr ⟨q, hq, h⟩
            · exact absurd hv'.symm hv
      | _ => cases hr

end

theorem mem_markersOf_of_verdict {seen : String → Option (Option String)} {rs : Records}
    {x : PreparedRecord × RecoveryOutcome} (hx : x ∈ (settle seen rs).verdicts) :
    .prepared x.1 ∈ rs := by
  have : x.1 ∈ (settle seen rs).verdicts.map Prod.fst := List.mem_map_of_mem hx
  rw [verdicts_map_fst, List.mem_reverse] at this
  exact mem_markersOf.mp this

theorem map_markersOf (rs : Records) : (markersOf rs).map AnyOperationRecord.prepared = rs.filter isPending := by
  induction rs with
  | nil => rfl
  | cons r rs ih =>
    cases hr : isPending r with
    | false => rw [markersOf_cons_of_not_pending hr, List.filter_cons_of_neg (by simp [hr]), ih]
    | true =>
      rw [List.filter_cons_of_pos hr, ← ih]
      cases r <;> cases hr
      rfl

/-- The operation ids of the verdicts on a table are distinct. -/
theorem nodup_verdict_ids {seen : String → Option (Option String)} {rs : Records} (hd : DistinctIds rs) :
    ((settle seen rs).verdicts.map fun x => x.1.operationId).Nodup := by
  have hmap : ((settle seen rs).verdicts.map fun x => x.1.operationId) =
      (((markersOf rs).map AnyOperationRecord.prepared).map AnyOperationRecord.operationId).reverse := by
    rw [List.map_map, ← List.map_reverse, ← verdicts_map_fst seen, List.map_map]
    rfl
  rw [hmap, List.nodup_reverse, map_markersOf]
  exact (List.filter_sublist.map _).nodup hd

theorem get_map_untimed (rs : Records) (id : String) :
    get AnyOperationRecord.operationId id (rs.map untimed) =
      (get AnyOperationRecord.operationId id rs).map untimed := by
  have hkey : (fun r : AnyOperationRecord => decide (r.operationId = id)) ∘ untimed =
      fun r => decide (r.operationId = id) := funext fun r => by simp
  rw [Keyed.get, List.find?_map, hkey, Keyed.get]

/-- Two tables with the same records but for times and order. -/
theorem get_untimed_congr {xs ys : Records} (hx : DistinctIds xs) (hy : DistinctIds ys)
    (h : ∀ u, u ∈ xs.map untimed ↔ u ∈ ys.map untimed) (id : String) :
    (get AnyOperationRecord.operationId id xs).map untimed = (get AnyOperationRecord.operationId id ys).map untimed := by
  have hdist : ∀ {zs : Records}, DistinctIds zs → DistinctIds (zs.map untimed) := by
    intro zs hz
    rw [DistinctIds, Distinct, List.map_map]
    rwa [show AnyOperationRecord.operationId ∘ untimed = AnyOperationRecord.operationId from funext operationId_untimed]
  rw [← get_map_untimed, ← get_map_untimed]
  apply Option.ext
  intro u
  rw [get_eq_some_iff (hdist hx), get_eq_some_iff (hdist hy), h]

/-- Whether a record is the committed record of a request. -/
def committedFor (id : String) (r : AnyOperationRecord) : Bool :=
  r.isCommitted && recordRequestId r = some id

@[simp] theorem committedFor_untimed (id : String) (r : AnyOperationRecord) :
    committedFor id (untimed r) = committedFor id r := by
  simp [committedFor]

theorem rebuiltFrom_eq (rs : Records) (id : String) : rebuiltFrom rs id =
    (rs.find? (committedFor id)).bind fun r => (reconstructResult r).map (r.operationId, ·) := rfl

/-! ## What a recovery reports -/

/-- The operation that an action is about. -/
def RecoveryAction.operationId? : RecoveryAction → Option String
  | dropped id => some id
  | synthesized id => some id
  | conflict id _ => some id
  | clearedStuck _ => none
  | stuckExecMarkedError _ => none

/-- What a recovery reported of an operation, the first time it did. -/
def Recovery.verdictOn (r : Recovery) (id : String) : Option RecoveryAction :=
  r.actions.find? fun a => a.operationId? = some id

@[simp] theorem operationId?_verdictAction (seen : String → Option (Option String))
    (x : PreparedRecord × RecoveryOutcome) : (verdictAction seen x).operationId? = some x.1.operationId := by
  obtain ⟨p, _ | _ | _⟩ := x <;> rfl

theorem actions_foldl_recoverRequest (qs : Requests) (r : Recovery) :
    ∃ rest, (qs.foldl recoverRequest r).actions = r.actions ++ rest := by
  induction qs generalizing r with
  | nil => exact ⟨[], (List.append_nil _).symm⟩
  | cons q qs ih =>
    obtain ⟨rest, h⟩ := ih (recoverRequest r q)
    have hstep : ∃ a, (recoverRequest r q).actions = r.actions ++ [a] := by
      unfold recoverRequest
      split
      · exact ⟨_, rfl⟩
      · split
        · exact ⟨_, rfl⟩
        · split
          · exact ⟨_, rfl⟩
          · exact ⟨_, rfl⟩
    obtain ⟨a, ha⟩ := hstep
    exact ⟨a :: rest, by rw [List.foldl_cons, h, ha, List.append_assoc, List.singleton_append]⟩

section

variable {ws : Workspace} {sha256 : Sha256} {t : Tree} {b : Start} {s : OperationStore} {r : Recovery}

/-- A recovery reports of a marker the verdict on it. -/
theorem verdictOn_of_recover (hd : DistinctIds s.records) (h : recover ws sha256 t b s = .ok r)
    {x : PreparedRecord × RecoveryOutcome} (hx : x ∈ (settle (seenAt ws sha256 t) s.records).verdicts) :
    r.verdictOn x.1.operationId = some (verdictAction (seenAt ws sha256 t) x) := by
  obtain ⟨r₀, hr₀, -, -, -, -, hact⟩ := recoverMarkers_spec (b := b) hd (readable_of_recover h)
  rw [recover, hr₀] at h
  obtain ⟨rest, hrest⟩ := actions_foldl_recoverRequest ((b.order r₀.store.requests).filter (·.2.isStuck)) r₀
  have hactions : r.actions = r₀.actions ++ rest := by
    rw [← hrest]
    exact congrArg Recovery.actions (Except.ok.inj h).symm
  have hmem : verdictAction (seenAt ws sha256 t) x ∈
      (settle (seenAt ws sha256 t) s.records).verdicts.map (verdictAction (seenAt ws sha256 t)) :=
    List.mem_map_of_mem hx
  have hdist : Distinct RecoveryAction.operationId?
      ((settle (seenAt ws sha256 t) s.records).verdicts.map (verdictAction (seenAt ws sha256 t))) := by
    rw [Distinct, List.map_map]
    have hids : RecoveryAction.operationId? ∘ verdictAction (seenAt ws sha256 t) =
        some ∘ fun y : PreparedRecord × RecoveryOutcome => y.1.operationId := funext fun y => by simp
    rw [hids, ← List.map_map]
    exact (nodup_verdict_ids hd).map (Option.some_injective String)
  have hget := get_of_mem hdist hmem
  rw [operationId?_verdictAction] at hget
  rw [Recovery.verdictOn, hactions, hact, List.find?_append]
  exact (congrArg (Option.or · _) hget).trans rfl

end

/-! ## What a verdict rests on -/

/-- The verdict on a marker that only its file tells of. -/
def aloneVerdict (seen : String → Option (Option String)) (p : PreparedRecord) : RecoveryOutcome :=
  verdict (seen p.path) false p

theorem verdict_true {shown : Option (Option String)} (h : shown ≠ none) (p : PreparedRecord) :
    verdict shown true p = .committed := by
  cases shown with
  | none => exact absurd rfl h
  | some current => rfl

/-- What a marker's file shows needs no record to confirm it. -/
theorem verdict_of_alone {seen : String → Option (Option String)} {p : PreparedRecord}
    (h : aloneVerdict seen p = .committed) (c : Bool) : verdict (seen p.path) c p = .committed := by
  cases c with
  | false => exact h
  | true =>
    refine verdict_true (fun hs => ?_) p
    rw [aloneVerdict, hs] at h
    cases h

theorem verdict_eq_committed_iff {seen : String → Option (Option String)} {p : PreparedRecord} {c : Bool} :
    verdict (seen p.path) c p = .committed ↔
      aloneVerdict seen p = .committed ∨ seen p.path ≠ none ∧ c = true := by
  constructor
  · intro h
    cases c with
    | false => exact .inl h
    | true =>
      refine .inr ⟨fun hs => ?_, rfl⟩
      rw [hs] at h
      cases h
  · rintro (h | ⟨hs, rfl⟩)
    · exact verdict_of_alone h c
    · exact verdict_true hs p

section

variable {seen : String → Option (Option String)} {rs : Records} {p : PreparedRecord} {v : RecoveryOutcome}

/-- A verdict rests on what the path of its marker shows, and on whether one
of the settled records behind the marker continues it. -/
theorem mem_verdicts_iff : (p, v) ∈ (settle seen rs).verdicts ↔ ∃ A B, rs = A ++ .prepared p :: B ∧
    v = verdict (seen p.path) ((settle seen B).records.any (continues p)) p := by
  induction rs with
  | nil => simp [settle]
  | cons r rs ih =>
    have hlift : (∃ A B, rs = A ++ .prepared p :: B ∧
          v = verdict (seen p.path) ((settle seen B).records.any (continues p)) p) →
        ∃ A B, r :: rs = A ++ .prepared p :: B ∧
          v = verdict (seen p.path) ((settle seen B).records.any (continues p)) p := by
      rintro ⟨A, B, rfl, hv⟩
      exact ⟨r :: A, B, rfl, hv⟩
    cases hr : isPending r with
    | false =>
      rw [settle_cons_of_not_pending hr, ih]
      refine ⟨hlift, ?_⟩
      rintro ⟨_ | ⟨x, A⟩, B, hAB, hv⟩
      · cases hAB
        cases hr
      · cases hAB
        exact ⟨A, B, rfl, hv⟩
    | true =>
      cases r with
      | prepared q =>
        simp only [settle, List.mem_append, List.mem_singleton, Prod.mk.injEq]
        constructor
        · rintro (h | ⟨rfl, hv⟩)
          · exact hlift (ih.mp h)
          · exact ⟨[], rs, rfl, hv⟩
        · rintro ⟨_ | ⟨x, A⟩, B, hAB, hv⟩
          · cases hAB
            exact .inr ⟨rfl, hv⟩
          · cases hAB
            exact .inl (ih.mpr ⟨A, B, rfl, hv⟩)
      | _ => cases hr

theorem exists_verdict_of_marker (seen : String → Option (Option String)) (h : .prepared p ∈ rs) :
    ∃ v, (p, v) ∈ (settle seen rs).verdicts := by
  obtain ⟨A, B, rfl⟩ := List.append_of_mem h
  exact ⟨_, mem_verdicts_iff.mpr ⟨A, B, rfl, rfl⟩⟩

end

/-! ## What the later records show -/

/-- That the records later than a marker show that it landed: a committed one
continues it, or a marker does that is itself known to have landed, by its file
or by records later than it. -/
inductive Shown (seen : String → Option (Option String)) (rs : Records) : PreparedRecord → Prop where
  | record {p : PreparedRecord} {x : AnyOperationRecord} (hx : x ∈ rs) (hlater : OlderRecord (.prepared p) x)
      (hx' : isPending x = false) (hc : continues p x = true) : Shown seen rs p
  | marker {p q : PreparedRecord} (hq : .prepared q ∈ rs) (hlater : OlderRecord (.prepared p) (.prepared q))
      (hc : continues p (.fs (committedFrom q 0)) = true) (hq' : aloneVerdict seen q = .committed) :
      Shown seen rs p
  | chain {p q : PreparedRecord} (hq : .prepared q ∈ rs) (hlater : OlderRecord (.prepared p) (.prepared q))
      (hc : continues p (.fs (committedFrom q 0)) = true) (hseen : seen q.path ≠ none)
      (hq' : Shown seen rs q) : Shown seen rs p

section

variable {seen : String → Option (Option String)} {rs rs' A B : Records} {p : PreparedRecord}

theorem mem_behind (hrs : (A ++ .prepared p :: B).Pairwise OlderRecord) {x : AnyOperationRecord}
    (hx : x ∈ A ++ .prepared p :: B) (hlater : OlderRecord (.prepared p) x) : x ∈ B := by
  rcases List.mem_append.mp hx with hxA | hx
  · have := (List.pairwise_append.mp hrs).2.2 x hxA _ List.mem_cons_self
    exact absurd (hlater.trans this) Older.irrefl
  · rcases List.mem_cons.mp hx with rfl | hxB
    · exact absurd hlater Older.irrefl
    · exact hxB

theorem later_of_behind (hrs : (A ++ .prepared p :: B).Pairwise OlderRecord) {x : AnyOperationRecord}
    (hx : x ∈ B) : OlderRecord (.prepared p) x :=
  (List.pairwise_cons.mp (List.pairwise_append.mp hrs).2.1).1 x hx

/-- What is shown is what recovery finds behind the marker once it has settled
the records there. -/
theorem continued_of_shown (h : Shown seen rs p) (hrs : rs.Pairwise OlderRecord) :
    ∀ A B, rs = A ++ .prepared p :: B → (settle seen B).records.any (continues p) = true := by
  induction h with
  | @record p x hx hlater hx' hc =>
    rintro A B rfl
    exact List.any_eq_true.mpr ⟨x, (mem_settle _).mpr (.inl ⟨mem_behind hrs hx hlater, hx'⟩), hc⟩
  | @marker p q hq hlater hc hq' =>
    rintro A B rfl
    obtain ⟨A', B', rfl⟩ := List.append_of_mem (mem_behind hrs hq hlater)
    have hv : (q, .committed) ∈ (settle seen (A' ++ .prepared q :: B')).verdicts :=
      mem_verdicts_iff.mpr ⟨A', B', rfl, (verdict_of_alone hq' _).symm⟩
    exact List.any_eq_true.mpr ⟨_, (mem_settle _).mpr (.inr ⟨q, hv, rfl⟩), hc⟩
  | @chain p q hq hlater hc hseen _ ih =>
    rintro A B rfl
    obtain ⟨A', B', rfl⟩ := List.append_of_mem (mem_behind hrs hq hlater)
    have hany := ih (A ++ .prepared p :: A') B' (by simp)
    have hv : (q, .committed) ∈ (settle seen (A' ++ .prepared q :: B')).verdicts :=
      mem_verdicts_iff.mpr ⟨A', B', rfl, by rw [hany, verdict_true hseen]⟩
    exact List.any_eq_true.mpr ⟨_, (mem_settle _).mpr (.inr ⟨q, hv, rfl⟩), hc⟩

theorem shown_of_continued (hrs : rs.Pairwise OlderRecord) : ∀ A B p, rs = A ++ .prepared p :: B →
    (settle seen B).records.any (continues p) = true → Shown seen rs p := by
  -- By induction on what is behind the marker.
  intro A B
  induction hn : B.length using Nat.strong_induction_on generalizing A B with
  | _ n ih =>
    rintro p rfl hany
    obtain ⟨y, hy, hc⟩ := List.any_eq_true.mp hany
    rcases (mem_settle _).mp hy with ⟨hy, hpend⟩ | ⟨q, hq, rfl⟩
    · exact .record (by simp [hy]) (later_of_behind hrs hy) hpend hc
    · have hqB := mem_markersOf_of_verdict hq
      have hlater := later_of_behind hrs hqB
      obtain ⟨A', B', rfl, hv⟩ := mem_verdicts_iff.mp hq
      rcases verdict_eq_committed_iff.mp hv.symm with halone | ⟨hseen, hany'⟩
      · exact .marker (by simp) hlater hc halone
      · refine .chain (by simp) hlater hc hseen ?_
        exact ih B'.length (by simp at hn; omega) (A ++ .prepared p :: A') B' rfl q (by simp) hany'

/-- The verdict on a marker of a table in order, by what its file and the later
records show. -/
theorem verdict_committed_iff_shown (hrs : rs.Pairwise OlderRecord) {v : RecoveryOutcome}
    (hv : (p, v) ∈ (settle seen rs).verdicts) :
    v = .committed ↔ aloneVerdict seen p = .committed ∨ seen p.path ≠ none ∧ Shown seen rs p := by
  obtain ⟨A, B, hAB, rfl⟩ := mem_verdicts_iff.mp hv
  rw [verdict_eq_committed_iff]
  refine or_congr_right (and_congr_right fun _ => ⟨fun h => ?_, fun h => ?_⟩)
  · exact shown_of_continued hrs A B p hAB h
  · exact continued_of_shown h hrs A B hAB

/-- A marker that neither its file nor a record shows to have landed gets the
verdict of its file. -/
theorem verdict_of_not_committed {v : RecoveryOutcome} (hv : (p, v) ∈ (settle seen rs).verdicts)
    (hne : v ≠ .committed) : v = aloneVerdict seen p := by
  obtain ⟨A, B, hAB, rfl⟩ := mem_verdicts_iff.mp hv
  cases hc : (settle seen B).records.any (continues p) with
  | false => rw [aloneVerdict]
  | true =>
    cases hseen : seen p.path with
    | none => rw [aloneVerdict, hseen]; rfl
    | some current =>
      rw [hc, verdict_true (by simp [hseen])] at hne
      exact absurd rfl hne

/-- The verdicts of two tables on a marker of both agree exactly if its file
decides it, or the later records show the same in both. -/
theorem verdicts_agree_iff {seen : String → Option (Option String)} {F K : Records} {p : PreparedRecord}
    {v w : RecoveryOutcome} (hF : F.Pairwise OlderRecord) (hK : K.Pairwise OlderRecord)
    (hv : (p, v) ∈ (settle seen F).verdicts) (hw : (p, w) ∈ (settle seen K).verdicts) :
    v = w ↔ (seen p.path ≠ none → aloneVerdict seen p ≠ .committed → (Shown seen F p ↔ Shown seen K p)) := by
  have hvF := verdict_committed_iff_shown hF hv
  have hwK := verdict_committed_iff_shown hK hw
  constructor
  · rintro rfl hseen halone
    rw [hvF] at hwK
    simpa [hseen, halone] using hwK
  · intro h
    have hiff : v = .committed ↔ w = .committed := by
      rw [hvF, hwK]
      by_cases hseen : seen p.path = none
      · simp [hseen]
      · by_cases halone : aloneVerdict seen p = .committed
        · simp [halone]
        · rw [h hseen halone]
    by_cases hc : v = .committed
    · rw [hc, hiff.mp hc]
    · rw [verdict_of_not_committed hv hc, verdict_of_not_committed hw fun hw => hc (hiff.mpr hw)]

theorem committed_or_alone {seen : String → Option (Option String)} {rs : Records} {p : PreparedRecord}
    {v : RecoveryOutcome} (hv : (p, v) ∈ (settle seen rs).verdicts) :
    v = .committed ∨ v = aloneVerdict seen p :=
  (em (v = .committed)).imp_right (verdict_of_not_committed hv)

end

end RemoteWorkspace
