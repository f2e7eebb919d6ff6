import RemoteWorkspace.Store.Conclusions
import RemoteWorkspace.Store.Landed

/-!
# The times in a log of operations

Loading puts the records in the order of their times, and `continued_from`
reads "later" off that order. So the wall clock has a say in what recovery
concludes: `verdicts_ignore_times_iff` says for which tables it has none. Two
directories that differ in times only load as tables that are, times aside,
permutations of each other, and every order of a table is that of some times.
-/

namespace RemoteWorkspace

open Keyed

/-- Two state directories with the same lines but for the times in the log of
operations. -/
def SameButTimes (d d' : LogDir) : Prop :=
  d.operations.map untimed = d'.operations.map untimed ∧ d.requests = d'.requests ∧
    d.opCounter = d'.opCounter

section

variable (ws : Workspace) (sha256 : Sha256) (t : Tree)

/-- That no other times in the log, read on any day, change the verdict on a
marker or the status of a request after a recovery. -/
def VerdictsIgnoreTimes (d : LogDir) : Prop :=
  ∀ d' s s' b b' r, SameButTimes d d' → OperationStore.new d = .ok s → OperationStore.new d' = .ok s' →
    recover ws sha256 t b s = .ok r → ∃ r', recover ws sha256 t b' s' = .ok r' ∧
      (∀ p, .prepared p ∈ s.records → r'.verdictOn p.operationId = r.verdictOn p.operationId) ∧
      ∀ id, (r'.store.statusForRequest id).status = (r.store.statusForRequest id).status

end

/-- The record that stands in the table for one of its records whatever is
behind it: a marker only if its own file shows that it landed. -/
def settledAlone (seen : String → Option (Option String)) : AnyOperationRecord → Option AnyOperationRecord
  | .prepared p => if aloneVerdict seen p = .committed then some (.fs (committedFrom p 0)) else none
  | r => some r

/-- That no record of a table, before or behind, could be taken for the
continuation of a marker whose own file does not show that it landed. -/
def Evident (seen : String → Option (Option String)) (rs : Records) : Prop :=
  ∀ p, .prepared p ∈ rs → seen p.path ≠ none → aloneVerdict seen p ≠ .committed →
    ∀ x ∈ rs, ∀ y, settledAlone seen x = some y → continues p y = false

/-- That nothing in a table depends on its order: no continuation is mistaken,
and no two markers end one request in different ways. -/
structure Unmistakable (seen : String → Option (Option String)) (rs : Records) : Prop where
  evident : Evident seen rs
  requests : ∀ p q, .prepared p ∈ rs → .prepared q ∈ rs → p.requestId = q.requestId →
    aloneVerdict seen p ≠ .noOp → aloneVerdict seen q ≠ .noOp →
    (aloneVerdict seen p = .committed ↔ aloneVerdict seen q = .committed)

/-! ## Tables that are permutations of each other, times aside -/

/-- The same records with other times, in any order. -/
def Retimed (rs rs' : Records) : Prop := (rs.map untimed).Perm (rs'.map untimed)

section

variable {seen : String → Option (Option String)} {rs rs' : Records} {p q : PreparedRecord}

theorem Retimed.exists_of_mem (h : Retimed rs rs') {x : AnyOperationRecord} (hx : x ∈ rs) :
    ∃ x' ∈ rs', untimed x' = untimed x :=
  List.mem_map.mp (h.mem_iff.mp (List.mem_map_of_mem hx))

/-- A marker without its time. -/
def PreparedRecord.untimed (p : PreparedRecord) : PreparedRecord := { p with timestampMs := 0 }

theorem untimed_eq_prepared {x : AnyOperationRecord} (h : untimed x = untimed (.prepared p)) :
    ∃ q, x = .prepared q ∧ q.untimed = p.untimed := by
  cases x with
  | prepared q => exact ⟨q, rfl, AnyOperationRecord.prepared.inj h⟩
  | _ => cases h

theorem Retimed.exists_marker (h : Retimed rs rs') (hp : .prepared p ∈ rs) :
    ∃ q, .prepared q ∈ rs' ∧ q.untimed = p.untimed := by
  obtain ⟨x, hx, hxp⟩ := h.exists_of_mem hp
  obtain ⟨q, rfl, hq⟩ := untimed_eq_prepared hxp
  exact ⟨q, hx, hq⟩

/-- What recovery reads of a marker, its time not being part of it. -/
theorem marker_congr (h : q.untimed = p.untimed) : q.operationId = p.operationId ∧
    q.requestId = p.requestId ∧ q.path = p.path ∧ q.beforeHash = p.beforeHash ∧
    q.expectedAfterHash = p.expectedAfterHash ∧ committedFrom q 0 = committedFrom p 0 := by
  obtain ⟨operationId, requestId, kind, path, beforeHash, expectedAfterHash, time⟩ := p
  obtain ⟨operationId', requestId', kind', path', beforeHash', expectedAfterHash', time'⟩ := q
  simp only [PreparedRecord.untimed, PreparedRecord.mk.injEq] at h
  simp [committedFrom, h]

theorem aloneVerdict_congr (h : q.untimed = p.untimed) : aloneVerdict seen q = aloneVerdict seen p := by
  obtain ⟨-, -, hpath, hbefore, hafter, -⟩ := marker_congr h
  rw [aloneVerdict, aloneVerdict, hpath]
  cases seen p.path with
  | none => rfl
  | some current => simp only [verdict, judge, hbefore, hafter]

theorem continues_congr (h : q.untimed = p.untimed) : continues q = continues p := by
  obtain ⟨-, -, hpath, -, hafter, -⟩ := marker_congr h
  funext r
  cases r <;> simp [continues, hpath, hafter]

theorem verdictAction_congr (h : q.untimed = p.untimed) (v : RecoveryOutcome) :
    verdictAction seen (q, v) = verdictAction seen (p, v) := by
  obtain ⟨hid, -, hpath, -, -, -⟩ := marker_congr h
  cases v <;> simp only [verdictAction, hid, hpath]

theorem settledAlone_of_not_pending {x : AnyOperationRecord} (h : isPending x = false) :
    settledAlone seen x = some x := by
  cases x with
  | prepared p => cases h
  | _ => rfl

/-- What stands for a record and for the same record at another time. -/
theorem settledAlone_congr {x x' y : AnyOperationRecord} (h : untimed x' = untimed x)
    (hy : settledAlone seen x = some y) : ∃ y', settledAlone seen x' = some y' ∧ untimed y' = untimed y := by
  have hpending : isPending x' = isPending x := by rw [← isPending_untimed, h, isPending_untimed]
  cases hx : isPending x with
  | false =>
    rw [settledAlone_of_not_pending hx] at hy
    cases hy
    exact ⟨x', settledAlone_of_not_pending (hpending.trans hx), h⟩
  | true =>
    cases x with
    | prepared p =>
      obtain ⟨q, rfl, hq⟩ := untimed_eq_prepared h
      refine ⟨y, ?_, rfl⟩
      rwa [settledAlone, aloneVerdict_congr hq, (marker_congr hq).2.2.2.2.2]
    | _ => cases hx

theorem Retimed.evident (h : Retimed rs rs') (he : Evident seen rs) : Evident seen rs' := by
  intro p hp hseen halone x hx y hy
  obtain ⟨q, hq, hqp⟩ := Retimed.exists_marker h.symm hp
  obtain ⟨x', hx', hxx'⟩ := Retimed.exists_of_mem h.symm hx
  obtain ⟨y', hy', hyy'⟩ := settledAlone_congr hxx' hy
  have hcont := he q hq (by rwa [(marker_congr hqp).2.2.1]) (by rwa [aloneVerdict_congr hqp]) x' hx' y' hy'
  rwa [continues_congr hqp, ← continues_untimed, hyy', continues_untimed] at hcont

theorem Retimed.unmistakable (h : Retimed rs rs') (hu : Unmistakable seen rs) : Unmistakable seen rs' where
  evident := h.evident hu.evident
  requests p q hp hq hid hp' hq' := by
    obtain ⟨p₁, hp₁, hpp₁⟩ := Retimed.exists_marker h.symm hp
    obtain ⟨q₁, hq₁, hqq₁⟩ := Retimed.exists_marker h.symm hq
    have := hu.requests p₁ q₁ hp₁ hq₁
      (by rw [(marker_congr hpp₁).2.1, (marker_congr hqq₁).2.1, hid])
      (by rwa [aloneVerdict_congr hpp₁]) (by rwa [aloneVerdict_congr hqq₁])
    rwa [aloneVerdict_congr hpp₁, aloneVerdict_congr hqq₁] at this

/-! ## What does not depend on the order -/

/-- Every verdict is the one that the marker's own file gives. -/
theorem Evident.verdict_eq (he : Evident seen rs) {v : RecoveryOutcome}
    (hv : (p, v) ∈ (settle seen rs).verdicts) : v = aloneVerdict seen p := by
  -- By induction on the part of the table behind the marker.
  suffices h : ∀ B : Records, (∀ x ∈ B, x ∈ rs) → ∀ p v, (p, v) ∈ (settle seen B).verdicts →
      v = aloneVerdict seen p from h rs (fun _ hx => hx) p v hv
  intro B
  induction B with
  | nil => intro _ p v hv; cases hv
  | cons r B ih =>
    intro hsub p v hv
    have hsubB : ∀ x ∈ B, x ∈ rs := fun x hx => hsub x (List.mem_cons_of_mem _ hx)
    cases hr : isPending r with
    | false =>
      rw [settle_cons_of_not_pending hr] at hv
      exact ih hsubB p v hv
    | true =>
      cases r with
      | prepared q =>
        simp only [settle, List.mem_append, List.mem_singleton, Prod.mk.injEq] at hv
        rcases hv with hv | ⟨rfl, rfl⟩
        · exact ih hsubB p v hv
        · have hnone : seen p.path ≠ none → aloneVerdict seen p ≠ .committed →
              (settle seen B).records.any (continues p) = false := by
            intro hseen halone
            refine List.any_eq_false.mpr fun y hy => ?_
            rw [Bool.not_eq_true]
            rcases (mem_settle _).mp hy with ⟨hy, hpend⟩ | ⟨q, hq, rfl⟩
            · exact he p (hsub _ List.mem_cons_self) hseen halone y (hsubB y hy) y
                (settledAlone_of_not_pending hpend)
            · have hqalone : aloneVerdict seen q = .committed := (ih hsubB q _ hq).symm
              have hqmem : .prepared q ∈ rs := hsubB _ (mem_markersOf_of_verdict hq)
              exact he p (hsub _ List.mem_cons_self) hseen halone _ hqmem _ (by rw [settledAlone, if_pos hqalone])
          by_cases hcommitted : aloneVerdict seen p = .committed
          · rw [verdict_of_alone hcommitted, hcommitted]
          · cases hseen : seen p.path with
            | none => rw [aloneVerdict, hseen]; rfl
            | some current =>
              rw [hnone (by simp [hseen]) hcommitted, aloneVerdict, hseen]
      | _ => cases hr

theorem Retimed.settle (h : Retimed rs rs') (hu : Unmistakable seen rs) {y : AnyOperationRecord}
    (hy : y ∈ (RemoteWorkspace.settle seen rs).records) :
    ∃ y' ∈ (RemoteWorkspace.settle seen rs').records, untimed y' = untimed y := by
  rcases (mem_settle _).mp hy with ⟨hy, hpend⟩ | ⟨p, hp, rfl⟩
  · obtain ⟨y', hy', hyy'⟩ := h.exists_of_mem hy
    exact ⟨y', (mem_settle _).mpr (.inl ⟨hy', by rw [← isPending_untimed, hyy', isPending_untimed, hpend]⟩), hyy'⟩
  · obtain ⟨q, hq, hqp⟩ := h.exists_marker (mem_markersOf_of_verdict hp)
    obtain ⟨v, hv⟩ := exists_verdict_of_marker seen hq
    have : v = .committed := by
      rw [(h.evident hu.evident).verdict_eq hv, aloneVerdict_congr hqp, ← hu.evident.verdict_eq hp]
    refine ⟨_, (mem_settle _).mpr (.inr ⟨q, this ▸ hv, rfl⟩), ?_⟩
    rw [(marker_congr hqp).2.2.2.2.2]

/-- How a request stands that has this entry once every marker is resolved. -/
def statusOf (e : Option RequestEntry) : RequestStatus :=
  match e with
  | none => .unknown
  | some e => e.status

theorem status_statusForRequest (s : OperationStore) (id : String) :
    (s.statusForRequest id).status = statusOf (s.requests.lookup id) := by
  unfold OperationStore.statusForRequest
  cases s.requests.lookup id <;> rfl

theorem status_verdictEntry {v : RecoveryOutcome} {e : RequestEntry} (h : verdictEntry (p, v) = some e) :
    v ≠ .noOp ∧ e.status = if v = .committed then .done else .error := by
  cases v <;> cases h <;> exact ⟨by simp, rfl⟩

theorem rebuiltFrom_eq_none {id : String} :
    rebuiltFrom rs id = none ↔ ∀ y ∈ rs, committedFor id y = false := by
  have hsome : ∀ y : AnyOperationRecord, committedFor id y = true → reconstructResult y ≠ none := by
    intro y hy
    cases y <;> simp_all [committedFor, reconstructResult]
  rw [rebuiltFrom_eq]
  cases hf : rs.find? (committedFor id) with
  | none => simpa using hf
  | some y =>
    have hy := List.find?_some hf
    refine iff_of_false ?_ fun h => ?_
    · simpa using hsome y hy
    · rw [h y (List.mem_of_find?_eq_some hf)] at hy
      cases hy

/-- The status of a stuck request depends on whether there is a record to
rebuild its result from, and on its type. -/
theorem status_stuckEntry_congr {id : String} (e : RequestEntry)
    (h : rebuiltFrom rs id = none ↔ rebuiltFrom rs' id = none) :
    statusOf (stuckEntry rs id e) = statusOf (stuckEntry rs' id e) := by
  unfold stuckEntry
  cases hrs : rebuiltFrom rs id with
  | none => rw [h.mp hrs]
  | some x =>
    cases hrs' : rebuiltFrom rs' id with
    | none => rw [h.mpr hrs'] at hrs; cases hrs
    | some x' => rfl

/-- The status of a request after the verdicts on a table that times cannot
mistake. -/
theorem Retimed.status_eq (h : Retimed rs rs') (hu : Unmistakable seen rs) (id : String)
    (e : Option RequestEntry) :
    statusOf (settledEntry (RemoteWorkspace.settle seen rs).records id
        (afterVerdicts id e (RemoteWorkspace.settle seen rs).verdicts)) =
      statusOf (settledEntry (RemoteWorkspace.settle seen rs').records id
        (afterVerdicts id e (RemoteWorkspace.settle seen rs').verdicts)) := by
  have hu' := h.unmistakable hu
  rw [afterVerdicts_eq_or id e, afterVerdicts_eq_or id e (RemoteWorkspace.settle seen rs').verdicts]
  -- A marker that decides the request decides it in either order.
  have hgiven : ∀ {xs xs' : Records}, Retimed xs xs' → Unmistakable seen xs → Unmistakable seen xs' →
      ∀ {e}, afterVerdicts id none (RemoteWorkspace.settle seen xs).verdicts = some e →
        ∃ e', afterVerdicts id none (RemoteWorkspace.settle seen xs').verdicts = some e' ∧
          e'.status = e.status ∧ e'.isStuck = false ∧ e.isStuck = false := by
    intro xs xs' hxs hu hu' e he
    obtain ⟨⟨p, v⟩, hx, hid, hentry⟩ := exists_verdict he
    obtain ⟨hv, hstatus⟩ := status_verdictEntry hentry
    obtain ⟨q, hq, hqp⟩ := hxs.exists_marker (mem_markersOf_of_verdict hx)
    obtain ⟨w, hw⟩ := exists_verdict_of_marker seen hq
    have hwv : w = v := by rw [hu'.evident.verdict_eq hw, aloneVerdict_congr hqp, ← hu.evident.verdict_eq hx]
    subst hwv
    have hne : verdictEntry (q, w) ≠ none := by cases w <;> simp_all [verdictEntry]
    obtain ⟨e', he'⟩ := Option.ne_none_iff_exists'.mp
      (afterVerdicts_ne_none hw ((marker_congr hqp).2.1.trans hid) hne)
    obtain ⟨⟨p', v'⟩, hx', hid', hentry'⟩ := exists_verdict he'
    obtain ⟨hv', hstatus'⟩ := status_verdictEntry hentry'
    have hagree := hu'.requests p' q (mem_markersOf_of_verdict hx') hq
      (hid'.trans ((marker_congr hqp).2.1.trans hid).symm)
      (by rwa [← hu'.evident.verdict_eq hx']) (by rwa [← hu'.evident.verdict_eq hw])
    rw [← hu'.evident.verdict_eq hx', ← hu'.evident.verdict_eq hw] at hagree
    exact ⟨e', he', by rw [hstatus, hstatus']; simp only [hagree], verdictEntry_not_stuck hentry',
      verdictEntry_not_stuck hentry⟩
  cases he : afterVerdicts id none (RemoteWorkspace.settle seen rs).verdicts with
  | some e₁ =>
    obtain ⟨e₂, he₂, hstatus, hstuck₂, hstuck₁⟩ := hgiven h hu hu' he
    rw [he₂]
    simp [settledEntry, hstuck₁, hstuck₂, statusOf, hstatus]
  | none =>
    cases he' : afterVerdicts id none (RemoteWorkspace.settle seen rs').verdicts with
    | some e₂ =>
      obtain ⟨e₁, he₁, -⟩ := hgiven h.symm hu' hu he'
      rw [he] at he₁
      cases he₁
    | none =>
      have hrebuilt : rebuiltFrom (RemoteWorkspace.settle seen rs).records id = none ↔
          rebuiltFrom (RemoteWorkspace.settle seen rs').records id = none := by
        rw [rebuiltFrom_eq_none, rebuiltFrom_eq_none]
        constructor
        · intro hall y hy
          obtain ⟨y', hy', hyy'⟩ := Retimed.settle h.symm hu' hy
          rw [← committedFor_untimed, ← hyy', committedFor_untimed, hall y' hy']
        · intro hall y hy
          obtain ⟨y', hy', hyy'⟩ := Retimed.settle h hu hy
          rw [← committedFor_untimed, ← hyy', committedFor_untimed, hall y' hy']
      cases e with
      | none => rfl
      | some e =>
        simp only [Option.none_or, settledEntry, Option.bind_some]
        split
        · exact status_stuckEntry_congr e hrebuilt
        · rfl

end

/-! ## Directories that differ in times -/

theorem distinct_map_untimed {rs : Records} : DistinctIds (rs.map untimed) ↔ DistinctIds rs := by
  have hids : (rs.map untimed).map AnyOperationRecord.operationId = rs.map AnyOperationRecord.operationId := by
    rw [List.map_map]
    exact List.map_congr_left fun r _ => operationId_untimed r
  rw [DistinctIds, Distinct, hids]
  exact Iff.rfl

theorem Retimed.distinct {rs rs' : Records} (h : Retimed rs rs') (hd : DistinctIds rs) : DistinctIds rs' :=
  distinct_map_untimed.mp ((distinct_map_untimed.mpr hd).perm h)

theorem isAborted_untimed (r : AnyOperationRecord) : isAborted (untimed r) = isAborted r := by
  cases r <;> rfl

theorem get_loadRecords_untimed (log : Records) (id : String) :
    get AnyOperationRecord.operationId id ((loadRecords log).map untimed) =
      (latestRecord (log.map untimed) id).filter fun r => !isAborted r := by
  rw [get_map_untimed, get_loadRecords, latestRecord, latest, latestRecord, latest, ← List.map_reverse,
    get_map_untimed]
  cases get AnyOperationRecord.operationId id log.reverse with
  | none => rfl
  | some r => cases h : isAborted r <;> simp [Option.filter, isAborted_untimed, h]

theorem retimed_loadRecords {log log' : Records} (h : log.map untimed = log'.map untimed) :
    Retimed (loadRecords log) (loadRecords log') :=
  perm_of_get_eq (distinct_map_untimed.mpr (distinct_loadRecords log))
    (distinct_map_untimed.mpr (distinct_loadRecords log')) fun id => by
      rw [get_loadRecords_untimed, get_loadRecords_untimed, h]

theorem tables_of_sameButTimes {d d' : LogDir} {s s' : OperationStore} (h : SameButTimes d d')
    (hs : OperationStore.new d = .ok s) (hs' : OperationStore.new d' = .ok s') :
    Retimed s.records s'.records ∧ s.requests = s'.requests := by
  obtain ⟨hops, hreqs, -⟩ := h
  obtain ⟨counter, operations, requests, hl, rfl⟩ := OperationStore.new_eq_ok.mp hs
  obtain ⟨counter', operations', requests', hl', rfl⟩ := OperationStore.new_eq_ok.mp hs'
  have hlog := congrArg LogFile.read hops
  rw [LogFile.read_map, LogFile.read_map, hl.operations, hl'.operations] at hlog
  have hsame : requests = requests' := by
    have := hl.requests
    rw [hreqs, hl'.requests] at this
    exact (Option.some.inj this).symm
  subst hsame
  exact ⟨retimed_loadRecords (Option.some.inj hlog), rfl⟩

/-- A record at the time that `f` gives to its operation. -/
def timedBy (f : String → Nat) : AnyOperationRecord → AnyOperationRecord
  | .fs r => .fs { r with timestampMs := f r.operationId }
  | .exec r => .exec { r with timestampMs := f r.operationId }
  | .transfer r => .transfer { r with timestampMs := f r.operationId }
  | .prepared r => .prepared { r with timestampMs := f r.operationId }
  | .aborted r => .aborted { r with timestampMs := f r.operationId }

theorem untimed_timedBy (f : String → Nat) (r : AnyOperationRecord) : untimed (timedBy f r) = untimed r := by
  cases r <;> rfl

theorem timestampMs_timedBy (f : String → Nat) (r : AnyOperationRecord) :
    (timedBy f r).timestampMs = f (timedBy f r).operationId := by cases r <;> rfl

/-- The same directory with the times of `f` in its log. -/
def LogDir.timedBy (f : String → Nat) (d : LogDir) : LogDir :=
  { d with operations := d.operations.map (RemoteWorkspace.timedBy f) }

theorem sameButTimes_timedBy (f : String → Nat) (d : LogDir) : SameButTimes d (d.timedBy f) := by
  refine ⟨?_, rfl, rfl⟩
  rw [LogDir.timedBy, LogFile.map_map]
  exact congrArg (d.operations.map ·) (funext fun r => (untimed_timedBy f r).symm)

/-- A directory loads with any times in its log, and its table is in their
order. -/
theorem new_timedBy {d : LogDir} {s : OperationStore} (hs : OperationStore.new d = .ok s) (f : String → Nat) :
    ∃ s', OperationStore.new (d.timedBy f) = .ok s' ∧ s'.records.Pairwise OlderRecord ∧
      ∀ x ∈ s'.records, x.timestampMs = f x.operationId := by
  obtain ⟨counter, operations, requests, hl, rfl⟩ := OperationStore.new_eq_ok.mp hs
  have hl' : Loads (d.timedBy f) counter (operations.map (timedBy f)) requests :=
    ⟨hl.counter, by rw [LogDir.timedBy, LogFile.read_map, hl.operations]; rfl, hl.requests⟩
  refine ⟨_, OperationStore.new_of_loads hl', loadRecords_older _, fun x hx => ?_⟩
  obtain ⟨y, -, rfl⟩ := List.mem_map.mp (mem_of_latest (mem_loadRecords.mp hx).1)
  exact timestampMs_timedBy f y

/-! ## What a recovery may take for what -/

section

variable {ws : Workspace} {sha256 : Sha256} {t : Tree} {d : LogDir} {s : OperationStore}

/-- A table that times cannot mistake gets the same conclusions at any time. -/
theorem ignoreTimes_of_unmistakable (hs : OperationStore.new d = .ok s)
    (hu : Unmistakable (seenAt ws sha256 t) s.records) : VerdictsIgnoreTimes ws sha256 t d := by
  intro d' s₀ s' b b' r hsame hs₀ hs' hr
  cases hs.symm.trans hs₀
  obtain ⟨hretimed, hrequests⟩ := tables_of_sameButTimes hsame hs hs'
  obtain ⟨hd, hq⟩ := distinct_of_new hs
  obtain ⟨hd', hq'⟩ := distinct_of_new hs'
  have hread : ∀ p ∈ markersOf s'.records, Readable ws sha256 t p.path := by
    intro p hp
    obtain ⟨q, hq, hqp⟩ := Retimed.exists_marker hretimed.symm (mem_markersOf.mp hp)
    rw [← (marker_congr hqp).2.2.1]
    exact readable_of_recover hr q (mem_markersOf.mpr hq)
  obtain ⟨r', hr', hspec'⟩ := recover_spec (b := b') hd' hq' hread
  have hspec := recovered_of_recover hd hq hr
  refine ⟨r', hr', fun p hp => ?_, fun id => ?_⟩
  · obtain ⟨q, hq, hqp⟩ := hretimed.exists_marker hp
    obtain ⟨v, hv⟩ := exists_verdict_of_marker (seenAt ws sha256 t) hp
    obtain ⟨w, hw⟩ := exists_verdict_of_marker (seenAt ws sha256 t) hq
    have hwv : w = v := by
      rw [(hretimed.evident hu.evident).verdict_eq hw, aloneVerdict_congr hqp, ← hu.evident.verdict_eq hv]
    have hid : q.operationId = p.operationId := (marker_congr hqp).1
    have hq' := verdictOn_of_recover hd' hr' hw
    rw [verdictOn_of_recover hd hr hv, ← hid, hq', hwv, verdictAction_congr hqp]
  · rw [status_statusForRequest, status_statusForRequest, hspec'.lookup, hspec.lookup, ← hrequests]
    exact (hretimed.status_eq hu id _).symm

/-- What the same conclusions at every time come to: whatever the times `f`, a
table in their order gives these verdicts and statuses. -/
theorem conclusions_timedBy (hs : OperationStore.new d = .ok s) (h : VerdictsIgnoreTimes ws sha256 t d)
    {b : Start} {r : Recovery} (hr : recover ws sha256 t b s = .ok r) (f : String → Nat) :
    ∃ rs, Retimed s.records rs ∧ rs.Pairwise OlderRecord ∧ (∀ x ∈ rs, x.timestampMs = f x.operationId) ∧
      (∀ x ∈ (settle (seenAt ws sha256 t) rs).verdicts,
        r.verdictOn x.1.operationId = some (verdictAction (seenAt ws sha256 t) x)) ∧
      ∀ id, (r.store.statusForRequest id).status = statusOf (settledEntry
        (settle (seenAt ws sha256 t) rs).records id (afterVerdicts id (s.requests.lookup id)
          (settle (seenAt ws sha256 t) rs).verdicts)) := by
  obtain ⟨s', hs', holder, htimes⟩ := new_timedBy hs f
  have hsame := sameButTimes_timedBy f d
  obtain ⟨hretimed, hrequests⟩ := tables_of_sameButTimes hsame hs hs'
  obtain ⟨hd', hq'⟩ := distinct_of_new hs'
  obtain ⟨r', hr', hverdicts, hstatus⟩ := h (d.timedBy f) s s' b b r hsame hs hs' hr
  refine ⟨s'.records, hretimed, holder, htimes, fun x hx => ?_, fun id => ?_⟩
  · obtain ⟨q, hq, hqx⟩ := Retimed.exists_marker hretimed.symm (mem_markersOf_of_verdict hx)
    rw [← (marker_congr hqx).1, ← hverdicts q hq, (marker_congr hqx).1, verdictOn_of_recover hd' hr' hx]
  · rw [← hstatus id, status_statusForRequest, (recovered_of_recover hd' hq' hr').lookup, hrequests]

/-- The time of one operation before those of all others. -/
def firstOf (id : String) : String → Nat := fun id' => if id' = id then 0 else 1

/-- The time of one operation after those of all others. -/
def lastOf (id : String) : String → Nat := fun id' => if id' = id then 1 else 0

theorem firstOf_lt {id id' : String} (h : id' ≠ id) : firstOf id id < firstOf id id' := by
  simp [firstOf, h]

theorem lastOf_lt {id id' : String} (h : id' ≠ id) : lastOf id id' < lastOf id id := by
  simp [lastOf, h]

variable {rs rs' : Records} {p : PreparedRecord}

/-- With the first time of all, a marker has everything else behind it. -/
theorem eq_cons_of_firstOf (hd : DistinctIds rs) (h : Retimed rs rs') (holder : rs'.Pairwise OlderRecord)
    (hp : .prepared p ∈ rs) (htimes : ∀ x ∈ rs', x.timestampMs = firstOf p.operationId x.operationId) :
    ∃ q B, rs' = .prepared q :: B ∧ q.untimed = p.untimed := by
  obtain ⟨q, hq, hqp⟩ := h.exists_marker hp
  have hid : q.operationId = p.operationId := (marker_congr hqp).1
  obtain ⟨B, hB⟩ := eq_cons_of_older holder hq fun y hy hne => by
    rw [htimes y hy, htimes _ hq, AnyOperationRecord.operationId_prepared, hid]
    exact firstOf_lt fun hyid => hne (eq_of_key_eq (h.distinct hd) hy hq (hyid.trans hid.symm))
  exact ⟨q, B, hB, hqp⟩

/-- With the last time of all, a marker has nothing behind it. -/
theorem eq_concat_of_lastOf (hd : DistinctIds rs) (h : Retimed rs rs') (holder : rs'.Pairwise OlderRecord)
    (hp : .prepared p ∈ rs) (htimes : ∀ x ∈ rs', x.timestampMs = lastOf p.operationId x.operationId) :
    ∃ q A, rs' = A ++ [.prepared q] ∧ q.untimed = p.untimed := by
  obtain ⟨q, hq, hqp⟩ := h.exists_marker hp
  have hid : q.operationId = p.operationId := (marker_congr hqp).1
  obtain ⟨A, hA⟩ := eq_concat_of_younger holder hq fun y hy hne => by
    rw [htimes y hy, htimes _ hq, AnyOperationRecord.operationId_prepared, hid]
    exact lastOf_lt fun hyid => hne (eq_of_key_eq (h.distinct hd) hy hq (hyid.trans hid.symm))
  exact ⟨q, A, hA, hqp⟩

theorem settle_concat_marker (seen : String → Option (Option String)) (A : Records) (q : PreparedRecord) :
    (q, aloneVerdict seen q) ∈ (settle seen (A ++ [.prepared q])).verdicts :=
  mem_verdicts_iff.mpr ⟨A, [], rfl, rfl⟩

/-- A continuation of a marker, once that is behind it, is taken for one. -/
theorem settle_cons_marker {seen : String → Option (Option String)} {B : Records} {q : PreparedRecord}
    {x y : AnyOperationRecord} (hseen : seen q.path ≠ none) (hx : x ∈ B)
    (hy : settledAlone seen x = some y) (hcont : continues q y = true) :
    (q, .committed) ∈ (settle seen (.prepared q :: B)).verdicts := by
  refine mem_verdicts_iff.mpr ⟨[], B, rfl, ?_⟩
  have hmem : y ∈ (settle seen B).records := by
    cases hpend : isPending x with
    | false =>
      rw [settledAlone_of_not_pending hpend] at hy
      cases hy
      exact (mem_settle _).mpr (.inl ⟨hx, hpend⟩)
    | true =>
      cases x with
      | prepared p =>
        rw [settledAlone] at hy
        split at hy
        · rename_i halone
          cases hy
          obtain ⟨A, B', rfl⟩ := List.append_of_mem hx
          refine (mem_settle _).mpr (.inr ⟨p, mem_verdicts_iff.mpr ⟨A, B', rfl, ?_⟩, rfl⟩)
          exact (verdict_of_alone halone _).symm
        · cases hy
      | _ => cases hpend
  rw [List.any_eq_true.mpr ⟨y, hmem, hcont⟩, verdict_true hseen]

/-- The oldest marker of all that is not dropped decides its request. -/
theorem status_of_first {seen : String → Option (Option String)} {B : Records} {q : PreparedRecord}
    {v : RecoveryOutcome} (hv : (q, v) ∈ (settle seen (.prepared q :: B)).verdicts)
    (hd : DistinctIds (.prepared q :: B)) (hne : v ≠ .noOp) (settled : Records) (e : Option RequestEntry) :
    statusOf (settledEntry settled q.requestId
      (afterVerdicts q.requestId e (settle seen (.prepared q :: B)).verdicts)) =
      if v = .committed then .done else .error := by
  have hlast : v = verdict (seen q.path) ((settle seen B).records.any (continues q)) q := by
    simp only [settle, List.mem_append, List.mem_singleton, Prod.mk.injEq, true_and] at hv
    rcases hv with hv | hv
    · exact absurd rfl ((distinct_cons.mp hd).1 _ (mem_markersOf_of_verdict hv))
    · exact hv
  obtain ⟨e', he'⟩ : ∃ e', verdictEntry (q, v) = some e' := by
    cases v with
    | noOp => exact absurd rfl hne
    | committed => exact ⟨_, rfl⟩
    | conflict reason => exact ⟨_, rfl⟩
  simp only [settle]
  rw [← hlast, afterVerdicts_concat, if_pos rfl, he', Option.some_or, settledEntry, Option.bind_some,
    verdictEntry_not_stuck he']
  exact (status_verdictEntry he').2

theorem verdictAction_eq_synthesized {seen : String → Option (Option String)} {q : PreparedRecord}
    {v : RecoveryOutcome} {id : String} (h : verdictAction seen (q, v) = .synthesized id) : v = .committed := by
  cases v with
  | committed => rfl
  | _ => cases h

variable {r : Recovery} {b : Start}

theorem evident_of_ignoreTimes (hs : OperationStore.new d = .ok s) (hr : recover ws sha256 t b s = .ok r)
    (h : VerdictsIgnoreTimes ws sha256 t d) : Evident (seenAt ws sha256 t) s.records := by
  intro p hp hseen halone x hx y hy
  by_contra hcont
  rw [Bool.not_eq_false] at hcont
  have hd := (distinct_of_new hs).1
  -- Before all others, the marker is continued.
  obtain ⟨rs₁, hretimed₁, holder₁, htimes₁, hverdicts₁, -⟩ := conclusions_timedBy hs h hr (firstOf p.operationId)
  obtain ⟨q₁, B, rfl, hq₁⟩ := eq_cons_of_firstOf hd hretimed₁ holder₁ hp htimes₁
  have hfirst : r.verdictOn p.operationId = some (.synthesized p.operationId) := by
    obtain ⟨x', hx', hxx'⟩ := hretimed₁.exists_of_mem hx
    obtain ⟨y', hy', hyy'⟩ := settledAlone_congr hxx' hy
    have hxB : x' ∈ B := by
      rcases List.mem_cons.mp hx' with rfl | hxB
      · rw [settledAlone, aloneVerdict_congr hq₁, if_neg halone] at hy'
        cases hy'
      · exact hxB
    have hcont' : continues q₁ y' = true := by
      rwa [continues_congr hq₁, ← continues_untimed, hyy', continues_untimed]
    have := hverdicts₁ _ (settle_cons_marker (by rwa [(marker_congr hq₁).2.2.1]) hxB hy' hcont')
    rwa [verdictAction_congr hq₁, (marker_congr hq₁).1] at this
  -- Behind all others, it is judged by its file alone.
  obtain ⟨rs₂, hretimed₂, holder₂, htimes₂, hverdicts₂, -⟩ := conclusions_timedBy hs h hr (lastOf p.operationId)
  obtain ⟨q₂, A, rfl, hq₂⟩ := eq_concat_of_lastOf hd hretimed₂ holder₂ hp htimes₂
  have hlast := hverdicts₂ _ (settle_concat_marker (seenAt ws sha256 t) A q₂)
  rw [verdictAction_congr hq₂, (marker_congr hq₂).1, aloneVerdict_congr hq₂, hfirst] at hlast
  exact halone (verdictAction_eq_synthesized (Option.some.inj hlast).symm)

theorem unmistakable_of_ignoreTimes (hs : OperationStore.new d = .ok s)
    (hr : recover ws sha256 t b s = .ok r) (h : VerdictsIgnoreTimes ws sha256 t d) :
    Unmistakable (seenAt ws sha256 t) s.records := by
  have hevident := evident_of_ignoreTimes hs hr h
  refine ⟨hevident, fun p q hp hq hid hp' hq' => ?_⟩
  have hd := (distinct_of_new hs).1
  -- The request ends as the marker says that comes before all others.
  have hstatus : ∀ p, .prepared p ∈ s.records → aloneVerdict (seenAt ws sha256 t) p ≠ .noOp →
      (r.store.statusForRequest p.requestId).status =
        if aloneVerdict (seenAt ws sha256 t) p = .committed then .done else .error := by
    intro p hp hne
    obtain ⟨rs, hretimed, holder, htimes, -, hstatus⟩ := conclusions_timedBy hs h hr (firstOf p.operationId)
    obtain ⟨q, B, rfl, hqp⟩ := eq_cons_of_firstOf hd hretimed holder hp htimes
    obtain ⟨v, hv⟩ := exists_verdict_of_marker (seenAt ws sha256 t)
      (List.mem_cons_self : .prepared q ∈ .prepared q :: B)
    have hval : v = aloneVerdict (seenAt ws sha256 t) p := by
      rw [(hretimed.evident hevident).verdict_eq hv, aloneVerdict_congr hqp]
    rw [hstatus, ← (marker_congr hqp).2.1,
      status_of_first hv (hretimed.distinct hd) (hval ▸ hne), hval]
  have heq := (hstatus p hp hp').symm.trans (hid ▸ hstatus q hq hq')
  constructor
  · intro hcommitted
    by_contra hne
    simp [hcommitted, hne] at heq
  · intro hcommitted
    by_contra hne
    simp [hcommitted, hne] at heq

/-- The wall clock has no say in the conclusions of a recovery exactly if that
fails on an unreadable file, or nothing in the table can be mistaken. -/
theorem verdicts_ignore_times_iff (hs : OperationStore.new d = .ok s) : VerdictsIgnoreTimes ws sha256 t d ↔
    (∃ p, .prepared p ∈ s.records ∧ ¬ Readable ws sha256 t p.path) ∨
      Unmistakable (seenAt ws sha256 t) s.records := by
  obtain ⟨hd, hq⟩ := distinct_of_new hs
  constructor
  · intro h
    by_cases hread : ∀ p ∈ markersOf s.records, Readable ws sha256 t p.path
    · obtain ⟨r, hr, -⟩ := recover_spec (b := plainStart) hd hq hread
      exact .inr (unmistakable_of_ignoreTimes hs hr h)
    · obtain ⟨p, hp⟩ := not_forall.mp hread
      obtain ⟨hp, hunreadable⟩ := Classical.not_imp.mp hp
      exact .inl ⟨p, mem_markersOf.mp hp, hunreadable⟩
  · rintro (⟨p, hp, hunreadable⟩ | hu)
    · intro d' s₀ s' b b' r _ hs₀ _ hr
      cases hs.symm.trans hs₀
      exact absurd (readable_of_recover hr p (mem_markersOf.mpr hp)) hunreadable
    · exact ignoreTimes_of_unmistakable hs hu

end

/-! ## Two operations in one millisecond -/

/-- A `create` that landed and whose commit line failed. -/
def createOf9 : PreparedRecord where
  operationId := "op-9"
  requestId := "r9"
  kind := .create
  path := "f"
  beforeHash := none
  expectedAfterHash := hashBytes zeroDigest []
  timestampMs := 5

/-- A `delete` of the same file at a later time. -/
def deleteOf10 (time : Nat) : FsOperationRecord where
  operationId := "op-10"
  requestId := "r10"
  kind := .delete
  path := "f"
  beforeHash := some (hashBytes zeroDigest [])
  afterHash := fileDeletedSentinel
  timestampMs := time

def createdThenDeleted (time : Nat) : LogDir :=
  { LogDir.empty with operations := .ofRecords [.prepared createOf9, .fs (deleteOf10 time)] }

theorem verdicts_ignore_times_iff_createdThenDeleted : ∃ s,
    OperationStore.new (createdThenDeleted 6) = .ok s ∧
      (VerdictsIgnoreTimes emptyWorkspace zeroDigest rootOnly (createdThenDeleted 6) ↔
        (∃ p, .prepared p ∈ s.records ∧ ¬ Readable emptyWorkspace zeroDigest rootOnly p.path) ∨
          Unmistakable (seenAt emptyWorkspace zeroDigest rootOnly) s.records) :=
  ⟨_, rfl, verdicts_ignore_times_iff rfl⟩

/-- A millisecond later the delete is evidence that the create landed; in the
same one it is not, for the id "op-10" sorts before "op-9". -/
theorem created_in_one_millisecond_dropped : ∃ s s' r r',
    OperationStore.new (createdThenDeleted 6) = .ok s ∧
      OperationStore.new (createdThenDeleted 5) = .ok s' ∧
      recover emptyWorkspace zeroDigest rootOnly plainStart s = .ok r ∧
      recover emptyWorkspace zeroDigest rootOnly plainStart s' = .ok r' ∧
      r.actions = [.synthesized "op-9"] ∧ r'.actions = [.dropped "op-9"] ∧
      ¬ VerdictsIgnoreTimes emptyWorkspace zeroDigest rootOnly (createdThenDeleted 6) := by
  refine ⟨_, _, _, _, rfl, rfl, rfl, rfl, by decide, by decide, fun h => ?_⟩
  obtain ⟨r', hr', hverdicts, -⟩ := h (createdThenDeleted 5) _ _ plainStart plainStart _
    ⟨by decide, rfl, rfl⟩ rfl rfl rfl
  have := hverdicts createOf9 (by decide)
  cases hr'
  revert this
  decide

end RemoteWorkspace
