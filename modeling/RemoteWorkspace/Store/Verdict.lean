import RemoteWorkspace.Store.Loading
import RemoteWorkspace.Store.Recovery

/-!
# What recovery concludes

Recovery as a function of what it finds. `settle` reads a table from its end
and gives every marker its verdict, and `settledEntry` says what becomes of a
request. Neither mentions a log, a clock or the order of a `HashMap`:
`recoverMarkers_spec` and `lookup_recoverRequests` say that this is what
`recover` does.
-/

namespace RemoteWorkspace

/-! ## Verdicts -/

/-- The verdict on a marker, given what its path shows: nothing if it does not
resolve, else the hash of the file there. -/
def verdict (seen : Option (Option String)) (continued : Bool) (p : PreparedRecord) :
    RecoveryOutcome :=
  match seen with
  | none => .conflict "recovery conflict"
  | some current => judge continued p current

/-- A table with its markers resolved, and the verdicts, the newest first. -/
structure Settled where
  records : Records
  verdicts : List (PreparedRecord × RecoveryOutcome)

/-- Resolve every marker of a table, given what each path shows. The records
made of markers carry no time. -/
def settle (seen : String → Option (Option String)) : Records → Settled
  | [] => { records := [], verdicts := [] }
  | .prepared p :: rs =>
    let s := settle seen rs
    let v := verdict (seen p.path) (s.records.any (continues p)) p
    { records := if v = .committed then .fs (committedFrom p 0) :: s.records else s.records
      verdicts := s.verdicts ++ [(p, v)] }
  | r :: rs =>
    let s := settle seen rs
    { s with records := r :: s.records }

/-- A record with its time left out. -/
def untimed : AnyOperationRecord → AnyOperationRecord
  | .fs r => .fs { r with timestampMs := 0 }
  | .exec r => .exec { r with timestampMs := 0 }
  | .transfer r => .transfer { r with timestampMs := 0 }
  | .prepared r => .prepared { r with timestampMs := 0 }
  | .aborted r => .aborted { r with timestampMs := 0 }

@[simp] theorem operationId_untimed (r : AnyOperationRecord) :
    (untimed r).operationId = r.operationId := by cases r <;> rfl

@[simp] theorem recordRequestId_untimed (r : AnyOperationRecord) :
    recordRequestId (untimed r) = recordRequestId r := by cases r <;> rfl

@[simp] theorem isPending_untimed (r : AnyOperationRecord) : isPending (untimed r) = isPending r := by
  cases r <;> rfl

@[simp] theorem isCommitted_untimed (r : AnyOperationRecord) :
    (untimed r).isCommitted = r.isCommitted := by cases r <;> rfl

@[simp] theorem continues_untimed (p : PreparedRecord) (r : AnyOperationRecord) :
    continues p (untimed r) = continues p r := by cases r <;> rfl

@[simp] theorem reconstructResult_untimed (r : AnyOperationRecord) :
    reconstructResult (untimed r) = reconstructResult r := by cases r <;> rfl

/-- Two tables that differ in times only. -/
def SameUntimed (rs rs' : Records) : Prop := rs.map untimed = rs'.map untimed

theorem SameUntimed.any {rs rs' : Records} (h : SameUntimed rs rs') {f : AnyOperationRecord → Bool}
    (hf : ∀ r, f (untimed r) = f r) : rs.any f = rs'.any f := by
  have hany : ∀ xs : Records, (xs.map untimed).any f = xs.any f := fun xs => by
    rw [List.any_map]
    exact congrArg xs.any (funext hf)
  rw [← hany, h, hany]

/-- The lines that resolve a marker. -/
def resolution (now : Nat) (p : PreparedRecord) : RecoveryOutcome → List LogLine
  | .noOp => [abortedLine p.operationId now]
  | .committed =>
    [.operation (.fs (committedFrom p now)),
      resultLine p.requestId (reconstructFs (committedFrom p now))]
  | .conflict reason => [abortedLine p.operationId now, errorLine p.requestId (conflictError p reason)]

/-- The lines of all these verdicts, the first marker's clock being read when
`n` lines have been appended. -/
def resolutions (b : Start) : Nat → List (PreparedRecord × RecoveryOutcome) → List LogLine
  | _, [] => []
  | n, (p, v) :: vs =>
    let ls := resolution (b.clock n) p v
    ls ++ resolutions b (n + ls.length) vs

/-- What recovery reports of a verdict. A path that does not resolve has a
reason of its own. -/
def verdictAction (seen : String → Option (Option String)) :
    PreparedRecord × RecoveryOutcome → RecoveryAction
  | (p, .noOp) => .dropped p.operationId
  | (p, .committed) => .synthesized p.operationId
  | (p, .conflict reason) =>
    .conflict p.operationId (if seen p.path = none then "path no longer resolvable" else reason)

theorem resolutions_append (b : Start) (n : Nat) (vs vs' : List (PreparedRecord × RecoveryOutcome)) :
    resolutions b n (vs ++ vs') =
      resolutions b n vs ++ resolutions b (n + (resolutions b n vs).length) vs' := by
  induction vs generalizing n with
  | nil => rfl
  | cons x vs ih => simp [resolutions, ih, Nat.add_assoc]

namespace Recovery

/-- Append several lines. -/
def appendAll (r : Recovery) (ls : List LogLine) : Recovery := ls.foldl append r

@[simp] theorem appendAll_nil (r : Recovery) : r.appendAll [] = r := rfl

@[simp] theorem appended_appendAll (r : Recovery) (ls : List LogLine) :
    (r.appendAll ls).appended = r.appended ++ ls := by
  induction ls generalizing r with
  | nil => simp
  | cons l ls ih =>
    have := ih (r.append l)
    simpa [appendAll, append] using this

@[simp] theorem store_appendAll (r : Recovery) (ls : List LogLine) :
    (r.appendAll ls).store = ls.foldl OperationStore.record r.store := by
  induction ls generalizing r with
  | nil => rfl
  | cons l ls ih => exact ih (r.append l)

theorem resolveAs_store (r : Recovery) (now : Nat) (p : PreparedRecord) (v : RecoveryOutcome) :
    (r.resolveAs now p v).store = (r.appendAll (resolution now p v)).store := by
  cases v <;> rfl

theorem resolveAs_appended (r : Recovery) (now : Nat) (p : PreparedRecord) (v : RecoveryOutcome) :
    (r.resolveAs now p v).appended = (r.appendAll (resolution now p v)).appended := by
  cases v <;> rfl

end Recovery

/-! ## The markers -/

section

variable (ws : Workspace) (sha256 : Sha256) (t : Tree) (b : Start)

/-- What recovery sees at a client path. -/
def seenAt (path : String) : Option (Option String) :=
  match ws.resolve t path with
  | .error _ => none
  | .ok abs =>
    match hashFile sha256 t abs with
    | .ok current => some current
    | .error _ => none

/-- A path that does not resolve, or at which a file can be read if one is
there. -/
def Readable (path : String) : Prop :=
  ∀ abs, ws.resolve t path = .ok abs → ∃ current, hashFile sha256 t abs = .ok current

variable {ws sha256 t b}

theorem recoverMarker_ok {r : Recovery} {p : PreparedRecord} (h : Readable ws sha256 t p.path) :
    ∃ r', recoverMarker ws sha256 t b r p = .ok r' ∧
      (let ls := resolution (b.clock r.appended.length) p
        (verdict (seenAt ws sha256 t p.path) (continuedFrom r.store.records p) p)
      r'.store = (r.appendAll ls).store ∧ r'.appended = (r.appendAll ls).appended) ∧
      r'.actions = r.actions ++ [verdictAction (seenAt ws sha256 t)
        (p, verdict (seenAt ws sha256 t p.path) (continuedFrom r.store.records p) p)] := by
  cases hr : ws.resolve t p.path with
  | error e =>
    have hseen : seenAt ws sha256 t p.path = none := by simp [seenAt, hr]
    rw [recoverMarker, hr, hseen]
    exact ⟨_, rfl, ⟨rfl, rfl⟩, by simp [verdict, verdictAction, hseen, Recovery.act,
      Recovery.resolveAsConflict, Recovery.abortPrepared, Recovery.append]⟩
  | ok abs =>
    obtain ⟨current, hc⟩ := h abs hr
    have hseen : seenAt ws sha256 t p.path = some current := by simp [seenAt, hr, hc]
    simp only [recoverMarker, hr, hc, hseen, verdict]
    refine ⟨_, rfl, ⟨r.resolveAs_store _ p _, r.resolveAs_appended _ p _⟩, ?_⟩
    cases judge (continuedFrom r.store.records p) p current <;>
      simp [verdictAction, hseen, Recovery.resolveAs, Recovery.act, Recovery.resolveAsConflict,
        Recovery.synthesizeCommit, Recovery.abortPrepared, Recovery.append]

theorem readable_of_recoverMarker {r r' : Recovery} {p : PreparedRecord}
    (h : recoverMarker ws sha256 t b r p = .ok r') : Readable ws sha256 t p.path := by
  intro abs habs
  simp only [recoverMarker, habs] at h
  split at h
  · cases h
  · exact ⟨_, ‹_›⟩

theorem readable_of_foldlM {ps : List PreparedRecord} {r r' : Recovery}
    (h : ps.foldlM (recoverMarker ws sha256 t b) r = .ok r') :
    ∀ p ∈ ps, Readable ws sha256 t p.path := by
  induction ps generalizing r with
  | nil => simp
  | cons p ps ih =>
    rw [List.foldlM_cons] at h
    cases h₁ : recoverMarker ws sha256 t b r p with
    | error e => rw [h₁] at h; cases h
    | ok r₁ =>
      rw [h₁] at h
      intro q hq
      rcases List.mem_cons.mp hq with rfl | hq
      · exact readable_of_recoverMarker h₁
      · exact ih h q hq

end

/-! ### Resolving one marker in a table -/

theorem continuedFrom_append {A B : Records} {p : PreparedRecord}
    (hA : ∀ x ∈ A, x.operationId ≠ p.operationId) :
    continuedFrom (A ++ .prepared p :: B) p = B.any (continues p) := by
  have h : (A ++ .prepared p :: B).dropWhile (fun r => r.operationId ≠ p.operationId) =
      .prepared p :: B := by
    rw [List.dropWhile_append_of_pos (by simpa using hA)]
    simp
  rw [continuedFrom, h]
  rfl

theorem put_append {A B : Records} {x y : AnyOperationRecord}
    (hA : ∀ a ∈ A, a.operationId ≠ x.operationId) (hy : y.operationId = x.operationId) :
    Keyed.put AnyOperationRecord.operationId x (A ++ y :: B) = A ++ x :: B := by
  induction A with
  | nil => simp [Keyed.put, hy]
  | cons a A ih =>
    simp only [List.cons_append, Keyed.put, if_neg (hA a List.mem_cons_self)]
    rw [ih fun a ha => hA a (List.mem_cons_of_mem _ ha)]

/-- The table after the lines of a verdict: the marker gone, or a committed
record in its place. -/
theorem records_resolution {s : OperationStore} {A B : Records} {p : PreparedRecord}
    (hs : s.records = A ++ .prepared p :: B)
    (hd : DistinctIds s.records) (now : Nat) (v : RecoveryOutcome) :
    ((resolution now p v).foldl OperationStore.record s).records =
      A ++ (if v = .committed then [.fs (committedFrom p now)] else []) ++ B := by
  have hne : (∀ a ∈ A, a.operationId ≠ p.operationId) ∧ ∀ a ∈ B, a.operationId ≠ p.operationId := by
    rw [hs, DistinctIds, Keyed.Distinct, List.map_append, List.nodup_append, List.map_cons, List.nodup_cons] at hd
    obtain ⟨_, ⟨hB, _⟩, hAB⟩ := hd
    refine ⟨fun a ha h => hAB _ (List.mem_map_of_mem ha) _ List.mem_cons_self h, fun a ha h => hB ?_⟩
    exact List.mem_map.mpr ⟨a, ha, h⟩
  have hdrop : (Records.record s.records (.aborted { operationId := p.operationId, timestampMs := now })) =
      A ++ B := by
    have hfilter : ∀ xs : Records, (∀ a ∈ xs, a.operationId ≠ p.operationId) →
        xs.filter (fun x => !(x.operationId = p.operationId && isPending x)) = xs := fun xs h =>
      List.filter_eq_self.mpr fun a ha => by simp [h a ha]
    rw [Records.record, hs, List.filter_append, List.filter_cons, hfilter A hne.1, hfilter B hne.2]
    simp [isPending]
  cases v with
  | committed =>
    have hput := put_append (B := B) (x := .fs (committedFrom p now)) (y := .prepared p) hne.1 rfl
    simpa [resolution, OperationStore.record, resultLine, Records.record, hs] using hput
  | noOp => simpa [resolution, OperationStore.record, abortedLine] using hdrop
  | conflict reason => simpa [resolution, OperationStore.record, abortedLine, errorLine] using hdrop

/-! ### All markers of a table -/

@[simp] theorem markersOf_nil : markersOf [] = [] := rfl

theorem markersOf_append (A B : Records) : markersOf (A ++ B) = markersOf A ++ markersOf B :=
  List.filterMap_append

@[simp] theorem markersOf_prepared (p : PreparedRecord) (rs : Records) :
    markersOf (.prepared p :: rs) = p :: markersOf rs := rfl

theorem markersOf_cons_of_not_pending {r : AnyOperationRecord} (h : isPending r = false) (rs : Records) :
    markersOf (r :: rs) = markersOf rs := by
  cases r <;> first | rfl | cases h

theorem mem_markersOf {p : PreparedRecord} {rs : Records} : p ∈ markersOf rs ↔ .prepared p ∈ rs := by
  rw [markersOf, List.mem_filterMap]
  constructor
  · rintro ⟨r, hr, h⟩
    cases r <;> cases h
    exact hr
  · exact fun h => ⟨_, h, rfl⟩

theorem settle_cons_of_not_pending {seen : String → Option (Option String)} {r : AnyOperationRecord}
    (h : isPending r = false) (rs : Records) :
    settle seen (r :: rs) = { settle seen rs with records := r :: (settle seen rs).records } := by
  cases r <;> first | rfl | cases h

/-- Settling keeps ids, in order, and adds none. -/
theorem settle_ids_sublist (seen : String → Option (Option String)) (rs : Records) :
    ((settle seen rs).records.map AnyOperationRecord.operationId).Sublist
      (rs.map AnyOperationRecord.operationId) := by
  induction rs with
  | nil => exact .refl _
  | cons r rs ih =>
    cases hr : isPending r with
    | false =>
      rw [settle_cons_of_not_pending hr]
      exact ih.cons_cons _
    | true =>
      cases r <;> cases hr
      simp only [settle, List.map_cons]
      split
      · exact ih.cons_cons _
      · exact ih.cons _

theorem SameUntimed.ids {rs rs' : Records} (h : SameUntimed rs rs') :
    rs.map AnyOperationRecord.operationId = rs'.map AnyOperationRecord.operationId := by
  have := congrArg (List.map AnyOperationRecord.operationId) h
  simpa [Function.comp_def] using this

variable {ws : Workspace} {sha256 : Sha256} {t : Tree} {b : Start}

/-- Resolving the markers of the last part of a table: the table is settled
there, and the lines appended are those of the verdicts. -/
theorem recoverMarkers_part (B : Records) : ∀ (A : Records) (r : Recovery),
    DistinctIds (A ++ B) → r.store.records = A ++ B →
    (∀ p ∈ markersOf B, Readable ws sha256 t p.path) →
    ∃ r' B', (markersOf B).reverse.foldlM (recoverMarker ws sha256 t b) r = .ok r' ∧
      r'.store.records = A ++ B' ∧ SameUntimed B' (settle (seenAt ws sha256 t) B).records ∧
      markersOf B' = [] ∧
      let ls := resolutions b r.appended.length (settle (seenAt ws sha256 t) B).verdicts
      r'.appended = r.appended ++ ls ∧ r'.store = ls.foldl OperationStore.record r.store ∧
        r'.actions = r.actions ++ (settle (seenAt ws sha256 t) B).verdicts.map
          (verdictAction (seenAt ws sha256 t)) := by
  induction B with
  | nil =>
    intro A r _ hr _
    exact ⟨r, [], rfl, hr, rfl, rfl, by simp [settle, resolutions], rfl, by simp [settle]⟩
  | cons x B ih =>
    intro A r hd hr hread
    obtain ⟨r₁, B₁, hfold, hrec, hsame, hnone, happ, hstore, hact⟩ :=
      ih (A ++ [x]) r (by simpa using hd) (by simpa using hr) fun p hp =>
        hread p (by rw [markersOf, List.filterMap_cons]; split <;> simp_all [markersOf])
    cases hx : isPending x with
    | false =>
      rw [settle_cons_of_not_pending hx, markersOf_cons_of_not_pending hx]
      refine ⟨r₁, x :: B₁, hfold, by simpa using hrec, ?_, ?_, happ, hstore, hact⟩
      · simpa [SameUntimed] using hsame
      · rw [markersOf_cons_of_not_pending hx, hnone]
    | true =>
      cases x with
      | prepared p =>
        have hrec' : r₁.store.records = A ++ .prepared p :: B₁ := by simpa using hrec
        have hd₁ : DistinctIds (A ++ .prepared p :: B₁) := by
          refine List.Nodup.sublist ?_ hd
          rw [List.map_append, List.map_append, List.map_cons, List.map_cons, hsame.ids]
          exact .append_left (.cons_cons _ (settle_ids_sublist _ B)) _
        have hA : ∀ a ∈ A, a.operationId ≠ p.operationId := by
          rw [DistinctIds, Keyed.Distinct, List.map_append, List.nodup_append] at hd₁
          exact fun a ha h => hd₁.2.2 _ (List.mem_map_of_mem ha) _ List.mem_cons_self h
        have hcont : continuedFrom r₁.store.records p =
            (settle (seenAt ws sha256 t) B).records.any (continues p) := by
          rw [hrec', continuedFrom_append hA, hsame.any (continues_untimed p)]
        obtain ⟨r₂, hstep, ⟨hstore₂, happ₂⟩, hact₂⟩ :=
          recoverMarker_ok (b := b) (r := r₁) (hread p List.mem_cons_self)
        rw [hcont] at hstore₂ happ₂ hact₂
        refine ⟨r₂, (if verdict (seenAt ws sha256 t p.path)
            ((settle (seenAt ws sha256 t) B).records.any (continues p)) p = .committed then
            [.fs (committedFrom p (b.clock r₁.appended.length))] else []) ++ B₁, ?_, ?_, ?_, ?_, ?_, ?_, ?_⟩
        · rw [markersOf_prepared, List.reverse_cons, List.foldlM_append, hfold]
          show (recoverMarker ws sha256 t b r₁ p >>= fun r => pure r) = _
          rw [hstep]
          rfl
        · rw [hstore₂, Recovery.store_appendAll,
            records_resolution hrec' (hrec' ▸ hd₁), List.append_assoc]
        · simp only [settle]
          split
          · simpa [SameUntimed, untimed, committedFrom] using hsame
          · simpa using hsame
        · rw [markersOf_append, hnone, List.append_nil]
          split <;> rfl
        · simp only [settle]
          rw [happ₂, Recovery.appended_appendAll, happ, resolutions_append, List.append_assoc]
          simp [resolutions]
        · simp only [settle]
          rw [hstore₂, Recovery.store_appendAll, hstore, resolutions_append, List.foldl_append, happ]
          simp [resolutions]
        · simp only [settle]
          rw [hact₂, hact, List.map_append, List.append_assoc]
          rfl
      | _ => cases hx

/-- The marker phase of a recovery over readable paths: it settles the table,
and appends the lines of the verdicts. -/
theorem recoverMarkers_spec {s : OperationStore}
    (hd : DistinctIds s.records)
    (hread : ∀ p ∈ markersOf s.records, Readable ws sha256 t p.path) :
    ∃ r, recoverMarkers ws sha256 t b s = .ok r ∧
      SameUntimed r.store.records (settle (seenAt ws sha256 t) s.records).records ∧
      markersOf r.store.records = [] ∧
      r.appended = resolutions b 0 (settle (seenAt ws sha256 t) s.records).verdicts ∧
      r.store = r.appended.foldl OperationStore.record s ∧
      r.actions = (settle (seenAt ws sha256 t) s.records).verdicts.map
        (verdictAction (seenAt ws sha256 t)) := by
  obtain ⟨r, B', hr, hrec, hsame, hnone, happ, hstore, hact⟩ :=
    recoverMarkers_part (b := b) s.records [] { store := s, appended := [], actions := [] } hd rfl hread
  refine ⟨r, hr, ?_, ?_, by simpa using happ, ?_, by simpa using hact⟩
  · rwa [hrec]
  · rw [hrec, List.nil_append, hnone]
  · rw [hstore, happ]
    rfl

/-! ## The requests -/

/-- What a verdict makes of the request of its marker, if anything. -/
def verdictEntry : PreparedRecord × RecoveryOutcome → Option RequestEntry
  | (p, .committed) => some (.ofResult (reconstructFs (committedFrom p 0)))
  | (p, .conflict reason) => some (.ofError (conflictError p reason))
  | (_, .noOp) => none

/-- The entry of a request after these verdicts, from the one it had. -/
def afterVerdicts (id : String) (e : Option RequestEntry)
    (vs : List (PreparedRecord × RecoveryOutcome)) : Option RequestEntry :=
  vs.foldl (fun e x => if x.1.requestId = id then (verdictEntry x).or e else e) e

/-- What becomes of a stuck request. -/
def stuckEntry (rs : Records) (id : String) (e : RequestEntry) : Option RequestEntry :=
  match rebuiltFrom rs id with
  | some (_, msg) => some (.ofResult msg)
  | none =>
    if e.op = some "exec" then some (.ofError execInterrupted)
    else if e.op = none then some (.ofError unknownInterrupted)
    else none

/-- What becomes of a request once the markers are resolved. -/
def settledEntry (rs : Records) (id : String) (e : Option RequestEntry) : Option RequestEntry :=
  e.bind fun e => if e.isStuck then stuckEntry rs id e else some e

theorem SameUntimed.rebuiltFrom {rs rs' : Records} (h : SameUntimed rs rs') (id : String) :
    RemoteWorkspace.rebuiltFrom rs id = RemoteWorkspace.rebuiltFrom rs' id := by
  have hmap : ∀ xs : Records, RemoteWorkspace.rebuiltFrom (xs.map untimed) id =
      RemoteWorkspace.rebuiltFrom xs id := fun xs => by
    have hpred : ((fun r : AnyOperationRecord => r.isCommitted && recordRequestId r = some id) ∘ untimed) =
        fun r => r.isCommitted && recordRequestId r = some id := funext fun r => by simp
    rw [RemoteWorkspace.rebuiltFrom, List.find?_map, Option.bind_map, hpred]
    exact Option.bind_congr fun r _ => by simp
  rw [← hmap, h, hmap]

theorem SameUntimed.settledEntry {rs rs' : Records} (h : SameUntimed rs rs') (id : String)
    (e : Option RequestEntry) :
    RemoteWorkspace.settledEntry rs id e = RemoteWorkspace.settledEntry rs' id e := by
  simp only [RemoteWorkspace.settledEntry, stuckEntry, h.rebuiltFrom]

theorem lookup_resolution (s : OperationStore) (now : Nat) (p : PreparedRecord) (v : RecoveryOutcome)
    (id : String) : ((resolution now p v).foldl OperationStore.record s).requests.lookup id =
      if p.requestId = id then (verdictEntry (p, v)).or (s.requests.lookup id)
      else s.requests.lookup id := by
  cases v <;>
    simp [resolution, OperationStore.record, abortedLine, resultLine, errorLine, verdictEntry,
      Requests.lookup_insert, eq_comm, reconstructFs, committedFrom]

theorem lookup_resolutions (b : Start) (id : String) (vs : List (PreparedRecord × RecoveryOutcome))
    (n : Nat) (s : OperationStore) :
    ((resolutions b n vs).foldl OperationStore.record s).requests.lookup id =
      afterVerdicts id (s.requests.lookup id) vs := by
  induction vs generalizing n s with
  | nil => rfl
  | cons x vs ih =>
    rw [resolutions, List.foldl_append, ih, lookup_resolution]
    rfl

theorem recoverRequest_store (r : Recovery) (q : String × RequestEntry) (id : String) :
    (recoverRequest r q).store.records = r.store.records ∧
      (recoverRequest r q).store.requests.lookup id =
        if id = q.1 then stuckEntry r.store.records id q.2 else r.store.requests.lookup id := by
  unfold recoverRequest stuckEntry
  cases hm : rebuiltFrom r.store.records q.1 with
  | some x =>
    refine ⟨rfl, ?_⟩
    by_cases hid : id = q.1 <;>
      simp [Recovery.append, Recovery.act, OperationStore.record, resultLine, Requests.lookup_insert,
        hid, hm]
  | none =>
    by_cases hid : id = q.1
    · simp only [hid, if_true, hm]
      repeat' split
      all_goals simp [Recovery.append, Recovery.act, OperationStore.record, errorLine,
        Requests.lookup_insert, Requests.lookup_remove]
    · simp only [hid, if_false]
      repeat' split
      all_goals simp [Recovery.append, Recovery.act, OperationStore.record, errorLine,
        Requests.lookup_insert, Requests.lookup_remove, hid]

theorem foldl_recoverRequest (qs : Requests) (hd : DistinctRequests qs) (id : String)
    (r : Recovery) : (qs.foldl recoverRequest r).store.records = r.store.records ∧
      (qs.foldl recoverRequest r).store.requests.lookup id =
        match qs.lookup id with
        | some e => stuckEntry r.store.records id e
        | none => r.store.requests.lookup id := by
  induction qs generalizing r with
  | nil => exact ⟨rfl, rfl⟩
  | cons q qs ih =>
    obtain ⟨hq, hd⟩ := Keyed.distinct_cons.mp hd
    obtain ⟨hrec, hreq⟩ := recoverRequest_store r q id
    obtain ⟨hrec', hreq'⟩ := ih hd (recoverRequest r q)
    refine ⟨hrec'.trans hrec, ?_⟩
    rw [List.foldl_cons, hreq', hreq, hrec, Requests.lookup_cons]
    by_cases hid : q.1 = id
    · have hnone : Requests.lookup qs id = none :=
        Requests.lookup_eq_none.mpr fun x hx => hid ▸ hq x hx
      simp [hid, hnone]
    · simp [hid, Ne.symm hid]

/-- The request phase of a recovery leaves the records alone and settles every
request. -/
theorem lookup_recoverRequests {b : Start} {r : Recovery}
    (hd : DistinctRequests r.store.requests) (id : String) :
    (recoverRequests b r).store.records = r.store.records ∧
      (recoverRequests b r).store.requests.lookup id =
        settledEntry r.store.records id (r.store.requests.lookup id) := by
  have hperm := (b.perm r.store.requests).symm
  have hd' := (hd.perm hperm).filter fun q => q.2.isStuck
  obtain ⟨hrec, hreq⟩ := foldl_recoverRequest _ hd' id r
  refine ⟨hrec, hreq.trans ?_⟩
  rw [Requests.lookup, Keyed.get_filter (hd.perm hperm), ← Keyed.get_perm hd hperm, Requests.lookup]
  cases h : Keyed.get Prod.fst id r.store.requests with
  | none => rfl
  | some q =>
    cases hs : q.2.isStuck <;> simp [settledEntry, Option.filter, hs]

/-! ## The whole recovery -/

/-- The lines that resolve a stuck request; none if it is forgotten. -/
def stuckLines (rs : Records) (q : String × RequestEntry) : List LogLine :=
  match rebuiltFrom rs q.1 with
  | some (_, msg) => [resultLine q.1 msg]
  | none =>
    if q.2.op = some "exec" then [errorLine q.1 execInterrupted]
    else if q.2.op = none then [errorLine q.1 unknownInterrupted]
    else []

theorem SameUntimed.stuckLines {rs rs' : Records} (h : SameUntimed rs rs') :
    RemoteWorkspace.stuckLines rs = RemoteWorkspace.stuckLines rs' := by
  funext q
  simp only [RemoteWorkspace.stuckLines, h.rebuiltFrom]

theorem recoverRequest_appended (r : Recovery) (q : String × RequestEntry) :
    (recoverRequest r q).appended = r.appended ++ stuckLines r.store.records q := by
  unfold recoverRequest stuckLines
  cases rebuiltFrom r.store.records q.1 with
  | some x => rfl
  | none =>
    simp only
    repeat' split
    all_goals simp [Recovery.append, Recovery.act]

theorem recoverRequest_dir (r : Recovery) (q : String × RequestEntry) :
    (recoverRequest r q).store.dir =
      (stuckLines r.store.records q).foldl LogDir.writeLine r.store.dir := by
  unfold recoverRequest stuckLines
  cases rebuiltFrom r.store.records q.1 with
  | some x => rfl
  | none =>
    simp only
    repeat' split
    all_goals rfl

theorem foldl_recoverRequest_appended (qs : Requests) (r : Recovery) :
    (qs.foldl recoverRequest r).appended = r.appended ++ qs.flatMap (stuckLines r.store.records) ∧
      (qs.foldl recoverRequest r).store.dir =
        (qs.flatMap (stuckLines r.store.records)).foldl LogDir.writeLine r.store.dir := by
  induction qs generalizing r with
  | nil => simp
  | cons q qs ih =>
    obtain ⟨happ, hdir⟩ := ih (recoverRequest r q)
    rw [(recoverRequest_store r q q.1).1] at happ hdir
    rw [List.foldl_cons, happ, hdir, recoverRequest_appended, recoverRequest_dir, List.flatMap_cons,
      List.foldl_append, List.append_assoc]
    exact ⟨rfl, rfl⟩

theorem record_dir (s : OperationStore) (l : LogLine) : (s.record l).dir = s.dir.writeLine l := by
  cases l <;> rfl

theorem foldl_record_dir (s : OperationStore) (ls : List LogLine) :
    (ls.foldl OperationStore.record s).dir = ls.foldl LogDir.writeLine s.dir := by
  induction ls generalizing s with
  | nil => rfl
  | cons l ls ih => rw [List.foldl_cons, ih, record_dir, List.foldl_cons]

theorem distinct_record {s : OperationStore} (h : DistinctRequests s.requests) (l : LogLine) :
    DistinctRequests (s.record l).requests := by
  cases l with
  | operation r => exact h
  | request l => exact Keyed.Distinct.put h _

theorem distinct_foldl_record {s : OperationStore} (h : DistinctRequests s.requests)
    (ls : List LogLine) : DistinctRequests (ls.foldl OperationStore.record s).requests := by
  induction ls generalizing s with
  | nil => exact h
  | cons l ls ih => exact ih (distinct_record h l)

/-- What a recovery that returned `Ok` has made of the store `s`. -/
structure Recovered (seen : String → Option (Option String)) (b : Start) (s : OperationStore)
    (r : Recovery) : Prop where
  records : SameUntimed r.store.records (settle seen s.records).records
  noMarker : markersOf r.store.records = []
  lookup : ∀ id, r.store.requests.lookup id = settledEntry (settle seen s.records).records id
    (afterVerdicts id (s.requests.lookup id) (settle seen s.records).verdicts)
  /-- First the markers, then the stuck requests, each once. -/
  appended : ∃ qs : Requests, DistinctRequests qs ∧
    (∀ q, q ∈ qs ↔ q.2.isStuck = true ∧
      afterVerdicts q.1 (s.requests.lookup q.1) (settle seen s.records).verdicts = some q.2) ∧
    r.appended = resolutions b 0 (settle seen s.records).verdicts ++
      qs.flatMap (stuckLines (settle seen s.records).records)
  dir : r.store.dir = r.appended.foldl LogDir.writeLine s.dir

/-- A table of pairs holds a pair exactly if looking it up finds it. -/
theorem mem_iff_lookup {qs : Requests} (hd : DistinctRequests qs) {q : String × RequestEntry} :
    q ∈ qs ↔ qs.lookup q.1 = some q.2 := by
  rw [Requests.lookup, Option.map_eq_some_iff]
  constructor
  · exact fun h => ⟨q, Keyed.get_of_mem hd h, rfl⟩
  · rintro ⟨q', hq', h⟩
    have hkey := Keyed.key_of_get hq'
    have : q' = q := Prod.ext hkey h
    exact this ▸ Keyed.mem_of_get hq'

theorem recover_spec {s : OperationStore} (hd : DistinctIds s.records)
    (hq : DistinctRequests s.requests)
    (hread : ∀ p ∈ markersOf s.records, Readable ws sha256 t p.path) :
    ∃ r, recover ws sha256 t b s = .ok r ∧ Recovered (seenAt ws sha256 t) b s r := by
  obtain ⟨r, hr, hsame, hnone, happ, hstore, -⟩ := recoverMarkers_spec (b := b) hd hread
  have hdist : DistinctRequests r.store.requests := hstore ▸ distinct_foldl_record hq _
  have hlook : ∀ id, r.store.requests.lookup id = afterVerdicts id (s.requests.lookup id)
      (settle (seenAt ws sha256 t) s.records).verdicts := fun id => by
    rw [hstore, happ, lookup_resolutions]
  have hperm := (b.perm r.store.requests).symm
  refine ⟨recoverRequests b r, by rw [recover, hr]; rfl, ?_, ?_, ?_, ?_, ?_⟩
  · rwa [(lookup_recoverRequests hdist "").1]
  · rwa [(lookup_recoverRequests hdist "").1]
  · intro id
    rw [(lookup_recoverRequests hdist id).2, hsame.settledEntry, hlook]
  · refine ⟨(b.order r.store.requests).filter (·.2.isStuck), (hdist.perm hperm).filter _, ?_, ?_⟩
    · intro q
      rw [List.mem_filter, ← hperm.mem_iff, mem_iff_lookup hdist, hlook]
      exact and_comm
    · rw [recoverRequests, (foldl_recoverRequest_appended _ r).1, hsame.stuckLines, happ]
  · rw [recoverRequests, (foldl_recoverRequest_appended _ r).1, (foldl_recoverRequest_appended _ r).2,
      List.foldl_append, hstore, happ, foldl_record_dir]

/-- A recovery returns `Ok` exactly if every marker's file can be judged. -/
theorem readable_of_recover {s : OperationStore} {r : Recovery}
    (h : recover ws sha256 t b s = .ok r) :
    ∀ p ∈ markersOf s.records, Readable ws sha256 t p.path := by
  unfold recover at h
  cases hm : recoverMarkers ws sha256 t b s with
  | error e => rw [hm] at h; cases h
  | ok r' => exact fun p hp => readable_of_foldlM hm p (List.mem_reverse.mpr hp)

theorem recovered_of_recover {s : OperationStore} {r : Recovery} (hd : DistinctIds s.records)
    (hq : DistinctRequests s.requests) (h : recover ws sha256 t b s = .ok r) :
    Recovered (seenAt ws sha256 t) b s r := by
  obtain ⟨r', hr', hspec⟩ := recover_spec (b := b) hd hq (readable_of_recover h)
  rw [h] at hr'
  cases hr'
  exact hspec

end RemoteWorkspace
