import RemoteWorkspace.Store.Prune
import RemoteWorkspace.Store.Verdict

/-!
# Starting a server

`Server::new` loads the store, recovers it and, with a history limit, prunes
it. The prune comes right after the recovery and keeps a request only while it
is in progress or a kept record names it, so an error that recovery gave to a
request without a record does not outlive the start
(`recovered_errors_survive_iff`).
-/

namespace RemoteWorkspace

section

variable (ws : Workspace) (sha256 : Sha256) (t : Tree) (b : Start)

/-- `Server::new`, as far as the store goes. -/
def serverNew (limit : Option Nat) (o : PruneOutcomes) (d : LogDir) :
    Except ProtocolError OperationStore :=
  match OperationStore.new d with
  | .error e => .error e
  | .ok s =>
    match recover ws sha256 t b s with
    | .error (_, e) => .error e
    | .ok r =>
      match limit with
      | none => .ok r.store
      | some keep =>
        match r.store.prune keep o with
        | (.ok _, s') => .ok s'
        | (.error e, _) => .error e

/-- That a request is answered with this error, by `request_status` and when it
is sent again, and is not executed. -/
def AnswersWith (s : OperationStore) (id : String) (e : ProtocolError) : Prop :=
  s.requests.lookup id = some (.ofError e) ∧
    s.statusForRequest id = { target := id, status := .error, error := some e } ∧
    ∀ o op, s.claimLocked o id op = (.ok (some (.ofError e)), s)

/-- That every request which the recovery `r` of this start ended with an error
is answered with it once the server has started. -/
def RecoveredErrorsSurvive (limit : Option Nat) (d : LogDir) (r : Recovery) : Prop :=
  ∀ o s', serverNew ws sha256 t b limit o d = .ok s' → ∀ id e,
    errorLine id e ∈ r.appended → r.store.requests.lookup id = some (.ofError e) →
    AnswersWith s' id e

/-- The requests that a recovery of these tables ends with an error: of a
marker that could not be reconciled, or stuck without a record and not to be
repeated. -/
def FailsAtStart (seen : String → Option (Option String)) (s : OperationStore) (id : String)
    (e : ProtocolError) : Prop :=
  let settled := settle seen s.records
  let entry := afterVerdicts id (s.requests.lookup id) settled.verdicts
  settledEntry settled.records id entry = some (.ofError e) ∧
    (afterVerdicts id none settled.verdicts ≠ none ∨ entry.any RequestEntry.isStuck = true)

end

theorem answersWith_of_lookup {s : OperationStore} {id : String} {e : ProtocolError}
    (h : s.requests.lookup id = some (.ofError e)) : AnswersWith s id e := by
  refine ⟨h, ?_, fun o op => ?_⟩
  · simp [OperationStore.statusForRequest, h, RequestEntry.ofError]
  · simp [OperationStore.claimLocked, h]

@[simp] theorem isStuck_ofError (e : ProtocolError) : (RequestEntry.ofError e).isStuck = false := rfl

@[simp] theorem isStuck_ofResult (m : ServerMessage) : (RequestEntry.ofResult m).isStuck = false := rfl

/-! ## What recovery wrote -/

theorem afterVerdicts_concat (id : String) (e : Option RequestEntry)
    (vs : List (PreparedRecord × RecoveryOutcome)) (x : PreparedRecord × RecoveryOutcome) :
    afterVerdicts id e (vs ++ [x]) =
      if x.1.requestId = id then (verdictEntry x).or (afterVerdicts id e vs)
      else afterVerdicts id e vs := by
  simp [afterVerdicts]

/-- What the verdicts say of a request supersedes what was known of it. -/
theorem afterVerdicts_eq_or (id : String) (e : Option RequestEntry)
    (vs : List (PreparedRecord × RecoveryOutcome)) :
    afterVerdicts id e vs = (afterVerdicts id none vs).or e := by
  induction vs using List.reverseRecOn with
  | nil => rfl
  | append_singleton vs x ih =>
    rw [afterVerdicts_concat, afterVerdicts_concat, ih]
    split
    · rw [Option.or_assoc]
    · rfl

theorem errorLine_mem_resolution {now : Nat} {p : PreparedRecord} {v : RecoveryOutcome} {id : String}
    {e : ProtocolError} : errorLine id e ∈ resolution now p v ↔
      p.requestId = id ∧ verdictEntry (p, v) = some (.ofError e) := by
  cases v <;>
    simp [resolution, errorLine, abortedLine, resultLine, RequestEntry.line, RequestEntry.ofError,
      RequestEntry.ofResult, verdictEntry, eq_comm]

theorem errorLine_mem_resolutions {b : Start} {id : String} {e : ProtocolError}
    {vs : List (PreparedRecord × RecoveryOutcome)} {n : Nat} : errorLine id e ∈ resolutions b n vs ↔
      ∃ x ∈ vs, x.1.requestId = id ∧ verdictEntry x = some (.ofError e) := by
  induction vs generalizing n with
  | nil => simp [resolutions]
  | cons x vs ih =>
    rw [resolutions, List.mem_append, errorLine_mem_resolution, ih]
    simp

theorem afterVerdicts_ne_none {id : String} {vs : List (PreparedRecord × RecoveryOutcome)}
    {x : PreparedRecord × RecoveryOutcome} (hx : x ∈ vs) (hid : x.1.requestId = id)
    (he : verdictEntry x ≠ none) : afterVerdicts id none vs ≠ none := by
  induction vs using List.reverseRecOn with
  | nil => cases hx
  | append_singleton vs y ih =>
    rw [afterVerdicts_concat]
    rcases List.mem_append.mp hx with hx | hx
    · split <;> simp [ih hx]
    · rw [List.mem_singleton.mp hx] at hid he
      simp [hid, he]

/-- An entry that the verdicts gave is that of some verdict. -/
theorem exists_verdict {id : String} {vs : List (PreparedRecord × RecoveryOutcome)} {e : RequestEntry}
    (h : afterVerdicts id none vs = some e) :
    ∃ x ∈ vs, x.1.requestId = id ∧ verdictEntry x = some e := by
  induction vs using List.reverseRecOn with
  | nil => cases h
  | append_singleton vs x ih =>
    have hlift : afterVerdicts id none vs = some e →
        ∃ y ∈ vs ++ [x], y.1.requestId = id ∧ verdictEntry y = some e := fun h =>
      let ⟨y, hy, hy'⟩ := ih h
      ⟨y, List.mem_append_left _ hy, hy'⟩
    rw [afterVerdicts_concat] at h
    split at h
    · rename_i hid
      rcases Option.or_eq_some_iff.mp h with h | ⟨-, h⟩
      · exact ⟨x, by simp, hid, h⟩
      · exact hlift h
    · exact hlift h

theorem verdictEntry_not_stuck {x : PreparedRecord × RecoveryOutcome} {e : RequestEntry}
    (h : verdictEntry x = some e) : e.isStuck = false := by
  obtain ⟨p, _ | _ | _⟩ := x <;> cases h <;> rfl

theorem errorLine_mem_stuckLines {rs : Records} {q : String × RequestEntry} {id : String}
    {e : ProtocolError} :
    errorLine id e ∈ stuckLines rs q ↔ q.1 = id ∧ stuckEntry rs id q.2 = some (.ofError e) := by
  unfold stuckLines stuckEntry
  by_cases hid : q.1 = id
  · subst hid
    cases rebuiltFrom rs q.1 with
    | some x => simp [errorLine, resultLine, RequestEntry.line, RequestEntry.ofError, RequestEntry.ofResult]
    | none =>
      simp only
      repeat' split
      all_goals simp [errorLine, RequestEntry.line, RequestEntry.ofError, eq_comm]
  · cases rebuiltFrom rs q.1 with
    | some x => simp [errorLine, resultLine, RequestEntry.line, hid, Ne.symm hid]
    | none =>
      simp only
      repeat' split
      all_goals simp [errorLine, RequestEntry.line, hid, Ne.symm hid]

/-- The errors that recovery wrote and that stand are those of `FailsAtStart`. -/
theorem recovered_error_iff {seen : String → Option (Option String)} {b : Start} {s : OperationStore}
    {r : Recovery} (h : Recovered seen b s r) {id : String} {e : ProtocolError} :
    (errorLine id e ∈ r.appended ∧ r.store.requests.lookup id = some (.ofError e)) ↔
      FailsAtStart seen s id e := by
  obtain ⟨qs, -, hqs, happ⟩ := h.appended
  rw [h.lookup, happ, List.mem_append, errorLine_mem_resolutions, List.mem_flatMap, FailsAtStart]
  simp only [errorLine_mem_stuckLines]
  constructor
  · rintro ⟨⟨x, hx, hid, he⟩ | ⟨q, hq, rfl, he⟩, hfin⟩
    · exact ⟨hfin, .inl (afterVerdicts_ne_none hx hid (by simp [he]))⟩
    · obtain ⟨hstuck, hentry⟩ := (hqs q).mp hq
      exact ⟨hfin, .inr (by simp [hentry, hstuck])⟩
  · rintro ⟨hfin, hor⟩
    refine ⟨?_, hfin⟩
    cases hv : afterVerdicts id none (settle seen s.records).verdicts with
    | some e' =>
      obtain ⟨x, hx, hid, he⟩ := exists_verdict hv
      rw [afterVerdicts_eq_or, hv, Option.some_or, settledEntry, Option.bind_some,
        verdictEntry_not_stuck he] at hfin
      exact .inl ⟨x, hx, hid, by simpa [← Option.some.inj hfin] using he⟩
    | none =>
      rw [hv] at hor
      obtain ⟨q, hq, hstuck⟩ := (Option.any_eq_true _ _).mp (hor.resolve_left (by simp))
      rw [hq, settledEntry, Option.bind_some, if_pos hstuck] at hfin
      exact .inr ⟨(id, q), (hqs (id, q)).mpr ⟨hstuck, hq⟩, rfl, hfin⟩

/-! ## What the prune of a start keeps -/

theorem dropOldest_untimed (n : Nat) (rs : Records) :
    dropOldest n (rs.map untimed) = (dropOldest n rs).map untimed := by
  induction rs generalizing n with
  | nil => cases n <;> rfl
  | cons r rs ih =>
    cases n with
    | zero => rfl
    | succ n =>
      simp only [List.map_cons, dropOldest, isPending_untimed]
      split
      · rw [ih, List.map_cons]
      · exact ih n

theorem SameUntimed.keptRecords {rs rs' : Records} (h : SameUntimed rs rs') (keep : Nat) :
    SameUntimed (RemoteWorkspace.keptRecords keep rs) (RemoteWorkspace.keptRecords keep rs') := by
  have hprunable : ∀ xs : Records, prunable (xs.map untimed) = prunable xs := fun xs => by
    simp [prunable, List.filter_map, Function.comp_def]
  have hkept : ∀ xs : Records, (RemoteWorkspace.keptRecords keep xs).map untimed =
      RemoteWorkspace.keptRecords keep (xs.map untimed) := fun xs => by
    rw [RemoteWorkspace.keptRecords, RemoteWorkspace.keptRecords, dropOldest_untimed, hprunable]
  rw [SameUntimed, hkept, hkept, h]

/-- Whether a record of the table names a request. -/
def Names (rs : Records) (id : String) : Prop := ∃ r ∈ rs, recordRequestId r = some id

theorem SameUntimed.names {rs rs' : Records} (h : SameUntimed rs rs') (id : String) :
    Names rs id ↔ Names rs' id := by
  have hmap : ∀ xs : Records, Names (xs.map untimed) id ↔ Names xs id := fun xs => by
    simp [Names]
  rw [← hmap, h, hmap]

/-- A request that is not in progress is kept by a prune exactly if a kept
record names it. -/
theorem lookup_keptRequests {rs : Records} {qs : Requests} (hd : DistinctRequests qs) {id : String}
    {e : RequestEntry} (h : qs.lookup id = some e) (he : e.status ≠ .inProgress) :
    (keptRequests rs qs).lookup id = some e ↔ Names rs id := by
  have hd' : DistinctRequests (keptRequests rs qs) := hd.filter _
  rw [← mem_iff_lookup (q := (id, e)) hd', mem_keptRequests, mem_iff_lookup hd, Referenced]
  simp [h, he, Names]

theorem distinct_foldl_recoverRequest {qs : Requests} {r : Recovery}
    (h : DistinctRequests r.store.requests) :
    DistinctRequests (qs.foldl recoverRequest r).store.requests := by
  induction qs generalizing r with
  | nil => exact h
  | cons q qs ih =>
    refine ih ?_
    unfold recoverRequest
    repeat' split
    all_goals first
      | exact Keyed.Distinct.put h _
      | exact Keyed.Distinct.filter h _

variable {ws : Workspace} {sha256 : Sha256} {t : Tree} {b : Start}

theorem distinct_of_recover {s : OperationStore} {r : Recovery} (hd : DistinctIds s.records)
    (hq : DistinctRequests s.requests) (h : recover ws sha256 t b s = .ok r) :
    DistinctRequests r.store.requests := by
  obtain ⟨r', hr', -, -, -, hstore, -⟩ := recoverMarkers_spec (b := b) hd (readable_of_recover h)
  rw [recover, hr'] at h
  cases h
  exact distinct_foldl_recoverRequest (hstore ▸ distinct_foldl_record hq _)

theorem serverNew_none {d : LogDir} {s : OperationStore} {r : Recovery} {o : PruneOutcomes}
    (hs : OperationStore.new d = .ok s) (hr : recover ws sha256 t b s = .ok r) :
    serverNew ws sha256 t b none o d = .ok r.store := by
  simp only [serverNew, hs, hr]

theorem serverNew_some {d : LogDir} {s : OperationStore} {r : Recovery} {o : PruneOutcomes}
    {keep : Nat} (hs : OperationStore.new d = .ok s) (hr : recover ws sha256 t b s = .ok r) :
    serverNew ws sha256 t b (some keep) o d =
      match r.store.prune keep o with
      | (.ok _, s') => .ok s'
      | (.error e, _) => .error e := by
  simp only [serverNew, hs, hr]

/-- What a start leaves in the request table, the prune being done. -/
theorem lookup_serverNew {d : LogDir} {s s' : OperationStore} {r : Recovery} {o : PruneOutcomes}
    {keep : Nat} (hs : OperationStore.new d = .ok s) (hr : recover ws sha256 t b s = .ok r)
    (h : serverNew ws sha256 t b (some keep) o d = .ok s') :
    s'.requests = keptRequests (keptRecords keep r.store.records) r.store.requests := by
  rw [serverNew_some hs hr] at h
  split at h
  · rename_i s'' heq
    cases h
    have := r.store.prune_requests keep o
    rwa [heq] at this
  · cases h

/-- Every error that recovery gave to a request survives the start exactly if
there is no history limit or the records that the prune keeps name the request
of each. -/
theorem recovered_errors_survive_iff {d : LogDir} {s : OperationStore} {r : Recovery}
    (hs : OperationStore.new d = .ok s) (hr : recover ws sha256 t b s = .ok r) (limit : Option Nat) :
    RecoveredErrorsSurvive ws sha256 t b limit d r ↔
      ∀ keep, limit = some keep → ∀ id e, FailsAtStart (seenAt ws sha256 t) s id e →
        Names (keptRecords keep (settle (seenAt ws sha256 t) s.records).records) id := by
  obtain ⟨counter, operations, requests, hload, rfl⟩ := OperationStore.new_eq_ok.mp hs
  have hd : DistinctIds (loadRecords operations) := distinct_loadRecords _
  have hq : DistinctRequests (loadRequests requests) := distinct_loadRequests _
  have hspec := recovered_of_recover hd hq hr
  have hdist := distinct_of_recover hd hq hr
  have hnames := fun keep => (hspec.records.keptRecords keep).names
  cases limit with
  | none =>
    refine iff_of_true (fun o s' hnew id e _ hlook => ?_) (by simp)
    rw [serverNew_none hs hr] at hnew
    cases hnew
    exact answersWith_of_lookup hlook
  | some keep =>
    constructor
    · rintro h _ ⟨⟩ id e hfail
      obtain ⟨hline, hlook⟩ := (recovered_error_iff hspec).mpr hfail
      obtain ⟨stats, hstats⟩ := (r.store.prune_isOk_iff keep .allDone).mpr rfl
      have hnew : serverNew ws sha256 t b (some keep) .allDone d =
          .ok (r.store.prune keep .allDone).2 := by
        rw [serverNew_some hs hr]
        split <;> simp_all
      obtain ⟨hfound, -⟩ := h _ _ hnew id e hline hlook
      rw [lookup_serverNew hs hr hnew] at hfound
      exact (hnames keep id).mp ((lookup_keptRequests hdist hlook (by simp [RequestEntry.ofError])).mp hfound)
    · intro h o s' hnew id e hline hlook
      refine answersWith_of_lookup ?_
      rw [lookup_serverNew hs hr hnew]
      refine (lookup_keptRequests hdist hlook (by simp [RequestEntry.ofError])).mpr ((hnames keep id).mpr ?_)
      exact h keep rfl id e ((recovered_error_iff hspec).mp ⟨hline, hlook⟩)

/-- A start whose clock counts the lines appended, and whose tables are walked
in the order they are listed in. -/
def plainStart : Start where
  clock := id
  order := id
  perm _ := .refl _

/-- The state directory of a server that died while its first request, an
exec, was running. -/
def interruptedExec : LogDir :=
  { LogDir.empty with requests := .ofRecords [(RequestEntry.inProgress "exec").line "r1"] }

def emptyWorkspace : Workspace := { root := ["ws"], scratchRoot := ["scratch", "state"] }

theorem recovered_errors_survive_iff_interruptedExec : ∃ s r,
    OperationStore.new interruptedExec = .ok s ∧
      recover emptyWorkspace zeroDigest .bare plainStart s = .ok r ∧
      (RecoveredErrorsSurvive emptyWorkspace zeroDigest .bare plainStart (some 10) interruptedExec r ↔
        ∀ keep, some 10 = some keep → ∀ id e,
          FailsAtStart (seenAt emptyWorkspace zeroDigest .bare) s id e →
          Names (keptRecords keep
            (settle (seenAt emptyWorkspace zeroDigest .bare) s.records).records) id) :=
  ⟨_, _, rfl, rfl, recovered_errors_survive_iff rfl rfl (some 10)⟩

/-- With a history limit, the start that fails the interrupted exec forgets it
again: its request can be sent once more and runs. -/
theorem interrupted_exec_forgotten : ∃ s r s',
    OperationStore.new interruptedExec = .ok s ∧
      recover emptyWorkspace zeroDigest .bare plainStart s = .ok r ∧
      serverNew emptyWorkspace zeroDigest .bare plainStart (some 10) .allDone interruptedExec = .ok s' ∧
      r.store.requests.lookup "r1" = some (.ofError execInterrupted) ∧
      (s'.statusForRequest "r1").status = .unknown ∧
      (s'.claimLocked .done "r1" "exec").1 = .ok none ∧
      ¬ RecoveredErrorsSurvive emptyWorkspace zeroDigest .bare plainStart (some 10) interruptedExec r := by
  refine ⟨_, _, _, rfl, rfl, rfl, by decide, by decide, by decide, fun h => ?_⟩
  have := (h .allDone _ rfl "r1" execInterrupted (by decide) (by decide)).1
  revert this
  decide

end RemoteWorkspace
