import RemoteWorkspace.Store.Mirror

/-!
# The order of history

In memory a committed mutation stands where its marker stood, while loading
sorts the table by time and then by id. So `history` answers alike before and
after a restart exactly for the tables that are in that order already
(`history_order_survives_iff`): an exec recorded between the prepare and the
commit of a mutation is enough to break it.
-/

namespace RemoteWorkspace

open Interleave Keyed

/-- That a store opened again on the same directory answers `history` as before
it was closed, and that a prune retains the same operations on either side. -/
def OrderSurvives (s : OperationStore) : Prop :=
  ∃ s₁, OperationStore.new s.dir = .ok s₁ ∧ (∀ limit, s₁.history limit = s.history limit) ∧
    ∀ keep r, r ∈ (s₁.prune keep .allDone).2.records ↔ r ∈ (s.prune keep .allDone).2.records

@[simp] theorem operationId_stripPreviews (r : AnyOperationRecord) :
    (OperationStore.stripPreviews r).operationId = r.operationId := by cases r <;> rfl

theorem history_none_of_committed {s : OperationStore} (h : ∀ r ∈ s.records, r.isCommitted = true) :
    s.history none = s.records.map OperationStore.stripPreviews := by
  rw [OperationStore.history, List.filter_eq_self.mpr h]

theorem ids_stripPreviews (rs : Records) : (rs.map OperationStore.stripPreviews).map
    AnyOperationRecord.operationId = rs.map AnyOperationRecord.operationId := by
  rw [List.map_map]
  exact List.map_congr_left fun r _ => operationId_stripPreviews r

/-- Tables with the same ids in the same order that answer alike are equal. -/
theorem eq_of_ids_eq {rs rs' : Records} (hd : DistinctIds rs) (hd' : DistinctIds rs')
    (hids : rs.map AnyOperationRecord.operationId = rs'.map AnyOperationRecord.operationId)
    (hget : ∀ id, get AnyOperationRecord.operationId id rs = get AnyOperationRecord.operationId id rs') :
    rs = rs' := by
  refine List.ext_getElem (by simpa using congrArg List.length hids) fun i h h' => ?_
  have hid : rs[i].operationId = rs'[i].operationId := by
    have := congrArg (·[i]?) hids
    simpa [h, h'] using this
  have hi := get_of_mem hd (List.getElem_mem h)
  rw [hget, hid, get_of_mem hd' (List.getElem_mem h')] at hi
  exact (Option.some.inj hi).symm

/-- A store that would load the records it has in memory, all of them committed,
keeps their order exactly if it is that of loading. -/
theorem orderSurvives_iff {s s₁ : OperationStore} (hs : OperationStore.new s.dir = .ok s₁)
    (hd : DistinctIds s.records)
    (hget : ∀ id, get AnyOperationRecord.operationId id s₁.records =
      get AnyOperationRecord.operationId id s.records)
    (hcommitted : ∀ r ∈ s.records, r.isCommitted = true) :
    OrderSurvives s ↔ s.records.Pairwise OlderRecord := by
  have hd₁ := (distinct_of_new hs).1
  have hperm : s₁.records.Perm s.records := perm_of_get_eq hd₁ hd hget
  constructor
  · rintro ⟨s₁', hs', hhistory, -⟩
    cases hs.symm.trans hs'
    have hids := congrArg (List.map AnyOperationRecord.operationId) (hhistory none)
    rw [history_none_of_committed hcommitted,
      history_none_of_committed fun r hr => hcommitted r (hperm.mem_iff.mp hr), ids_stripPreviews,
      ids_stripPreviews] at hids
    rw [← eq_of_ids_eq hd₁ hd hids hget]
    exact older_of_new hs
  · intro holder
    have heq : s₁.records = s.records :=
      eq_of_pairwise_older (older_of_new hs) holder fun r => hperm.mem_iff
    refine ⟨s₁, hs, fun limit => ?_, fun keep r => ?_⟩
    · simp only [OperationStore.history, heq]
    · rw [OperationStore.prune_records, OperationStore.prune_records, heq]

/-- In every run of store operations that leaves no line in doubt, whenever no
mutation is pending, the order of history survives a restart exactly if the
table is in the order of times, and of ids where times agree. -/
theorem history_order_survives_iff {d : LogDir} {s₀ : OperationStore} (h₀ : OperationStore.new d = .ok s₀)
    {σ : Serving} {ts : List (StoreProg Unit)} {n : Nat}
    (hr : Machine.Run prunesOk (.up { store := s₀, failed := [] } [] 0 : storeMachine.World) (.up σ ts n))
    (hdoubt : σ.failed = []) (hpending : ∀ r ∈ σ.store.records, isPending r = false) :
    OrderSurvives σ.store ↔ σ.store.records.Pairwise OlderRecord := by
  obtain ⟨ops, reqs, hm⟩ := Mirror.of_new h₀
  obtain ⟨ctx, ⟨ops, reqs, h⟩, -⟩ := Machine.inv_of_run storeMachine_keeps (show Machine.Inv _ _ _
    (.up { store := s₀, failed := [] } [] 0 : storeMachine.World) from ⟨[], ⟨ops, reqs, hm⟩, .nil⟩) hr
  obtain ⟨s₁, hs₁, hrecords, -⟩ := h.reloads
  have hnone : ∀ id, ¬ DoubtfulId σ.failed id := fun id ⟨r, hr, _⟩ => by
    rw [hdoubt] at hr
    cases hr
  refine orderSurvives_iff hs₁ h.distinct (fun id => hrecords id (hnone id)) fun r hr => ?_
  have hstanding := h.standing r hr
  have hpend := hpending r hr
  cases r with
  | prepared p => cases hpend
  | aborted r => cases hstanding
  | _ => rfl

/-! ## An exec between prepare and commit -/

/-- A caller that prepares a mutation of `f` and commits it. -/
def createF : StoreProg Unit := do
  match ← StoreProg.prepareFsRecord "r1" .create "f" none "sha256:aa" with
  | .ok id =>
    let _ ← StoreProg.commitFsRecord id "r1" .create "f" none "sha256:aa"
    return
  | .error _ => return

theorem conforms_createF : createF.Conforms StoreLocal.next (fun _ _ => True) .idle := by
  refine (StoreProg.conforms_prepareFsRecord .idle "r1" .create "f" none "sha256:aa").bind fun m r hr => ?_
  cases r with
  | error e => trivial
  | ok id =>
    obtain ⟨p, rfl, rfl⟩ := hr id rfl
    exact fun _ => ⟨.marked p, rfl, fun _ => ⟨.idle, if_pos rfl, trivial⟩⟩

/-- The record of a rejected exec. -/
def rejectedExec (operationId : String) (timestampMs : Nat) : ExecOperationRecord where
  operationId := operationId
  requestId := "r2"
  argv := []
  cwd := none
  profile := none
  timeoutMs := none
  disposition := .rejected
  termination := none
  drainTimedOut := false
  durationMs := 0
  timestampMs := timestampMs
  error := none
  errorCode := none
  stdout := .empty
  stderr := .empty

/-- A caller that records an exec. -/
def recordExec : StoreProg Unit := do
  let id ← Prog.call StoreCmd.nextOperationId
  let timestampMs ← Prog.call StoreCmd.now
  let _ ← StoreProg.appendExecRecord (rejectedExec id timestampMs)
  return

theorem conforms_recordExec : recordExec.Conforms StoreLocal.next (fun _ _ => True) .idle :=
  fun id => ⟨.fresh id, rfl, fun _ => ⟨.fresh id, rfl, fun _ => ⟨.idle, if_pos rfl, trivial⟩⟩⟩

/-- The exec is recorded at time 2, between the prepare of op-1 at time 1 and
its commit at time 3. -/
def execInBetween : List storeMachine.Label :=
  let step (i : Nat) (clock : Nat) : storeMachine.Label := .step i ({ clock } : StoreChoice)
  [.spawn ⟨createF, conforms_createF⟩, .spawn ⟨recordExec, conforms_recordExec⟩,
    step 0 0, step 0 1, step 0 0, step 1 0, step 1 2, step 1 0, step 0 3, step 0 0]

def createdInBetween : FsOperationRecord where
  operationId := "op-1"
  requestId := "r1"
  kind := .create
  path := "f"
  beforeHash := none
  afterHash := "sha256:aa"
  timestampMs := 3

def preparedInBetween : PreparedRecord where
  operationId := "op-1"
  requestId := "r1"
  kind := .create
  path := "f"
  beforeHash := none
  expectedAfterHash := "sha256:aa"
  timestampMs := 1

def logInBetween : Records :=
  [.prepared preparedInBetween, .exec (rejectedExec "op-2" 2), .fs createdInBetween]

/-- The store after that. -/
def storeInBetween : OperationStore where
  dir := { LogDir.empty with operations := .ofRecords logInBetween }
  nextId := 2
  records := [.fs createdInBetween, .exec (rejectedExec "op-2" 2)]
  requests := []
  logTorn := false

theorem run_execInBetween :
    Machine.okSteps prunesOk (.up { store := emptyStore, failed := [] } [] 0 : storeMachine.World)
      execInBetween = some (.up { store := storeInBetween, failed := [] } [.pure (), .pure ()] 0) := rfl

theorem history_order_survives_iff_execInBetween :
    OrderSurvives storeInBetween ↔ storeInBetween.records.Pairwise OlderRecord := by
  have hpending : ∀ r ∈ storeInBetween.records, isPending r = false := by decide
  have hnew : OperationStore.new .empty = .ok emptyStore := rfl
  exact history_order_survives_iff hnew (Machine.Run.init.okSteps run_execInBetween) rfl hpending

/-- The exec comes last in memory and first after a restart, so that a prune to
one operation retains another one. -/
theorem exec_in_between_changes_place :
    Machine.okSteps prunesOk (.up { store := emptyStore, failed := [] } [] 0 : storeMachine.World)
        execInBetween = some (.up { store := storeInBetween, failed := [] } [.pure (), .pure ()] 0) ∧
      ∃ s₁, OperationStore.new storeInBetween.dir = .ok s₁ ∧
        (storeInBetween.history none).map AnyOperationRecord.operationId = ["op-1", "op-2"] ∧
        (s₁.history none).map AnyOperationRecord.operationId = ["op-2", "op-1"] ∧
        (storeInBetween.prune 1 .allDone).2.records.map AnyOperationRecord.operationId = ["op-2"] ∧
        (s₁.prune 1 .allDone).2.records.map AnyOperationRecord.operationId = ["op-1"] ∧
        ¬ OrderSurvives storeInBetween := by
  refine ⟨run_execInBetween, _, rfl, by decide, by decide, by decide, by decide, ?_⟩
  rintro ⟨s₁, hs₁, hhistory, -⟩
  cases hs₁
  have := congrArg (List.map AnyOperationRecord.operationId) (hhistory none)
  revert this
  decide

end RemoteWorkspace
