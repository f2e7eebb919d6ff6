import RemoteWorkspace.Store.Table

/-!
# Pruning

`OperationStore::prune`: the tables lose their oldest records and the requests
that no kept record names, and then three files are replaced one after the
other, each of which may fail before its rename or after it. The tables are
cut down first, whatever becomes of the files.
-/

namespace RemoteWorkspace

/-- How the replacement of a file goes: it may fail with the old file in place
or, at the sync of the directory, with the new one. -/
inductive ReplaceOutcome where
  | done
  | failsBefore (e : ProtocolError)
  | failsAfter (e : ProtocolError)
  deriving DecidableEq, Repr

/-- The outcomes of the three replacements, in their order. -/
structure PruneOutcomes where
  opCounter : ReplaceOutcome
  operations : ReplaceOutcome
  requests : ReplaceOutcome
  deriving DecidableEq, Repr

def PruneOutcomes.allDone : PruneOutcomes := { opCounter := .done, operations := .done, requests := .done }

structure PruneStats where
  removedOperations : Nat
  removedRequests : Nat
  retainedOperations : Nat
  deriving DecidableEq, Repr

/-- Records that count as history. -/
def prunable (rs : Records) : Nat := (rs.filter fun r => !isPending r).length

/-- The table without its first `n` records that are not pending. -/
def dropOldest : Nat → Records → Records
  | 0, rs => rs
  | _, [] => []
  | n + 1, r :: rs => if isPending r then r :: dropOldest (n + 1) rs else dropOldest n rs

/-- The records that a prune keeps. -/
def keptRecords (keep : Nat) (rs : Records) : Records := dropOldest (prunable rs - keep) rs

/-- The requests that a prune keeps, beside these records. -/
def keptRequests (rs : Records) (qs : Requests) : Requests :=
  qs.filter fun q => q.2.status = .inProgress || rs.any fun r => recordRequestId r = some q.1

theorem length_dropOldest (n : Nat) (rs : Records) :
    (dropOldest n rs).length + min n (prunable rs) = rs.length := by
  induction rs generalizing n with
  | nil => cases n <;> rfl
  | cons r rs ih =>
    cases n with
    | zero => simp [dropOldest]
    | succ n =>
      by_cases hr : isPending r = true
      · have := ih (n + 1)
        simp only [dropOldest, hr, if_true, List.length_cons, prunable, List.filter_cons,
          Bool.not_true, Bool.false_eq_true, if_false] at *
        omega
      · have := ih n
        simp only [dropOldest, hr, Bool.false_eq_true, if_false, List.length_cons, prunable,
          List.filter_cons, Bool.not_false, if_true] at *
        omega

theorem dropOldest_sublist (n : Nat) (rs : Records) : (dropOldest n rs).Sublist rs := by
  induction rs generalizing n with
  | nil => cases n <;> exact .refl _
  | cons r rs ih =>
    cases n with
    | zero => exact .refl _
    | succ n =>
      simp only [dropOldest]
      split
      · exact (ih _).cons_cons r
      · exact (ih _).cons r

theorem keptRecords_sublist (keep : Nat) (rs : Records) : (keptRecords keep rs).Sublist rs :=
  dropOldest_sublist _ rs

theorem keptRequests_sublist (rs : Records) (qs : Requests) : (keptRequests rs qs).Sublist qs :=
  List.filter_sublist

theorem keptRecords_eq_self {keep : Nat} {rs : Records} :
    keptRecords keep rs = rs ↔ prunable rs ≤ keep := by
  constructor
  · intro h
    have := length_dropOldest (prunable rs - keep) rs
    rw [← keptRecords, h] at this
    omega
  · intro h
    rw [keptRecords, Nat.sub_eq_zero_of_le h]
    cases rs <;> rfl

/-- A request that no prune with these records kept would remove. -/
def Referenced (rs : Records) (q : String × RequestEntry) : Prop :=
  q.2.status = .inProgress ∨ ∃ r ∈ rs, recordRequestId r = some q.1

theorem mem_keptRequests {rs : Records} {qs : Requests} {q : String × RequestEntry} :
    q ∈ keptRequests rs qs ↔ q ∈ qs ∧ Referenced rs q := by
  simp [keptRequests, Referenced]

theorem keptRequests_eq_self {rs : Records} {qs : Requests} :
    keptRequests rs qs = qs ↔ ∀ q ∈ qs, Referenced rs q := by
  simp [keptRequests, Referenced]

/-- The records of a table that count as history. -/
def historyOnly (rs : Records) : Records := rs.filter fun r => !isPending r

theorem historyOnly_dropOldest (n : Nat) (rs : Records) : historyOnly (dropOldest n rs) = (historyOnly rs).drop n := by
  induction rs generalizing n with
  | nil => cases n <;> rfl
  | cons r rs ih =>
    cases n with
    | zero => rfl
    | succ n =>
      unfold historyOnly at ih ⊢
      rw [dropOldest]
      cases hr : isPending r with
      | true => rw [if_pos rfl, List.filter_cons_of_neg (by simp [hr]), List.filter_cons_of_neg (by simp [hr]), ih]
      | false => rw [if_neg (by simp), List.filter_cons_of_pos (by simp [hr]), List.drop_succ_cons, ih]

theorem markers_dropOldest (n : Nat) (rs : Records) : (dropOldest n rs).filter isPending = rs.filter isPending := by
  induction rs generalizing n with
  | nil => cases n <;> rfl
  | cons r rs ih =>
    cases n with
    | zero => rfl
    | succ n =>
      rw [dropOldest]
      cases hr : isPending r with
      | true => rw [if_pos rfl, List.filter_cons_of_pos hr, List.filter_cons_of_pos hr, ih]
      | false => rw [if_neg (by simp), List.filter_cons_of_neg (by simp [hr]), ih]

theorem prunable_dropOldest (n : Nat) (rs : Records) : prunable (dropOldest n rs) = prunable rs - n := by
  have := congrArg List.length (historyOnly_dropOldest n rs)
  rwa [List.length_drop] at this

theorem dropOldest_dropOldest (m n : Nat) (rs : Records) :
    dropOldest m (dropOldest n rs) = dropOldest (n + m) rs := by
  induction rs generalizing n with
  | nil => cases n <;> cases m <;> rfl
  | cons r rs ih =>
    cases n with
    | zero => rw [dropOldest, Nat.zero_add]
    | succ n =>
      rw [dropOldest, show n + 1 + m = (n + m) + 1 by omega, dropOldest]
      split
      · next hr =>
        cases m with
        | zero => rw [dropOldest, Nat.add_zero]
        | succ m => rw [dropOldest, if_pos hr, ih, show n + 1 + (m + 1) = n + (m + 1) + 1 by omega]
      · exact ih n

theorem keptRecords_keptRecords {j k : Nat} (hjk : j ≤ k) (rs : Records) :
    keptRecords j (keptRecords k rs) = keptRecords j rs := by
  rw [keptRecords, keptRecords, dropOldest_dropOldest, prunable_dropOldest, keptRecords]
  congr 1
  omega

theorem keptRequests_keptRequests {rs rs' : Records} (h : ∀ r ∈ rs', r ∈ rs) (qs : Requests) :
    keptRequests rs' (keptRequests rs qs) = keptRequests rs' qs := by
  rw [keptRequests, keptRequests, List.filter_filter, keptRequests]
  refine List.filter_congr fun q _ => ?_
  rw [Bool.eq_iff_iff]
  simp only [Bool.and_eq_true, Bool.or_eq_true, decide_eq_true_eq, List.any_eq_true]
  constructor
  · exact And.left
  · rintro (hq | ⟨r, hr, hid⟩)
    · exact ⟨.inl hq, .inl hq⟩
    · exact ⟨.inr ⟨r, hr, hid⟩, .inr ⟨r, h r hr, hid⟩⟩

namespace OperationStore

/-- The store once its tables are cut down. -/
def cutDown (s : OperationStore) (keep : Nat) : OperationStore :=
  let records := keptRecords keep s.records
  { s with records, requests := keptRequests records s.requests }

def withCounter (s : OperationStore) : LogDir :=
  { s.dir with opCounter := some (counterText s.nextId) }

def withOperations (s : OperationStore) (d : LogDir) : LogDir :=
  { d with operations := .ofRecords s.records }

def withRequests (s : OperationStore) (d : LogDir) : LogDir :=
  { d with requests := .ofRecords (s.requests.map fun q => q.2.line q.1) }

def pruneStats (before after : OperationStore) : PruneStats where
  removedOperations := before.records.length - after.records.length
  removedRequests := before.requests.length - after.requests.length
  retainedOperations := prunable after.records

def prune (s : OperationStore) (keep : Nat) (o : PruneOutcomes) :
    Except ProtocolError PruneStats × OperationStore :=
  let s' := s.cutDown keep
  let counter := s'.withCounter
  let operations := s'.withOperations counter
  let requests := s'.withRequests operations
  match o.opCounter with
  | .failsBefore e => (.error e, s')
  | .failsAfter e => (.error e, { s' with dir := counter })
  | .done =>
    match o.operations with
    | .failsBefore e => (.error e, { s' with dir := counter })
    | .failsAfter e => (.error e, { s' with dir := operations })
    | .done =>
      match o.requests with
      | .failsBefore e => (.error e, { s' with dir := operations })
      | .failsAfter e => (.error e, { s' with dir := requests })
      | .done => (.ok (s.pruneStats s'), { s' with dir := requests })

/-- The files when a process dies in `prune`, after so many replacements. -/
def pruneCut (s : OperationStore) (keep n : Nat) : LogDir :=
  let s' := s.cutDown keep
  match n with
  | 0 => s.dir
  | 1 => s'.withCounter
  | 2 => s'.withOperations s'.withCounter
  | _ => s'.withRequests (s'.withOperations s'.withCounter)

/-! ## The tables after a prune -/

variable (s : OperationStore) (keep : Nat) (o : PruneOutcomes)

/-- The tables are cut down whether the files are replaced or not. -/
theorem prune_tables : (s.prune keep o).2.records = keptRecords keep s.records ∧
    (s.prune keep o).2.requests = keptRequests (keptRecords keep s.records) s.requests := by
  unfold prune
  repeat' split
  all_goals exact ⟨rfl, rfl⟩

@[simp] theorem prune_records : (s.prune keep o).2.records = keptRecords keep s.records :=
  (s.prune_tables keep o).1

@[simp] theorem prune_requests :
    (s.prune keep o).2.requests = keptRequests (keptRecords keep s.records) s.requests :=
  (s.prune_tables keep o).2

@[simp] theorem prune_nextId : (s.prune keep o).2.nextId = s.nextId := by
  unfold prune
  repeat' split
  all_goals rfl

@[simp] theorem prune_logTorn : (s.prune keep o).2.logTorn = s.logTorn := by
  unfold prune
  repeat' split
  all_goals rfl

/-- The files of a prune that returned `Ok` are written from its tables. -/
theorem prune_ok {s : OperationStore} {keep : Nat} {o : PruneOutcomes} {stats : PruneStats}
    (h : (s.prune keep o).1 = .ok stats) :
    (s.prune keep o).2.dir = s.pruneCut keep 3 ∧ stats = s.pruneStats (s.cutDown keep) := by
  unfold prune at h ⊢
  repeat' split at h
  all_goals cases h
  exact ⟨rfl, rfl⟩

/-- The files of any prune are those after some number of replacements. -/
theorem prune_dir : ∃ n ≤ 3, (s.prune keep o).2.dir = s.pruneCut keep n := by
  unfold prune
  repeat' split
  · exact ⟨0, by decide, rfl⟩
  all_goals first
    | exact ⟨1, by decide, rfl⟩
    | exact ⟨2, by decide, rfl⟩
    | exact ⟨3, by decide, rfl⟩

/-- A prune returns `Ok` exactly if all three files were replaced. -/
theorem prune_isOk_iff : (∃ stats, (s.prune keep o).1 = .ok stats) ↔ o = .allDone := by
  obtain ⟨counter, operations, requests⟩ := o
  cases counter <;> cases operations <;> cases requests <;> simp [prune, PruneOutcomes.allDone]

theorem prune_isError_iff : (∃ e, (s.prune keep o).1 = .error e) ↔ o ≠ .allDone := by
  rw [ne_eq, ← prune_isOk_iff s keep o]
  cases h : (s.prune keep o).1 <;> simp

/-- That a prune which returns an error leaves both tables as they were. -/
def FailedPruneKeepsTables : Prop :=
  (∃ e, (s.prune keep o).1 = .error e) →
    (s.prune keep o).2.records = s.records ∧ (s.prune keep o).2.requests = s.requests

/-- A prune that fails keeps the tables only if there was nothing to remove
from them: no more history than `keep`, and every request in progress or named
by a record. -/
theorem failed_prune_keeps_tables_iff : s.FailedPruneKeepsTables keep o ↔
    o = .allDone ∨ prunable s.records ≤ keep ∧ ∀ q ∈ s.requests, Referenced s.records q := by
  have htables : ((s.prune keep o).2.records = s.records ∧ (s.prune keep o).2.requests = s.requests) ↔
      prunable s.records ≤ keep ∧ ∀ q ∈ s.requests, Referenced s.records q := by
    rw [prune_records, prune_requests, keptRecords_eq_self]
    constructor
    · rintro ⟨hle, hq⟩
      rw [keptRecords_eq_self.mpr hle, keptRequests_eq_self] at hq
      exact ⟨hle, hq⟩
    · rintro ⟨hle, hq⟩
      rw [keptRecords_eq_self.mpr hle, keptRequests_eq_self]
      exact ⟨hle, hq⟩
  rw [FailedPruneKeepsTables, prune_isError_iff, htables]
  tauto

def download : TransferOperationRecord where
  operationId := "op-1"
  requestId := "r1"
  direction := .download
  path := "f"
  size := 0
  sha256 := "e3b0"
  durationMs := 5
  timestampMs := 1

def downloadReply : ServerMessage :=
  .result "r1" (.transfer {
    operationId := "op-1", direction := .download, path := "f", size := 0, sha256 := "e3b0"
    durationMs := 5 })

/-- A store that has served one `download_record` since it was created. -/
def oneDownload : OperationStore :=
  let s : OperationStore :=
    { dir := .empty, nextId := 1, records := [], requests := [], logTorn := false }
  ((s.record (inProgressLine "r1" "download_record")).record (.operation (.transfer download))).record
    (.request ((RequestEntry.ofResult downloadReply).line "r1"))

/-- A prune that keeps nothing, on a disk that takes no new counter file. -/
def counterFails : PruneOutcomes :=
  { PruneOutcomes.allDone with opCounter := .failsBefore (.new .ioError "disk full") }

/-- The tables no longer know the download and its request, and the files
still hold it. -/
theorem failed_prune_loses_download : ¬ oneDownload.FailedPruneKeepsTables 0 counterFails ∧
    oneDownload.findRecord "op-1" = some (.transfer download) ∧
    (oneDownload.prune 0 counterFails).2.findRecord "op-1" = none ∧
    (oneDownload.prune 0 counterFails).2.requests.lookup "r1" = none ∧
    (oneDownload.prune 0 counterFails).2.dir.operations.read = some [.transfer download] := by
  refine ⟨fun h => ?_, by decide, by decide, by decide, by decide⟩
  have := h ⟨_, rfl⟩
  revert this
  decide

/-! ## What is kept -/

theorem cutDown_cutDown {j k : Nat} (hjk : j ≤ k) (s : OperationStore) :
    (s.cutDown k).cutDown j = s.cutDown j := by
  rw [cutDown, cutDown, cutDown]
  dsimp only
  rw [keptRecords_keptRecords hjk, keptRequests_keptRequests fun r hr => ?_]
  rw [← keptRecords_keptRecords hjk] at hr
  exact (keptRecords_sublist j _).subset hr

/-- The files that a prune writes of its tables. -/
def written (s : OperationStore) : LogDir where
  operations := .ofRecords s.records
  requests := .ofRecords (s.requests.map fun q => q.2.line q.1)
  opCounter := some (counterText s.nextId)

theorem prune_allDone (s : OperationStore) (keep : Nat) :
    (s.prune keep .allDone).2 = { s.cutDown keep with dir := (s.cutDown keep).written } := rfl

/-- What a prune that returned these counts has kept. -/
structure PrunedTo (s : OperationStore) (keep : Nat) (stats : PruneStats) (s' : OperationStore) : Prop where
  /-- The oldest records of history are gone. -/
  history : historyOnly s'.records = (historyOnly s.records).drop (prunable s.records - keep)
  markers : s'.records.filter isPending = s.records.filter isPending
  order : s'.records.Sublist s.records
  requests : s'.requests = s.requests.filter fun q =>
    q.2.status = .inProgress || s'.records.any fun r => recordRequestId r = some q.1
  removedOperations : stats.removedOperations = prunable s.records - keep
  removed_length : s'.records.length + stats.removedOperations = s.records.length
  retainedOperations : stats.retainedOperations = min (prunable s.records) keep
  removedRequests : s'.requests.length + stats.removedRequests = s.requests.length
  nextId : s'.nextId = s.nextId
  files : s'.dir = s'.written

theorem prunedTo (s : OperationStore) {keep : Nat} {o : PruneOutcomes} {stats : PruneStats}
    (h : (s.prune keep o).1 = .ok stats) : s.PrunedTo keep stats (s.prune keep o).2 := by
  obtain rfl := (prune_isOk_iff s keep o).mp ⟨stats, h⟩
  obtain ⟨-, rfl⟩ := prune_ok h
  have hlen := length_dropOldest (prunable s.records - keep) s.records
  have hmin : min (prunable s.records - keep) (prunable s.records) = prunable s.records - keep := by omega
  rw [hmin, ← keptRecords] at hlen
  have hreq := (keptRequests_sublist (keptRecords keep s.records) s.requests).length_le
  refine ⟨?_, ?_, ?_, ?_, ?_, ?_, ?_, ?_, prune_nextId s keep _, by rw [prune_allDone]; rfl⟩
  · rw [prune_records]
    exact historyOnly_dropOldest _ _
  · rw [prune_records]
    exact markers_dropOldest _ _
  · rw [prune_records]
    exact keptRecords_sublist _ _
  · rw [prune_requests, prune_records]
    rfl
  · show s.records.length - (keptRecords keep s.records).length = _
    omega
  · rw [prune_records]
    show (keptRecords keep s.records).length + (s.records.length - (keptRecords keep s.records).length) = _
    omega
  · show prunable (keptRecords keep s.records) = _
    rw [keptRecords, prunable_dropOldest]
    omega
  · rw [prune_requests]
    show _ + (s.requests.length - (keptRequests (keptRecords keep s.records) s.requests).length) = _
    omega

/-- A prune keeps what it should, and one with a smaller number after it leaves
the store that the smaller number alone would have left. -/
theorem prune_exact (s : OperationStore) :
    (∀ keep o stats, (s.prune keep o).1 = .ok stats → s.PrunedTo keep stats (s.prune keep o).2) ∧
    ∀ j k, j ≤ k → ∀ o o' o'' stats stats' stats'', (s.prune k o).1 = .ok stats →
      ((s.prune k o).2.prune j o').1 = .ok stats' → (s.prune j o'').1 = .ok stats'' →
        ((s.prune k o).2.prune j o').2 = (s.prune j o'').2 := by
  refine ⟨fun keep o stats h => s.prunedTo h, fun j k hjk o o' o'' stats stats' stats'' h h' h'' => ?_⟩
  obtain rfl := (prune_isOk_iff s k o).mp ⟨_, h⟩
  obtain rfl := (prune_isOk_iff _ j o').mp ⟨_, h'⟩
  obtain rfl := (prune_isOk_iff s j o'').mp ⟨_, h''⟩
  rw [prune_allDone, prune_allDone, prune_allDone, ← cutDown_cutDown hjk s]
  rfl

end OperationStore

end RemoteWorkspace
