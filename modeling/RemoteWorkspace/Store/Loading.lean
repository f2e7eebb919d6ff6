import RemoteWorkspace.Store.Table

/-!
# What a start reads

The tables that `OperationStore.new` makes of the logs, key by key: for each
operation its last record unless that withdraws it, for each request its last
line. Records are ordered by time, and by id where times agree.
-/

namespace RemoteWorkspace

open Keyed

abbrev DistinctIds (rs : Records) : Prop := Distinct AnyOperationRecord.operationId rs

abbrev DistinctRequests (qs : Requests) : Prop := Distinct Prod.fst qs

/-- What a log of operations says about an id. -/
abbrev latestRecord (log : Records) (id : String) : Option AnyOperationRecord :=
  latest AnyOperationRecord.operationId log id

/-- What a log of requests says about a request. -/
abbrev latestLine (log : List RequestLogLine) (id : String) : Option RequestLogLine :=
  latest RequestLogLine.requestId log id

/-- The order of a loaded table. -/
abbrev OlderRecord : AnyOperationRecord → AnyOperationRecord → Prop :=
  Older AnyOperationRecord.operationId AnyOperationRecord.timestampMs

theorem loadRecords_older (log : Records) : (loadRecords log).Pairwise OlderRecord :=
  pairwise_insertionSort (List.Pairwise.filter _ (ordered_collapse log)) _

theorem mem_loadRecords {log : Records} {r : AnyOperationRecord} :
    r ∈ loadRecords log ↔ latestRecord log r.operationId = some r ∧ isAborted r = false := by
  rw [loadRecords, List.mem_insertionSort, List.mem_filter, mem_collapse]
  simp

theorem distinct_loadRecords (log : Records) : DistinctIds (loadRecords log) :=
  ((ordered_collapse log).distinct.filter _).perm (List.perm_insertionSort _ _).symm

theorem get_loadRecords (log : Records) (id : String) :
    get AnyOperationRecord.operationId id (loadRecords log) =
      (latestRecord log id).filter fun r => !isAborted r := by
  rw [loadRecords, get_perm (((ordered_collapse log).distinct.filter _).perm
      (List.perm_insertionSort _ _).symm) (List.perm_insertionSort _ _),
    get_filter (ordered_collapse log).distinct, get_collapse]

theorem loadRequests_concat (log : List RequestLogLine) (l : RequestLogLine) :
    loadRequests (log ++ [l]) = (loadRequests log).insert l.requestId l.entry := by
  simp [loadRequests]

theorem distinct_loadRequests (log : List RequestLogLine) : DistinctRequests (loadRequests log) := by
  induction log using List.reverseRecOn with
  | nil => exact distinct_nil
  | append_singleton log l ih =>
    rw [loadRequests_concat]
    exact ih.put _

theorem lookup_loadRequests (log : List RequestLogLine) (id : String) :
    (loadRequests log).lookup id = (latestLine log id).map RequestLogLine.entry := by
  induction log using List.reverseRecOn with
  | nil => rfl
  | append_singleton log l ih =>
    rw [loadRequests_concat, Requests.lookup_insert, ih, latestLine, latestLine, latest_concat]
    by_cases h : l.requestId = id
    · simp [h]
    · simp [h, Ne.symm h]

/-! ## The id counter -/

theorem idNumber_operationIdOf {n : Nat} (h : n < u64Bound) : idNumber (operationIdOf n) = some n := by
  have hprefix : (operationIdOf n).toList = opPrefix ++ n.repr.toList := by
    simp [operationIdOf, opPrefix]
  rw [idNumber, hprefix, if_pos (by simp), List.drop_left, Decimal.parse_repr h]

theorem operationIdOf_inj {m n : Nat} (h : operationIdOf m = operationIdOf n) : m = n := by
  have := congrArg (fun s => s.toList.drop 3) h
  simp only [operationIdOf, String.toList_append] at this
  exact Decimal.repr_inj (String.ext (by simpa using this))

theorem counterNumber_counterText {n : Nat} (h : n < u64Bound) :
    counterNumber (counterText n) = some n := by
  have : (counterText n).toList = n.repr.toList ++ ['\n'] := by simp [counterText]
  rw [counterNumber, this, Decimal.trim_repr_newline, Decimal.parse_repr h]

theorem le_maxId (n : Nat) (log : Records) : n ≤ maxId n log := by
  induction log generalizing n with
  | nil => exact le_rfl
  | cons r log ih => exact (Nat.le_max_left _ _).trans (ih _)

theorem idNumber_le_maxId {n m : Nat} {log : Records} {r : AnyOperationRecord} (hr : r ∈ log)
    (h : idNumber r.operationId = some m) : m ≤ maxId n log := by
  induction log generalizing n with
  | nil => cases hr
  | cons x log ih =>
    rcases List.mem_cons.mp hr with rfl | hr
    · refine le_trans ?_ (le_maxId _ log)
      simp [h]
    · exact ih hr

theorem idNumber_lt {id : String} {n : Nat} (h : idNumber id = some n) : n < u64Bound := by
  unfold idNumber at h
  split at h
  · exact Decimal.lt_of_parse h
  · cases h

theorem counter_lt {d : LogDir} {n : Nat} (h : d.counter = some n) : n < u64Bound := by
  unfold LogDir.counter at h
  split at h
  · cases h
    decide
  · exact Decimal.lt_of_parse h

theorem maxId_lt {n : Nat} (h : n < u64Bound) (log : Records) : maxId n log < u64Bound := by
  induction log generalizing n with
  | nil => exact h
  | cons r log ih =>
    refine ih (Nat.max_lt.mpr ⟨h, ?_⟩)
    cases hk : idNumber r.operationId with
    | none => decide
    | some k => exact idNumber_lt hk

/-! ## A store that was loaded -/

/-- What a state directory must hold to be loaded: a counter and two logs of
records. -/
structure Loads (d : LogDir) (counter : Nat) (operations : Records) (requests : List RequestLogLine) :
    Prop where
  counter : d.counter = some counter
  operations : d.operations.read = some operations
  requests : d.requests.read = some requests

namespace OperationStore

/-- The store read from these logs. -/
def loaded (d : LogDir) (counter : Nat) (operations : Records) (requests : List RequestLogLine) :
    OperationStore where
  dir := { d with operations := d.operations.repair, requests := d.requests.repair }
  nextId := maxId counter operations
  records := loadRecords operations
  requests := loadRequests requests
  logTorn := false

theorem new_eq_ok {d : LogDir} {s : OperationStore} : new d = .ok s ↔
    ∃ counter operations requests, Loads d counter operations requests ∧
      s = loaded d counter operations requests := by
  constructor
  · intro h
    cases hc : d.counter <;> cases ho : d.operations.read <;> cases hr : d.requests.read <;>
      simp only [new, hc, ho, hr] at h <;> cases h
    exact ⟨_, _, _, ⟨hc, ho, hr⟩, rfl⟩
  · rintro ⟨counter, operations, requests, ⟨hc, ho, hr⟩, rfl⟩
    simp only [new, hc, ho, hr]
    rfl

theorem new_of_loads {d : LogDir} {counter : Nat} {operations : Records}
    {requests : List RequestLogLine} (h : Loads d counter operations requests) :
    new d = .ok (loaded d counter operations requests) := new_eq_ok.mpr ⟨_, _, _, h, rfl⟩

end OperationStore

theorem distinct_of_new {d : LogDir} {s : OperationStore} (h : OperationStore.new d = .ok s) :
    DistinctIds s.records ∧ DistinctRequests s.requests := by
  obtain ⟨counter, operations, requests, -, rfl⟩ := OperationStore.new_eq_ok.mp h
  exact ⟨distinct_loadRecords _, distinct_loadRequests _⟩

theorem older_of_new {d : LogDir} {s : OperationStore} (h : OperationStore.new d = .ok s) :
    s.records.Pairwise OlderRecord := by
  obtain ⟨counter, operations, requests, -, rfl⟩ := OperationStore.new_eq_ok.mp h
  exact loadRecords_older _

/-! ## Lines appended to a directory that loads -/

/-- The lines of the log of operations among these. -/
def operationsOf (ls : List LogLine) : Records :=
  ls.filterMap fun
    | .operation r => some r
    | .request _ => none

/-- The lines of the log of requests among these. -/
def requestsOf (ls : List LogLine) : List RequestLogLine :=
  ls.filterMap fun
    | .operation _ => none
    | .request l => some l

@[simp] theorem operationsOf_nil : operationsOf [] = [] := rfl
@[simp] theorem requestsOf_nil : requestsOf [] = [] := rfl

@[simp] theorem operationsOf_operation (r : AnyOperationRecord) (ls : List LogLine) :
    operationsOf (.operation r :: ls) = r :: operationsOf ls := rfl

@[simp] theorem operationsOf_request (l : RequestLogLine) (ls : List LogLine) :
    operationsOf (.request l :: ls) = operationsOf ls := rfl

@[simp] theorem requestsOf_operation (r : AnyOperationRecord) (ls : List LogLine) :
    requestsOf (.operation r :: ls) = requestsOf ls := rfl

@[simp] theorem requestsOf_request (l : RequestLogLine) (ls : List LogLine) :
    requestsOf (.request l :: ls) = l :: requestsOf ls := rfl

theorem operationsOf_append (ls ls' : List LogLine) :
    operationsOf (ls ++ ls') = operationsOf ls ++ operationsOf ls' := List.filterMap_append

/-- Both logs end with a newline, if with anything. -/
def LogDir.Clean (d : LogDir) : Prop := d.operations.Clean ∧ d.requests.Clean

theorem Loads.foldl_writeLine {d : LogDir} {counter : Nat} {operations : Records}
    {requests : List RequestLogLine} (h : Loads d counter operations requests) (hc : d.Clean)
    (ls : List LogLine) :
    Loads (ls.foldl LogDir.writeLine d) counter (operations ++ operationsOf ls)
        (requests ++ requestsOf ls) ∧
      (ls.foldl LogDir.writeLine d).Clean := by
  induction ls generalizing d operations requests with
  | nil => simpa using ⟨h, hc⟩
  | cons l ls ih =>
    cases l with
    | operation r =>
      have := ih (d := d.writeLine (.operation r))
        ⟨h.counter, LogFile.read_writeLine hc.1 h.operations r, h.requests⟩
        ⟨LogFile.clean_writeLine _ r, hc.2⟩
      simpa using this
    | request l =>
      have := ih (d := d.writeLine (.request l))
        ⟨h.counter, h.operations, LogFile.read_writeLine hc.2 h.requests l⟩
        ⟨hc.1, LogFile.clean_writeLine _ l⟩
      simpa using this

/-- The directory after a line that was cut short holds the line whole or not
at all. -/
theorem Loads.writeCut {d : LogDir} {counter : Nat} {operations : Records}
    {requests : List RequestLogLine} (h : Loads d counter operations requests) (hc : d.Clean)
    (c : Cut) (l : LogLine) : ∃ ls, (ls = [] ∨ ls = [l]) ∧
      Loads (d.writeCut c l) counter (operations ++ operationsOf ls) (requests ++ requestsOf ls) := by
  refine ⟨if c = .text ∨ c = .line then [l] else [], by split <;> simp, ?_⟩
  cases l with
  | operation r =>
    refine ⟨h.counter, ?_, ?_⟩
    · refine (LogFile.read_writeCut hc.1 h.operations r c).trans ?_
      split <;> simp
    · refine h.requests.trans ?_
      split <;> simp
  | request l =>
    refine ⟨h.counter, ?_, ?_⟩
    · refine h.operations.trans ?_
      split <;> simp
    · refine (LogFile.read_writeCut hc.2 h.requests l c).trans ?_
      split <;> simp

/-! ## One append -/

/-- Whether a failed append may have left its line in the log. -/
def AppendOutcome.inDoubt : AppendOutcome → Bool
  | syncFails _ | rollBackFails _ _ _ => true
  | done | openFails _ | statFails _ | writeFails _ => false

namespace OperationStore

/-- The line of an append that leaves it in doubt whether the line is there. -/
def doubtful (s : OperationStore) (o : AppendOutcome) (l : LogLine) : List LogLine :=
  if s.logTorn = false ∧ o.inDoubt = true then [l] else []

/-- What an append leaves behind, and the line if that is in doubt: the line,
nothing, a part of it or all of it in a log that nothing follows, or the line
without its sync. -/
inductive Appended (l : LogLine) (s : OperationStore) :
    Except AppendFailure Unit → OperationStore → List LogLine → Prop where
  | done (h : s.logTorn = false) : Appended l s (.ok ()) { s with dir := s.dir.writeLine l } []
  | undone (e : ProtocolError) : Appended l s (.error (.incomplete e)) s []
  | torn (e : ProtocolError) (c : Cut) (h : s.logTorn = false) :
      Appended l s (.error (.incomplete e)) { s with dir := s.dir.writeCut c l, logTorn := true } [l]
  | unsynced (e : ProtocolError) (h : s.logTorn = false) :
      Appended l s (.error (.unsynced e)) { s with dir := s.dir.writeLine l } [l]

theorem appendLine_cases (o : AppendOutcome) (l : LogLine) (s : OperationStore) :
    Appended l s (s.appendLine o l).1 (s.appendLine o l).2 (s.doubtful o l) := by
  unfold appendLine doubtful
  dsimp only
  split
  · rw [if_neg (by simp [*])]
    exact .undone _
  · have hok : s.logTorn = false := Bool.not_eq_true _ ▸ ‹_›
    split
    · rw [if_neg (by simp [AppendOutcome.inDoubt])]
      exact .undone _
    · rw [if_neg (by simp [AppendOutcome.inDoubt])]
      exact .undone _
    · rw [if_neg (by simp [AppendOutcome.inDoubt])]
      exact .undone _
    · rw [if_pos ⟨hok, rfl⟩]
      exact .torn _ _ hok
    · rw [if_pos ⟨hok, rfl⟩]
      exact .unsynced _ hok
    · rw [if_neg (by simp [AppendOutcome.inDoubt])]
      exact .done hok

/-- After any append the directory loads, with the line or without it, and the
tables are as they were. -/
theorem Appended.loads {l : LogLine} {s s' : OperationStore} {res : Except AppendFailure Unit}
    {doubt : List LogLine} (h : Appended l s res s' doubt) {counter : Nat} {ops : Records}
    {reqs : List RequestLogLine} (hl : Loads s.dir counter ops reqs)
    (hc : s.logTorn = false → s.dir.Clean) :
    (s'.nextId = s.nextId ∧ s'.records = s.records ∧ s'.requests = s.requests) ∧
      (s'.logTorn = false → s'.dir.Clean) ∧ ∃ ls, (ls = [] ∨ ls = [l]) ∧
        Loads s'.dir counter (ops ++ operationsOf ls) (reqs ++ requestsOf ls) := by
  cases h with
  | done ht =>
    have hw := hl.foldl_writeLine (hc ht) [l]
    exact ⟨⟨rfl, rfl, rfl⟩, fun _ => hw.2, [l], .inr rfl, hw.1⟩
  | undone e => exact ⟨⟨rfl, rfl, rfl⟩, hc, [], .inl rfl, by simpa using hl⟩
  | torn e c ht =>
    obtain ⟨ls, hls, hw⟩ := hl.writeCut (hc ht) c l
    exact ⟨⟨rfl, rfl, rfl⟩, (fun hf => by cases hf), ls, hls, hw⟩
  | unsynced e ht =>
    have hw := hl.foldl_writeLine (hc ht) [l]
    exact ⟨⟨rfl, rfl, rfl⟩, fun _ => hw.2, [l], .inr rfl, hw.1⟩

end OperationStore

end RemoteWorkspace
