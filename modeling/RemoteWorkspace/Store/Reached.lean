import RemoteWorkspace.Store.Commands
import RemoteWorkspace.Store.StartUp

/-!
# The lines of one operation

What a caller of the store knows of its own operation while others use the store
beside it: the records of the operation in the table, and its lines in the log
(`ofId`). `Sound` is what holds of every store that a server can have
(`Reached`): its directory loads, and no record has an id that is not yet given
out. The commands of other callers name ids that were given out to them, and
change no line of this operation (`Sound.other`).
-/

namespace RemoteWorkspace

open Interleave Keyed

/-! ## Records of an operation -/

/-- The records of an operation, in their order. -/
def ofId (id : String) (rs : Records) : Records := rs.filter fun r => r.operationId = id

section

variable {id : String} {rs rs' : Records} {r : AnyOperationRecord}

@[simp] theorem ofId_append (id : String) (rs rs' : Records) : ofId id (rs ++ rs') = ofId id rs ++ ofId id rs' :=
  List.filter_append ..

theorem ofId_singleton (id : String) (r : AnyOperationRecord) :
    ofId id [r] = if r.operationId = id then [r] else [] := by
  simp only [ofId, List.filter_cons, decide_eq_true_eq, List.filter_nil]

theorem mem_ofId : r ∈ ofId id rs ↔ r ∈ rs ∧ r.operationId = id := by
  simp [ofId]

theorem of_ofId (h : ofId id rs = [r]) : r ∈ rs ∧ r.operationId = id := mem_ofId.mp (h ▸ List.mem_singleton_self r)

theorem ofId_eq_nil : ofId id rs = [] ↔ ∀ r ∈ rs, r.operationId ≠ id := by
  simp [ofId]

/-- The record that counts for an operation is the last one. -/
theorem latestRecord_ofId (id : String) (log : Records) : latestRecord log id = latestRecord (ofId id log) id := by
  induction log using List.reverseRecOn with
  | nil => rfl
  | append_singleton log r ih =>
    rw [latestRecord, latest_concat, ofId_append, ofId_singleton]
    split
    · next h =>
      rw [latestRecord, latest_concat, if_pos h]
    · rw [List.append_nil]
      exact ih

theorem ofId_put (x : AnyOperationRecord) (rs : Records) :
    ofId id (put AnyOperationRecord.operationId x rs) =
      if x.operationId = id then put AnyOperationRecord.operationId x (ofId id rs) else ofId id rs := by
  induction rs with
  | nil =>
    rw [put, ofId_singleton]
    rfl
  | cons y ys ih =>
    simp only [put]
    by_cases hy : y.operationId = x.operationId <;> by_cases hx : x.operationId = id <;>
      simp_all [ofId, put, List.filter_cons]

theorem ofId_filter (id : String) (q : AnyOperationRecord → Bool) (rs : Records) :
    ofId id (rs.filter q) = (ofId id rs).filter q := by
  rw [ofId, ofId, List.filter_filter, List.filter_filter]
  exact List.filter_congr fun x _ => Bool.and_comm ..

/-- A record of another operation changes no record of this one. -/
theorem ofId_record_other (h : r.operationId ≠ id) : ofId id (rs.record r) = ofId id rs := by
  have hlast : ofId id (rs ++ [r]) = ofId id rs := by
    rw [ofId_append, ofId_singleton, if_neg h, List.append_nil]
  cases r with
  | fs r => rw [Records.record, ofId_put, if_neg h]
  | aborted r =>
    rw [Records.record, ofId_filter]
    refine List.filter_eq_self.mpr fun x hx => ?_
    have hne : x.operationId ≠ r.operationId := fun heq => h (heq.symm.trans (mem_ofId.mp hx).2)
    simp [hne]
  | exec r => exact hlast
  | transfer r => exact hlast
  | prepared r => exact hlast

/-- A commit takes the place of the marker. -/
theorem ofId_record_fs {p : PreparedRecord} {f : FsOperationRecord} (h : ofId id rs = [.prepared p])
    (hf : f.operationId = id) : ofId id (rs.record (.fs f)) = [.fs f] := by
  have hp : p.operationId = id := (of_ofId h).2
  have hput : ofId id (rs.record (.fs f)) = put AnyOperationRecord.operationId (.fs f) (ofId id rs) := by
    rw [Records.record, ofId_put]
    exact if_pos hf
  rw [hput, h, put]
  exact if_pos (hp.trans hf.symm)

/-- A withdrawal removes it. -/
theorem ofId_record_aborted {p : PreparedRecord} {a : AbortedRecord} (h : ofId id rs = [.prepared p])
    (ha : a.operationId = id) : ofId id (rs.record (.aborted a)) = [] := by
  have hp : p.operationId = a.operationId := (of_ofId h).2.trans ha.symm
  rw [Records.record, ofId_filter, h]
  simp [hp, isPending]

end

/-! ## Stores of a server -/

/-- An id that is given out, or is not of the store's making. -/
def Issued (n : Nat) (id : String) : Prop := ∀ k, idNumber id = some k → k ≤ n

/-- The directory of `s` loads, with the logs `ops` and `reqs`. -/
structure Sound (s : OperationStore) (ops : Records) (reqs : List RequestLogLine) : Prop where
  loads : ∃ counter ≤ s.nextId, Loads s.dir counter ops reqs
  clean : s.logTorn = false → s.dir.Clean
  bound : s.nextId < u64Bound
  issued : ∀ r, r ∈ ops ∨ r ∈ s.records → Issued s.nextId r.operationId

theorem Issued.mono {n m : Nat} {id : String} (h : Issued n id) (hle : n ≤ m) : Issued m id :=
  fun k hk => (h k hk).trans hle

theorem issued_operationIdOf {n k : Nat} (hk : k ≤ n) (hn : n < u64Bound) : Issued n (operationIdOf k) := by
  intro m hm
  rw [idNumber_operationIdOf (lt_of_le_of_lt hk hn)] at hm
  exact Option.some.inj hm ▸ hk

/-- The operation that a line is of. -/
def LogLine.operationId? : LogLine → Option String
  | .operation r => some r.operationId
  | .request _ => none

/-- The operation that a command changes the lines of. -/
def StoreCmd.operationId? : StoreCmd → Option String
  | .prepare p => some p.operationId
  | .append l => l.operationId?
  | _ => none

theorem mem_record {rs : Records} {r x : AnyOperationRecord} (h : x ∈ rs.record r) : x = r ∨ x ∈ rs := by
  have hlast : x ∈ rs ++ [r] → x = r ∨ x ∈ rs := by
    intro hx
    rcases List.mem_append.mp hx with hx | hx
    · exact .inr hx
    · exact .inl (List.mem_singleton.mp hx)
  cases r with
  | fs r => exact mem_put h
  | aborted r => exact .inr (List.mem_filter.mp h).1
  | exec r => exact hlast h
  | transfer r => exact hlast h
  | prepared r => exact hlast h

/-- The table with a line's record in it. -/
def LogLine.recordIn (l : LogLine) (rs : Records) : Records :=
  match l with
  | .operation r => rs.record r
  | .request _ => rs

theorem records_record_eq (s : OperationStore) (l : LogLine) : (s.record l).records = l.recordIn s.records := by
  cases l <;> rfl

section

variable {s s' : OperationStore} {ops : Records} {reqs : List RequestLogLine} {l : LogLine}

theorem mem_operationsOf {ls : List LogLine} {r : AnyOperationRecord} : r ∈ operationsOf ls ↔ .operation r ∈ ls := by
  rw [operationsOf, List.mem_filterMap]
  constructor
  · rintro ⟨l, hl, heq⟩
    cases l with
    | operation r' => rwa [← Option.some.inj heq]
    | request l => cases heq
  · exact fun h => ⟨_, h, rfl⟩

/-- A directory changed by lines of issued operations. -/
theorem Sound.write (h : Sound s ops reqs) {ls : List LogLine}
    (hls : ∀ r, .operation r ∈ ls → Issued s.nextId r.operationId) (hnext : s'.nextId = s.nextId)
    (hloads : ∃ counter ≤ s.nextId, Loads s'.dir counter (ops ++ operationsOf ls) (reqs ++ requestsOf ls))
    (hclean : s'.logTorn = false → s'.dir.Clean)
    (hrecords : ∀ r ∈ s'.records, r ∈ s.records ∨ .operation r ∈ ls) :
    Sound s' (ops ++ operationsOf ls) (reqs ++ requestsOf ls) where
  loads := hnext ▸ hloads
  clean := hclean
  bound := hnext ▸ h.bound
  issued r hr := by
    rw [hnext]
    rcases hr with hr | hr
    · rcases List.mem_append.mp hr with hr | hr
      · exact h.issued r (.inl hr)
      · exact hls r (mem_operationsOf.mp hr)
    · rcases hrecords r hr with hr | hr
      · exact h.issued r (.inr hr)
      · exact hls r hr

/-- An append, and what is in the log after it: the line, or nothing of it if
it is not in doubt. -/
theorem Sound.appendLine (h : Sound s ops reqs) (o : AppendOutcome)
    (hl : ∀ id, l.operationId? = some id → Issued s.nextId id) :
    (s.appendLine o l).2.nextId = s.nextId ∧ (s.appendLine o l).2.records = s.records ∧
      ∃ ls, (ls = [] ∨ ls = [l]) ∧
        Sound (s.appendLine o l).2 (ops ++ operationsOf ls) (reqs ++ requestsOf ls) ∧
        ((s.appendLine o l).1 = .ok () → ls = [l] ∧ s.logTorn = false) ∧
        (∀ e, (s.appendLine o l).1 = .error (.unsynced e) → ls = [l] ∧ (s.appendLine o l).2.logTorn = false) ∧
        (∀ e, (s.appendLine o l).1 = .error (.incomplete e) →
          ls = [] ∨ s.logTorn = false ∧ (s.appendLine o l).2.logTorn = true) := by
  have happ := s.appendLine_cases o l
  generalize s.doubtful o l = doubt at happ
  generalize (s.appendLine o l).1 = res at happ ⊢
  generalize (s.appendLine o l).2 = s' at happ ⊢
  obtain ⟨counter, hle, hloads⟩ := h.loads
  have hline : ∀ r, LogLine.operation r ∈ [l] → Issued s.nextId r.operationId := fun r hr =>
    hl _ (by rw [← List.mem_singleton.mp hr]; rfl)
  have hwritten : s.logTorn = false →
      Sound { s with dir := s.dir.writeLine l } (ops ++ operationsOf [l]) (reqs ++ requestsOf [l]) := fun ht => by
    obtain ⟨hloads', hclean⟩ := hloads.foldl_writeLine (h.clean ht) [l]
    exact h.write hline rfl ⟨counter, hle, hloads'⟩ (fun _ => hclean) fun r hr => .inl hr
  cases happ with
  | done ht => exact ⟨rfl, rfl, [l], .inr rfl, hwritten ht, fun _ => ⟨rfl, ht⟩, nofun, nofun⟩
  | undone e => exact ⟨rfl, rfl, [], .inl rfl, by simpa using h, nofun, nofun, fun _ _ => .inl rfl⟩
  | unsynced e ht => exact ⟨rfl, rfl, [l], .inr rfl, hwritten ht, nofun, fun _ _ => ⟨rfl, ht⟩, nofun⟩
  | torn e c ht =>
    obtain ⟨ls, hls, hloads'⟩ := hloads.writeCut (h.clean ht) c l
    refine ⟨rfl, rfl, ls, hls, h.write (fun r hr => ?_) rfl ⟨counter, hle, hloads'⟩ (fun hf => by cases hf)
      fun r hr => .inl hr, nofun, nofun, fun _ _ => .inr ⟨ht, rfl⟩⟩
    rcases hls with rfl | rfl
    · cases hr
    · exact hline r hr

theorem Sound.record (h : Sound s ops reqs) (ht : s.logTorn = false)
    (hl : ∀ id, l.operationId? = some id → Issued s.nextId id) :
    Sound (s.record l) (ops ++ operationsOf [l]) (reqs ++ requestsOf [l]) := by
  obtain ⟨counter, hle, hloads⟩ := h.loads
  obtain ⟨hloads', hclean⟩ := hloads.foldl_writeLine (h.clean ht) [l]
  refine h.write (fun r hr => hl _ (by rw [← List.mem_singleton.mp hr]; rfl)) ?_ ⟨counter, hle, ?_⟩ (fun _ => ?_) ?_
  · cases l <;> rfl
  · rw [record_dir]
    exact hloads'
  · rw [record_dir]
    exact hclean
  · rw [records_record_eq]
    intro r hr
    cases l with
    | operation x =>
      rcases mem_record hr with rfl | hr
      · exact .inr (List.mem_singleton_self _)
      · exact .inl hr
    | request l => exact .inl hr

/-- A tracked append: the line is in the log and its record in the table, or the
table is as it was. -/
theorem Sound.appendTracked (h : Sound s ops reqs) (o : AppendOutcome)
    (hl : ∀ id, l.operationId? = some id → Issued s.nextId id) :
    (s.appendTracked o l).2.nextId = s.nextId ∧
      ∃ ls, (ls = [] ∨ ls = [l]) ∧
        Sound (s.appendTracked o l).2 (ops ++ operationsOf ls) (reqs ++ requestsOf ls) ∧
        ((s.appendTracked o l).1 = .ok () → ls = [l] ∧ (s.appendTracked o l).2.records = l.recordIn s.records) ∧
        (∀ e, (s.appendTracked o l).1 = .error e → (s.appendTracked o l).2.records = s.records) := by
  obtain ⟨hnext, hrecords, ls, hls, hsound, hok, -, -⟩ := h.appendLine o hl
  unfold OperationStore.appendTracked
  generalize s.appendLine o l = res at hnext hrecords hsound hok ⊢
  obtain ⟨res, s'⟩ := res
  cases res with
  | ok u =>
    obtain ⟨rfl, ht⟩ := hok rfl
    exact ⟨by cases l <;> rfl, [l], .inr rfl, h.record ht hl, fun _ => ⟨rfl, records_record_eq s l⟩, nofun⟩
  | error f => exact ⟨hnext, ls, hls, hsound, nofun, fun _ _ => hrecords⟩

/-- Whether the append of a marker's line, with this result, leaves the marker
behind: its line is neither whole nor taken back, or whole and not withdrawn. -/
def strandedBy (p : PreparedRecord) (ch : StoreChoice) (s : OperationStore) :
    Except AppendFailure Unit × OperationStore → Bool
  | (.ok _, _) => false
  | (.error (.unsynced _), s') => !(s'.appendLine ch.withdrawal (abortedLine p.operationId ch.clock)).1.isOk
  | (.error (.incomplete _), s') => s'.logTorn && !s.logTorn

/-- Whether a command leaves a marker behind of a mutation that is given up. -/
def StoreCmd.strands : StoreCmd → StoreChoice → OperationStore → Bool
  | .append (.operation (.aborted a)), ch, s => !(s.appendTracked ch.append (.operation (.aborted a))).1.isOk
  | .prepare p, ch, s => strandedBy p ch s (s.appendLine ch.append (.operation (.prepared p)))
  | _, _, _ => false

/-- A marker is in the log and in the table; or it is not in the table, and not
in the log either, or withdrawn there, or stranded. -/
theorem Sound.prepare (h : Sound s ops reqs) {p : PreparedRecord} {ch : StoreChoice} {r : Except ProtocolError Unit}
    (hp : Issued s.nextId p.operationId)
    (hres : s.prepareLocked ch.append ch.withdrawal ch.clock p = (r, s')) :
    s'.nextId = s.nextId ∧ ∃ X, (∀ x ∈ X, x.operationId = p.operationId) ∧ Sound s' (ops ++ X) reqs ∧
      (r = .ok () → X = [.prepared p] ∧ s'.records = s.records ++ [.prepared p] ∧
        StoreCmd.strands (.prepare p) ch s = false) ∧
      ∀ e, r = .error e → s'.records = s.records ∧
        (StoreCmd.strands (.prepare p) ch s = false → X = [] ∨ ∃ a, X = [.prepared p, .aborted a]) := by
  have hline : ∀ id, LogLine.operationId? (.operation (.prepared p)) = some id → Issued s.nextId id := by
    intro id hid
    exact Option.some.inj hid ▸ hp
  obtain ⟨hnext, hrecords, ls, hls, hsound, hok, hunsynced, hincomplete⟩ := h.appendLine ch.append hline
  unfold OperationStore.prepareLocked at hres
  rw [show StoreCmd.strands (.prepare p) ch s =
    strandedBy p ch s (s.appendLine ch.append (.operation (.prepared p))) from rfl]
  generalize s.appendLine ch.append (.operation (.prepared p)) = res at *
  obtain ⟨res, s₁⟩ := res
  have hreqs : requestsOf ls = [] := by rcases hls with rfl | rfl <;> rfl
  rw [hreqs, List.append_nil] at hsound
  cases res with
  | ok u =>
    cases hres
    obtain ⟨rfl, ht⟩ := hok rfl
    have hrecord := h.record ht hline
    rw [requestsOf_operation, requestsOf_nil, List.append_nil] at hrecord
    exact ⟨rfl, [.prepared p], by simp [AnyOperationRecord.operationId], hrecord, fun _ => ⟨rfl, rfl, rfl⟩, nofun⟩
  | error f =>
    cases f with
    | incomplete e =>
      obtain ⟨rfl, rfl⟩ := Prod.mk.inj hres
      refine ⟨hnext, operationsOf ls, ?_, hsound, nofun, fun _ _ => ⟨hrecords, fun hstrands => .inl ?_⟩⟩
      · rcases hls with rfl | rfl <;> simp [AnyOperationRecord.operationId]
      · rcases hincomplete e rfl with rfl | ⟨ht, ht'⟩
        · rfl
        · simp [strandedBy, ht, show s₁.logTorn = true from ht'] at hstrands
    | unsynced e =>
      cases hres
      obtain ⟨rfl, -⟩ := hunsynced e rfl
      obtain ⟨hnext', hrecords', ls', hls', hsound', hok', -, -⟩ :=
        hsound.appendLine (l := abortedLine p.operationId ch.clock) ch.withdrawal fun id hid => by
          rw [hnext]
          exact Option.some.inj hid ▸ hp
      have hreqs' : requestsOf ls' = [] := by rcases hls' with rfl | rfl <;> rfl
      rw [hreqs', List.append_nil, List.append_assoc] at hsound'
      refine ⟨hnext'.trans hnext, _, ?_, hsound', nofun, fun _ _ => ⟨hrecords'.trans hrecords, fun hstrands => ?_⟩⟩
      · rcases hls' with rfl | rfl <;> simp [AnyOperationRecord.operationId, abortedLine]
      · have hdone : (s₁.appendLine ch.withdrawal (abortedLine p.operationId ch.clock)).1 = .ok () := by
          cases hwithdrawn : (s₁.appendLine ch.withdrawal (abortedLine p.operationId ch.clock)).1 with
          | ok u => rfl
          | error f => simp [strandedBy, hwithdrawn, Except.isOk, Except.toBool] at hstrands
        obtain ⟨rfl, -⟩ := hok' hdone
        exact .inr ⟨_, rfl⟩

theorem Sound.next (h : Sound s ops reqs) {id : String} (hres : s.nextOperationId = some (id, s')) :
    s'.dir = s.dir ∧ s'.records = s.records ∧ s.nextId ≤ s'.nextId ∧ Sound s' ops reqs ∧ Issued s'.nextId id ∧
      ofId id ops = [] ∧ ofId id s'.records = [] := by
  unfold OperationStore.nextOperationId at hres
  split at hres
  · next hlt =>
    cases hres
    have hunused : ∀ r, r ∈ ops ∨ r ∈ s.records → r.operationId ≠ operationIdOf (s.nextId + 1) := by
      intro r hr hid
      have := h.issued r hr (s.nextId + 1) (by rw [hid, idNumber_operationIdOf hlt])
      omega
    obtain ⟨counter, hle, hloads⟩ := h.loads
    exact ⟨rfl, rfl, Nat.le_succ _, ⟨⟨counter, Nat.le_succ_of_le hle, hloads⟩, h.clean, hlt,
      fun r hr => (h.issued r hr).mono (Nat.le_succ _)⟩, issued_operationIdOf le_rfl hlt,
      ofId_eq_nil.mpr fun r hr => hunused r (.inl hr), ofId_eq_nil.mpr fun r hr => hunused r (.inr hr)⟩
  · cases hres

/-- A prune, whichever of its files it replaces. -/
theorem Sound.prune (h : Sound s ops reqs) (keep : Nat) (o : PruneOutcomes) :
    ∃ ops' reqs', Sound (s.prune keep o).2 ops' reqs' := by
  obtain ⟨counter, hle, hloads⟩ := h.loads
  have hkept : ∀ r ∈ keptRecords keep s.records, Issued s.nextId r.operationId := fun r hr =>
    h.issued r (.inr ((keptRecords_sublist keep s.records).subset hr))
  have hsound : ∀ {ops' reqs' d}, (s.prune keep o).2.dir = d → (∃ counter ≤ s.nextId, Loads d counter ops' reqs') →
      (s.logTorn = false → d.Clean) → (∀ r ∈ ops', Issued s.nextId r.operationId) →
      ∃ ops' reqs', Sound (s.prune keep o).2 ops' reqs' := by
    rintro ops' reqs' d hd hl hclean hops
    refine ⟨ops', reqs', ⟨?_, ?_, ?_, fun r hr => ?_⟩⟩
    · rw [OperationStore.prune_nextId, hd]
      exact hl
    · rw [OperationStore.prune_logTorn, hd]
      exact hclean
    · rw [OperationStore.prune_nextId]
      exact h.bound
    · rw [OperationStore.prune_nextId]
      rcases hr with hr | hr
      · exact hops r hr
      · rw [OperationStore.prune_records] at hr
        exact hkept r hr
  have hcounter : counterNumber (counterText s.nextId) = some s.nextId := counterNumber_counterText h.bound
  obtain ⟨n, hn, hdir⟩ := s.prune_dir keep o
  obtain rfl | rfl | rfl | rfl : n = 0 ∨ n = 1 ∨ n = 2 ∨ n = 3 := by omega
  · exact hsound hdir ⟨counter, hle, hloads⟩ h.clean fun r hr => h.issued r (.inl hr)
  · exact hsound hdir ⟨s.nextId, le_rfl, hcounter, hloads.operations, hloads.requests⟩ h.clean
      fun r hr => h.issued r (.inl hr)
  · exact hsound hdir ⟨s.nextId, le_rfl, hcounter, LogFile.read_ofRecords _, hloads.requests⟩
      (fun ht => ⟨LogFile.clean_ofRecords _, (h.clean ht).2⟩) hkept
  · exact hsound hdir ⟨s.nextId, le_rfl, hcounter, LogFile.read_ofRecords _, LogFile.read_ofRecords _⟩
      (fun _ => ⟨LogFile.clean_ofRecords _, LogFile.clean_ofRecords _⟩) hkept

theorem ofId_operationsOf {id : String} {ls : List LogLine} (h : ls = [] ∨ ls = [l]) (hl : l.operationId? ≠ some id) :
    ofId id (operationsOf ls) = [] := by
  rcases h with rfl | rfl
  · rfl
  · cases l with
    | operation r =>
      rw [operationsOf_operation, operationsOf_nil, ofId_singleton, if_neg fun heq => hl (congrArg some heq)]
    | request l => rfl

theorem ofId_recordIn {id : String} (rs : Records) (hl : l.operationId? ≠ some id) :
    ofId id (l.recordIn rs) = ofId id rs := by
  cases l with
  | operation r => exact ofId_record_other fun heq => hl (congrArg some heq)
  | request l => rfl

/-- What a command of any caller leaves of the other operations: their lines and
their records. -/
def LeavesOthers (c : StoreCmd) (ops ops' rs rs' : Records) : Prop :=
  (∀ keep, c ≠ .prune keep) → ∀ id, c.operationId? ≠ some id → ofId id ops' = ofId id ops ∧ ofId id rs' = ofId id rs

theorem Sound.tracked (h : Sound s ops reqs) (o : AppendOutcome)
    (hl : ∀ id, l.operationId? = some id → Issued s.nextId id) :
    ∃ ops' reqs', Sound (s.appendTracked o l).2 ops' reqs' ∧
      LeavesOthers (.append l) ops ops' s.records (s.appendTracked o l).2.records := by
  obtain ⟨-, ls, hls, hsound, hok, herr⟩ := h.appendTracked o hl
  refine ⟨_, _, hsound, fun _ id hid => ⟨?_, ?_⟩⟩
  · rw [ofId_append, ofId_operationsOf hls hid, List.append_nil]
  · cases hres : (s.appendTracked o l).1 with
    | ok u => rw [(hok hres).2, ofId_recordIn _ hid]
    | error e => rw [herr e hres]

/-- Commands keep a store sound. -/
theorem Sound.exec (h : Sound s ops reqs) {c : StoreCmd} {ch : StoreChoice} {r : c.Result}
    (hc : ∀ id, c.operationId? = some id → Issued s.nextId id) (hres : c.exec ch s = some (r, s')) :
    s.nextId ≤ s'.nextId ∧ ∃ ops' reqs', Sound s' ops' reqs' ∧ LeavesOthers c ops ops' s.records s'.records := by
  have hsame : s' = s → s.nextId ≤ s'.nextId ∧
      ∃ ops' reqs', Sound s' ops' reqs' ∧ LeavesOthers c ops ops' s.records s'.records := by
    rintro rfl
    exact ⟨le_rfl, ops, reqs, h, fun _ _ _ => ⟨rfl, rfl⟩⟩
  cases c with
  | now => cases hres; exact hsame rfl
  | lookupRequest id => cases hres; exact hsame rfl
  | history limit => cases hres; exact hsame rfl
  | findRecord id => cases hres; exact hsame rfl
  | statusForRequest id => cases hres; exact hsame rfl
  | nextOperationId =>
    obtain ⟨-, hrecords, hle, hsound, -⟩ := h.next hres
    exact ⟨hle, ops, reqs, hsound, fun _ _ _ => ⟨rfl, by rw [hrecords]⟩⟩
  | prune keep =>
    obtain rfl : (s.prune keep ch.prune).2 = s' := congrArg Prod.snd (Option.some.inj hres)
    obtain ⟨ops', reqs', hsound⟩ := h.prune keep ch.prune
    exact ⟨(OperationStore.prune_nextId ..).ge, ops', reqs', hsound, fun hne => absurd rfl (hne keep)⟩
  | prepare p =>
    have hres : s.prepareLocked ch.append ch.withdrawal ch.clock p = (r, s') := Option.some.inj hres
    obtain ⟨hnext, X, hX, hsound, hok, herr⟩ := h.prepare (hc _ rfl) hres
    refine ⟨hnext.ge, _, _, hsound, fun _ id hid => ?_⟩
    have hne : p.operationId ≠ id := fun heq => hid (congrArg some heq)
    refine ⟨?_, ?_⟩
    · have hnone : ofId id X = [] := ofId_eq_nil.mpr fun x hx => (hX x hx).symm ▸ hne
      rw [ofId_append, hnone, List.append_nil]
    · cases r with
      | ok u =>
        rw [(hok rfl).2.1, ofId_append, ofId_singleton]
        rw [if_neg (show ¬ (AnyOperationRecord.prepared p).operationId = id from hne), List.append_nil]
      | error e => rw [(herr e rfl).1]
  | append l =>
    have hres : s.appendTracked ch.append l = (r, s') := Option.some.inj hres
    have hnext := (h.appendTracked ch.append hc).1
    obtain ⟨ops', reqs', hsound, hothers⟩ := h.tracked ch.append hc
    rw [hres] at hnext hsound hothers
    exact ⟨hnext.ge, ops', reqs', hsound, hothers⟩
  | claim id op =>
    have hres : s.claimLocked ch.append id op = (r, s') := Option.some.inj hres
    unfold OperationStore.claimLocked at hres
    cases hlookup : s.requests.lookup id with
    | some e =>
      rw [hlookup] at hres
      cases hres
      exact hsame rfl
    | none =>
      rw [hlookup] at hres
      have hline : ∀ id', (OperationStore.inProgressLine id op).operationId? = some id' → Issued s.nextId id' := nofun
      have hnext := (h.appendTracked ch.append hline).1
      obtain ⟨ops', reqs', hsound, hothers⟩ := h.tracked ch.append hline
      have hs' : s' = (s.appendTracked ch.append (OperationStore.inProgressLine id op)).2 := by
        dsimp only at hres
        split at hres <;> simp_all
      rw [hs']
      exact ⟨hnext.ge, ops', reqs', hsound, fun _ id' _ => hothers nofun id' nofun⟩

/-- A loaded store is sound. -/
theorem Sound.of_new {d : LogDir} (h : OperationStore.new d = .ok s) : ∃ ops reqs, Sound s ops reqs := by
  obtain ⟨counter, ops, reqs, hl, rfl⟩ := OperationStore.new_eq_ok.mp h
  refine ⟨ops, reqs, ⟨counter, le_maxId _ _, hl.counter, LogFile.read_repair hl.operations,
    LogFile.read_repair hl.requests⟩, fun _ => ⟨LogFile.clean_repair _, LogFile.clean_repair _⟩,
    maxId_lt (counter_lt hl.counter) ops, ?_⟩
  rintro r (hr | hr) k hk
  · exact idNumber_le_maxId hr hk
  · exact idNumber_le_maxId (mem_of_latest (mem_loadRecords.mp hr).1) hk

/-- What is in the directory of a sound store is loaded as the last lines of its
log say. -/
theorem Sound.reload (h : Sound s ops reqs) : ∃ s₁, OperationStore.new s.dir = .ok s₁ ∧ s₁.records = loadRecords ops := by
  obtain ⟨counter, -, hl⟩ := h.loads
  exact ⟨_, OperationStore.new_of_loads hl, rfl⟩

end

/-! ## Recovery -/

section

variable {ws : Workspace} {sha256 : Sha256} {t : Tree} {b : Start} {s : OperationStore} {r : Recovery}

/-- Recovery appends lines of the operations whose markers it finds, and forgets
requests: what both keep holds after it. -/
theorem recover_induction {P : OperationStore → Prop}
    (hrecord : ∀ s' l, P s' → (∀ id, l.operationId? = some id → ∃ p ∈ markersOf s.records, p.operationId = id) →
      P (s'.record l))
    (hforget : ∀ s' id, P s' → P { s' with requests := Keyed.remove Prod.fst id s'.requests }) (hs : P s)
    (h : recover ws sha256 t b s = .ok r) : P r.store := by
  have hrequest : ∀ (s' : OperationStore) l, P s' → P (s'.record (.request l)) := fun s' l hs' => hrecord s' _ hs' nofun
  have hresolved : ∀ (r' : Recovery) now p v, p ∈ markersOf s.records → P r'.store → P (r'.resolveAs now p v).store := by
    intro r' now p v hp hr'
    have hline : ∀ x : AnyOperationRecord, x.operationId = p.operationId → P (r'.store.record (.operation x)) :=
      fun x hx => hrecord _ _ hr' fun id hid => ⟨p, hp, hx.symm.trans (Option.some.inj hid)⟩
    cases v with
    | noOp => exact hline (.aborted { operationId := p.operationId, timestampMs := now }) rfl
    | committed => exact hrequest _ _ (hline (.fs (committedFrom p now)) rfl)
    | conflict reason => exact hrequest _ _ (hline (.aborted { operationId := p.operationId, timestampMs := now }) rfl)
  have hmarkers : ∀ (ps : List PreparedRecord) (r₁ r₂ : Recovery), (∀ p ∈ ps, p ∈ markersOf s.records) → P r₁.store →
      ps.foldlM (recoverMarker ws sha256 t b) r₁ = .ok r₂ → P r₂.store := by
    intro ps
    induction ps with
    | nil =>
      intro r₁ r₂ _ hr₁ hfold
      cases hfold
      exact hr₁
    | cons p ps ih =>
      intro r₁ r₂ hps hr₁ hfold
      rw [List.foldlM_cons] at hfold
      cases hstep : recoverMarker ws sha256 t b r₁ p with
      | error e =>
        rw [hstep] at hfold
        cases hfold
      | ok r' =>
        rw [hstep] at hfold
        refine ih r' r₂ (fun q hq => hps q (List.mem_cons_of_mem _ hq)) ?_ hfold
        have hp := hps p List.mem_cons_self
        unfold recoverMarker at hstep
        dsimp only at hstep
        split at hstep
        · cases hstep
          exact hresolved r₁ _ p (.conflict _) hp hr₁
        · split at hstep
          · cases hstep
          · cases hstep
            exact hresolved r₁ _ p _ hp hr₁
  have hrequests : ∀ (qs : Requests) (r₁ : Recovery), P r₁.store → P (qs.foldl recoverRequest r₁).store := by
    intro qs
    induction qs with
    | nil => exact fun _ h => h
    | cons q qs ih =>
      intro r₁ hr₁
      refine ih _ ?_
      unfold recoverRequest
      split
      · exact hrequest _ _ hr₁
      · split
        · exact hrequest _ _ hr₁
        · split
          · exact hrequest _ _ hr₁
          · exact hforget _ _ hr₁
  unfold recover at h
  cases hm : recoverMarkers ws sha256 t b s with
  | error e =>
    rw [hm] at h
    cases h
  | ok r₁ =>
    rw [hm] at h
    cases h
    exact hrequests _ _ (hmarkers _ _ _ (fun p hp => List.mem_reverse.mp hp) hs hm)

theorem Sound.recover {ops : Records} {reqs : List RequestLogLine} (h : Sound s ops reqs) (ht : s.logTorn = false)
    (hr : recover ws sha256 t b s = .ok r) : ∃ ops' reqs', Sound r.store ops' reqs' := by
  have hkept : r.store.logTorn = false ∧ r.store.nextId = s.nextId ∧ ∃ ops' reqs', Sound r.store ops' reqs' := by
    refine recover_induction (P := fun s' => s'.logTorn = false ∧ s'.nextId = s.nextId ∧ ∃ ops' reqs', Sound s' ops' reqs')
      (fun s' l ⟨ht', hnext, ops', reqs', h'⟩ hl => ?_) (fun s' id ⟨ht', hnext, ops', reqs', h'⟩ => ?_)
      ⟨ht, rfl, ops, reqs, h⟩ hr
    · refine ⟨by cases l <;> exact ht', by cases l <;> exact hnext, _, _, h'.record ht' fun id hid => ?_⟩
      obtain ⟨p, hp, rfl⟩ := hl id hid
      rw [hnext]
      exact h.issued _ (.inr (mem_markersOf.mp hp))
    · exact ⟨ht', hnext, ops', reqs', h'.loads, h'.clean, h'.bound, h'.issued⟩
  exact hkept.2.2

variable (ws sha256)

/-- The stores that a server can have: loaded and recovered, and then used by
callers that name operations by ids that are given out. -/
inductive Reached : OperationStore → Prop
  | start {d : LogDir} {s : OperationStore} {t : Tree} {b : Start} {r : Recovery} : OperationStore.new d = .ok s →
      recover ws sha256 t b s = .ok r → Reached r.store
  | exec {s s' : OperationStore} {c : StoreCmd} {ch : StoreChoice} {r : c.Result} : Reached s →
      (∀ id, c.operationId? = some id → Issued s.nextId id) → c.exec ch s = some (r, s') → Reached s'

variable {ws sha256}

theorem Reached.sound (h : Reached ws sha256 s) : ∃ ops reqs, Sound s ops reqs := by
  induction h with
  | start hnew hr =>
    obtain ⟨ops, reqs, h⟩ := Sound.of_new hnew
    obtain ⟨_, _, _, _, rfl⟩ := OperationStore.new_eq_ok.mp hnew
    exact h.recover rfl hr
  | exec _ hc hres ih =>
    obtain ⟨ops, reqs, h⟩ := ih
    obtain ⟨-, ops', reqs', h', -⟩ := h.exec hc hres
    exact ⟨ops', reqs', h'⟩

end

end RemoteWorkspace
