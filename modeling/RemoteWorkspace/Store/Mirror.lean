import RemoteWorkspace.Lib.Machine
import RemoteWorkspace.Store.Commands
import RemoteWorkspace.Store.Loading

/-!
# The tables in memory and the logs

Callers of the store run side by side, and each of their appends may succeed,
fail and be taken back, or leave its line in doubt. `Mirror` is what holds
between two commands: the directory loads, and for every key of which no line
is in doubt the tables are what it loads as. A prune that returns `Ok` settles
every doubt, because it writes both logs from the tables.

`Mirror.exec` is the step lemma, for the callers of any server; `reload_tables`
is what it says of runs of the store alone.
-/

namespace RemoteWorkspace

open Interleave Keyed

/-- The lines that a command leaves in doubt. The withdrawal of a marker whose
sync failed is a line of the same operation. -/
def StoreCmd.doubtful : StoreCmd → StoreChoice → OperationStore → List LogLine
  | .claim id op, ch, s =>
    if s.requests.lookup id = none then s.doubtful ch.append (OperationStore.inProgressLine id op) else []
  | .prepare p, ch, s => s.doubtful ch.append (.operation (.prepared p))
  | .append l, ch, s => s.doubtful ch.append l
  | _, _, _ => []

/-- Whether a line of an operation is in doubt. -/
def DoubtfulId (doubt : List LogLine) (id : String) : Prop :=
  ∃ r, .operation r ∈ doubt ∧ r.operationId = id

/-- Whether a line of a request is in doubt. -/
def DoubtfulRequest (doubt : List LogLine) (id : String) : Prop :=
  ∃ l, .request l ∈ doubt ∧ l.requestId = id

theorem DoubtfulId.append {doubt : List LogLine} {id : String} (h : DoubtfulId doubt id)
    (ls : List LogLine) : DoubtfulId (doubt ++ ls) id :=
  let ⟨r, hr, hid⟩ := h
  ⟨r, List.mem_append_left _ hr, hid⟩

theorem DoubtfulRequest.append {doubt : List LogLine} {id : String} (h : DoubtfulRequest doubt id)
    (ls : List LogLine) : DoubtfulRequest (doubt ++ ls) id :=
  let ⟨r, hr, hid⟩ := h
  ⟨r, List.mem_append_left _ hr, hid⟩

/-- What a caller knows of the operation id it holds: no record has it, or its
marker is in the table. -/
def StoreLocal.Holds (s : OperationStore) (ops : Records) : StoreLocal → Prop
  | idle => True
  | fresh id => (∃ k ≤ s.nextId, id = operationIdOf k) ∧ (∀ r ∈ ops, r.operationId ≠ id) ∧
      ∀ r ∈ s.records, r.operationId ≠ id
  | marked p => (∃ k ≤ s.nextId, p.operationId = operationIdOf k) ∧
      get AnyOperationRecord.operationId p.operationId s.records = some (.prepared p)

/-- No two callers hold the same operation. -/
def Apart (ctx : List StoreLocal) : Prop :=
  ∀ (i j : Nat) (ℓ m : StoreLocal) (id : String), ctx[i]? = some ℓ → ctx[j]? = some m →
    ℓ.held = some id → m.held = some id → i = j

/-- The tables of `s` and the logs, which hold `ops` and `reqs`. `forgotten`
are requests that a recovery removed from the table only. -/
structure Mirror (s : OperationStore) (doubt : List LogLine) (forgotten : String → Prop)
    (ops : Records) (reqs : List RequestLogLine) (ctx : List StoreLocal) : Prop where
  loads : ∃ counter ≤ s.nextId, Loads s.dir counter ops reqs
  clean : s.logTorn = false → s.dir.Clean
  bound : s.nextId < u64Bound
  distinct : DistinctIds s.records
  distinctRequests : DistinctRequests s.requests
  standing : ∀ r ∈ s.records, isAborted r = false
  issued : ∀ r, r ∈ ops ∨ r ∈ s.records → ∀ k, idNumber r.operationId = some k → k ≤ s.nextId
  records : ∀ id, ¬ DoubtfulId doubt id →
    get AnyOperationRecord.operationId id s.records = (latestRecord ops id).filter fun r => !isAborted r
  requests : ∀ id, ¬ DoubtfulRequest doubt id →
    s.requests.lookup id = (latestLine reqs id).map RequestLogLine.entry ∨
      forgotten id ∧ s.requests.lookup id = none ∧
        ∃ e, (latestLine reqs id).map RequestLogLine.entry = some e ∧ e.isStuck = true
  apart : Apart ctx
  holds : ∀ ℓ ∈ ctx, ℓ.Holds s ops

variable {s s' : OperationStore} {doubt doubt' : List LogLine} {forgotten : String → Prop}
  {ops : Records} {reqs : List RequestLogLine} {ctx : List StoreLocal} {ℓ ℓ' : StoreLocal} {i : Nat}

theorem Apart.set (h : Apart ctx) (hi : ctx[i]? = some ℓ)
    (hkeep : ∀ id, ℓ'.held = some id → ℓ.held = some id ∨ ∀ m ∈ ctx, m.held ≠ some id) :
    Apart (ctx.set i ℓ') := by
  intro j k m m' id hj hk hm hm'
  rcases Machine.getElem?_set_cases hj with ⟨rfl, rfl⟩ | ⟨-, hj'⟩ <;>
    rcases Machine.getElem?_set_cases hk with ⟨rfl, rfl⟩ | ⟨-, hk'⟩
  · rfl
  · rcases hkeep id hm with hℓ | hnot
    · exact h _ _ _ _ id hi hk' hℓ hm'
    · exact absurd hm' (hnot m' (List.mem_of_getElem? hk'))
  · rcases hkeep id hm' with hℓ | hnot
    · exact h _ _ _ _ id hj' hi hm hℓ
    · exact absurd hm (hnot m (List.mem_of_getElem? hj'))
  · exact h _ _ _ _ id hj' hk' hm hm'

theorem Apart.concat (h : Apart ctx) : Apart (ctx ++ [.idle]) := by
  have hlast : ∀ {j : Nat} {m : StoreLocal} {id : String}, (ctx ++ [StoreLocal.idle])[j]? = some m →
      m.held = some id → ctx[j]? = some m := by
    intro j m id hj hm
    rcases Machine.getElem?_concat_cases hj with ⟨rfl, -⟩ | h
    · cases hm
    · exact h
  intro j k m m' id hj hk hm hm'
  exact h _ _ _ _ id (hlast hj hm) (hlast hk hm') hm hm'

/-- A held id is one that was issued. -/
theorem StoreLocal.Holds.issued {id : String} (h : ℓ.Holds s ops) (hheld : ℓ.held = some id) :
    ∃ k ≤ s.nextId, id = operationIdOf k := by
  cases ℓ with
  | idle => cases hheld
  | fresh id => cases hheld; exact h.1
  | marked p => cases hheld; exact h.1

/-- A mirror allows more lines to be in doubt, and more to be forgotten. -/
theorem Mirror.mono {forgotten' : String → Prop} (h : Mirror s doubt forgotten ops reqs ctx)
    (hd : ∀ id, DoubtfulId doubt id → DoubtfulId doubt' id)
    (hd' : ∀ id, DoubtfulRequest doubt id → DoubtfulRequest doubt' id)
    (hf : ∀ id, forgotten id → forgotten' id) : Mirror s doubt' forgotten' ops reqs ctx :=
  { h with
    records := fun id hn => h.records id fun hid => hn (hd id hid)
    requests := fun id hn => (h.requests id fun hid => hn (hd' id hid)).imp_right fun hr =>
      ⟨hf id hr.1, hr.2⟩ }

/-! ## What a step of one caller changes -/

/-- A step that writes lines of the operation its caller holds. -/
theorem Mirror.operation (h : Mirror s doubt forgotten ops reqs ctx) (hi : ctx[i]? = some ℓ) {id : String}
    (hheld : ℓ.held = some id) {X : Records} (hX : ∀ r ∈ X, r.operationId = id)
    (hnext : s'.nextId = s.nextId) (hreq : s'.requests = s.requests)
    (hloads : ∃ counter ≤ s.nextId, Loads s'.dir counter (ops ++ X) reqs)
    (hclean : s'.logTorn = false → s'.dir.Clean) (hdist : DistinctIds s'.records)
    (hstand : ∀ r ∈ s'.records, isAborted r = false)
    (hrec : ∀ id', id' ≠ id → get AnyOperationRecord.operationId id' s'.records =
      get AnyOperationRecord.operationId id' s.records)
    (hdoubt : ∀ id', DoubtfulId doubt id' → DoubtfulId doubt' id')
    (hdoubt' : ∀ id', DoubtfulRequest doubt id' → DoubtfulRequest doubt' id')
    (hown : ¬ DoubtfulId doubt' id → get AnyOperationRecord.operationId id s'.records =
      (latestRecord (ops ++ X) id).filter fun r => !isAborted r)
    (hℓ' : ℓ' = .idle ∨ ∃ p, ℓ' = .marked p ∧ p.operationId = id ∧
      get AnyOperationRecord.operationId id s'.records = some (.prepared p)) :
    Mirror s' doubt' forgotten (ops ++ X) reqs (ctx.set i ℓ') := by
  have hissued := (h.holds ℓ (List.mem_of_getElem? hi)).issued hheld
  have hkept : ∀ {r : AnyOperationRecord}, r ∈ s'.records → r.operationId ≠ id → r ∈ s.records :=
    fun hr hne => mem_of_get ((hrec _ hne).symm.trans (get_of_mem hdist hr))
  have hlatest : ∀ {id'}, id' ≠ id → latestRecord (ops ++ X) id' = latestRecord ops id' := by
    intro id' hne
    rw [latestRecord, latest_append,
      latest_eq_none.mpr fun r hr heq => hne (heq.symm.trans (hX r hr)), Option.none_or]
  constructor
  case loads => rw [hnext]; exact hloads
  case clean => exact hclean
  case bound => exact hnext ▸ h.bound
  case distinct => exact hdist
  case distinctRequests => exact hreq ▸ h.distinctRequests
  case standing => exact hstand
  case issued =>
    intro r hr k hk
    rw [hnext]
    by_cases hid : r.operationId = id
    · obtain ⟨m, hm, hidm⟩ := hissued
      rw [hid, hidm, idNumber_operationIdOf (lt_of_le_of_lt hm h.bound)] at hk
      exact Option.some.inj hk ▸ hm
    · refine h.issued r ?_ k hk
      rcases hr with hr | hr
      · rcases List.mem_append.mp hr with hr | hr
        · exact .inl hr
        · exact absurd (hX r hr) hid
      · exact .inr (hkept hr hid)
  case records =>
    intro id' hnot
    by_cases hid : id' = id
    · subst hid
      exact hown hnot
    · rw [hrec id' hid, hlatest hid]
      exact h.records id' fun hd => hnot (hdoubt id' hd)
  case requests =>
    intro id' hnot
    rw [hreq]
    exact h.requests id' fun hd => hnot (hdoubt' id' hd)
  case apart =>
    refine h.apart.set hi fun id' hid' => .inl ?_
    rcases hℓ' with rfl | ⟨p, rfl, hp, -⟩
    · cases hid'
    · cases hid'
      exact hp ▸ hheld
  case holds =>
    intro m hm
    obtain ⟨j, hj⟩ := List.mem_iff_getElem?.mp hm
    rcases Machine.getElem?_set_cases hj with ⟨-, rfl⟩ | ⟨hne, hj⟩
    · rcases hℓ' with rfl | ⟨p, rfl, hp, hget⟩
      · trivial
      · exact ⟨by rw [hnext, hp]; exact hissued, hp ▸ hget⟩
    · have hother : m.held ≠ some id := fun heq => hne (h.apart _ _ _ _ id hj hi heq hheld)
      have hm := h.holds m (List.mem_of_getElem? hj)
      cases m with
      | idle => trivial
      | fresh id' =>
        have hid : id' ≠ id := fun heq => hother (heq ▸ rfl)
        refine ⟨by rw [hnext]; exact hm.1, fun r hr => ?_, fun r hr heq => ?_⟩
        · rcases List.mem_append.mp hr with hr | hr
          · exact hm.2.1 r hr
          · exact fun heq => hid (heq ▸ hX r hr)
        · exact hm.2.2 r (hkept hr (heq ▸ hid)) heq
      | marked p =>
        have hid : p.operationId ≠ id := fun heq => hother (congrArg some heq)
        exact ⟨by rw [hnext]; exact hm.1, by rw [hrec _ hid]; exact hm.2⟩

/-- A step that writes lines of one request. -/
theorem Mirror.request (h : Mirror s doubt forgotten ops reqs ctx) (id : String)
    {Y : List RequestLogLine} (hY : ∀ l ∈ Y, l.requestId = id)
    (hnext : s'.nextId = s.nextId) (hrecords : s'.records = s.records)
    (hloads : ∃ counter ≤ s.nextId, Loads s'.dir counter ops (reqs ++ Y))
    (hclean : s'.logTorn = false → s'.dir.Clean) (hdist : DistinctRequests s'.requests)
    (hreq : ∀ id', id' ≠ id → s'.requests.lookup id' = s.requests.lookup id')
    (hdoubt : ∀ id', DoubtfulId doubt id' → DoubtfulId doubt' id')
    (hdoubt' : ∀ id', DoubtfulRequest doubt id' → DoubtfulRequest doubt' id')
    (hown : ¬ DoubtfulRequest doubt' id →
      s'.requests.lookup id = (latestLine (reqs ++ Y) id).map RequestLogLine.entry ∨
        forgotten id ∧ s'.requests.lookup id = none ∧
          ∃ e, (latestLine (reqs ++ Y) id).map RequestLogLine.entry = some e ∧ e.isStuck = true) :
    Mirror s' doubt' forgotten ops (reqs ++ Y) ctx := by
  constructor
  case loads => rw [hnext]; exact hloads
  case clean => exact hclean
  case bound => exact hnext ▸ h.bound
  case distinct => exact hrecords ▸ h.distinct
  case distinctRequests => exact hdist
  case standing => exact hrecords ▸ h.standing
  case issued => rw [hnext, hrecords]; exact h.issued
  case records =>
    intro id' hnot
    rw [hrecords]
    exact h.records id' fun hd => hnot (hdoubt id' hd)
  case requests =>
    intro id' hnot
    by_cases hid : id' = id
    · subst hid
      exact hown hnot
    · have hlatest : latestLine (reqs ++ Y) id' = latestLine reqs id' := by
        rw [latestLine, latest_append,
          latest_eq_none.mpr fun l hl heq => hid (heq.symm.trans (hY l hl)), Option.none_or]
      rw [hreq id' hid, hlatest]
      exact h.requests id' fun hd => hnot (hdoubt' id' hd)
  case apart => exact h.apart
  case holds =>
    intro m hm
    have := h.holds m hm
    cases m with
    | idle => trivial
    | fresh id' => exact ⟨by rw [hnext]; exact this.1, this.2.1, by rw [hrecords]; exact this.2.2⟩
    | marked p => exact ⟨by rw [hnext]; exact this.1, by rw [hrecords]; exact this.2⟩

/-- A new operation id is nobody's. -/
theorem Mirror.fresh (h : Mirror s doubt forgotten ops reqs ctx) (hi : ctx[i]? = some ℓ) {id : String}
    (hs : s.nextOperationId = some (id, s')) :
    Mirror s' doubt forgotten ops reqs (ctx.set i (.fresh id)) := by
  unfold OperationStore.nextOperationId at hs
  split at hs
  · rename_i hlt
    cases hs
    have hnew : ∀ {k}, k ≤ s.nextId → operationIdOf k ≠ operationIdOf (s.nextId + 1) := fun hk heq => by
      have := operationIdOf_inj heq
      omega
    have hunused : ∀ r, r ∈ ops ∨ r ∈ s.records → r.operationId ≠ operationIdOf (s.nextId + 1) := by
      intro r hr heq
      have := h.issued r hr (s.nextId + 1) (by rw [heq, idNumber_operationIdOf hlt])
      omega
    constructor
    case loads =>
      obtain ⟨counter, hle, hl⟩ := h.loads
      exact ⟨counter, Nat.le_succ_of_le hle, hl⟩
    case clean => exact h.clean
    case bound => exact hlt
    case distinct => exact h.distinct
    case distinctRequests => exact h.distinctRequests
    case standing => exact h.standing
    case issued => exact fun r hr k hk => Nat.le_succ_of_le (h.issued r hr k hk)
    case records => exact h.records
    case requests => exact h.requests
    case apart =>
      refine h.apart.set hi fun id' hid' => .inr fun m hm heq => ?_
      cases hid'
      obtain ⟨k, hk, hid⟩ := (h.holds m hm).issued heq
      exact hnew hk hid.symm
    case holds =>
      intro m hm
      rcases List.mem_or_eq_of_mem_set hm with hm | rfl
      · have := h.holds m hm
        cases m with
        | idle => trivial
        | fresh id' =>
          obtain ⟨⟨k, hk, hid⟩, hrest⟩ := this
          exact ⟨⟨k, Nat.le_succ_of_le hk, hid⟩, hrest⟩
        | marked p =>
          obtain ⟨⟨k, hk, hid⟩, hrest⟩ := this
          exact ⟨⟨k, Nat.le_succ_of_le hk, hid⟩, hrest⟩
      · exact ⟨⟨_, le_rfl, rfl⟩, fun r hr => hunused r (.inl hr), fun r hr => hunused r (.inr hr)⟩
  · cases hs

theorem pending_keptRecords {keep : Nat} {rs : Records} {r : AnyOperationRecord} (hr : r ∈ rs)
    (hp : isPending r = true) : r ∈ keptRecords keep rs := by
  have hdrop : ∀ n (xs : Records), r ∈ xs → r ∈ dropOldest n xs := by
    intro n xs
    induction xs generalizing n with
    | nil => intro h; cases h
    | cons x xs ih =>
      intro h
      cases n with
      | zero => exact h
      | succ n =>
        simp only [dropOldest]
        rcases List.mem_cons.mp h with rfl | h
        · rw [if_pos hp]
          exact List.mem_cons_self
        · split
          · exact List.mem_cons_of_mem _ (ih _ h)
          · exact ih _ h
  exact hdrop _ _ hr

/-- After a prune that returned `Ok` both logs are the tables, and nothing is
in doubt. -/
theorem Mirror.prune (h : Mirror s doubt forgotten ops reqs ctx) (keep : Nat) :
    Mirror (s.prune keep .allDone).2 [] (fun _ => False) (keptRecords keep s.records)
      ((keptRequests (keptRecords keep s.records) s.requests).map fun q => q.2.line q.1) ctx := by
  have hsub := keptRecords_sublist keep s.records
  have hdist : DistinctIds (keptRecords keep s.records) := (hsub.map _).nodup h.distinct
  have hdistReq : DistinctRequests (keptRequests (keptRecords keep s.records) s.requests) :=
    h.distinctRequests.filter _
  have hdir : (s.prune keep .allDone).2.dir = s.pruneCut keep 3 := (OperationStore.prune_ok rfl).1
  have hstands : ∀ r ∈ keptRecords keep s.records, isAborted r = false :=
    fun r hr => h.standing r (hsub.subset hr)
  constructor
  case loads =>
    refine ⟨s.nextId, by rw [OperationStore.prune_nextId], ?_⟩
    rw [hdir]
    exact ⟨counterNumber_counterText h.bound, LogFile.read_ofRecords _, LogFile.read_ofRecords _⟩
  case clean =>
    rw [hdir]
    exact fun _ => ⟨LogFile.clean_ofRecords _, LogFile.clean_ofRecords _⟩
  case bound => rw [OperationStore.prune_nextId]; exact h.bound
  case distinct => rw [OperationStore.prune_records]; exact hdist
  case distinctRequests => rw [OperationStore.prune_requests]; exact hdistReq
  case standing => rw [OperationStore.prune_records]; exact hstands
  case issued =>
    rw [OperationStore.prune_records, OperationStore.prune_nextId]
    rintro r (hr | hr) <;> exact h.issued r (.inr (hsub.subset hr))
  case records =>
    intro id _
    rw [OperationStore.prune_records, latestRecord, latest_of_distinct hdist]
    cases hg : get AnyOperationRecord.operationId id (keptRecords keep s.records) with
    | none => rfl
    | some r =>
      exact (Option.filter_eq_some_iff.mpr ⟨rfl, by rw [hstands r (mem_of_get hg)]; rfl⟩).symm
  case requests =>
    intro id _
    left
    rw [OperationStore.prune_requests, latestLine]
    have hkeys : Distinct RequestLogLine.requestId
        ((keptRequests (keptRecords keep s.records) s.requests).map fun q => q.2.line q.1) := by
      rw [Distinct, List.map_map]
      exact hdistReq
    rw [latest_of_distinct hkeys, Requests.lookup, Keyed.get, Keyed.get, List.find?_map, Option.map_map]
    refine congrArg₂ Option.map (funext fun q => ?_) rfl
    simp
  case apart => exact h.apart
  case holds =>
    intro m hm
    have := h.holds m hm
    cases m with
    | idle => trivial
    | fresh id =>
      refine ⟨by rw [OperationStore.prune_nextId]; exact this.1, fun r hr => ?_, fun r hr => ?_⟩
      · exact this.2.2 r (hsub.subset hr)
      · rw [OperationStore.prune_records] at hr
        exact this.2.2 r (hsub.subset hr)
    | marked p =>
      refine ⟨by rw [OperationStore.prune_nextId]; exact this.1, ?_⟩
      rw [OperationStore.prune_records]
      exact get_of_mem hdist (pending_keptRecords (mem_of_get this.2) rfl)

/-! ## The step -/

/-- What a record that its caller may append makes of the table: it takes the
place of what its operation had there. -/
theorem records_record (h : Mirror s doubt forgotten ops reqs ctx) (hi : ctx[i]? = some ℓ)
    {r : AnyOperationRecord} {res : Except ProtocolError Unit}
    (hn : StoreLocal.next ℓ (.append (.operation r)) res = some ℓ') :
    ℓ.held = some r.operationId ∧ ℓ' = .idle ∧ DistinctIds (s.records.record r) ∧
      (∀ x ∈ s.records.record r, isAborted x = false) ∧
      ∀ id, get AnyOperationRecord.operationId id (s.records.record r) =
        if id = r.operationId then (some r).filter (fun r => !isAborted r)
        else get AnyOperationRecord.operationId id s.records := by
  have hholds := h.holds ℓ (List.mem_of_getElem? hi)
  have hlast : ∀ {x : AnyOperationRecord}, ℓ = .fresh x.operationId → isAborted x = false →
      DistinctIds (s.records ++ [x]) ∧ (∀ y ∈ s.records ++ [x], isAborted y = false) ∧
        ∀ id, get AnyOperationRecord.operationId id (s.records ++ [x]) =
          if id = x.operationId then (some x).filter (fun r => !isAborted r)
          else get AnyOperationRecord.operationId id s.records := by
    rintro x rfl hx
    have hnone : get AnyOperationRecord.operationId x.operationId s.records = none :=
      get_eq_none.mpr hholds.2.2
    rw [← put_of_get_none hnone]
    refine ⟨h.distinct.put x, fun y hy => ?_, fun id => ?_⟩
    · rcases mem_put hy with rfl | hy
      · exact hx
      · exact h.standing y hy
    · rw [get_put]
      split
      · simp [Option.filter, hx]
      · rfl
  cases r with
  | fs r =>
    cases ℓ with
    | marked p =>
      simp only [StoreLocal.next] at hn
      split at hn
      · rename_i hid
        cases hn
        refine ⟨congrArg some hid.symm, rfl, h.distinct.put _, fun x hx => ?_, fun id => ?_⟩
        · rcases mem_put hx with rfl | hx
          · rfl
          · exact h.standing x hx
        · exact get_put _ _ _
      · cases hn
    | _ => cases hn
  | exec r =>
    cases ℓ with
    | fresh id =>
      simp only [StoreLocal.next] at hn
      split at hn
      · rename_i hid
        cases hn
        subst hid
        exact ⟨rfl, rfl, hlast rfl rfl⟩
      · cases hn
    | _ => cases hn
  | transfer r =>
    cases ℓ with
    | fresh id =>
      simp only [StoreLocal.next] at hn
      split at hn
      · rename_i hid
        cases hn
        subst hid
        exact ⟨rfl, rfl, hlast rfl rfl⟩
      · cases hn
    | _ => cases hn
  | prepared p => cases ℓ <;> cases hn
  | aborted r =>
    cases ℓ with
    | marked p =>
      simp only [StoreLocal.next] at hn
      split at hn
      · rename_i hid
        cases hn
        refine ⟨congrArg some hid.symm, rfl, h.distinct.filter _, fun x hx => ?_, fun id => ?_⟩
        · exact h.standing x (List.mem_filter.mp hx).1
        · rw [Records.record, get_filter h.distinct]
          split
          · rename_i heq
            have : id = p.operationId := heq.trans hid
            subst this
            rw [hholds.2]
            simp [Option.filter, hid, isPending, isAborted]
          · rename_i hne
            cases hg : get AnyOperationRecord.operationId id s.records with
            | none => rfl
            | some x =>
              have hx := key_of_get hg
              have : x.operationId ≠ r.operationId := fun heq => hne (hx.symm.trans heq)
              simp [Option.filter, this]
      · cases hn
    | _ => cases hn

theorem Mirror.appendOperation (h : Mirror s doubt forgotten ops reqs ctx) (hi : ctx[i]? = some ℓ)
    {r : AnyOperationRecord} {o : AppendOutcome}
    (hn : StoreLocal.next ℓ (.append (.operation r)) (s.appendTracked o (.operation r)).1 = some ℓ') :
    ∃ ops', Mirror (s.appendTracked o (.operation r)).2 (doubt ++ s.doubtful o (.operation r)) forgotten
      ops' reqs (ctx.set i ℓ') := by
  obtain ⟨hheld, rfl, hdist, hstand, hget⟩ := records_record h hi hn
  obtain ⟨counter, hle, hl⟩ := h.loads
  have happ := s.appendLine_cases o (.operation r)
  have hlatest : latestRecord (ops ++ [r]) r.operationId = some r := by
    rw [latestRecord, latest_concat, if_pos rfl]
  have hwritten : s.logTorn = false → Loads (s.dir.writeLine (.operation r)) counter (ops ++ [r]) reqs ∧
      (s.dir.writeLine (.operation r)).Clean := fun ht => by
    simpa using hl.foldl_writeLine (h.clean ht) [.operation r]
  generalize s.doubtful o (.operation r) = ls at happ ⊢
  unfold OperationStore.appendTracked at hn ⊢
  generalize s.appendLine o (.operation r) = res at happ hn ⊢
  obtain ⟨res, s'⟩ := res
  cases happ with
  | done ht =>
    obtain ⟨hl', hc'⟩ := hwritten ht
    refine ⟨ops ++ [r], h.operation hi hheld (by simp) rfl rfl ⟨counter, hle, hl'⟩ (fun _ => hc') hdist
      hstand (fun id hne => (hget id).trans (if_neg hne)) (fun _ hd => hd.append _)
      (fun _ hd => hd.append _) (fun _ => ?_) (.inl rfl)⟩
    rw [hlatest]
    exact (hget _).trans (if_pos rfl)
  | undone e =>
    refine ⟨ops ++ [], h.operation hi hheld (by simp) rfl rfl ⟨counter, hle, ?_⟩ h.clean h.distinct
      h.standing (fun _ _ => rfl) (fun _ hd => hd.append _) (fun _ hd => hd.append _) (fun hd => ?_)
      (.inl rfl)⟩
    · rwa [List.append_nil]
    · rw [List.append_nil]
      exact h.records _ fun hd' => hd (hd'.append _)
  | torn e c ht =>
    obtain ⟨ls, hls, hl'⟩ := hl.writeCut (h.clean ht) c (.operation r)
    have hX : operationsOf ls = [] ∨ operationsOf ls = [r] := by
      rcases hls with rfl | rfl
      · exact .inl rfl
      · exact .inr rfl
    have hY : requestsOf ls = [] := by rcases hls with rfl | rfl <;> rfl
    rw [hY, List.append_nil] at hl'
    refine ⟨ops ++ operationsOf ls, h.operation hi hheld (fun x hx => ?_) rfl rfl ⟨counter, hle, hl'⟩
      (fun hf => by cases hf) h.distinct h.standing (fun _ _ => rfl) (fun _ hd => hd.append _)
      (fun _ hd => hd.append _) (fun hd => absurd ⟨r, by simp, rfl⟩ hd) (.inl rfl)⟩
    rcases hX with hX | hX <;> simp_all
  | unsynced e ht =>
    obtain ⟨hl', hc'⟩ := hwritten ht
    exact ⟨ops ++ [r], h.operation hi hheld (by simp) rfl rfl ⟨counter, hle, hl'⟩ (fun _ => hc') h.distinct
      h.standing (fun _ _ => rfl) (fun _ hd => hd.append _) (fun _ hd => hd.append _)
      (fun hd => absurd ⟨r, by simp, rfl⟩ hd) (.inl rfl)⟩

theorem Mirror.appendRequest (h : Mirror s doubt forgotten ops reqs ctx) (o : AppendOutcome)
    (l : RequestLogLine) : ∃ reqs', Mirror (s.appendTracked o (.request l)).2
      (doubt ++ s.doubtful o (.request l)) forgotten ops reqs' ctx := by
  obtain ⟨counter, hle, hl⟩ := h.loads
  have happ := s.appendLine_cases o (.request l)
  have hwritten : s.logTorn = false → Loads (s.dir.writeLine (.request l)) counter ops (reqs ++ [l]) ∧
      (s.dir.writeLine (.request l)).Clean := fun ht => by
    simpa using hl.foldl_writeLine (h.clean ht) [.request l]
  generalize s.doubtful o (.request l) = ls at happ ⊢
  unfold OperationStore.appendTracked
  generalize s.appendLine o (.request l) = res at happ ⊢
  obtain ⟨res, s'⟩ := res
  cases happ with
  | done ht =>
    obtain ⟨hl', hc'⟩ := hwritten ht
    refine ⟨reqs ++ [l], h.request l.requestId (by simp) rfl rfl ⟨counter, hle, hl'⟩ (fun _ => hc')
      (h.distinctRequests.put _) (fun id hne => ?_) (fun _ hd => hd.append _) (fun _ hd => hd.append _)
      fun _ => .inl ?_⟩
    · exact (Requests.lookup_insert _ _ _ _).trans (if_neg hne)
    · rw [latestLine, latest_concat, if_pos rfl]
      exact (Requests.lookup_insert _ _ _ _).trans (if_pos rfl)
  | undone e =>
    refine ⟨reqs ++ [], h.request l.requestId (by simp) rfl rfl ⟨counter, hle, ?_⟩ h.clean
      h.distinctRequests (fun _ _ => rfl) (fun _ hd => hd.append _) (fun _ hd => hd.append _) fun hd => ?_⟩
    · rwa [List.append_nil]
    · rw [List.append_nil]
      exact h.requests _ fun hd' => hd (hd'.append _)
  | torn e c ht =>
    obtain ⟨ls, hls, hl'⟩ := hl.writeCut (h.clean ht) c (.request l)
    have hX : requestsOf ls = [] ∨ requestsOf ls = [l] := by
      rcases hls with rfl | rfl
      · exact .inl rfl
      · exact .inr rfl
    have hY : operationsOf ls = [] := by rcases hls with rfl | rfl <;> rfl
    rw [hY, List.append_nil] at hl'
    refine ⟨reqs ++ requestsOf ls, h.request l.requestId (fun x hx => ?_) rfl rfl
      ⟨counter, hle, hl'⟩ (fun hf => by cases hf) h.distinctRequests (fun _ _ => rfl)
      (fun _ hd => hd.append _) (fun _ hd => hd.append _) fun hd => absurd ⟨l, by simp, rfl⟩ hd⟩
    rcases hX with hX | hX <;> simp_all
  | unsynced e ht =>
    obtain ⟨hl', hc'⟩ := hwritten ht
    exact ⟨reqs ++ [l], h.request l.requestId (by simp) rfl rfl ⟨counter, hle, hl'⟩ (fun _ => hc')
      h.distinctRequests (fun _ _ => rfl) (fun _ hd => hd.append _) (fun _ hd => hd.append _)
      fun hd => absurd ⟨l, by simp, rfl⟩ hd⟩

theorem Mirror.prepare (h : Mirror s doubt forgotten ops reqs ctx) (hi : ctx[i]? = some ℓ)
    {p : PreparedRecord} {o o' : AppendOutcome} {now : Nat}
    (hn : StoreLocal.next ℓ (.prepare p) (s.prepareLocked o o' now p).1 = some ℓ') :
    ∃ ops', Mirror (s.prepareLocked o o' now p).2 (doubt ++ s.doubtful o (.operation (.prepared p)))
      forgotten ops' reqs (ctx.set i ℓ') := by
  obtain ⟨hheld, hfree, hout⟩ : ℓ.held = some p.operationId ∧
      (get AnyOperationRecord.operationId p.operationId s.records = none ∧
        latestRecord ops p.operationId = none) ∧
      (∀ a, (s.prepareLocked o o' now p).1 = .ok a → ℓ' = .marked p) ∧
        ∀ e, (s.prepareLocked o o' now p).1 = .error e → ℓ' = .idle := by
    cases ℓ with
    | fresh id =>
      have hholds := h.holds _ (List.mem_of_getElem? hi)
      simp only [StoreLocal.next] at hn
      split at hn
      · rename_i hid
        subst hid
        refine ⟨rfl, ⟨get_eq_none.mpr hholds.2.2, latest_eq_none.mpr hholds.2.1⟩, ?_⟩
        split at hn <;> rename_i heq <;> cases hn
        · exact ⟨fun _ _ => rfl, fun e he => by rw [heq] at he; cases he⟩
        · exact ⟨fun a ha => (by rw [heq] at ha; cases ha), fun _ _ => rfl⟩
      · cases hn
    | _ => cases hn
  obtain ⟨counter, hle, hl⟩ := h.loads
  have happ := s.appendLine_cases o (.operation (.prepared p))
  have hwritten : s.logTorn = false →
      Loads (s.dir.writeLine (.operation (.prepared p))) counter (ops ++ [.prepared p]) reqs ∧
        (s.dir.writeLine (.operation (.prepared p))).Clean := fun ht => by
    simpa using hl.foldl_writeLine (h.clean ht) [.operation (.prepared p)]
  clear hn
  generalize s.doubtful o (.operation (.prepared p)) = doubt' at happ ⊢
  unfold OperationStore.prepareLocked at hout ⊢
  generalize s.appendLine o (.operation (.prepared p)) = res at happ hout ⊢
  obtain ⟨res, s'⟩ := res
  cases happ with
  | done ht =>
    obtain rfl := hout.1 () rfl
    obtain ⟨hl', hc'⟩ := hwritten ht
    have hput : s.records ++ [.prepared p] =
        put AnyOperationRecord.operationId (.prepared p) s.records := (put_of_get_none hfree.1).symm
    have hget : ∀ id, get AnyOperationRecord.operationId id (s.records ++ [.prepared p]) =
        if id = p.operationId then some (.prepared p)
        else get AnyOperationRecord.operationId id s.records := fun id => by
      rw [hput]
      exact get_put _ _ _
    refine ⟨ops ++ [AnyOperationRecord.prepared p], h.operation hi hheld (by simp) rfl rfl ⟨counter, hle, hl'⟩
      (fun _ => hc') ?_ (fun x hx => ?_) (fun id hne => (hget id).trans (if_neg hne))
      (fun _ hd => hd.append _) (fun _ hd => hd.append _) (fun _ => ?_)
      (.inr ⟨p, rfl, rfl, (hget _).trans (if_pos rfl)⟩)⟩
    · change DistinctIds (s.records ++ [.prepared p])
      rw [hput]
      exact h.distinct.put _
    · rcases List.mem_append.mp hx with hx | hx
      · exact h.standing x hx
      · rw [List.mem_singleton.mp hx]
        rfl
    · have hlatest : latestRecord (ops ++ [.prepared p]) p.operationId = some (.prepared p) :=
        (latest_concat _ _ _).trans (if_pos rfl)
      rw [hlatest]
      exact (hget _).trans (if_pos rfl)
  | undone e =>
    obtain rfl := hout.2 e rfl
    refine ⟨ops ++ [], h.operation hi hheld (by simp) rfl rfl ⟨counter, hle, ?_⟩ h.clean h.distinct
      h.standing (fun _ _ => rfl) (fun _ hd => hd.append _) (fun _ hd => hd.append _) (fun _ => ?_)
      (.inl rfl)⟩
    · rwa [List.append_nil]
    · rw [List.append_nil, hfree.1, hfree.2]
      rfl
  | torn e c ht =>
    obtain rfl := hout.2 e rfl
    obtain ⟨ls, hls, hl'⟩ := hl.writeCut (h.clean ht) c (.operation (.prepared p))
    have hY : requestsOf ls = [] := by rcases hls with rfl | rfl <;> rfl
    rw [hY, List.append_nil] at hl'
    refine ⟨ops ++ operationsOf ls, h.operation hi hheld (fun x hx => ?_) rfl rfl ⟨counter, hle, hl'⟩
      (fun hf => by cases hf) h.distinct h.standing (fun _ _ => rfl) (fun _ hd => hd.append _)
      (fun _ hd => hd.append _) (fun hd => absurd ⟨.prepared p, by simp, rfl⟩ hd) (.inl rfl)⟩
    rcases hls with rfl | rfl <;> simp_all
  | unsynced e ht =>
    obtain rfl := hout.2 e rfl
    obtain ⟨hl', hc'⟩ := hwritten ht
    -- The marker is in the log; the line that withdraws it may be, too.
    have happ' := OperationStore.appendLine_cases o' (.operation (.aborted {
      operationId := p.operationId, timestampMs := now }))
      { s with dir := s.dir.writeLine (.operation (.prepared p)) }
    obtain ⟨⟨hnext, hrecs, hreqs⟩, hclean, ls, hls, hloads⟩ := happ'.loads hl' fun _ => hc'
    have hY : requestsOf ls = [] := by rcases hls with rfl | rfl <;> rfl
    rw [hY, List.append_nil, List.append_assoc] at hloads
    refine ⟨_, h.operation hi hheld (fun x hx => ?_) hnext hreqs ⟨counter, hle, hloads⟩ hclean
      (by rw [hrecs]; exact h.distinct) (by rw [hrecs]; exact h.standing) (fun _ _ => by rw [hrecs])
      (fun _ hd => hd.append _) (fun _ hd => hd.append _)
      (fun hd => absurd ⟨.prepared p, by simp, rfl⟩ hd) (.inl rfl)⟩
    rcases List.mem_append.mp hx with hx | hx
    · rw [List.mem_singleton.mp hx]
      rfl
    · rcases hls with rfl | rfl <;> simp at hx
      rw [hx]
      rfl

/-- Every command of a caller keeps the mirror, a prune that returns `Ok`
included. -/
theorem Mirror.exec (h : Mirror s doubt forgotten ops reqs ctx) (hi : ctx[i]? = some ℓ) {c : StoreCmd}
    {ch : StoreChoice} {r : c.Result} (he : c.exec ch s = some (r, s'))
    (hn : StoreLocal.next ℓ c r = some ℓ') (hp : ∀ keep, c = .prune keep → ch.prune = .allDone) :
    ∃ ops' reqs', Mirror s' (doubt ++ c.doubtful ch s) forgotten ops' reqs' (ctx.set i ℓ') := by
  have hread : ℓ' = ℓ → s' = s → c.doubtful ch s = [] →
      ∃ ops' reqs', Mirror s' (doubt ++ c.doubtful ch s) forgotten ops' reqs' (ctx.set i ℓ') := by
    rintro rfl rfl hd
    rw [hd, List.append_nil, Machine.set_of_getElem? hi]
    exact ⟨ops, reqs, h⟩
  have hres : ∀ {x : c.Result × OperationStore}, some x = some (r, s') → r = x.1 ∧ s' = x.2 := by
    rintro _ ⟨⟩
    exact ⟨rfl, rfl⟩
  have hsame : ∀ {m : StoreLocal}, (some ℓ : Option StoreLocal) = some m → m = ℓ :=
    fun h => (Option.some.inj h).symm
  cases c with
  | now => cases he; exact hread (hsame hn) rfl rfl
  | lookupRequest id => cases he; exact hread (hsame (by cases ℓ <;> exact hn)) rfl rfl
  | history limit => cases he; exact hread (hsame (by cases ℓ <;> exact hn)) rfl rfl
  | findRecord id => cases he; exact hread (hsame (by cases ℓ <;> exact hn)) rfl rfl
  | statusForRequest id => cases he; exact hread (hsame (by cases ℓ <;> exact hn)) rfl rfl
  | nextOperationId =>
    have : ℓ' = .fresh r := by cases ℓ <;> cases hn <;> rfl
    rw [this]
    exact ⟨ops, reqs, by simpa [StoreCmd.doubtful] using h.fresh hi he⟩
  | claim id op =>
    obtain rfl : ℓ' = ℓ := hsame (by cases ℓ <;> exact hn)
    rw [Machine.set_of_getElem? hi]
    have hs' : s' = (s.claimLocked ch.append id op).2 := (congrArg Prod.snd (Option.some.inj he)).symm
    rw [StoreCmd.doubtful, hs']
    cases hl : s.requests.lookup id with
    | some e => exact ⟨ops, reqs, by simpa [OperationStore.claimLocked, hl] using h⟩
    | none =>
      obtain ⟨reqs', h'⟩ := h.appendRequest ch.append ((RequestEntry.inProgress op).line id)
      refine ⟨ops, reqs', ?_⟩
      rw [if_pos rfl]
      rw [OperationStore.claimLocked_snd hl, OperationStore.inProgressLine]
      exact h'
  | prepare p =>
    obtain ⟨rfl, rfl⟩ := hres he
    obtain ⟨ops', h'⟩ := h.prepare hi hn
    exact ⟨ops', reqs, h'⟩
  | append l =>
    obtain ⟨rfl, rfl⟩ := hres he
    cases l with
    | operation rec =>
      obtain ⟨ops', h'⟩ := h.appendOperation hi hn
      exact ⟨ops', reqs, h'⟩
    | request l =>
      obtain rfl : ℓ' = ℓ := hsame (by cases ℓ <;> exact hn)
      rw [Machine.set_of_getElem? hi]
      obtain ⟨reqs', h'⟩ := h.appendRequest ch.append l
      exact ⟨ops, reqs', h'⟩
  | prune keep =>
    obtain rfl : ℓ' = ℓ := hsame (by cases ℓ <;> exact hn)
    have hok := hp keep rfl
    obtain ⟨rfl, rfl⟩ := hres he
    rw [Machine.set_of_getElem? hi, hok]
    exact ⟨_, _, (h.prune keep).mono (fun id h => by obtain ⟨_, hr, _⟩ := h; cases hr)
      (fun id h => by obtain ⟨_, hr, _⟩ := h; cases hr)
      (fun id hf => hf.elim)⟩

/-! ## The methods are such callers -/

namespace StoreProg

theorem conforms_claimRequest (ℓ : StoreLocal) (id op : String) :
    (claimRequest id op).Conforms StoreLocal.next (fun m _ => m = ℓ) ℓ := by
  rintro (_ | e)
  · exact ⟨ℓ, by cases ℓ <;> rfl, fun r => ⟨ℓ, by cases ℓ <;> rfl, rfl⟩⟩
  · exact ⟨ℓ, by cases ℓ <;> rfl, rfl⟩

/-- A marker that was prepared is its caller's to commit or to withdraw. -/
theorem conforms_prepareFsRecord (ℓ : StoreLocal) (requestId : String) (kind : OperationKind)
    (path : String) (before : Option String) (after : String) :
    (prepareFsRecord requestId kind path before after).Conforms StoreLocal.next
      (fun m r => ∀ id, r = .ok id → ∃ p, m = .marked p ∧ p.operationId = id) ℓ := by
  refine fun id => ⟨.fresh id, by cases ℓ <;> rfl, fun now => ⟨.fresh id, rfl, fun r => ?_⟩⟩
  cases r with
  | ok a => exact ⟨_, if_pos rfl, by rintro _ ⟨⟩; exact ⟨_, rfl, rfl⟩⟩
  | error e => exact ⟨.idle, if_pos rfl, by rintro _ ⟨⟩⟩

theorem conforms_commitFsRecord (p : PreparedRecord) (requestId : String) (kind : OperationKind)
    (path : String) (before : Option String) (after : String) :
    (commitFsRecord p.operationId requestId kind path before after).Conforms StoreLocal.next
      (fun m _ => m = .idle) (.marked p) :=
  fun _ => ⟨.marked p, rfl, fun _ => ⟨.idle, if_pos rfl, rfl⟩⟩

theorem conforms_abortPrepared (p : PreparedRecord) : (abortPrepared p.operationId).Conforms
    StoreLocal.next (fun m _ => m = .idle) (.marked p) :=
  fun _ => ⟨.marked p, rfl, fun _ => ⟨.idle, if_pos rfl, rfl⟩⟩

theorem conforms_appendTransferRecord (r : TransferOperationRecord) :
    (appendTransferRecord r).Conforms StoreLocal.next (fun m _ => m = .idle) (.fresh r.operationId) :=
  fun _ => ⟨.idle, if_pos rfl, rfl⟩

end StoreProg

/-! ## Runs of the store -/

/-- A store that was loaded mirrors its logs. -/
theorem Mirror.of_new {d : LogDir} (h : OperationStore.new d = .ok s) :
    ∃ ops reqs, Mirror s [] (fun _ => False) ops reqs [] := by
  obtain ⟨counter, ops, reqs, hl, rfl⟩ := OperationStore.new_eq_ok.mp h
  refine ⟨ops, reqs, ?_⟩
  constructor
  case loads => exact ⟨counter, le_maxId _ _, hl.counter, LogFile.read_repair hl.operations,
    LogFile.read_repair hl.requests⟩
  case clean => exact fun _ => ⟨LogFile.clean_repair _, LogFile.clean_repair _⟩
  case bound => exact maxId_lt (counter_lt hl.counter) ops
  case distinct => exact distinct_loadRecords ops
  case distinctRequests => exact distinct_loadRequests reqs
  case standing => exact fun r hr => (mem_loadRecords.mp hr).2
  case issued =>
    rintro r (hr | hr) k hk
    · exact idNumber_le_maxId hr hk
    · exact idNumber_le_maxId (mem_of_latest (mem_loadRecords.mp hr).1) hk
  case records => exact fun id _ => get_loadRecords ops id
  case requests => exact fun id _ => .inl (lookup_loadRequests reqs id)
  case apart => exact fun _ _ _ _ _ h => by cases h
  case holds => exact fun _ h => by cases h

/-- A store with the lines of failed appends that may have reached its logs. -/
structure Serving where
  store : OperationStore
  failed : List LogLine

/-- A store used by any number of callers, each a program that owes the store
what `StoreLocal.next` says. -/
def storeMachine : Machine StoreCmd StoreCmd.Result where
  Shared := Serving
  Durable := LogDir
  Request := { p : StoreProg Unit // p.Conforms StoreLocal.next (fun _ _ => True) .idle }
  Choice := StoreChoice
  Cut := Unit
  Boot := Unit
  Env := Unit
  prog q := q.1
  exec _ c ch σ := (c.exec ch σ.store).map fun p =>
    (p.1, { store := p.2, failed := σ.failed ++ c.doubtful ch σ.store })
  crash _ _ _ := none
  boot _ _ := none
  envUp _ σ := σ
  envDown _ d := d

/-- Every prune returns `Ok`. -/
def prunesOk (_ : storeMachine.World) : storeMachine.Label → Bool
  | .step _ ch => (ch : StoreChoice).prune = .allDone
  | _ => true

/-- The tables of a store are those its directory loads as, for every key of
which no append failed at the sync or at the roll-back. -/
def ReloadsAs (σ : Serving) : Prop :=
  ∃ s, OperationStore.new σ.store.dir = .ok s ∧
    (∀ id, ¬ DoubtfulId σ.failed id →
      get AnyOperationRecord.operationId id s.records =
        get AnyOperationRecord.operationId id σ.store.records) ∧
    ∀ id, ¬ DoubtfulRequest σ.failed id → s.requests.lookup id = σ.store.requests.lookup id

theorem Mirror.reloads {σ : Serving} (h : Mirror σ.store σ.failed (fun _ => False) ops reqs ctx) :
    ReloadsAs σ := by
  obtain ⟨counter, -, hl⟩ := h.loads
  refine ⟨_, OperationStore.new_of_loads hl, fun id hid => ?_, fun id hid => ?_⟩
  · rw [h.records id hid]
    exact get_loadRecords ops id
  · rcases h.requests id hid with heq | ⟨hf, -⟩
    · rw [heq]
      exact lookup_loadRequests reqs id
    · exact hf.elim

theorem storeMachine_keeps : storeMachine.Keeps StoreLocal.next prunesOk .idle
    (fun σ ctx _ => ∃ ops reqs, Mirror σ.store σ.failed (fun _ => False) ops reqs ctx)
    (fun _ _ => False) where
  prog q := q.2
  spawn := by
    rintro σ ts ctx n q - ⟨ops, reqs, h⟩
    refine ⟨ops, reqs, { h with apart := h.apart.concat, holds := fun m hm => ?_ }⟩
    rcases List.mem_append.mp hm with hm | hm
    · exact h.holds m hm
    · rw [List.mem_singleton.mp hm]
      trivial
  exec := by
    rintro σ σ' ts ctx n i c ch r ℓ ℓ' hok - ⟨ops, reqs, h⟩ hℓ hn he
    obtain ⟨⟨r', s'⟩, hexec, heq⟩ := Option.map_eq_some_iff.mp he
    cases heq
    exact h.exec hℓ hexec hn fun _ _ => of_decide_eq_true hok
  crash := by rintro _ _ _ _ _ _ _ _ _ _ _ ⟨⟩
  bootUp := by rintro _ _ _ _ _ _ ⟨⟩
  bootDown := fun _ h _ => h
  envUp := fun _ h => h
  envDown := fun _ h => h

/-- In every run of store operations from an empty state directory, whenever
no command is under way, a start would load the tables that are in memory. -/
theorem reload_tables {s₀ : OperationStore} (h₀ : OperationStore.new .empty = .ok s₀)
    {w : storeMachine.World}
    (hr : Machine.Run prunesOk (.up { store := s₀, failed := [] } [] 0 : storeMachine.World) w) :
    ∃ σ ts n, w = .up σ ts n ∧ ReloadsAs σ := by
  obtain ⟨ops, reqs, hm⟩ := Mirror.of_new h₀
  have hinv := Machine.inv_of_run storeMachine_keeps (show Machine.Inv _ _ _
    (.up { store := s₀, failed := [] } [] 0 : storeMachine.World) from ⟨[], ⟨ops, reqs, hm⟩, .nil⟩) hr
  cases w with
  | down d n => exact hinv.elim
  | up σ ts n =>
    obtain ⟨ctx, ⟨ops, reqs, h⟩, -⟩ := hinv
    exact ⟨σ, ts, n, rfl, h.reloads⟩

/-- A caller that claims a request, prepares a mutation of `f` and commits it. -/
def claimAndCreate : StoreProg Unit := do
  let _ ← StoreProg.claimRequest "r1" "create"
  match ← StoreProg.prepareFsRecord "r1" .create "f" none "sha256:aa" with
  | .ok id =>
    let _ ← StoreProg.commitFsRecord id "r1" .create "f" none "sha256:aa"
    return
  | .error _ => return

theorem conforms_claimAndCreate :
    claimAndCreate.Conforms StoreLocal.next (fun _ _ => True) .idle := by
  refine (StoreProg.conforms_claimRequest .idle "r1" "create").bind fun ℓ _ _ => ?_
  refine (StoreProg.conforms_prepareFsRecord ℓ "r1" .create "f" none "sha256:aa").bind fun m r hr => ?_
  cases r with
  | error e => trivial
  | ok id =>
    obtain ⟨p, rfl, rfl⟩ := hr id rfl
    exact fun _ => ⟨.marked p, rfl, fun _ => ⟨.idle, if_pos rfl, trivial⟩⟩

/-- It runs with the sync of its claim failing, and the roll-back of its
commit. -/
def doubtfulRun : List storeMachine.Label :=
  let step (ch : StoreChoice) : storeMachine.Label := .step 0 ch
  [.spawn ⟨claimAndCreate, conforms_claimAndCreate⟩, step {}, step { append := .syncFails "EIO" },
    step {}, step { clock := 1 }, step {}, step { clock := 2 },
    step { append := .rollBackFails "ENOSPC" "EIO" .part }]

def emptyStore : OperationStore :=
  { dir := .empty, nextId := 0, records := [], requests := [], logTorn := false }

theorem reload_tables_doubtfulRun : ∃ w,
    Machine.okSteps prunesOk (.up { store := emptyStore, failed := [] } [] 0 : storeMachine.World)
      doubtfulRun = some w ∧
    ∃ σ ts n, w = .up σ ts n ∧ ReloadsAs σ := by
  have hrun : (Machine.okSteps prunesOk
      (.up { store := emptyStore, failed := [] } [] 0 : storeMachine.World) doubtfulRun).isSome = true := rfl
  obtain ⟨w, hw⟩ := Option.isSome_iff_exists.mp hrun
  exact ⟨w, hw, reload_tables rfl (Machine.Run.init.okSteps hw)⟩

end RemoteWorkspace
