import RemoteWorkspace.Store.Mirror
import RemoteWorkspace.Store.StartUp

/-!
# Terminal lines

A request table says `Done` where `requests.jsonl` holds the terminal line with
that result (`Backed`): what the table is loaded from, what recovery appends and
what a prune rewrites all keep it so. Each such line stands under the request id
that its result names (`OwnLine`).
-/

namespace RemoteWorkspace

open Interleave Keyed

def ServerMessage.requestId : ServerMessage → String
  | result id _ => id
  | error id _ => id

/-- The line that ends a request with this reply. -/
def terminalLine (id : String) (m : ServerMessage) : RequestLogLine := (RequestEntry.ofResult m).line id

/-- A line with a result is the terminal line of the request that the result
names. -/
def OwnLine (l : RequestLogLine) : Prop :=
  ∀ m, l.resultDone = some m → m.requestId = l.requestId ∧ l = terminalLine l.requestId m

theorem ownLine_terminal (m : ServerMessage) : OwnLine (terminalLine m.requestId m) := by
  rintro _ ⟨⟩
  exact ⟨rfl, rfl⟩

theorem ownLine_of_none {l : RequestLogLine} (h : l.resultDone = none) : OwnLine l := by
  intro m hm
  rw [h] at hm
  cases hm

theorem resultDone_of_entry {l : RequestLogLine} {m : ServerMessage} (h : l.entry.result = some (.done m)) :
    l.resultDone = some m := by
  obtain ⟨id, status, done, error, op⟩ := l
  cases done <;> cases error <;> simp_all [RequestLogLine.entry]

/-- An entry with a result is the entry of its terminal line. -/
def OwnEntry (x : String × RequestEntry) : Prop :=
  ∀ m, x.2.result = some (.done m) → m.requestId = x.1 ∧ x.2 = .ofResult m

theorem ownEntry_of_line {l : RequestLogLine} (h : OwnLine l) : OwnEntry (l.requestId, l.entry) := by
  intro m hm
  obtain ⟨hid, hl⟩ := h m (resultDone_of_entry hm)
  refine ⟨hid, ?_⟩
  show l.entry = _
  rw [hl, terminalLine, RequestEntry.entry_line]

theorem ownLine_of_entry {x : String × RequestEntry} (h : OwnEntry x) : OwnLine (x.2.line x.1) := by
  intro m hm
  have hres : x.2.result = some (.done m) := by
    obtain ⟨id, status, result, op⟩ := x
    rcases result with _ | _ | _ <;> simp_all [RequestEntry.line]
  obtain ⟨hid, he⟩ := h m hres
  refine ⟨hid, ?_⟩
  rw [RequestEntry.requestId_line, terminalLine, he]

/-- What may be appended: any record, and an own line. -/
def OwnLog : LogLine → Prop
  | .operation _ => True
  | .request l => OwnLine l

theorem ownLog_result {m : ServerMessage} {id : String} (h : m.requestId = id) : OwnLog (resultLine id m) :=
  h ▸ ownLine_terminal m

theorem ownLog_error (id : String) (e : ProtocolError) : OwnLog (errorLine id e) := ownLine_of_none rfl

/-! ## Stores -/

/-- The log, all of whose lines are its own, holds the line of every entry of
the table. -/
structure Backed (s : OperationStore) : Prop where
  own : s.dir.requests.Every OwnLine
  clean : s.dir.requests.Clean
  lines : ∃ ls, s.dir.requests.read = some ls ∧ ∀ x ∈ s.requests, ∃ l ∈ ls, l.requestId = x.1 ∧ l.entry = x.2

theorem mem_loadRequests {log : List RequestLogLine} {x : String × RequestEntry} (h : x ∈ loadRequests log) :
    ∃ l ∈ log, l.requestId = x.1 ∧ l.entry = x.2 := by
  induction log using List.reverseRecOn with
  | nil => cases h
  | append_singleton log l ih =>
    rw [loadRequests_concat] at h
    rcases mem_put h with rfl | h
    · exact ⟨l, by simp, rfl, rfl⟩
    · obtain ⟨l', hl', heq⟩ := ih h
      exact ⟨l', List.mem_append_left _ hl', heq⟩

namespace Backed

variable {s : OperationStore}

theorem of_new {d : LogDir} (hd : d.requests.Every OwnLine) (h : OperationStore.new d = .ok s) : Backed s := by
  obtain ⟨counter, ops, reqs, hl, rfl⟩ := OperationStore.new_eq_ok.mp h
  exact ⟨hd.repair, LogFile.clean_repair _, reqs, LogFile.read_repair hl.requests, fun x hx => mem_loadRequests hx⟩

theorem record (h : Backed s) {l : LogLine} (hl : OwnLog l) : Backed (s.record l) := by
  cases l with
  | operation r => exact ⟨h.own, h.clean, h.lines⟩
  | request q =>
    obtain ⟨ls, hr, hmem⟩ := h.lines
    refine ⟨h.own.writeLine hl, LogFile.clean_writeLine _ _, ls ++ [q],
      LogFile.read_writeLine h.clean hr q, fun x hx => ?_⟩
    rcases mem_put hx with rfl | hx
    · exact ⟨q, by simp, rfl, rfl⟩
    · obtain ⟨l, hl', heq⟩ := hmem x hx
      exact ⟨l, List.mem_append_left _ hl', heq⟩

theorem ownEntry (h : Backed s) {x : String × RequestEntry} (hx : x ∈ s.requests) : OwnEntry x := by
  obtain ⟨ls, hr, hmem⟩ := h.lines
  obtain ⟨l, hl, hid, he⟩ := hmem x hx
  obtain ⟨id, e⟩ := x
  cases hid
  cases he
  exact ownEntry_of_line (h.own.read hr l hl)

/-- The terminal line of a result in the table is in the log. -/
theorem terminal (h : Backed s) {x : String × RequestEntry} (hx : x ∈ s.requests) {m : ServerMessage}
    (hm : x.2.result = some (.done m)) :
    ∃ ls, s.dir.requests.read = some ls ∧ terminalLine x.1 m ∈ ls := by
  obtain ⟨ls, hr, hmem⟩ := h.lines
  obtain ⟨l, hl, hid, he⟩ := hmem x hx
  obtain ⟨-, heq⟩ := h.own.read hr l hl m (resultDone_of_entry (he ▸ hm))
  rw [hid] at heq
  exact ⟨ls, hr, heq ▸ hl⟩

/-- The same log, and a table with no more entries. -/
theorem sub (h : Backed s) {s' : OperationStore} (hd : s'.dir.requests = s.dir.requests)
    (hq : ∀ x ∈ s'.requests, x ∈ s.requests) : Backed s' := by
  obtain ⟨ls, hr, hmem⟩ := h.lines
  exact ⟨hd ▸ h.own, hd ▸ h.clean, ls, hd ▸ hr, fun x hx => hmem x (hq x hx)⟩

theorem cutDown (h : Backed s) (keep : Nat) : Backed (s.cutDown keep) :=
  h.sub rfl fun _ hx => (mem_keptRequests.mp hx).1

/-- The request log that a prune writes. -/
theorem rewritten (h : Backed s) {d : LogDir}
    (hd : d.requests = .ofRecords (s.requests.map fun x => x.2.line x.1)) : Backed { s with dir := d } := by
  refine ⟨?_, ?_, s.requests.map fun x => x.2.line x.1, ?_, fun x hx => ?_⟩
  · show d.requests.Every OwnLine
    rw [hd]
    refine LogFile.every_ofRecords fun l hl => ?_
    obtain ⟨x, hx, rfl⟩ := List.mem_map.mp hl
    exact ownLine_of_entry (h.ownEntry hx)
  · show d.requests.Clean
    rw [hd]
    exact LogFile.clean_ofRecords _
  · show d.requests.read = _
    rw [hd, LogFile.read_ofRecords]
  · exact ⟨x.2.line x.1, List.mem_map_of_mem hx, rfl, RequestEntry.entry_line _ _⟩

theorem prune (h : Backed s) (keep : Nat) (o : PruneOutcomes) : Backed (s.prune keep o).2 := by
  have hcut := h.cutDown keep
  unfold OperationStore.prune
  repeat' split
  all_goals first
    | exact hcut.rewritten rfl
    | exact hcut.sub rfl fun _ hx => hx

end Backed

/-! ## Recovery -/

/-- The reply that a record stands for names the request of the record. -/
theorem requestId_rebuilt {rs : Records} {id operationId : String} {m : ServerMessage}
    (h : rebuiltFrom rs id = some (operationId, m)) : m.requestId = id := by
  obtain ⟨r, hr, hm⟩ := Option.bind_eq_some_iff.mp h
  obtain ⟨m', hm', heq⟩ := Option.map_eq_some_iff.mp hm
  cases heq
  have hid : recordRequestId r = some id := by
    have := List.find?_some hr
    simp_all
  cases r with
  | fs r => cases hid; cases hm'; rfl
  | transfer r => cases hid; cases hm'; rfl
  | exec r =>
    cases hid
    cases hm'
    unfold reconstructExec
    repeat' split
    all_goals rfl
  | prepared r => cases hm'
  | aborted r => cases hm'

/-- A recovery under way, of a backed store. -/
def BackedRecovery (r : Recovery) : Prop := Backed r.store ∧ ∀ l ∈ r.appended, OwnLog l

namespace BackedRecovery

variable {r : Recovery}

theorem append (h : BackedRecovery r) {l : LogLine} (hl : OwnLog l) : BackedRecovery (r.append l) := by
  refine ⟨h.1.record hl, fun l' hl' => ?_⟩
  rcases List.mem_append.mp hl' with hl' | hl'
  · exact h.2 l' hl'
  · exact List.mem_singleton.mp hl' ▸ hl

theorem act (h : BackedRecovery r) (a : RecoveryAction) : BackedRecovery (r.act a) := h

theorem conflict (h : BackedRecovery r) (now : Nat) (p : PreparedRecord) (reason : String) :
    BackedRecovery (r.resolveAsConflict now p reason) :=
  (h.append (l := abortedLine p.operationId now) trivial).append (ownLog_error _ _)

theorem resolveAs (h : BackedRecovery r) (now : Nat) (p : PreparedRecord) (v : RecoveryOutcome) :
    BackedRecovery (r.resolveAs now p v) := by
  cases v with
  | noOp => exact h.append (l := abortedLine p.operationId now) trivial
  | committed => exact (h.append (l := .operation (.fs (committedFrom p now))) trivial).append (ownLog_result rfl)
  | conflict reason => exact h.conflict now p reason

theorem recoverRequest (h : BackedRecovery r) (q : String × RequestEntry) : BackedRecovery (recoverRequest r q) := by
  unfold RemoteWorkspace.recoverRequest
  split
  · rename_i operationId msg hr
    exact (h.append (ownLog_result (requestId_rebuilt hr))).act _
  · split
    · exact h.append (ownLog_error _ _)
    · split
      · exact h.append (ownLog_error _ _)
      · exact ⟨h.1.sub rfl fun x hx => (List.mem_filter.mp hx).1, h.2⟩

theorem foldl (qs : Requests) : ∀ {r : Recovery}, BackedRecovery r → BackedRecovery (qs.foldl RemoteWorkspace.recoverRequest r) := by
  induction qs with
  | nil => exact fun h => h
  | cons q qs ih => exact fun h => ih (h.recoverRequest q)

section

variable (ws : Workspace) (sha256 : Sha256) (t : Tree) (b : Start)

theorem recoverMarker (h : BackedRecovery r) (p : PreparedRecord) :
    match recoverMarker ws sha256 t b r p with
    | .ok r' => BackedRecovery r'
    | .error (r', _) => BackedRecovery r' := by
  unfold RemoteWorkspace.recoverMarker
  dsimp only
  cases ws.resolve t p.path with
  | error e => exact (h.conflict _ p _).act _
  | ok abs =>
    dsimp only
    cases hashFile sha256 t abs with
    | error e => exact h
    | ok current => exact h.resolveAs _ p _

theorem foldlM (ps : List PreparedRecord) : ∀ {r : Recovery}, BackedRecovery r →
    match ps.foldlM (RemoteWorkspace.recoverMarker ws sha256 t b) r with
    | .ok r' => BackedRecovery r'
    | .error (r', _) => BackedRecovery r' := by
  induction ps with
  | nil => exact fun h => h
  | cons p ps ih =>
    intro r h
    rw [List.foldlM_cons]
    have hp := h.recoverMarker ws sha256 t b p
    cases hm : RemoteWorkspace.recoverMarker ws sha256 t b r p with
    | error e => rw [hm] at hp; exact hp
    | ok r' => rw [hm] at hp; exact ih hp

end

end BackedRecovery

theorem backed_recover (ws : Workspace) (sha256 : Sha256) (t : Tree) (b : Start) {s : OperationStore} (h : Backed s) :
    match recover ws sha256 t b s with
    | .ok r => BackedRecovery r
    | .error (r, _) => BackedRecovery r := by
  have h₀ : BackedRecovery { store := s, appended := [], actions := [] } := ⟨h, by simp⟩
  have hm := h₀.foldlM ws sha256 t b (markersOf s.records).reverse
  unfold recover recoverMarkers
  cases hr : (markersOf s.records).reverse.foldlM (recoverMarker ws sha256 t b)
      { store := s, appended := [], actions := [] } with
  | error e => rw [hr] at hm; exact hm
  | ok r => rw [hr] at hm; exact hm.foldl _

/-! ## Commands -/

/-- All lines of the log are own. -/
def OwnLines (d : LogDir) : Prop := d.requests.Every OwnLine

section

variable {Q : RequestLogLine → Prop} {d : LogDir} {s s' : OperationStore} {l : LogLine}

theorem every_writeLine (h : d.requests.Every Q) (hl : ∀ q, l = .request q → Q q) : (d.writeLine l).requests.Every Q := by
  cases l with
  | operation r => exact h
  | request q => exact LogFile.Every.writeLine h (hl q rfl)

theorem every_writeCut (h : d.requests.Every Q) (hl : ∀ q, l = .request q → Q q) (c : Cut) :
    (d.writeCut c l).requests.Every Q := by
  cases l with
  | operation r => exact h
  | request q => exact LogFile.Every.writeCut h (hl q rfl) c

theorem every_appendLine (h : s.dir.requests.Every Q) (hl : ∀ q, l = .request q → Q q) (o : AppendOutcome) :
    (s.appendLine o l).2.dir.requests.Every Q ∧ (s.appendLine o l).2.requests = s.requests := by
  have hcases := s.appendLine_cases o l
  generalize s.doubtful o l = doubt at hcases
  generalize s.appendLine o l = out at hcases ⊢
  obtain ⟨res, s'⟩ := out
  cases hcases with
  | done ht => exact ⟨every_writeLine h hl, rfl⟩
  | undone e => exact ⟨h, rfl⟩
  | torn e c ht => exact ⟨every_writeCut h hl c, rfl⟩
  | unsynced e ht => exact ⟨every_writeLine h hl, rfl⟩

/-- An append changes the table if it returns `Ok`, and then by the entry of
its line. -/
theorem appendTracked_cases (h : s.dir.requests.Every Q) (hl : ∀ q, l = .request q → Q q) (o : AppendOutcome) :
    (s.appendTracked o l).2.dir.requests.Every Q ∧
      ((∃ e, (s.appendTracked o l).1 = .error e) ∧ (s.appendTracked o l).2.requests = s.requests ∨
        (s.appendTracked o l).1 = .ok () ∧ (s.appendTracked o l).2.requests = (s.record l).requests) := by
  have hown := every_appendLine h hl o
  unfold OperationStore.appendTracked
  split
  · refine ⟨?_, .inr ⟨rfl, rfl⟩⟩
    rw [record_dir]
    exact every_writeLine h hl
  · rename_i f s' heq
    rw [heq] at hown
    exact ⟨hown.1, .inl ⟨⟨_, rfl⟩, hown.2⟩⟩

theorem every_pruneCut (how : s.dir.requests.Every Q) (ht : ∀ x ∈ s.requests, Q (x.2.line x.1)) (keep n : Nat) :
    (s.pruneCut keep n).requests.Every Q := by
  have hkept : ((s.cutDown keep).withRequests (s.cutDown keep).dir).requests.Every Q := by
    refine LogFile.every_ofRecords fun l hl => ?_
    obtain ⟨x, hx, rfl⟩ := List.mem_map.mp hl
    exact ht x (mem_keptRequests.mp hx).1
  unfold OperationStore.pruneCut
  dsimp only
  split
  · exact how
  · exact how
  · exact how
  · exact hkept

theorem every_prune (how : s.dir.requests.Every Q) (ht : ∀ x ∈ s.requests, Q (x.2.line x.1)) (keep : Nat)
    (o : PruneOutcomes) : (s.prune keep o).2.dir.requests.Every Q := by
  obtain ⟨n, -, hn⟩ := s.prune_dir keep o
  exact hn ▸ every_pruneCut how ht keep n

end

/-- What a command adds to the table: an entry without a result, or that of a
line whose append returned `Ok`. -/
inductive Adds (x : String × RequestEntry) : (c : StoreCmd) → c.Result → Prop where
  | claim (id op : String) (r : Except ProtocolError (Option RequestEntry)) (h : x.2.result = none) :
      Adds x (.claim id op) r
  | line (l : RequestLogLine) (h : x = (l.requestId, l.entry)) : Adds x (.append (.request l)) (.ok ())

theorem every_exec {Q : RequestLogLine → Prop} {s s' : OperationStore} {c : StoreCmd} {ch : StoreChoice} {r : c.Result}
    (h : c.exec ch s = some (r, s')) (how : s.dir.requests.Every Q) (ht : ∀ x ∈ s.requests, Q (x.2.line x.1))
    (hentry : ∀ q, Q q → Q (q.entry.line q.requestId)) (hl : ∀ q, c = .append (.request q) → Q q)
    (hclaim : ∀ id op, c = .claim id op → Q ((RequestEntry.inProgress op).line id)) :
    s'.dir.requests.Every Q ∧ ∀ x ∈ s'.requests, x ∈ s.requests ∨ Adds x c r ∧ Q (x.2.line x.1) := by
  cases c with
  | append l =>
    obtain ⟨rfl, rfl⟩ := Prod.ext_iff.mp (Option.some.inj h)
    obtain ⟨hown, ⟨⟨e, he⟩, hreq⟩ | ⟨hok, hreq⟩⟩ :=
      appendTracked_cases how (fun q hq => hl q (hq ▸ rfl)) ch.append
    · exact ⟨hown, fun x hx => .inl (hreq ▸ hx)⟩
    · refine ⟨hown, fun x hx => ?_⟩
      rw [hreq] at hx
      cases l with
      | operation rec => exact .inl hx
      | request l =>
        rcases mem_put hx with rfl | hx
        · exact .inr ⟨hok ▸ .line l rfl, hentry l (hl l rfl)⟩
        · exact .inl hx
  | claim id op =>
    obtain ⟨rfl, rfl⟩ := Prod.ext_iff.mp (Option.some.inj h)
    have hline : ∀ q, OperationStore.inProgressLine id op = .request q → Q q := by
      rintro _ ⟨⟩
      exact hclaim id op rfl
    obtain ⟨hown, hcases⟩ := appendTracked_cases how hline ch.append
    unfold OperationStore.claimLocked
    split
    · exact ⟨how, fun x hx => .inl hx⟩
    · split
      · rename_i heq
        rw [heq] at hown hcases
        refine ⟨hown, fun x hx => ?_⟩
        rcases hcases with ⟨⟨e, he⟩, -⟩ | ⟨-, hreq⟩
        · cases he
        · rw [hreq] at hx
          rcases mem_put hx with rfl | hx
          · exact .inr ⟨.claim id op _ rfl, hentry _ (hclaim id op rfl)⟩
          · exact .inl hx
      · rename_i heq
        rw [heq] at hown hcases
        refine ⟨hown, fun x hx => .inl ?_⟩
        rcases hcases with ⟨-, hreq⟩ | ⟨hok, -⟩
        · exact hreq ▸ hx
        · cases hok
  | prepare p =>
    obtain ⟨rfl, rfl⟩ := Prod.ext_iff.mp (Option.some.inj h)
    have hrecord : ∀ (x : AnyOperationRecord) q, LogLine.operation x = .request q → Q q := by
      rintro _ _ ⟨⟩
    obtain ⟨hown, hreq⟩ := every_appendLine how (hrecord (.prepared p)) ch.append
    unfold OperationStore.prepareLocked
    split
    · exact ⟨how, fun x hx => .inl hx⟩
    · rename_i s' heq
      rw [heq] at hown hreq
      obtain ⟨hown', hreq'⟩ := every_appendLine hown
        (hrecord (.aborted { operationId := p.operationId, timestampMs := ch.clock })) ch.withdrawal
      exact ⟨hown', fun x hx => .inl (hreq ▸ hreq' ▸ hx)⟩
    · rename_i s' heq
      rw [heq] at hown hreq
      exact ⟨hown, fun x hx => .inl (hreq ▸ hx)⟩
  | prune keep =>
    obtain ⟨rfl, rfl⟩ := Prod.ext_iff.mp (Option.some.inj h)
    refine ⟨every_prune how ht keep ch.prune, fun x hx => .inl ?_⟩
    rw [OperationStore.prune_requests] at hx
    exact (mem_keptRequests.mp hx).1
  | nextOperationId =>
    simp only [StoreCmd.exec, OperationStore.nextOperationId] at h
    split at h
    · cases h
      exact ⟨how, fun x hx => .inl hx⟩
    · cases h
  | _ => cases h; exact ⟨how, fun x hx => .inl hx⟩

/-! Own lines. -/

section

variable {d : LogDir} {s s' : OperationStore} {l : LogLine}

theorem ownLine_of_log (h : OwnLog l) : ∀ q, l = .request q → OwnLine q := by
  rintro q rfl
  exact h

theorem OwnLines.writeLine (h : OwnLines d) (hl : OwnLog l) : OwnLines (d.writeLine l) :=
  every_writeLine h (ownLine_of_log hl)

theorem OwnLines.writeCut (h : OwnLines d) (hl : OwnLog l) (c : Cut) : OwnLines (d.writeCut c l) :=
  every_writeCut h (ownLine_of_log hl) c

theorem own_appendLine (h : OwnLines s.dir) (hl : OwnLog l) (o : AppendOutcome) :
    OwnLines (s.appendLine o l).2.dir ∧ (s.appendLine o l).2.requests = s.requests :=
  every_appendLine h (ownLine_of_log hl) o

theorem own_pruneCut (how : OwnLines s.dir) (ht : ∀ x ∈ s.requests, OwnEntry x) (keep n : Nat) :
    OwnLines (s.pruneCut keep n) :=
  every_pruneCut how (fun x hx => ownLine_of_entry (ht x hx)) keep n

theorem own_exec {c : StoreCmd} {ch : StoreChoice} {r : c.Result} (h : c.exec ch s = some (r, s'))
    (how : OwnLines s.dir) (ht : ∀ x ∈ s.requests, OwnEntry x) (hl : ∀ l, c = .append l → OwnLog l) :
    OwnLines s'.dir ∧ ∀ x ∈ s'.requests, x ∈ s.requests ∨ Adds x c r := by
  obtain ⟨hdir, htable⟩ := every_exec h how (fun x hx => ownLine_of_entry (ht x hx))
    (fun q hq => ownLine_of_entry (ownEntry_of_line hq)) (fun _ hc => hl _ hc) fun _ _ _ => ownLine_of_none rfl
  exact ⟨hdir, fun x hx => (htable x hx).imp_right And.left⟩

end

end RemoteWorkspace
