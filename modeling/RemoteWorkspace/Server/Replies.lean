import RemoteWorkspace.Server.Requests
import RemoteWorkspace.Server.Sessions

/-!
# One reply for each request

Every handler that comes to its end has written one message, under the id of
its request, and one that does not come to its end has written no more. A
result among these messages is one whose terminal line is in `requests.jsonl`:
its append has returned `Ok`, or a session has begun with the line in the file.
-/

namespace RemoteWorkspace

open Interleave Keyed

/-! ## The request log of a start -/

section

variable {ws : Workspace} {sha256 : Sha256} {t : Tree} {b : Start} {limit : Option Nat} {d : LogDir}

theorem backed_serverNew {o : PruneOutcomes} {s : OperationStore} (hd : OwnLines d)
    (h : serverNew ws sha256 t b limit o d = .ok s) : Backed s := by
  unfold serverNew at h
  split at h
  · cases h
  · rename_i s₀ hs
    have hrec := backed_recover ws sha256 t b (Backed.of_new hd hs)
    split at h
    · cases h
    · rename_i r hr
      rw [hr] at hrec
      split at h
      · cases h
        exact hrec.1
      · rename_i keep
        have hp := hrec.1.prune keep o
        split at h
        · rename_i s' heq
          cases h
          rwa [heq] at hp
        · cases h

theorem own_foldl_writeLine {ls : List LogLine} (hl : ∀ l ∈ ls, OwnLog l) :
    ∀ {d : LogDir}, OwnLines d → OwnLines (ls.foldl LogDir.writeLine d) := by
  induction ls with
  | nil => exact fun h => h
  | cons l ls ih =>
    exact fun h => ih (fun l hl' => hl l (List.mem_cons_of_mem _ hl')) (h.writeLine (hl l (.head _)))

theorem own_repaired (hd : OwnLines d) (n : Nat) : OwnLines (d.repaired n) := by
  unfold LogDir.repaired
  split
  · exact hd
  · exact hd
  · exact LogFile.Every.repair hd

theorem own_recoveredLines (ws : Workspace) (sha256 : Sha256) (t : Tree) (b : Start) {s : OperationStore}
    (h : Backed s) : ∀ l ∈ recoveredLines ws sha256 t b s, OwnLog l := by
  have hrec := backed_recover ws sha256 t b h
  unfold recoveredLines
  split
  · rename_i r hr
    rw [hr] at hrec
    exact hrec.2
  · rename_i r e hr
    rw [hr] at hrec
    exact hrec.2

theorem own_startCut (hd : OwnLines d) (x : StartDeath) : OwnLines (startCut ws sha256 t b limit d x) := by
  cases x with
  | loading n => exact own_repaired hd n
  | recovering n c =>
    unfold startCut
    dsimp only
    split
    · exact hd
    · rename_i s hs
      have hb := Backed.of_new hd hs
      have hl := own_recoveredLines ws sha256 t b hb
      have hfold : OwnLines (((recoveredLines ws sha256 t b s).take n).foldl LogDir.writeLine s.dir) :=
        own_foldl_writeLine (fun l h => hl l (List.mem_of_mem_take h)) hb.own
      split
      · rename_i l hget
        exact hfold.writeCut (hl l (List.mem_of_getElem? hget)) c
      · exact hfold
  | pruning n =>
    unfold startCut
    dsimp only
    split
    · rename_i s keep hs
      have hrec := backed_recover ws sha256 t b (Backed.of_new hd hs)
      split
      · rename_i r hr
        rw [hr] at hrec
        exact own_pruneCut hrec.1.own (fun x hx => hrec.1.ownEntry hx) keep n
      · exact hd
    · exact hd

theorem own_startFailed (hd : OwnLines d) (o : PruneOutcomes) :
    OwnLines (startFailed ws sha256 t b limit o d) := by
  unfold startFailed
  split
  · split
    · exact own_repaired hd 1
    · exact hd
  · rename_i s hs
    have hrec := backed_recover ws sha256 t b (Backed.of_new hd hs)
    split
    · rename_i r e hr
      rw [hr] at hrec
      exact hrec.1.own
    · rename_i r hr
      rw [hr] at hrec
      split
      · exact hrec.1.own
      · exact (hrec.1.prune _ o).own

end

theorem own_dying {s : OperationStore} (h : OwnLines s.dir) (ht : ∀ x ∈ s.requests, OwnEntry x) {c : StoreCmd}
    (hc : ∀ l, c = .append l → OwnLog l) (x : StoreDeath) : OwnLines (c.dying x s) := by
  have hcut : ∀ {s : OperationStore} (l : LogLine), OwnLines s.dir → OwnLog l → OwnLines (s.appendCut x.cut l) := by
    intro s l h hl
    unfold OperationStore.appendCut
    split
    · exact h
    · exact h.writeCut hl _
  cases c with
  | append l => exact hcut l h (hc l rfl)
  | claim id op =>
    simp only [StoreCmd.dying]
    split
    · exact h
    · exact hcut (OperationStore.inProgressLine id op) h (ownLine_of_none rfl)
  | prepare p =>
    simp only [StoreCmd.dying]
    split
    · exact hcut (.operation _) (own_appendLine h (l := .operation (.prepared p)) trivial _).1 trivial
    · exact hcut (.operation _) h trivial
  | prune keep => exact own_pruneCut h ht keep _
  | _ => exact h

/-! ## What has been said -/

section

variable {server : Server}

abbrev Server.Moment (server : Server) : Type := Machine.Moment server.machine

variable (tr : List server.Moment)

/-- What the `n`-th handler has written. -/
def repliesOf (n : Nat) (tr : List server.Moment) : List ServerMessage :=
  tr.filterMap fun
    | .did k ⟨.reply m, _⟩ => if k = n then some m else none
    | _ => none

/-- The line has been appended to the request log with success, or a session
has begun with it there. -/
def InLog (l : RequestLogLine) : Prop :=
  (∃ n, .did n ⟨.store (.append (.request l)), .ok ()⟩ ∈ tr) ∨
    ∃ (s : ServerState) (ls : List RequestLogLine),
      .started s ∈ tr ∧ s.store.dir.requests.read = some ls ∧ l ∈ ls

theorem InLog.append {tr : List server.Moment} {l : RequestLogLine} (h : InLog tr l) (ms : List server.Moment) :
    InLog (tr ++ ms) l := by
  rcases h with ⟨n, h⟩ | ⟨s, ls, h, hls⟩
  · exact .inl ⟨n, List.mem_append_left _ h⟩
  · exact .inr ⟨s, ls, List.mem_append_left _ h, hls⟩

theorem repliesOf_append (n : Nat) (tr tr' : List server.Moment) :
    repliesOf n (tr ++ tr') = repliesOf n tr ++ repliesOf n tr' := List.filterMap_append

theorem repliesOf_reply (n k : Nat) (m : ServerMessage) :
    repliesOf n [(.did k ⟨.reply m, ()⟩ : server.Moment)] = if k = n then [m] else [] := by
  unfold repliesOf
  split <;> simp_all

theorem repliesOf_eq_nil {n : Nat} {tr : List server.Moment} (h : ∀ e, .did n e ∉ tr) : repliesOf n tr = [] := by
  refine List.filterMap_eq_nil_iff.mpr fun x hx => ?_
  split
  · rename_i k m u
    rw [if_neg]
    rintro rfl
    exact h _ hx
  · rfl

/-- A handler has written at most one message, under the id of its request. -/
def OnceEach : Prop := ∀ k q, .spawned k q ∈ tr →
  (repliesOf k tr).length ≤ 1 ∧ ∀ m ∈ repliesOf k tr, m.requestId = q.requestId

/-- Whenever a request of the table was answered with a result, its terminal
line was in the log by then. -/
def ResultsLogged : Prop := ∀ pre k m post, tr = pre ++ .did k ⟨.reply m, ()⟩ :: post →
  ∀ q, .spawned k q ∈ tr → q.body.persisted = true → ∀ id body, m = .result id body →
    InLog pre (terminalLine q.requestId m)

/-- What is true of a history in which `bound` handlers were started. -/
structure Proper (bound : Nat) : Prop where
  once : OnceEach tr
  results : ResultsLogged tr
  spawned : ∀ k q, .spawned k q ∈ tr → k < bound
  did : ∀ k e, .did k e ∈ tr → k < bound

/-- What a handler knows and has written at its stage. -/
def StageSays (k : Nat) (ℓ : ServerLocal) : Prop :=
  match ℓ.stage with
  | .asked => repliesOf k tr = []
  | .found e => repliesOf k tr = [] ∧ ∀ m, e.result = some (.done m) →
      m.requestId = ℓ.request.requestId ∧ InLog tr (terminalLine ℓ.request.requestId m)
  | .claimed => repliesOf k tr = []
  | .remembered m => repliesOf k tr = [] ∧
      m.requestId = ℓ.request.requestId ∧ InLog tr (terminalLine ℓ.request.requestId m)
  | .replied m => repliesOf k tr = [m]

/-- The results of a table are in the log. -/
def TableLogged (qs : Requests) : Prop :=
  ∀ x ∈ qs, OwnEntry x ∧ ∀ m, x.2.result = some (.done m) → InLog tr (terminalLine x.1 m)

/-- A server that runs the handlers `ctx`, the first of which is number `n`. -/
structure Live (s : ServerState) (ctx : List ServerLocal) (n : Nat) : Prop where
  proper : Proper tr (n + ctx.length)
  own : OwnLines s.store.dir
  table : TableLogged tr s.store.requests
  stages : ∀ (i : Nat) (ℓ : ServerLocal), ctx[i]? = some ℓ → StageSays tr (n + i) ℓ
  requests : ∀ (i : Nat) (ℓ : ServerLocal) (q : Request),
    ctx[i]? = some ℓ → .spawned (n + i) q ∈ tr → ℓ.request = q

variable {tr} {k n : Nat} {ℓ ℓ' : ServerLocal} {x : server.Moment}

/-- An answer that is allowed is the first, under the right id, and a result of
a persisted request only where its terminal line is in the log. -/
theorem StageSays.answer (h : StageSays tr k ℓ) {m : ServerMessage} (ha : ℓ.stage.allows ℓ.request m = true) :
    repliesOf k tr = [] ∧ m.requestId = ℓ.request.requestId ∧
      (ℓ.request.body.persisted = true → ∀ id body, m = .result id body →
        InLog tr (terminalLine ℓ.request.requestId m)) := by
  have herror : m.isErrorFor ℓ.request = true → m.requestId = ℓ.request.requestId ∧
      (ℓ.request.body.persisted = true → ∀ id body, m = .result id body →
        InLog tr (terminalLine ℓ.request.requestId m)) := by
    intro he
    cases m with
    | result id body => cases he
    | error id e =>
      refine ⟨of_decide_eq_true he, fun _ _ _ hm => ?_⟩
      cases hm
  obtain ⟨q, st, op⟩ := ℓ
  cases st with
  | asked =>
    refine ⟨h, ?_⟩
    simp only [Stage.allows, Bool.or_eq_true, Bool.and_eq_true, Bool.not_eq_true', decide_eq_true_eq] at ha
    rcases ha with he | ⟨hp, hid⟩
    · exact herror he
    · exact ⟨hid, fun hp' => by simp [hp] at hp'⟩
  | found e =>
    refine ⟨h.1, ?_⟩
    simp only [Stage.allows, Bool.or_eq_true, decide_eq_true_eq] at ha
    rcases ha with hd | he
    · exact ⟨(h.2 m hd).1, fun _ _ _ _ => (h.2 m hd).2⟩
    · exact herror he
  | claimed => exact ⟨h, herror ha⟩
  | remembered m' =>
    refine ⟨h.1, ?_⟩
    simp only [Stage.allows, Bool.or_eq_true, decide_eq_true_eq] at ha
    rcases ha with rfl | he
    · exact ⟨h.2.1, fun _ _ _ _ => h.2.2⟩
    · exact herror he
  | replied m' => cases ha

/-- A stage outlasts what others do. -/
theorem StageSays.later (h : StageSays tr k ℓ) (hx : repliesOf k [x] = []) : StageSays (tr ++ [x]) k ℓ := by
  have hrep : repliesOf k (tr ++ [x]) = repliesOf k tr := by rw [repliesOf_append, hx, List.append_nil]
  obtain ⟨q, st, op⟩ := ℓ
  unfold StageSays at h ⊢
  rw [hrep]
  cases st with
  | asked => exact h
  | found e => exact ⟨h.1, fun m hm => ⟨(h.2 m hm).1, (h.2 m hm).2.append _⟩⟩
  | claimed => exact h
  | remembered m => exact ⟨h.1, h.2.1, h.2.2.append _⟩
  | replied m => exact h

theorem TableLogged.later {qs : Requests} (h : TableLogged tr qs) (ms : List server.Moment) :
    TableLogged (tr ++ ms) qs :=
  fun y hy => ⟨(h y hy).1, fun m hm => ((h y hy).2 m hm).append ms⟩

/-- A moment is the last of a longer history, or of the history before. -/
theorem concat_eq_append {α : Type} {xs pre post : List α} {x y : α} (h : xs ++ [x] = pre ++ y :: post) :
    (pre = xs ∧ y = x) ∨ ∃ post', xs = pre ++ y :: post' := by
  rcases List.eq_nil_or_concat post with rfl | ⟨post', z, rfl⟩
  · obtain ⟨rfl, heq⟩ := List.append_inj' h rfl
    exact .inl ⟨rfl, (List.head_eq_of_cons_eq heq).symm⟩
  · rw [List.concat_eq_append, show pre ++ y :: (post' ++ [z]) = (pre ++ y :: post') ++ [z] by simp] at h
    obtain ⟨rfl, -⟩ := List.append_inj' h rfl
    exact .inr ⟨post', rfl⟩

/-- What is no answer keeps a history proper. -/
theorem Proper.later (h : Proper tr n) {bound : Nat} (hb : n ≤ bound) (hx : ∀ k, repliesOf k [x] = [])
    (hs : ∀ k q, x = .spawned k q → n ≤ k ∧ k < bound) (hd : ∀ k e, x = .did k e → k < bound) :
    Proper (tr ++ [x]) bound := by
  have hrep : ∀ k, repliesOf k (tr ++ [x]) = repliesOf k tr := fun k => by
    rw [repliesOf_append, hx, List.append_nil]
  have hsilent : ∀ k q, .spawned k q ∈ tr ++ [x] → .spawned k q ∈ tr ∨ n ≤ k := by
    intro k q hk
    rcases List.mem_append.mp hk with hk | hk
    · exact .inl hk
    · exact .inr (hs k q (List.mem_singleton.mp hk).symm).1
  constructor
  case once =>
    intro k q hk
    rw [hrep]
    rcases hsilent k q hk with hk | hk
    · exact h.once k q hk
    · have hnone : repliesOf k tr = [] := repliesOf_eq_nil fun e he => by
        have := h.did k e he
        omega
      simp [hnone]
  case results =>
    intro pre k m post heq q hk hp id body hm
    rcases concat_eq_append heq with ⟨-, rfl⟩ | ⟨post', rfl⟩
    · have := hx k
      rw [repliesOf_reply, if_pos rfl] at this
      cases this
    · rcases hsilent k q hk with hk | hk
      · exact h.results pre k m post' rfl q hk hp id body hm
      · have := h.did k _ (List.mem_append_right _ (.head _))
        omega
  case spawned =>
    intro k q hk
    rcases List.mem_append.mp hk with hk | hk
    · exact Nat.lt_of_lt_of_le (h.spawned k q hk) hb
    · exact (hs k q (List.mem_singleton.mp hk).symm).2
  case did =>
    intro k e hk
    rcases List.mem_append.mp hk with hk | hk
    · exact Nat.lt_of_lt_of_le (h.did k e hk) hb
    · exact hd k e (List.mem_singleton.mp hk).symm

/-- An answer keeps a history proper if it is the first of its handler, under
the right id, and a result only where its terminal line is in the log. -/
theorem Proper.reply (h : Proper tr n) {m : ServerMessage} (hk : k < n) (hnone : repliesOf k tr = [])
    (ha : ∀ q, .spawned k q ∈ tr → m.requestId = q.requestId ∧
      (q.body.persisted = true → ∀ id body, m = .result id body → InLog tr (terminalLine q.requestId m))) :
    Proper (tr ++ [.did k ⟨.reply m, ()⟩]) n := by
  have hspawned : ∀ j q, .spawned j q ∈ tr ++ [.did k ⟨.reply m, ()⟩] → .spawned j q ∈ tr := by
    intro j q hj
    rcases List.mem_append.mp hj with hj | hj
    · exact hj
    · cases List.mem_singleton.mp hj
  constructor
  case once =>
    intro j q hj
    have hj := hspawned j q hj
    rw [repliesOf_append, repliesOf_reply]
    split
    · rename_i heq
      subst heq
      rw [hnone]
      simpa using (ha q hj).1
    · rw [List.append_nil]
      exact h.once j q hj
  case results =>
    intro pre j m' post heq q hj hp id body hm
    have hj := hspawned j q hj
    rcases concat_eq_append heq with ⟨rfl, hy⟩ | ⟨post', rfl⟩
    · cases hy
      exact (ha q hj).2 hp id body hm
    · exact h.results pre j m' post' rfl q hj hp id body hm
  case spawned => exact fun j q hj => h.spawned j q (hspawned j q hj)
  case did =>
    intro j e hj
    rcases List.mem_append.mp hj with hj | hj
    · exact h.did j e hj
    · cases List.mem_singleton.mp hj
      exact hk

/-! ## Every session -/

/-- The files of a server that is down. -/
structure Resting (tr : List server.Moment) (f : ServerFiles) (n : Nat) : Prop where
  proper : Proper tr n
  own : OwnLines f.dir

theorem repliesOf_of_ne {k j : Nat} {e : Event ServerCmd ServerCmd.Result} (h : j ≠ k) :
    repliesOf k [(.did j e : server.Moment)] = [] := by
  refine repliesOf_eq_nil fun e' he => ?_
  cases List.mem_singleton.mp he
  exact h rfl

theorem repliesOf_of_command {k j : Nat} {c : ServerCmd} {r : c.Result} (h : ∀ m, c ≠ .reply m) :
    repliesOf k [(.did j ⟨c, r⟩ : server.Moment)] = [] := by
  refine List.filterMap_eq_nil_iff.mpr fun x hx => ?_
  cases List.mem_singleton.mp hx
  split
  · rename_i heq
    cases heq
    exact absurd rfl (h _)
  · rfl

/-- Only its own commands change the store. -/
theorem store_of_other {s s' : ServerState} {c : ServerCmd} {ch : ServerChoice} {r : c.Result}
    (hc : ∀ c', c ≠ .store c') (he : c.exec server.workspace server.sha256 ch s = some (r, s')) :
    s'.store = s.store := by
  cases c with
  | store c => exact absurd rfl (hc c)
  | acquire =>
    simp only [ServerCmd.exec] at he
    split at he <;> cases he
    rfl
  | fs c => cases he; rfl
  | uploads c => cases he; rfl
  | release => cases he; rfl
  | run _ _ _ _ => cases he; rfl
  | reply m => cases he; rfl

theorem exec_store {s s' : ServerState} {c : StoreCmd} {ch : ServerChoice} {r : c.Result}
    (he : (ServerCmd.store c).exec server.workspace server.sha256 ch s = some (r, s')) :
    c.exec ch.store s.store = some (r, s'.store) := by
  obtain ⟨⟨r', st⟩, hst, heq⟩ := Option.map_eq_some_iff.mp he
  cases heq
  exact hst

/-- A command keeps the log own and the table logged. -/
theorem table_exec {s s' : ServerState} {c : ServerCmd} {ch : ServerChoice} {r : c.Result}
    (how : OwnLines s.store.dir) (ht : TableLogged tr s.store.requests) (hn : serverNext ℓ c r = some ℓ')
    (he : c.exec server.workspace server.sha256 ch s = some (r, s')) (k : Nat) :
    OwnLines s'.store.dir ∧ TableLogged (tr ++ [.did k ⟨c, r⟩]) s'.store.requests := by
  by_cases hc : ∀ c', c ≠ .store c'
  · rw [store_of_other hc he]
    exact ⟨how, ht.later _⟩
  · simp only [ne_eq, not_forall, not_not] at hc
    obtain ⟨c', rfl⟩ := hc
    have hl : ∀ l, c' = .append l → OwnLog l := by
      rintro l rfl
      exact ownLog_of_next hn
    obtain ⟨how', hadds⟩ := own_exec (exec_store he) how (fun x hx => (ht x hx).1) hl
    refine ⟨how', fun x hx => ?_⟩
    rcases hadds x hx with hx | hx
    · exact ht.later _ x hx
    · cases hx with
      | claim id op r h =>
        have hnone : ∀ m, x.2.result ≠ some (.done m) := by simp [h]
        exact ⟨fun m hm => absurd hm (hnone m), fun m hm => absurd hm (hnone m)⟩
      | line l h =>
        subst h
        have hown : OwnLine l := hl _ rfl
        refine ⟨ownEntry_of_line hown, fun m hm => .inl ⟨k, ?_⟩⟩
        rw [← (hown m (resultDone_of_entry hm)).2]
        simp

theorem claimLocked_found {s : OperationStore} {o : AppendOutcome} {id op : String} {e : RequestEntry}
    (h : (s.claimLocked o id op).1 = .ok (some e)) : s.requests.lookup id = some e := by
  unfold OperationStore.claimLocked at h
  split at h
  · rename_i e' hl
    cases h
    exact hl
  · split at h <;> cases h

/-- The stage after a command that is no answer. -/
theorem StageSays.next {s s' : ServerState} {c : ServerCmd} {ch : ServerChoice} {r : c.Result}
    (ht : TableLogged tr s.store.requests) (h : StageSays tr k ℓ) (hc : ∀ m, c ≠ .reply m)
    (hn : serverNext ℓ c r = some ℓ') (he : c.exec server.workspace server.sha256 ch s = some (r, s')) :
    StageSays (tr ++ [.did k ⟨c, r⟩]) k ℓ' := by
  obtain ⟨hreq, hadv⟩ := advances_of_next hn
  obtain ⟨q, st', op'⟩ := ℓ'
  obtain ⟨q₀, st, op⟩ := ℓ
  cases hreq
  have hfound : ∀ {id : String} {e : RequestEntry}, s.store.requests.lookup id = some e →
      ∀ m, e.result = some (.done m) → m.requestId = id ∧ InLog tr (terminalLine id m) := by
    intro id e hl m hm
    obtain ⟨x, hx, rfl⟩ := Option.map_eq_some_iff.mp hl
    obtain ⟨hown, hlog⟩ := ht x (mem_of_get hx)
    exact key_of_get hx ▸ ⟨(hown m hm).1, hlog m hm⟩
  have hlater := h.later (repliesOf_of_command (j := k) (r := r) hc)
  cases hadv with
  | stays _ _ _ => exact hlater
  | looks e hs =>
    cases hs
    have hl : s.store.requests.lookup q.requestId = some e := congrArg Prod.fst (Option.some.inj (exec_store he))
    exact ⟨hlater, fun m hm => ⟨(hfound hl m hm).1, (hfound hl m hm).2.append _⟩⟩
  | finds e hs =>
    cases hs
    have hl := claimLocked_found (congrArg Prod.fst (Option.some.inj (exec_store he)))
    exact ⟨hlater, fun m hm => ⟨(hfound hl m hm).1, (hfound hl m hm).2.append _⟩⟩
  | claims hs =>
    cases hs
    exact hlater
  | remembers m hs hid =>
    cases hs
    exact ⟨hlater, hid, .inl ⟨k, by simp⟩⟩
  | replies m ha => exact absurd rfl (hc m)

theorem Live.exec {s s' : ServerState} {ctx : List ServerLocal} {i : Nat} {c : ServerCmd} {ch : ServerChoice}
    {r : c.Result} (h : Live tr s ctx n) (hi : ctx[i]? = some ℓ) (hn : serverNext ℓ c r = some ℓ')
    (he : c.exec server.workspace server.sha256 ch s = some (r, s')) :
    Live (tr ++ [.did (n + i) ⟨c, r⟩]) s' (ctx.set i ℓ') n := by
  obtain ⟨hreq, hadv⟩ := advances_of_next hn
  have hlt : i < ctx.length := (List.getElem?_eq_some_iff.mp hi).1
  have hsaid := h.stages i ℓ hi
  obtain ⟨how, htable⟩ := table_exec h.own h.table hn he (n + i)
  constructor
  case own => exact how
  case table => exact htable
  case proper =>
    rw [List.length_set]
    by_cases hc : ∀ m, c ≠ .reply m
    · refine h.proper.later (Nat.le_refl _) (fun k => repliesOf_of_command hc) (fun k q hx => by cases hx) ?_
      rintro k e ⟨⟩
      omega
    · simp only [ne_eq, not_forall, not_not] at hc
      obtain ⟨m, rfl⟩ := hc
      obtain ⟨hnone, hid, hlog⟩ := hsaid.answer (reply_of_next hn).1
      refine h.proper.reply (k := n + i) (by omega) hnone fun q hq => ?_
      obtain rfl := h.requests i ℓ q hi hq
      exact ⟨hid, hlog⟩
  case stages =>
    intro j ℓj hj
    rcases Machine.getElem?_set_cases hj with ⟨rfl, rfl⟩ | ⟨hji, hj⟩
    · by_cases hc : ∀ m, c ≠ .reply m
      · exact hsaid.next h.table hc hn he
      · simp only [ne_eq, not_forall, not_not] at hc
        obtain ⟨m, rfl⟩ := hc
        obtain ⟨ha, hstage⟩ := reply_of_next hn
        unfold StageSays
        rw [hstage]
        show repliesOf (n + j) (tr ++ _) = [m]
        rw [repliesOf_append, (hsaid.answer ha).1, repliesOf_reply, if_pos rfl, List.nil_append]
    · exact (h.stages j ℓj hj).later (repliesOf_of_ne (by omega))
  case requests =>
    intro j ℓj q hj hq
    have hold : .spawned (n + j) q ∈ tr := by
      rcases List.mem_append.mp hq with hq | hq
      · exact hq
      · cases List.mem_singleton.mp hq
    rcases Machine.getElem?_set_cases hj with ⟨rfl, rfl⟩ | ⟨-, hj⟩
    · rw [hreq]
      exact h.requests j ℓ q hi hold
    · exact h.requests j ℓj q hj hold

theorem Live.spawn {s : ServerState} {ctx : List ServerLocal} (h : Live tr s ctx n) (q : Request) :
    Live (tr ++ [.spawned (n + ctx.length) q]) s (ctx ++ [⟨q, .asked, .idle⟩]) n := by
  have hsilent : ∀ k, repliesOf k [(.spawned (n + ctx.length) q : server.Moment)] = [] := fun k => rfl
  have hlen : (ctx ++ [(⟨q, .asked, .idle⟩ : ServerLocal)]).length = ctx.length + 1 := by simp
  constructor
  case own => exact h.own
  case table => exact h.table.later _
  case proper =>
    rw [hlen]
    refine h.proper.later (by omega) hsilent (fun k q' hx => ?_) (fun k e hx => by cases hx)
    cases hx
    omega
  case stages =>
    intro i ℓ hi
    rcases Machine.getElem?_concat_cases hi with ⟨rfl, rfl⟩ | hi
    · show repliesOf _ (tr ++ _) = []
      rw [repliesOf_append, hsilent, List.append_nil]
      refine repliesOf_eq_nil fun e he => ?_
      exact absurd (h.proper.did _ e he) (by omega)
    · exact (h.stages i ℓ hi).later (hsilent _)
  case requests =>
    intro i ℓ q' hi hq
    rcases Machine.getElem?_concat_cases hi with ⟨rfl, rfl⟩ | hi
    · rcases List.mem_append.mp hq with hq | hq
      · exact absurd (h.proper.spawned _ q' hq) (by omega)
      · cases List.mem_singleton.mp hq
        rfl
    · have hlt : i < ctx.length := (List.getElem?_eq_some_iff.mp hi).1
      rcases List.mem_append.mp hq with hq | hq
      · exact h.requests i ℓ q' hi hq
      · have hk := Machine.Moment.spawned.inj (List.mem_singleton.mp hq)
        omega

/-- A moment of no handler. -/
theorem Proper.between (h : Proper tr n) (hs : ∀ k q, x ≠ .spawned k q) (hd : ∀ k e, x ≠ .did k e) :
    Proper (tr ++ [x]) n := by
  refine h.later (Nat.le_refl _) (fun k => ?_) (fun k q hx => absurd hx (hs k q)) fun k e hx => absurd hx (hd k e)
  exact repliesOf_eq_nil fun e he => hd k e (List.mem_singleton.mp he).symm

theorem Live.crash {s : ServerState} {ctx : List ServerLocal} (h : Live tr s ctx n) {c : Option ServerCmd}
    (hc : ∀ c', c = some c' → ∃ (j : Nat) (ℓ : ServerLocal), ctx[j]? = some ℓ ∧
      ∀ r, ∃ ℓ', serverNext ℓ c' r = some ℓ') (d : ServerDeath) :
    Resting (tr ++ [.crashed (server.dying d c s)]) (server.dying d c s) (n + ctx.length) := by
  refine ⟨h.proper.between (by simp) (by simp), ?_⟩
  have hown : ∀ x ∈ s.store.requests, OwnEntry x := fun x hx => (h.table x hx).1
  unfold Server.dying
  dsimp only
  split
  · rename_i c
    refine own_dying h.own hown (fun l hl => ?_) d.store
    obtain ⟨j, ℓ, -, hn⟩ := hc _ rfl
    subst hl
    obtain ⟨ℓ', hn⟩ := hn (.ok ())
    exact ownLog_of_next hn
  · exact h.own

theorem Resting.boot {f : ServerFiles} (h : Resting tr f n) (b : ServerStart) :
    match server.boot b f with
    | .inl f' => Resting (tr ++ [.failed f']) f' n
    | .inr s => Live (tr ++ [.started s]) s [] n := by
  have hfailed : ∀ {f' : ServerFiles}, OwnLines f'.dir → Resting (tr ++ [.failed f']) f' n :=
    fun ho => ⟨h.proper.between (by simp) (by simp), ho⟩
  unfold Server.boot
  cases b.dies with
  | some x => exact hfailed (own_startCut h.own x)
  | none =>
    dsimp only
    cases hnew : serverNew server.workspace server.sha256 f.tree b.start server.historyLimit b.prune f.dir with
    | error e => exact hfailed (own_startFailed h.own b.prune)
    | ok s =>
      have hs := backed_serverNew h.own hnew
      cases b.save with
      | notReplaced e => exact hfailed hs.own
      | unsynced e => exact hfailed hs.own
      | done =>
        refine ⟨h.proper.between (by simp) (by simp), hs.own, fun x hx => ⟨hs.ownEntry hx, fun m hm => ?_⟩, ?_, ?_⟩
        · obtain ⟨ls, hread, hl⟩ := hs.terminal hx hm
          exact .inr ⟨_, ls, List.mem_append_right _ (.head _), hread, hl⟩
        · rintro i ℓ ⟨⟩
        · rintro i ℓ q ⟨⟩

/-- The server tells the truth of its requests in every session. -/
theorem server_tells : Machine.Tells (M := server.machine) serverNext (fun q => ⟨q, .asked, .idle⟩)
    (fun ℓ => ∃ m, ℓ.stage = .replied m) (fun _ _ => true) Live Resting where
  prog q := (conforms_handle server q).mono fun _ _ h => h.2
  spawn := fun _ h => h.spawn _
  exec := fun _ h hi hn he => h.exec hi hn he
  crash := by
    rintro tr s d ts ctx n x i - h hc hd
    cases hd
    exact h.crash hc x
  bootUp := by
    rintro tr f s b n - h hb
    have hboot := h.boot b
    rw [Option.some.inj hb] at hboot
    exact hboot
  bootDown := by
    rintro tr f f' b n - h hb
    have hboot := h.boot b
    rw [Option.some.inj hb] at hboot
    exact hboot
  envUp := fun _ h => ⟨h.proper, h.own, h.table, h.stages, h.requests⟩
  envDown := fun _ h => ⟨h.proper, h.own⟩

/-- A handler that has ended: the `k`-th of all, in a world whose first is the
`n`-th. -/
def Ended (w : server.machine.World) (k : Nat) : Prop :=
  ∃ (s : ServerState) (ts : List (ServerProg Unit)) (n : Nat),
    w = .up s ts n ∧ n ≤ k ∧ ts[k - n]? = some (.pure ())

theorem told_of_fresh {t : Tree} {us : Uploads} {w : server.machine.World}
    (h : Machine.History (fun _ _ => true) (server.fresh t us) tr w) :
    Machine.Told serverNext (fun ℓ => ∃ m, ℓ.stage = .replied m) Live Resting tr w := by
  refine Machine.told_of_history server_tells ?_ h
  refine ⟨⟨?_, ?_, ?_, ?_⟩, LogFile.every_empty⟩
  · rintro k q ⟨⟩
  · intro pre k m post heq
    simp at heq
  · rintro k q ⟨⟩
  · rintro k e ⟨⟩

/-- In every run of a server, over any number of sessions, whatever fails in
it: a handler writes one message by its end, and never more, under the id of
its request; and it writes a result of a request of the table only where the
terminal line with that result has been appended to the request log with
success, or was in it when a session began. -/
theorem one_reply {t : Tree} {us : Uploads} {w : server.machine.World}
    (h : Machine.History (fun _ _ => true) (server.fresh t us) tr w) :
    (∀ k q, .spawned k q ∈ tr →
      (repliesOf k tr).length ≤ 1 ∧ (∀ m ∈ repliesOf k tr, m.requestId = q.requestId) ∧
        (Ended w k → (repliesOf k tr).length = 1)) ∧
    ∀ pre k m post, tr = pre ++ .did k ⟨.reply m, ()⟩ :: post →
      ∀ q, .spawned k q ∈ tr → q.body.persisted = true → ∀ id body, m = .result id body →
        InLog pre (terminalLine q.requestId m) := by
  have hw := told_of_fresh h
  cases w with
  | down d n =>
    have hp : Proper tr n := hw.proper
    refine ⟨fun k q hk => ⟨(hp.once k q hk).1, (hp.once k q hk).2, ?_⟩, hp.results⟩
    rintro ⟨s, ts, n, ⟨⟩, -⟩
  | up s ts n =>
    obtain ⟨ctx, hlive, hconf⟩ := hw
    have hp := hlive.proper
    refine ⟨fun k q hk => ⟨(hp.once k q hk).1, (hp.once k q hk).2, ?_⟩, hp.results⟩
    rintro ⟨_, _, _, ⟨⟩, hle, hend⟩
    obtain ⟨ℓ, hℓ, m, hm⟩ := Machine.conforms_of_getElem? hconf hend
    have hsaid := hlive.stages _ ℓ hℓ
    unfold StageSays at hsaid
    rw [hm, show n + (k - n) = k by omega] at hsaid
    rw [hsaid]
    rfl

end

/-! A result that was answered to a client whose line no append had reported:
the first session wrote it and could not sync the file, the second one loaded
it. -/

def downloadTold : Request := { requestId := "r", body := .downloadRecord "f" 2 "h" 5 }

/-- One step after the other of the `n`-th handler. -/
def stepsOf (n : Nat) (chs : List ServerChoice) : List homeServer.machine.Label := chs.map fun ch => .step n ch

def unsyncedResult : List homeServer.machine.Label :=
  .boot { start := plainStart } :: .spawn downloadTold :: stepsOf 0 (List.replicate 8 steady) ++
    stepsOf 0 [{ store := { append := .syncFails "EIO" } }, steady] ++
    [.crash { } none, .boot { start := plainStart }, .spawn downloadTold] ++ stepsOf 0 [steady, steady]

/-- Whether an append of the line returned `Ok`. -/
def reportedOk (l : RequestLogLine) : homeServer.Moment → Bool
  | .did _ ⟨.store (.append (.request l')), .ok _⟩ => l' = l
  | _ => false

theorem reportedOk_append (n : Nat) (l : RequestLogLine) :
    reportedOk l (.did n ⟨.store (.append (.request l)), .ok ()⟩) = true := by
  simp [reportedOk]

/-- Whether the last moment answers a result that no append had reported. -/
def answersUnreported (tr : List homeServer.Moment) : Bool :=
  match tr.getLast? with
  | some (.did _ ⟨.reply (.result id body), _⟩) =>
    tr.dropLast.all fun x => !reportedOk (terminalLine id (.result id body)) x
  | _ => false

theorem unreported_result_is_answered :
    ∃ tr w, Machine.History (fun _ _ => true) (homeServer.fresh homeTree []) tr w ∧
      ∃ pre k id body, tr = pre ++ [.did k ⟨.reply (.result id body), ()⟩] ∧
        ∀ n, .did n ⟨.store (.append (.request (terminalLine id (.result id body)))), .ok ()⟩ ∉ pre := by
  have h : ((Machine.historyOf (fun _ _ => true) (homeServer.fresh homeTree []) unsyncedResult).map
      fun p => answersUnreported p.1) = some true := by decide +kernel
  obtain ⟨⟨tr, w⟩, hrun, hans⟩ := Option.map_eq_some_iff.mp h
  refine ⟨tr, w, Machine.History.init.append hrun, ?_⟩
  simp only [answersUnreported] at hans
  split at hans
  · rename_i k id body u hlast
    obtain ⟨pre, rfl⟩ := List.getLast?_eq_some_iff.mp hlast
    refine ⟨pre, k, id, body, rfl, fun n hn => ?_⟩
    rw [List.dropLast_concat] at hans
    have := List.all_eq_true.mp hans _ hn
    rw [reportedOk_append] at this
    cases this
  · cases hans

theorem one_reply_downloadTold :
    ∃ tr w, Machine.History (fun _ _ => true) (homeServer.fresh homeTree []) tr w ∧ tr ≠ [] ∧
      ((∀ k q, .spawned k q ∈ tr →
        (repliesOf k tr).length ≤ 1 ∧ (∀ m ∈ repliesOf k tr, m.requestId = q.requestId) ∧
          (Ended w k → (repliesOf k tr).length = 1)) ∧
      ∀ pre k m post, tr = pre ++ .did k ⟨.reply m, ()⟩ :: post →
        ∀ q, .spawned k q ∈ tr → q.body.persisted = true → ∀ id body, m = .result id body →
          InLog pre (terminalLine q.requestId m)) := by
  have h : ((Machine.historyOf (fun _ _ => true) (homeServer.fresh homeTree []) unsyncedResult).map
      fun p => p.1.isEmpty) = some false := by decide +kernel
  obtain ⟨⟨tr, w⟩, hrun, hne⟩ := Option.map_eq_some_iff.mp h
  have hhist := Machine.History.init.append hrun
  refine ⟨tr, w, hhist, ?_, one_reply hhist⟩
  rintro rfl
  cases hne

end RemoteWorkspace
