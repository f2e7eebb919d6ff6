import RemoteWorkspace.Client.Sends

/-!
# Closing a serial connection

What the calls that wait for their turn get when the connection closes. The
drain empties `reply_map` once; a call that gets its turn later puts an entry
there again, and of its ways out only the one that finds `stdin` gone takes the
entry away. So the permit goes on from call to call just as long as every such
call finds `stdin` gone, and `a_write_after_the_drain_keeps_the_permit` shows a
call that does not.
-/

namespace RemoteWorkspace

section

variable {Msg : Type} {reqId : Nat → RequestId} {line : Nat → List UInt8} {F : ReplyFormat Msg}

variable (reqId) in
/-- A call with an entry in `reply_map` after the drain does not get hold of
`stdin`, and its caller does not drop it. -/
def findsStdinTaken (i : Nat) (step : SendStep) (c : Link Msg) (_ : SendPhase Msg) : Bool :=
  !(c.reader.isDrained && c.has (reqId i) && (step = .lockStdin && c.stdin || step = .cancel))

/-- The steps by which a call that has begun goes on. -/
def SendStep.goesOn : SendStep → Bool
  | .start | .timeout | .cancel => false
  | _ => true

/-- No deadline passes, and no caller drops its call. -/
def unhurried : Crew.Label SendStep LinkEvent → Prop
  | .act _ step => step ≠ .timeout ∧ step ≠ .cancel
  | .env _ => True

variable (line) in
/-- A bound on the steps that call `i` still takes. -/
def SendPhase.left (i : Nat) : SendPhase Msg → Nat
  | .idle => (line i).length + 7
  | .queued => (line i).length + 6
  | .granted _ => (line i).length + 5
  | .entered => (line i).length + 4
  | .writing rest => rest.length + 3
  | .refused | .waiting => 2
  | .answered _ | .closing => 1
  | .ended _ => 0

theorem left_take (i : Nat) (r : Reply Msg) : (SendPhase.take r).left line i ≤ 1 := by
  cases r <;> simp [SendPhase.take, SendPhase.left, SendPhase.fail]

theorem left_lt {i : Nat} {step : SendStep} {c c' : Link Msg} {p p' : SendPhase Msg}
    (hmove : SendMove reqId line i c step p c' p') : p'.left line i < p.left line i := by
  cases hmove with
  | reply r | lastReply r => exact Nat.lt_succ_of_le (left_take i r)
  | put n rest hn hle =>
    simp only [SendPhase.left, List.length_drop]
    omega
  | cancel _ hidle hgranted hended =>
    cases p with
    | ended r => exact absurd rfl (hended r)
    | _ => simp [SendPhase.left]
  | _ => simp [SendPhase.left, SendPhase.fail]

theorem not_move_of_ended {i : Nat} {step : SendStep} {c c' : Link Msg} {p' : SendPhase Msg}
    {r : Option (Except ClientError (RequestId × Msg))} : ¬ SendMove reqId line i c step (.ended r) c' p' := fun hmove =>
  absurd (left_lt hmove) (Nat.not_lt_zero _)

theorem send_ended (i : Nat) (step : SendStep) (c : Link Msg) (r : Option (Except ClientError (RequestId × Msg))) :
    Client.send reqId line i step c (.ended r) = none :=
  Option.eq_none_iff_forall_ne_some.mpr fun _ h => not_move_of_ended (send_moves h)

theorem send_idle (i : Nat) {step : SendStep} (hstep : step.goesOn = true) (c : Link Msg) :
    Client.send reqId line i step c .idle = none := by
  refine Option.eq_none_iff_forall_ne_some.mpr ?_
  rintro ⟨c', p'⟩ h
  cases send_moves h with
  | refuse | start => cases hstep
  | cancel _ hidle => exact hidle rfl

/-! ## The lock of `stdin` -/

def SendPhase.hasLock : SendPhase Msg → Bool
  | .writing _ | .refused | .closing => true
  | _ => false

theorem lock_move {i : Nat} {step : SendStep} {c c' : Link Msg} {p p' : SendPhase Msg}
    (hmove : SendMove reqId line i c step p c' p') (h : c.stdinLock = some i → p.hasLock = true) :
    (c'.stdinLock = some i → p'.hasLock = true) ∧ ∀ j, j ≠ i → c'.stdinLock = some j → c.stdinLock = some j := by
  have hreleased : release i c.stdinLock = some i → p'.hasLock = true := fun heq => absurd heq (release_ne i c.stdinLock)
  have hrelease : ∀ j, release i c.stdinLock = some j → c.stdinLock = some j := fun j hj => by
    unfold release at hj
    split at hj
    · cases hj
    · exact hj
  cases hmove with
  | lock | lockGone => exact ⟨fun _ => rfl, fun j hj heq => absurd (Option.some.inj heq).symm hj⟩
  | flushed | failWrite | explain | cancel => exact ⟨hreleased, fun j _ => hrelease j⟩
  | insert =>
    have hlock : ∀ p, (c.toClient.insert (reqId i) p).stdinLock = c.stdinLock := fun p => stdinLock_remove ..
    exact ⟨fun heq => h ((hlock _).symm.trans heq), fun j _ heq => (hlock _).symm.trans heq⟩
  | remove => exact ⟨fun _ => rfl, fun j _ heq => (stdinLock_remove ..).symm.trans heq⟩
  | giveUp =>
    exact ⟨fun heq => h ((stdinLock_remove ..).symm.trans heq), fun j _ heq => (stdinLock_remove ..).symm.trans heq⟩
  | refuse | breakPipe | put | dropped | notice => exact ⟨fun _ => rfl, fun _ _ => id⟩
  | reply r | lastReply r => exact ⟨fun heq => absurd (h heq) (by simp [SendPhase.hasLock]), fun _ _ => id⟩
  | _ => exact ⟨h, fun _ _ => id⟩

theorem lock_reader {e : LinkEvent} {c c' : Link Msg} (hmove : ReaderMove reqId F c e c') :
    c'.stdinLock = c.stdinLock := by
  cases hmove with
  | deliver =>
    unfold Link.deliver
    split
    · exact stdinLock_remove ..
    · rfl
  | _ => rfl

/-! ## Who takes entries away -/

/-- A call takes away its own entry only. -/
theorem has_move (hids : Function.Injective reqId) {i j : Nat} {step : SendStep} {c c' : Link Msg}
    {p p' : SendPhase Msg} (hmove : SendMove reqId line i c step p c' p') (hj : j ≠ i) :
    c'.has (reqId j) = c.has (reqId j) := by
  have hne : reqId j ≠ reqId i := fun heq => hj (hids heq)
  cases hmove with
  | insert => simp [has_insert, hne]
  | remove | giveUp => simp [has_remove, hne]
  | _ => rfl

theorem drained_move {i : Nat} {step : SendStep} {c c' : Link Msg} {p p' : SendPhase Msg}
    (hmove : SendMove reqId line i c step p c' p') : c'.reader = c.reader := by
  cases hmove <;> rfl

/-- After the drain the reader does nothing more to `reply_map`. -/
theorem reader_drained {e : LinkEvent} {c c' : Link Msg} (hmove : ReaderMove reqId F c e c')
    (hd : c.reader.isDrained = true) : c'.reader.isDrained = true ∧ c'.toClient.replyMap = c.replyMap := by
  cases hmove with
  | blank _ hreader | names _ _ _ hreader | pass _ hreader | deliver _ _ _ hreader | close hreader | drain hreader =>
    rw [hreader] at hd
    cases hd
  | stop hnot =>
    rw [hnot] at hd
    cases hd
  | notify => exact ⟨rfl, rfl⟩
  | takeStdin => exact ⟨hd, rfl⟩

theorem has_of_replyMap {c c' : Client} (h : c'.replyMap = c.replyMap) (rid : RequestId) : c'.has rid = c.has rid := by
  rw [Client.has, h, Client.has]

variable (reqId F) in
/-- An entry that call `i` left behind after the drain has the permit, and call
`j` still waits for its turn or has given up. -/
structure Leftover (i j : Nat) (r : Option (Except ClientError (RequestId × Msg)))
    (w : Crew.World (Link Msg) (SendPhase Msg)) : Prop where
  turn : InTurn reqId F w
  drained : w.shared.reader.isDrained = true
  left : w.party i = .ended r
  has : w.shared.has (reqId i) = true
  waits : w.party j = .queued ∨ w.party j = .ended none ∨ w.party j = .fail .timeout

/-- While an entry has the permit there is none for a call that waits. -/
theorem waits_of_leftover {i j : Nat} {r : Option (Except ClientError (RequestId × Msg))}
    {w : Crew.World (Link Msg) (SendPhase Msg)} (h : Leftover reqId F i j r w) {step : SendStep} {c : Link Msg}
    {p : SendPhase Msg} (hmove : SendMove reqId line j w.shared step (w.party j) c p) :
    p = .queued ∨ p = .ended none ∨ p = .fail .timeout := by
  rcases h.waits with hj | hj | hj
  · rw [hj] at hmove
    cases hmove with
    | expire => exact .inr (.inr rfl)
    | cancel => exact .inr (.inl rfl)
    | unlimited hserial => exact absurd h.turn.serial (by simp [hserial])
    | acquire n hserial =>
      have hhas := h.has
      obtain ⟨place, hplace, -⟩ := h.turn.permit
      cases place with
      | free | call => simp [Client.has, hplace.2] at hhas
      | entry => simp [hplace.1] at hserial
  · rw [hj] at hmove
    exact (not_move_of_ended hmove).elim
  · rw [hj] at hmove
    exact (not_move_of_ended hmove).elim

theorem Leftover.move (hids : Function.Injective reqId) {i j : Nat}
    {r : Option (Except ClientError (RequestId × Msg))} {w : Crew.World (Link Msg) (SendPhase Msg)}
    (h : Leftover reqId F i j r w) {k : Nat} {step : SendStep} {c : Link Msg} {p : SendPhase Msg}
    (hmove : SendMove reqId line k w.shared step (w.party k) c p) :
    Leftover reqId F i j r ⟨c, Function.update w.party k p⟩ := by
  have hki : i ≠ k := by
    rintro rfl
    rw [h.left] at hmove
    exact not_move_of_ended hmove
  refine ⟨h.turn.move hids hmove, ?_, (Function.update_of_ne hki ..).trans h.left,
    (has_move hids hmove hki).trans h.has, ?_⟩
  · rw [drained_move hmove]
    exact h.drained
  · dsimp only
    by_cases hkj : j = k
    · subst hkj
      rw [Function.update_self]
      exact waits_of_leftover h hmove
    · rw [Function.update_of_ne hkj]
      exact h.waits

/-- An entry that a call leaves behind after the drain stays, and nobody gets a
turn any more. -/
theorem stuck_of_leftover (hids : Function.Injective reqId) {w w' : Crew.World (Link Msg) (SendPhase Msg)}
    (hw : InTurn reqId F w) (hd : w.shared.reader.isDrained = true) {i j : Nat}
    {r : Option (Except ClientError (RequestId × Msg))} (hi : w.party i = .ended r)
    (hhas : w.shared.has (reqId i) = true) (hj : w.party j = .queued)
    (hrun : Crew.Run (senders reqId line F) (fun _ => True) w w') :
    w'.party j = .queued ∨ w'.party j = .ended none ∨ w'.party j = .fail .timeout := by
  have hstart : Leftover reqId F i j r w := ⟨hw, hd, hi, hhas, .inl hj⟩
  have hall : Leftover reqId F i j r w' := by
    refine hrun.inv hstart ?_ ?_
    · intro w k step c p h _ hact
      exact h.move hids (send_moves hact)
    · intro w e c h _ henv
      have hmove := reader_moves henv
      obtain ⟨hd', hmap⟩ := reader_drained hmove h.drained
      exact ⟨h.turn.read hids hmove, hd', h.left, (has_of_replyMap hmap _).trans h.has, h.waits⟩
  exact hall.waits

/-! ## Every call that has its turn late -/

/-- A call with an entry that has not got hold of `stdin`. -/
def SendPhase.inside : SendPhase Msg → Bool
  | .entered | .refused => true
  | _ => false

variable (reqId) in
/-- After the drain, each entry is of a call that is about to take it away. -/
structure Clearing (w : Crew.World (Link Msg) (SendPhase Msg)) : Prop where
  inside : w.shared.reader.isDrained = true → ∀ rid, w.shared.has rid = true →
    ∃ i, reqId i = rid ∧ (w.party i).inside = true
  lock : ∀ i, w.shared.stdinLock = some i → (w.party i).hasLock = true

theorem has_move_of_has {i : Nat} {step : SendStep} {c c' : Link Msg} {p p' : SendPhase Msg}
    (hmove : SendMove reqId line i c step p c' p') {rid : RequestId} (h : c'.has rid = true) :
    c.has rid = true ∨ p' = .entered ∧ rid = reqId i := by
  cases hmove with
  | insert =>
    simp only [has_insert, Bool.or_eq_true, decide_eq_true_eq] at h
    exact h.symm.imp id fun hrid => ⟨rfl, hrid⟩
  | remove | giveUp =>
    simp only [has_remove, Bool.and_eq_true] at h
    exact .inl h.2
  | _ => exact .inl h

/-- A call with an entry after the drain stays about to take it away, or takes
it away. -/
theorem inside_move {i : Nat} {step : SendStep} {c c' : Link Msg} {p p' : SendPhase Msg}
    (hmove : SendMove reqId line i c step p c' p') (hd : c.reader.isDrained = true)
    (hok : findsStdinTaken reqId i step c p = true) (hp : p.inside = true) (hhas : c'.has (reqId i) = true) :
    p'.inside = true := by
  have hother : ∀ c₁ : Link Msg, c₁.toClient.replyMap = c.replyMap → c₁.has (reqId i) = true →
      c.has (reqId i) = true := fun c₁ heq h => (has_of_replyMap heq _).symm.trans h
  cases hmove with
  | lock _ hstdin =>
    have hc := hother _ rfl hhas
    simp [findsStdinTaken, hd, hc, hstdin] at hok
  | lockGone => rfl
  | remove => simp [has_remove] at hhas
  | cancel =>
    have hc := hother _ rfl hhas
    simp [findsStdinTaken, hd, hc] at hok
  | _ => cases hp

theorem Clearing.move {w : Crew.World (Link Msg) (SendPhase Msg)}
    (h : Clearing reqId w) {i : Nat} {step : SendStep} {c : Link Msg} {p : SendPhase Msg}
    (hmove : SendMove reqId line i w.shared step (w.party i) c p)
    (hok : findsStdinTaken reqId i step w.shared (w.party i) = true) :
    Clearing reqId ⟨c, Function.update w.party i p⟩ where
  inside hd rid hrid := by
    have hd' : w.shared.reader.isDrained = true := by
      rw [← drained_move hmove]
      exact hd
    rcases has_move_of_has hmove hrid with hrid' | ⟨hp, rfl⟩
    · obtain ⟨k, rfl, hk⟩ := h.inside hd' rid hrid'
      refine ⟨k, rfl, ?_⟩
      dsimp only
      by_cases hki : k = i
      · subst hki
        rw [Function.update_self]
        exact inside_move hmove hd' hok hk hrid
      · rw [Function.update_of_ne hki]
        exact hk
    · refine ⟨i, rfl, ?_⟩
      dsimp only
      rw [Function.update_self, hp]
      rfl
  lock := by
    obtain ⟨hi, hothers⟩ := lock_move hmove (h.lock i)
    exact Crew.forall_update (P := fun j (q : SendPhase Msg) => c.stdinLock = some j → q.hasLock = true) hi
      fun j hj hlock => h.lock j (hothers j hj hlock)

theorem Clearing.read {w : Crew.World (Link Msg) (SendPhase Msg)} (h : Clearing reqId w) {e : LinkEvent} {c : Link Msg}
    (hmove : ReaderMove reqId F w.shared e c) : Clearing reqId ⟨c, w.party⟩ where
  inside hd rid hrid := by
    by_cases hd' : w.shared.reader.isDrained = true
    · exact h.inside hd' rid ((has_of_replyMap (reader_drained hmove hd').2 rid).symm.trans hrid)
    · -- The drain leaves nothing.
      cases hmove with
      | drain => cases hrid
      | notify hreader =>
        rw [hreader] at hd'
        exact absurd rfl hd'
      | takeStdin => exact absurd hd hd'
      | _ => cases hd
  lock i hlock := h.lock i ((lock_reader hmove).symm.trans hlock)

theorem clearing_of_run {w : Crew.World (Link Msg) (SendPhase Msg)}
    (hrun : Crew.Run ((senders reqId line F).under (findsStdinTaken reqId)) (fun _ => True) (connected Msg true) w) :
    Clearing reqId w := by
  refine hrun.inv ⟨fun hd => (by cases hd), fun _ h => (by cases h)⟩ ?_ ?_
  · intro w i step c p h _ hact
    obtain ⟨hok, hsend⟩ := Crew.under_act.mp hact
    exact h.move (send_moves hsend) hok
  · intro w e c h _ henv
    exact h.read (reader_moves henv)

/-- How far a call has come that was queued at the drain. -/
def SendPhase.Late (reqId : Nat → RequestId) (i : Nat) (c : Link Msg) : SendPhase Msg → Prop
  | .queued | .granted _ | .refused | .closing => True
  | .entered => c.has (reqId i) = true
  | .ended r => ∃ tail, r = some (.error (closedError tail))
  | .idle | .writing _ | .waiting | .answered _ => False

theorem late_move {i : Nat} {step : SendStep} {c c' : Link Msg} {p p' : SendPhase Msg}
    (hmove : SendMove reqId line i c step p c' p') (hd : c.reader.isDrained = true)
    (hok : findsStdinTaken reqId i step c p = true) (hstep : step ≠ .timeout ∧ step ≠ .cancel)
    (hp : p.Late reqId i c) : p'.Late reqId i c' := by
  cases hmove with
  | unlimited | acquire | remove => trivial
  | insert => simp [SendPhase.Late, has_insert]
  | lock _ hstdin => simp [findsStdinTaken, hd, show c.has (reqId i) = true from hp, hstdin] at hok
  | lockGone => trivial
  | explain tail => exact ⟨tail, rfl⟩
  | expire => exact absurd rfl hstep.1
  | cancelGranted | cancel => exact absurd rfl hstep.2
  | _ => exact hp.elim

theorem SendPhase.Late.frame {i : Nat} {c c' : Link Msg} {p : SendPhase Msg} (h : p.Late reqId i c)
    (hhas : c'.has (reqId i) = c.has (reqId i)) : p.Late reqId i c' := by
  cases p with
  | entered => exact hhas.trans h
  | _ => exact h

/-- A call that was queued at the drain ends with the close. -/
theorem late_of_run (hids : Function.Injective reqId) {w w' : Crew.World (Link Msg) (SendPhase Msg)} {i : Nat}
    (hd : w.shared.reader.isDrained = true) (hi : w.party i = .queued)
    (hrun : Crew.Run ((senders reqId line F).under (findsStdinTaken reqId)) unhurried w w') :
    w'.shared.reader.isDrained = true ∧ (w'.party i).Late reqId i w'.shared := by
  refine hrun.inv (I := fun w' => w'.shared.reader.isDrained = true ∧ (w'.party i).Late reqId i w'.shared)
    ⟨hd, by rw [hi]; trivial⟩ ?_ ?_
  · rintro w' k step c p ⟨hd, hlate⟩ hstep hact
    obtain ⟨hok, hsend⟩ := Crew.under_act.mp hact
    have hmove := send_moves hsend
    refine ⟨by rw [drained_move hmove]; exact hd, ?_⟩
    dsimp only
    by_cases hki : i = k
    · subst hki
      rw [Function.update_self]
      exact late_move hmove hd hok hstep hlate
    · rw [Function.update_of_ne hki]
      exact hlate.frame (has_move hids hmove hki)
  · rintro w' e c ⟨hd, hlate⟩ - henv
    obtain ⟨hd', hmap⟩ := reader_drained (reader_moves (F := F) henv) hd
    exact ⟨hd', hlate.frame (has_of_replyMap hmap _)⟩

/-- Where no call can go on, none is on its way. -/
theorem not_on_the_way {w : Crew.World (Link Msg) (SendPhase Msg)} (hturn : InTurn reqId F w)
    (hclear : Clearing reqId w) (hd : w.shared.reader.isDrained = true)
    (hrest : ∀ j step, step.goesOn = true → Client.send reqId line j step w.shared (w.party j) = none) {i : Nat}
    (hlate : (w.party i).Late reqId i w.shared) : ∃ tail, w.party i = .fail (closedError tail) := by
  have hstuck : ∀ {j} {p : SendPhase Msg} step, step.goesOn = true → w.party j = p →
      Client.send reqId line j step w.shared p = none := by
    rintro j _ step hstep rfl
    exact hrest j step hstep
  have hgranted : ∀ j slot, w.party j ≠ .granted slot := fun j slot hj => nomatch hstuck .insert rfl hj
  have hrefused : ∀ j, w.party j ≠ .refused := fun j hj => nomatch hstuck .remove rfl hj
  have hclosing : ∀ j, w.party j ≠ .closing := fun j hj => nomatch hstuck (.explain "") rfl hj
  have hwriting : ∀ j rest, w.party j ≠ .writing rest := fun j rest hj => nomatch hstuck (.fail none) rfl hj
  have hlock : w.shared.stdinLock = none := by
    cases h : w.shared.stdinLock with
    | none => rfl
    | some k =>
      have hk := hclear.lock k h
      cases hp : w.party k with
      | writing rest => exact absurd hp (hwriting k rest)
      | refused => exact absurd hp (hrefused k)
      | closing => exact absurd hp (hclosing k)
      | _ =>
        rw [hp] at hk
        cases hk
  have hentered : ∀ j, w.party j ≠ .entered := fun j hj => by
    have hnone := hstuck .lockStdin rfl hj
    rw [Client.send, if_pos hlock] at hnone
    cases hnone
  -- So the permit is back with the semaphore.
  have hfree : w.shared.serial = some 1 := by
    obtain ⟨place, hplace, hknows⟩ := hturn.permit
    cases place with
    | free => exact hplace.1
    | call k =>
      have hk := hknows k
      cases hp : w.party k with
      | granted slot => exact absurd hp (hgranted k slot)
      | _ =>
        rw [hp] at hk
        exact absurd rfl hk
    | entry rid =>
      obtain ⟨k, -, hk⟩ := hclear.inside hd rid (by simp [Client.has, hplace.2, Keyed.get_cons])
      cases hp : w.party k with
      | entered => exact absurd hp (hentered k)
      | refused => exact absurd hp (hrefused k)
      | _ =>
        rw [hp] at hk
        cases hk
  cases hp : w.party i with
  | queued =>
    have hnone := hstuck .acquire rfl hp
    rw [Client.send, hfree] at hnone
    cases hnone
  | granted slot => exact absurd hp (hgranted i slot)
  | entered => exact absurd hp (hentered i)
  | refused => exact absurd hp (hrefused i)
  | closing => exact absurd hp (hclosing i)
  | ended r =>
    rw [hp] at hlate
    obtain ⟨tail, rfl⟩ := hlate
    exact ⟨tail, rfl⟩
  | idle | writing | waiting | answered =>
    rw [hp] at hlate
    exact hlate.elim

/-- In a run where every call that puts its entry into `reply_map` after the
drain finds `stdin` gone: no call leaves an entry behind the drain; a call that
is queued then ends with the close, once no call can go on; and that comes, as
each call takes finitely many steps. -/
theorem close_releases_the_queue (hids : Function.Injective reqId) {w : Crew.World (Link Msg) (SendPhase Msg)}
    (hrun : Crew.Run ((senders reqId line F).under (findsStdinTaken reqId)) (fun _ => True) (connected Msg true) w)
    (hd : w.shared.reader.isDrained = true) :
    (∀ i r, w.party i = .ended r → w.shared.has (reqId i) = false) ∧
    (∀ i w', w.party i = .queued →
      Crew.Run ((senders reqId line F).under (findsStdinTaken reqId)) unhurried w w' →
      (∀ j step, step.goesOn = true → Client.send reqId line j step w'.shared (w'.party j) = none) →
      ∃ e, w'.party i = .fail e ∧ ((∃ detail, e = .closed detail) ∨ ∃ kind, e = .io kind)) ∧
    ∀ i step c p, Client.send reqId line i step w.shared (w.party i) = some (c, p) →
      p.left line i < (w.party i).left line i := by
  refine ⟨fun i r hi => ?_, fun i w' hi hrun' hrest => ?_, fun i step c p hsend => left_lt (send_moves hsend)⟩
  · by_contra hhas
    obtain ⟨k, hk, hinside⟩ := (clearing_of_run hrun).inside hd (reqId i) (by simpa using hhas)
    rw [hids hk, hi] at hinside
    cases hinside
  · obtain ⟨hd', hlate⟩ := late_of_run hids hd hi hrun'
    have hall := hrun.trans (hrun'.mono fun _ _ => trivial)
    obtain ⟨tail, htail⟩ := not_on_the_way (inTurn_of_run hids hall.of_under) (clearing_of_run hall) hd' hrest hlate
    exact ⟨_, htail, .inl ⟨_, rfl⟩⟩

end

/-- The reader's end, with one request on the wire and `waiting` queued. -/
def endOfReader (waiting : List Nat) : List (Crew.Label SendStep LinkEvent) :=
  sendTurn 0 ++ [.act 0 (.put 65), .act 0 .flushed] ++ waiting.map (.act · .start) ++
    [.env .stop, .env .close, .env .drain, .env .notify, .act 0 .reply, .act 0 (.explain "")]

def lateTurn (i : Nat) : List (Crew.Label SendStep LinkEvent) := [.act i .acquire, .act i .insert, .act i .lockStdin]

theorem close_releases_the_queue_taken : ∃ w w',
    w.shared.reader.isDrained = true ∧ w.party 1 = .queued ∧
      Crew.Run ((senders countedId statusLine errorFormat).under (findsStdinTaken countedId)) unhurried w w' ∧
      w.shared.has (countedId 0) = false ∧ ∃ e, w'.party 1 = .fail e := by
  obtain ⟨w, hw⟩ : ∃ w, Crew.steps ((senders countedId statusLine errorFormat).under (findsStdinTaken countedId))
      (connected ServerMessage true) (endOfReader [1] ++ [.env .takeStdin]) = some w := ⟨_, rfl⟩
  have hrun : Crew.Run _ (fun _ => True) _ _ := Crew.run_of_steps (fun _ _ => trivial) hw
  obtain ⟨w', hw'⟩ : ∃ w', Crew.steps ((senders countedId statusLine errorFormat).under (findsStdinTaken countedId)) w
      (lateTurn 1 ++ [.act 1 .remove, .act 1 (.explain "")]) = some w' := by
    obtain rfl := Option.some.inj (Eq.trans rfl hw)
    exact ⟨_, rfl⟩
  have hrun' : Crew.Run _ unhurried _ _ := Crew.run_of_steps (by simp [unhurried, lateTurn]) hw'
  obtain rfl := Option.some.inj (Eq.trans rfl hw)
  obtain rfl := Option.some.inj (Eq.trans rfl hw')
  have h := close_releases_the_queue countedId_injective hrun rfl
  obtain ⟨e, he, -⟩ := h.2.1 1 _ rfl hrun' fun j step hstep => by
    match j with
    | 0 | 1 => exact send_ended ..
    | j + 2 => exact send_idle _ hstep _
  exact ⟨_, _, rfl, rfl, hrun', h.1 0 _ rfl, e, he⟩

/-- Three calls and a far end that dies. The second one gets its turn after the
drain and its write fails: it returns that the connection is closed, and its
entry keeps the permit, so the third one can only run into its deadline. -/
theorem a_write_after_the_drain_keeps_the_permit : ∃ w,
    Crew.Run (senders countedId statusLine errorFormat) unhurried (connected ServerMessage true) w ∧
      w.shared.reader = .notified ∧ w.shared.replyMap = [(countedId 1, ⟨true⟩)] ∧
      w.party 1 = .fail (.closed "") ∧ w.party 2 = .queued ∧
      ∀ w', Crew.Run (senders countedId statusLine errorFormat) (fun _ => True) w w' →
        w'.party 2 = .queued ∨ w'.party 2 = .ended none ∨ w'.party 2 = .fail .timeout := by
  obtain ⟨w, hw⟩ : ∃ w, Crew.steps (senders countedId statusLine errorFormat) (connected ServerMessage true)
      (endOfReader [1, 2] ++ lateTurn 1 ++ [.act 1 (.fail none), .act 1 (.explain "")]) = some w := ⟨_, rfl⟩
  have hrun : Crew.Run _ unhurried _ _ := Crew.run_of_steps (by simp [unhurried, endOfReader, sendTurn, lateTurn]) hw
  have hturn := inTurn_of_run countedId_injective (hrun.mono fun _ _ => trivial)
  obtain rfl := Option.some.inj (Eq.trans rfl hw)
  exact ⟨_, hrun, rfl, rfl, rfl, rfl, fun w' hrun' =>
    stuck_of_leftover (i := 1) (j := 2) countedId_injective hturn rfl rfl rfl rfl hrun'⟩

end RemoteWorkspace
