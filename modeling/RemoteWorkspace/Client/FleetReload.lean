import RemoteWorkspace.Client.FleetFile

/-!
# Serving the fleet that is there

The MCP server's copy of the fleet (`load`, `refresh_fleet_if_changed`): the
file is stamped, compared with the stamp seen last, read, and the snapshot is
swapped, each at its own moment, while others replace or remove the file. Any
number of refreshes run side by side; one lock is held from the stamp to the
swap.
-/

namespace RemoteWorkspace

/-! ## The file over time -/

structure FleetStamp where
  modified : Int
  len : Nat
  deriving DecidableEq

/-- One version of the fleet file: what `metadata` and what reading it give. -/
structure FleetVersion (Text : Type) where
  stamp : Except String FleetStamp
  text : Except String Text

section

variable {Text : Type} (T : Toml Text) (path : String)

def stampOf : Option (FleetVersion Text) → Except String (Option FleetStamp)
  | none => .ok none
  | some v =>
    match v.stamp with
    | .ok stamp => .ok (some stamp)
    | .error e => .error ("stat fleet config " ++ path ++ ": " ++ e)

/-- `load_fleet`, with what it says of a file that it cannot use. -/
def loadVersion : Option (FleetVersion Text) → Except String FleetMap
  | none => loadFleet T none
  | some v =>
    match v.text with
    | .error e => .error ("read fleet config " ++ path ++ ": " ++ e)
    | .ok text =>
      match loadFleet T (some text) with
      | .ok fleet => .ok fleet
      | .error e => .error ("invalid fleet config " ++ path ++ ": " ++ e)

end

/-! ## Snapshots -/

/-- A connection handle. `id` tells the objects apart. -/
structure WorkspaceHandle where
  id : Nat
  endpoint : Endpoint
  deriving DecidableEq

structure FleetEntry where
  handle : WorkspaceHandle
  label : Option String
  deriving DecidableEq

abbrev Snapshot := List (String × FleetEntry)

def Snapshot.get (s : Snapshot) (name : String) : Option FleetEntry := (Keyed.get Prod.fst name s).map Prod.snd

def FleetEntry.workspace (e : FleetEntry) : FleetWorkspace := ⟨e.handle.endpoint, e.label⟩

def Snapshot.workspaces (s : Snapshot) : FleetMap := s.map fun x => (x.1, x.2.workspace)

/-- The handle of a workspace in the next snapshot, and the next unused id. -/
def handleFor (old : Snapshot) (next : Nat) (name : String) (ws : FleetWorkspace) : WorkspaceHandle × Nat :=
  match old.get name with
  | some e => if e.handle.endpoint = ws.endpoint then (e.handle, next) else (⟨next, ws.endpoint⟩, next + 1)
  | none => (⟨next, ws.endpoint⟩, next + 1)

def buildSnapshot (old : Snapshot) : Nat → FleetMap → Snapshot × Nat
  | next, [] => ([], next)
  | next, (name, ws) :: rest =>
    let (handle, next) := handleFor old next name ws
    let (snapshot, next) := buildSnapshot old next rest
    ((name, ⟨handle, ws.label⟩) :: snapshot, next)

/-! ## The server -/

/-- A swap of the snapshot, by the call that made it. -/
structure Swap where
  call : Nat
  old : Snapshot
  new : Snapshot

structure RemoteWorkspaceServer where
  snapshot : Snapshot
  lastSeen : Option FleetStamp
  lock : Option Nat
  nextHandle : Nat
  /-- The swaps so far, the last one first. -/
  swaps : List Swap

/-- The server, and which of its versions the file is at. -/
structure FleetSite extends RemoteWorkspaceServer where
  now : Nat

/-- How far a call of `refresh_fleet_if_changed` has come. `since` and `till`
are the versions at its start and at its end. -/
inductive RefreshPhase
  | idle
  | waiting (since : Nat)
  | locked (since : Nat)
  | stamped (since : Nat) (stamp : Option FleetStamp)
  | read (since : Nat) (stamp : Option FleetStamp) (fleet : FleetMap)
  | ended (since till : Nat) (r : Except String Unit)

inductive RefreshStep
  | start
  | lock
  | stamp
  | readFile
  | swap
  deriving DecidableEq

section

variable {Text : Type} (T : Toml Text) (path : String) (file : Nat → Option (FleetVersion Text))

/-- `load`, when the file is at version `n` as it is stamped and at version `m`
as it is read. -/
def load (n m : Nat) : Except String RemoteWorkspaceServer := do
  let stamp ← stampOf path (file n)
  let fleet ← loadVersion T path (file m)
  let (snapshot, nextHandle) := buildSnapshot [] 0 fleet
  return { snapshot, lastSeen := stamp, lock := none, nextHandle, swaps := [] }

def refreshFleetIfChanged (i : Nat) (step : RefreshStep) (d : FleetSite) (p : RefreshPhase) :
    Option (FleetSite × RefreshPhase) :=
  let leave (since : Nat) (r : Except String Unit) : Option (FleetSite × RefreshPhase) :=
    some ({ d with lock := release i d.lock }, .ended since d.now r)
  match p, step with
  | .idle, .start => some (d, .waiting d.now)
  | .waiting since, .lock => if d.lock = none then some ({ d with lock := some i }, .locked since) else none
  | .locked since, .stamp =>
    match stampOf path (file d.now) with
    | .error e => leave since (.error ("fleet_reload_failed: " ++ e))
    | .ok now => if now = d.lastSeen then leave since (.ok ()) else some (d, .stamped since now)
  | .stamped since now, .readFile =>
    match loadVersion T path (file d.now) with
    -- A bad version is not recorded as seen.
    | .error e => leave since (.error ("fleet_reload_failed: " ++ e))
    | .ok fleet => some (d, .read since now fleet)
  | .read since now fleet, .swap =>
    let (snapshot, nextHandle) := buildSnapshot d.snapshot d.nextHandle fleet
    some ({ d with snapshot, nextHandle, lastSeen := now, lock := release i d.lock,
                   swaps := ⟨i, d.snapshot, snapshot⟩ :: d.swaps }, .ended since d.now (.ok ()))
  | _, _ => none

/-- Any number of refreshes, and a file that goes from each version to the next. -/
def refreshers : Crew FleetSite RefreshPhase RefreshStep Unit where
  act := refreshFleetIfChanged T path file
  env _ d := some { d with now := d.now + 1 }

/-- A loaded server, before any refresh. -/
def loadedSite (server : RemoteWorkspaceServer) (m : Nat) : Crew.World FleetSite RefreshPhase :=
  ⟨{ server with now := m }, fun _ => .idle⟩

/-- The refresh does not find the file absent and as it was seen last, while
the snapshot holds workspaces. -/
def noticesRemoval (step : RefreshStep) (d : FleetSite) : Bool :=
  !(step = .stamp && (file d.now).isNone && d.lastSeen.isNone && !d.snapshot.isEmpty)

/-- No two versions have one stamp. -/
def StampsDiffer : Prop :=
  ∀ m n v w stamp, file m = some v → file n = some w → v.stamp = .ok stamp → w.stamp = .ok stamp → m = n

end

/-! ## Handles from one snapshot to the next -/

theorem workspaces_buildSnapshot (old : Snapshot) (next : Nat) (fleet : FleetMap) :
    (buildSnapshot old next fleet).1.workspaces = fleet := by
  induction fleet generalizing next with
  | nil => rfl
  | cons x rest ih =>
    obtain ⟨name, ws⟩ := x
    have hendpoint : (handleFor old next name ws).1.endpoint = ws.endpoint := by
      unfold handleFor
      split
      · split
        · assumption
        · rfl
      · rfl
    have hcons : (buildSnapshot old next ((name, ws) :: rest)).1.workspaces =
        (name, ⟨(handleFor old next name ws).1.endpoint, ws.label⟩) ::
          (buildSnapshot old (handleFor old next name ws).2 rest).1.workspaces := rfl
    rw [hcons, ih, hendpoint]

/-- Where the handle of an entry comes from: from the old snapshot, or it is
new, as the old endpoint is another one. -/
def HandleFrom (old : Snapshot) (next next' : Nat) (name : String) (handle : WorkspaceHandle) : Prop :=
  (∃ e, old.get name = some e ∧ handle = e.handle) ∨
    next ≤ handle.id ∧ handle.id < next' ∧ ∀ e, old.get name = some e → e.handle.endpoint ≠ handle.endpoint

theorem HandleFrom.mono {old : Snapshot} {n n' m m' : Nat} {name : String} {handle : WorkspaceHandle}
    (h : HandleFrom old n m name handle) (hn : n' ≤ n) (hm : m ≤ m') : HandleFrom old n' m' name handle := by
  rcases h with h | ⟨hlow, hhigh, hne⟩
  · exact .inl h
  · exact .inr ⟨by omega, by omega, hne⟩

theorem handleFor_from (old : Snapshot) (next : Nat) (name : String) (ws : FleetWorkspace) :
    next ≤ (handleFor old next name ws).2 ∧
      HandleFrom old next (handleFor old next name ws).2 name (handleFor old next name ws).1 := by
  unfold handleFor
  cases hold : old.get name with
  | none =>
    refine ⟨by simp, .inr ⟨by simp, by simp, fun e he => ?_⟩⟩
    rw [hold] at he
    cases he
  | some e =>
    dsimp only
    split
    · exact ⟨by simp, .inl ⟨e, hold, rfl⟩⟩
    · next hne =>
      refine ⟨by simp, .inr ⟨by simp, by simp, fun e' he' => ?_⟩⟩
      rw [hold] at he'
      cases he'
      exact hne

theorem buildSnapshot_from (old : Snapshot) (next : Nat) (fleet : FleetMap) :
    next ≤ (buildSnapshot old next fleet).2 ∧
      ∀ x ∈ (buildSnapshot old next fleet).1, HandleFrom old next (buildSnapshot old next fleet).2 x.1 x.2.handle := by
  induction fleet generalizing next with
  | nil => exact ⟨le_rfl, nofun⟩
  | cons x rest ih =>
    obtain ⟨name, ws⟩ := x
    obtain ⟨hle, hfrom⟩ := handleFor_from old next name ws
    obtain ⟨hle', hfrom'⟩ := ih (handleFor old next name ws).2
    refine ⟨hle.trans hle', fun x hx => ?_⟩
    simp only [buildSnapshot, List.mem_cons] at hx
    rcases hx with rfl | hx
    · exact hfrom.mono le_rfl hle'
    · exact (hfrom' x hx).mono hle le_rfl

theorem Snapshot.mem_of_get {s : Snapshot} {name : String} {e : FleetEntry} (h : s.get name = some e) : (name, e) ∈ s := by
  obtain ⟨x, hget, rfl⟩ := Option.map_eq_some_iff.mp h
  rw [← Keyed.key_of_get hget]
  exact Keyed.mem_of_get hget

/-- The handles of a snapshot have been given out. -/
def Snapshot.Below (s : Snapshot) (next : Nat) : Prop := ∀ x ∈ s, x.2.handle.id < next

theorem below_buildSnapshot {old : Snapshot} {next : Nat} (h : old.Below next) (fleet : FleetMap) :
    (buildSnapshot old next fleet).1.Below (buildSnapshot old next fleet).2 := by
  intro x hx
  obtain ⟨hle, hfrom⟩ := buildSnapshot_from old next fleet
  rcases hfrom x hx with ⟨e, he, heq⟩ | ⟨-, hlt, -⟩
  · rw [heq]
    exact (h _ (Snapshot.mem_of_get he)).trans_le hle
  · exact hlt

/-- A workspace keeps its handle if it has the same endpoint in both snapshots,
and only then. -/
def Swap.Reuses (swap : Swap) : Prop :=
  ∀ name e e', swap.old.get name = some e → swap.new.get name = some e' →
    (e'.handle.endpoint = e.handle.endpoint → e'.handle = e.handle) ∧
      (e'.handle.endpoint ≠ e.handle.endpoint → e'.handle.id ≠ e.handle.id)

theorem reuses_buildSnapshot {old : Snapshot} {next : Nat} (h : old.Below next) (fleet : FleetMap) (i : Nat) :
    Swap.Reuses ⟨i, old, (buildSnapshot old next fleet).1⟩ := by
  intro name e e' he he'
  rcases (buildSnapshot_from old next fleet).2 _ (Snapshot.mem_of_get he') with ⟨e₀, he₀, heq⟩ | ⟨hlow, -, hne⟩
  · obtain rfl := Option.some.inj (he.symm.trans he₀)
    exact ⟨fun _ => heq, fun hne => absurd (congrArg _ heq) hne⟩
  · have hid : e.handle.id < next := h _ (Snapshot.mem_of_get he)
    refine ⟨fun heq => absurd heq.symm (hne e he), fun _ heq => ?_⟩
    simp only [heq] at hlow
    omega

/-! ## What a step does -/

section

variable {Text : Type} {T : Toml Text} {path : String} {file : Nat → Option (FleetVersion Text)}

theorem stampOf_eq_none {v : Option (FleetVersion Text)} (h : stampOf path v = .ok none) : v = none := by
  cases v with
  | none => rfl
  | some v =>
    simp only [stampOf] at h
    split at h
    · cases h
    · cases h

theorem stampOf_eq_some {v : Option (FleetVersion Text)} {stamp : FleetStamp}
    (h : stampOf path v = .ok (some stamp)) : ∃ v', v = some v' ∧ v'.stamp = .ok stamp := by
  cases v with
  | none => cases h
  | some v =>
    simp only [stampOf] at h
    split at h
    · next hv =>
      cases h
      exact ⟨v, rfl, hv⟩
    · cases h

theorem StampsDiffer.eq (h : StampsDiffer file) {m n : Nat} {stamp : FleetStamp}
    (hm : stampOf path (file m) = .ok (some stamp)) (hn : stampOf path (file n) = .ok (some stamp)) : m = n := by
  obtain ⟨v, hv, hvs⟩ := stampOf_eq_some hm
  obtain ⟨w, hw, hws⟩ := stampOf_eq_some hn
  exact h m n v w stamp hv hw hvs hws

variable (T path file)

inductive RefreshMove (i : Nat) (d : FleetSite) : RefreshPhase → FleetSite → RefreshPhase → Prop
  | start : RefreshMove i d .idle d (.waiting d.now)
  | lock {since : Nat} : d.lock = none → RefreshMove i d (.waiting since) { d with lock := some i } (.locked since)
  | statFails {since : Nat} {e : String} (message : String) : stampOf path (file d.now) = .error e →
      RefreshMove i d (.locked since) { d with lock := release i d.lock } (.ended since d.now (.error message))
  /-- The file is as it was seen last; if it is absent, nothing is served. -/
  | unchanged {since : Nat} : stampOf path (file d.now) = .ok d.lastSeen → (d.lastSeen = none → d.snapshot = []) →
      RefreshMove i d (.locked since) { d with lock := release i d.lock } (.ended since d.now (.ok ()))
  | stamp {since : Nat} {now : Option FleetStamp} : stampOf path (file d.now) = .ok now →
      RefreshMove i d (.locked since) d (.stamped since now)
  | readFails {since : Nat} {now : Option FleetStamp} {e : String} (message : String) :
      loadVersion T path (file d.now) = .error e →
      RefreshMove i d (.stamped since now) { d with lock := release i d.lock } (.ended since d.now (.error message))
  | read {since : Nat} {now : Option FleetStamp} {fleet : FleetMap} : loadVersion T path (file d.now) = .ok fleet →
      RefreshMove i d (.stamped since now) d (.read since now fleet)
  | swap {since : Nat} {now : Option FleetStamp} {fleet : FleetMap} :
      RefreshMove i d (.read since now fleet)
        { d with
          snapshot := (buildSnapshot d.snapshot d.nextHandle fleet).1
          nextHandle := (buildSnapshot d.snapshot d.nextHandle fleet).2
          lastSeen := now
          lock := release i d.lock
          swaps := ⟨i, d.snapshot, (buildSnapshot d.snapshot d.nextHandle fleet).1⟩ :: d.swaps }
        (.ended since d.now (.ok ()))

variable {T path file}

theorem refreshMove_of_step {i : Nat} {step : RefreshStep} {d d' : FleetSite} {p p' : RefreshPhase}
    (hnotices : noticesRemoval file step d = true) (h : refreshFleetIfChanged T path file i step d p = some (d', p')) :
    RefreshMove T path file i d p d' p' := by
  unfold refreshFleetIfChanged at h
  split at h
  · cases h
    exact .start
  · split at h
    · next hlock =>
      cases h
      exact .lock hlock
    · cases h
  · split at h
    · next e he =>
      cases h
      exact .statFails _ he
    · next now hnow =>
      split at h
      · next heq =>
        subst heq
        cases h
        refine .unchanged hnow fun hnone => ?_
        rw [hnone] at hnow
        simpa [noticesRemoval, stampOf_eq_none hnow, hnone] using hnotices
      · cases h
        exact .stamp hnow
  · split at h
    · next e he =>
      cases h
      exact .readFails _ he
    · next fleet hfleet =>
      cases h
      exact .read hfleet
  · cases h
    exact .swap
  · cases h

/-! ## What holds in every run -/

variable (T path file)

/-- Version `n` is one that cannot be stamped or cannot be loaded. -/
def BadVersion (n : Nat) : Prop :=
  ∀ stamp fleet, stampOf path (file n) = .ok stamp → loadVersion T path (file n) ≠ .ok fleet

/-- `fleet` is what a version of the file between `since` and `till` declares. -/
def Served (since till : Nat) (fleet : FleetMap) : Prop :=
  ∃ n, since ≤ n ∧ n ≤ till ∧ loadVersion T path (file n) = .ok fleet

/-- What holds of call `i`: it has the lock from when it takes it to its end,
and it stamped the file before it read it. -/
def RefreshPhase.Lawful (i : Nat) (d : FleetSite) : RefreshPhase → Prop
  | .idle => d.lock ≠ some i
  | .waiting since => d.lock ≠ some i ∧ since ≤ d.now
  | .locked since => d.lock = some i ∧ since ≤ d.now
  | .stamped since stamp => d.lock = some i ∧ ∃ n, since ≤ n ∧ n ≤ d.now ∧ stampOf path (file n) = .ok stamp
  | .read since stamp fleet =>
    d.lock = some i ∧ ∃ n, since ≤ n ∧ stampOf path (file n) = .ok stamp ∧ Served T path file n d.now fleet
  | .ended since till r =>
    d.lock ≠ some i ∧ since ≤ till ∧ till ≤ d.now ∧ (since = till → BadVersion T path file since → ∃ e, r = .error e)

/-- The stamp seen last is that of a version no newer than the one served. -/
def RemoteWorkspaceServer.Seen (server : RemoteWorkspaceServer) (now : Nat) : Prop :=
  ∀ stamp, server.lastSeen = some stamp →
    ∃ n, stampOf path (file n) = .ok (some stamp) ∧ Served T path file n now server.snapshot.workspaces

/-- The swaps lead from one snapshot to the other. -/
def SwapsLead (first : Snapshot) : List Swap → Snapshot → Prop
  | [], last => last = first
  | swap :: earlier, last => last = swap.new ∧ SwapsLead first earlier swap.old

variable {T path file}

theorem Served.mono {since since' till till' : Nat} {fleet : FleetMap} (h : Served T path file since till fleet)
    (hs : since' ≤ since) (ht : till ≤ till') : Served T path file since' till' fleet := by
  obtain ⟨n, hsince, htill, hload⟩ := h
  exact ⟨n, by omega, by omega, hload⟩

/-- Where the file is as it was seen last, the snapshot is that of the version
in place: no version comes back. -/
theorem served_of_unchanged (hstamps : StampsDiffer file) {d : FleetSite}
    (hseen : d.toRemoteWorkspaceServer.Seen T path file d.now) (hstamp : stampOf path (file d.now) = .ok d.lastSeen)
    (hempty : d.lastSeen = none → d.snapshot = []) : loadVersion T path (file d.now) = .ok d.snapshot.workspaces := by
  cases hlast : d.lastSeen with
  | none =>
    rw [hlast] at hstamp
    rw [stampOf_eq_none hstamp, hempty hlast]
    rfl
  | some stamp =>
    obtain ⟨n, hn, m, hnm, hm, hload⟩ := hseen stamp hlast
    rw [hlast] at hstamp
    have heq : n = d.now := hstamps.eq hn hstamp
    rw [show d.now = m by omega]
    exact hload

theorem not_badVersion {n : Nat} {stamp : Option FleetStamp} {fleet : FleetMap}
    (hstamp : stampOf path (file n) = .ok stamp) (hload : loadVersion T path (file n) = .ok fleet) :
    ¬ BadVersion T path file n := fun hbad => hbad stamp fleet hstamp hload

theorem RefreshPhase.Lawful.move (hstamps : StampsDiffer file) {i : Nat} {d d' : FleetSite} {p p' : RefreshPhase}
    (hseen : d.toRemoteWorkspaceServer.Seen T path file d.now) (h : p.Lawful T path file i d)
    (hmove : RefreshMove T path file i d p d' p') : p'.Lawful T path file i d' := by
  cases hmove with
  | start => exact ⟨h, le_rfl⟩
  | lock => exact ⟨rfl, h.2⟩
  | statFails message => exact ⟨release_ne i d.lock, h.2, le_rfl, fun _ _ => ⟨message, rfl⟩⟩
  | unchanged hstamp hempty =>
    refine ⟨release_ne i d.lock, h.2, le_rfl, fun heq hbad => ?_⟩
    subst heq
    exact absurd hbad (not_badVersion hstamp (served_of_unchanged hstamps hseen hstamp hempty))
  | stamp hstamp => exact ⟨h.1, d.now, h.2, le_rfl, hstamp⟩
  | readFails message =>
    obtain ⟨-, n, hsince, hnow, -⟩ := h
    exact ⟨release_ne i d.lock, hsince.trans hnow, le_rfl, fun _ _ => ⟨message, rfl⟩⟩
  | read hload =>
    obtain ⟨hlock, n, hsince, hnow, hstamp⟩ := h
    exact ⟨hlock, n, hsince, hstamp, d.now, hnow, le_rfl, hload⟩
  | @swap since now fleet =>
    obtain ⟨-, n, hsince, hstamp, m, hnm, hm, hload⟩ := h
    refine ⟨release_ne i d.lock, show since ≤ d.now by omega, le_rfl, fun heq hbad => ?_⟩
    have hn : n = since := by omega
    have hm : m = since := by omega
    rw [hn] at hstamp
    rw [hm] at hload
    exact absurd hbad (not_badVersion hstamp hload)

/-- Only the call that has the lock changes anything. -/
theorem RefreshPhase.Lawful.frame {i : Nat} {d d' : FleetSite} {p p' : RefreshPhase} (h : p.Lawful T path file i d)
    (hmove : RefreshMove T path file i d p d' p') :
    d'.now = d.now ∧ (d' = d ∨ (d.lock = none ∨ d.lock = some i) ∧ (d'.lock = none ∨ d'.lock = some i)) := by
  have hreleased : d.lock = some i → release i d.lock = none := fun hlock => by rw [hlock, release_self]
  cases hmove with
  | start | stamp | read => exact ⟨rfl, .inl rfl⟩
  | lock hlock => exact ⟨rfl, .inr ⟨.inl hlock, .inr rfl⟩⟩
  | statFails | unchanged | readFails | swap => exact ⟨rfl, .inr ⟨.inr h.1, .inl (hreleased h.1)⟩⟩

/-- A call relies on the lock, and on time not going back. -/
theorem RefreshPhase.Lawful.elsewhere {j : Nat} {d d' : FleetSite} {q : RefreshPhase} (h : q.Lawful T path file j d)
    (hlock : d'.lock = some j ↔ d.lock = some j) (hnow : d.now ≤ d'.now) : q.Lawful T path file j d' := by
  cases q with
  | idle => exact mt hlock.mp h
  | waiting since => exact ⟨mt hlock.mp h.1, h.2.trans hnow⟩
  | locked since => exact ⟨hlock.mpr h.1, h.2.trans hnow⟩
  | stamped since stamp =>
    obtain ⟨hj, n, hsince, hn, hstamp⟩ := h
    exact ⟨hlock.mpr hj, n, hsince, hn.trans hnow, hstamp⟩
  | read since stamp fleet =>
    obtain ⟨hj, n, hsince, hstamp, hserved⟩ := h
    exact ⟨hlock.mpr hj, n, hsince, hstamp, hserved.mono le_rfl hnow⟩
  | ended since till r => exact ⟨mt hlock.mp h.1, h.2.1, h.2.2.1.trans hnow, h.2.2.2⟩

theorem RefreshPhase.Lawful.other {i j : Nat} (hij : j ≠ i) {d d' : FleetSite} {p p' q : RefreshPhase}
    (h : p.Lawful T path file i d) (hmove : RefreshMove T path file i d p d' p') (hq : q.Lawful T path file j d) :
    q.Lawful T path file j d' := by
  obtain ⟨hnow, rfl | ⟨hlock, hlock'⟩⟩ := h.frame hmove
  · exact hq
  · exact hq.elsewhere (iff_of_false (Crew.not_held hij hlock') (Crew.not_held hij hlock)) hnow.ge

/-! ## Runs -/

section
open Crew

variable {first : Snapshot} {w : World FleetSite RefreshPhase}

variable (T path file)

structure ReloadInv (first : Snapshot) (w : World FleetSite RefreshPhase) : Prop where
  lawful : ∀ i, (w.party i).Lawful T path file i w.shared
  seen : w.shared.toRemoteWorkspaceServer.Seen T path file w.shared.now
  /-- What is served, and what is about to be, is no older than a call that has returned. -/
  current : ∀ i since till, w.party i = .ended since till (.ok ()) →
    Served T path file since w.shared.now w.shared.snapshot.workspaces ∧
      ∀ j since' stamp fleet, w.party j = .read since' stamp fleet → Served T path file since w.shared.now fleet
  swappers : ∀ swap ∈ w.shared.swaps, ∃ since till, w.party swap.call = .ended since till (.ok ())
  reuses : ∀ swap ∈ w.shared.swaps, swap.Reuses
  lead : SwapsLead first w.shared.swaps w.shared.snapshot
  below : w.shared.snapshot.Below w.shared.nextHandle

variable {T path file}

theorem ReloadInv.tick (h : ReloadInv T path file first w) :
    ReloadInv T path file first ⟨{ w.shared with now := w.shared.now + 1 }, w.party⟩ where
  lawful i := (h.lawful i).elsewhere Iff.rfl (Nat.le_succ _)
  seen stamp hlast := by
    obtain ⟨n, hstamp, hserved⟩ := h.seen stamp hlast
    exact ⟨n, hstamp, hserved.mono le_rfl (Nat.le_succ _)⟩
  current i since till hended := by
    obtain ⟨hserved, hread⟩ := h.current i since till hended
    exact ⟨hserved.mono le_rfl (Nat.le_succ _), fun j since' stamp fleet hj =>
      (hread j since' stamp fleet hj).mono le_rfl (Nat.le_succ _)⟩
  swappers := h.swappers
  reuses := h.reuses
  lead := h.lead
  below := h.below

/-- A call that has returned moves no more. -/
theorem not_ended_of_move {i : Nat} {d d' : FleetSite} {p p' : RefreshPhase} (hmove : RefreshMove T path file i d p d' p')
    {since till : Nat} {r : Except String Unit} : p ≠ .ended since till r := by
  cases hmove <;> exact nofun

theorem ReloadInv.swappers_update (h : ReloadInv T path file first w) {i : Nat} {d : FleetSite} {p : RefreshPhase}
    (hmove : RefreshMove T path file i w.shared (w.party i) d p) :
    ∀ swap ∈ w.shared.swaps, ∃ since till, Function.update w.party i p swap.call = .ended since till (.ok ()) := by
  intro swap hswap
  obtain ⟨since, till, hcall⟩ := h.swappers swap hswap
  have hne : swap.call ≠ i := by
    rintro rfl
    exact not_ended_of_move hmove hcall
  exact ⟨since, till, by rwa [Function.update_of_ne hne]⟩

/-- Two calls do not have the lock at once. -/
theorem ReloadInv.lock_unique (h : ReloadInv T path file first w) {i j since : Nat} {stamp : Option FleetStamp}
    {fleet : FleetMap} (hi : w.shared.lock = some i) (hj : w.party j = .read since stamp fleet) : j = i := by
  have hlawful := h.lawful j
  rw [hj] at hlawful
  exact Option.some.inj (hlawful.1.symm.trans hi)

/-- A step that neither swaps nor returns `Ok`. -/
theorem ReloadInv.quiet (h : ReloadInv T path file first w) {i : Nat} {lock : Option Nat} {p : RefreshPhase}
    (hlawful : ∀ j, (Function.update w.party i p j).Lawful T path file j { w.shared with lock })
    (hmove : RefreshMove T path file i w.shared (w.party i) { w.shared with lock } p)
    (hended : ∀ since till, p ≠ .ended since till (.ok ()))
    (hread : ∀ since stamp fleet, p = .read since stamp fleet → loadVersion T path (file w.shared.now) = .ok fleet) :
    ReloadInv T path file first ⟨{ w.shared with lock }, Function.update w.party i p⟩ where
  lawful := hlawful
  seen := h.seen
  current k since till hk := by
    rcases eq_of_update hk with ⟨-, hp⟩ | ⟨-, hk⟩
    · exact absurd hp (hended since till)
    · refine ⟨(h.current k since till hk).1, fun j since' stamp fleet hj => ?_⟩
      rcases eq_of_update hj with ⟨-, hp⟩ | ⟨-, hj⟩
      · have hlawful := h.lawful k
        rw [hk] at hlawful
        exact ⟨w.shared.now, hlawful.2.1.trans hlawful.2.2.1, le_rfl, hread since' stamp fleet hp⟩
      · exact (h.current k since till hk).2 j since' stamp fleet hj
  swappers := h.swappers_update hmove
  reuses := h.reuses
  lead := h.lead
  below := h.below

theorem ReloadInv.move (hstamps : StampsDiffer file) (h : ReloadInv T path file first w) {i : Nat} {d : FleetSite}
    {p : RefreshPhase} (hmove : RefreshMove T path file i w.shared (w.party i) d p) :
    ReloadInv T path file first ⟨d, Function.update w.party i p⟩ := by
  have hi := h.lawful i
  have hlawful : ∀ j, (Function.update w.party i p j).Lawful T path file j d :=
    forall_update (P := fun j (q : RefreshPhase) => q.Lawful T path file j d) (hi.move hstamps h.seen hmove)
      fun j hj => hi.other hj hmove (h.lawful j)
  have hmove' := hmove
  generalize hphase : w.party i = phase at hmove' hi
  cases hmove' with
  | start => exact h.quiet hlawful hmove nofun nofun
  | lock => exact h.quiet hlawful hmove nofun nofun
  | statFails => exact h.quiet hlawful hmove nofun nofun
  | stamp => exact h.quiet hlawful hmove nofun nofun
  | readFails => exact h.quiet hlawful hmove nofun nofun
  | read hload =>
    refine h.quiet hlawful hmove nofun fun _ _ _ heq => ?_
    cases heq
    exact hload
  | @unchanged since hstamp hempty =>
    have hload := served_of_unchanged hstamps h.seen hstamp hempty
    refine ⟨hlawful, h.seen, fun k since' till hk => ?_, h.swappers_update hmove, h.reuses, h.lead, h.below⟩
    have hread : ∀ j since' stamp fleet, Function.update w.party i (.ended since w.shared.now (.ok ())) j ≠
        .read since' stamp fleet := by
      intro j since' stamp fleet hj
      rcases eq_of_update hj with ⟨-, hp⟩ | ⟨hne, hj⟩
      · cases hp
      · exact hne (h.lock_unique hi.1 hj)
    rcases eq_of_update hk with ⟨-, hp⟩ | ⟨-, hk⟩
    · cases hp
      exact ⟨⟨w.shared.now, hi.2, le_rfl, hload⟩, fun j _ _ _ hj => absurd hj (hread j _ _ _)⟩
    · exact ⟨(h.current k since' till hk).1, fun j _ _ _ hj => absurd hj (hread j _ _ _)⟩
  | @swap since now fleet =>
    obtain ⟨hlock, n, hsince, hstamp, hserved⟩ := hi
    have hworkspaces := workspaces_buildSnapshot w.shared.snapshot w.shared.nextHandle fleet
    refine ⟨hlawful, fun stamp hlast => ?_, fun k since' till hk => ?_, fun swap hswap => ?_, fun swap hswap => ?_,
      ⟨rfl, h.lead⟩, below_buildSnapshot h.below fleet⟩
    · refine ⟨n, by rw [← hlast]; exact hstamp, ?_⟩
      rw [hworkspaces]
      exact hserved
    · refine ⟨?_, fun j _ _ _ hj => ?_⟩
      · rw [hworkspaces]
        rcases eq_of_update hk with ⟨-, hp⟩ | ⟨-, hk⟩
        · cases hp
          exact hserved.mono hsince le_rfl
        · exact (h.current k since' till hk).2 i since now fleet hphase
      · rcases eq_of_update hj with ⟨-, hp⟩ | ⟨hne, hj⟩
        · cases hp
        · exact absurd (h.lock_unique hlock hj) hne
    · rcases List.mem_cons.mp hswap with rfl | hswap
      · exact ⟨since, w.shared.now, Function.update_self ..⟩
      · exact h.swappers_update hmove swap hswap
    · rcases List.mem_cons.mp hswap with rfl | hswap
      · exact reuses_buildSnapshot h.below fleet i
      · exact h.reuses swap hswap

theorem load_ok {n m : Nat} {server : RemoteWorkspaceServer} (h : load T path file n m = .ok server) :
    ∃ stamp fleet, stampOf path (file n) = .ok stamp ∧ loadVersion T path (file m) = .ok fleet ∧
      server = ⟨(buildSnapshot [] 0 fleet).1, stamp, none, (buildSnapshot [] 0 fleet).2, []⟩ := by
  unfold load at h
  cases hstamp : stampOf path (file n) with
  | error e =>
    rw [hstamp] at h
    cases h
  | ok stamp =>
    cases hfleet : loadVersion T path (file m) with
    | error e =>
      rw [hstamp, hfleet] at h
      cases h
    | ok fleet =>
      rw [hstamp, hfleet] at h
      cases h
      exact ⟨stamp, fleet, rfl, rfl, rfl⟩

theorem reloadInv_init {n m : Nat} (hnm : n ≤ m) {server : RemoteWorkspaceServer}
    (hload : load T path file n m = .ok server) : ReloadInv T path file server.snapshot (loadedSite server m) := by
  obtain ⟨stamp, fleet, hstamp, hfleet, rfl⟩ := load_ok hload
  refine ⟨fun i => (Option.some_ne_none i).symm, fun s hs => ⟨n, ?_, m, hnm, le_rfl, ?_⟩, nofun, nofun, nofun, rfl, ?_⟩
  · rw [← hs]
    exact hstamp
  · show loadVersion T path (file m) = .ok (buildSnapshot [] 0 fleet).1.workspaces
    rw [workspaces_buildSnapshot]
    exact hfleet
  · exact below_buildSnapshot (fun _ hx => absurd hx List.not_mem_nil) fleet

theorem reloadInv_of_run (hstamps : StampsDiffer file) {n m : Nat} (hnm : n ≤ m) {server : RemoteWorkspaceServer}
    (hload : load T path file n m = .ok server)
    (hrun : Run ((refreshers T path file).guard (noticesRemoval file)) (fun _ => True) (loadedSite server m) w) :
    ReloadInv T path file server.snapshot w := by
  refine hrun.inv (reloadInv_init hnm hload) (fun w₁ i step d p hinv _ hact => ?_) fun w₁ _ d hinv _ htick => ?_
  · obtain ⟨hnotices, hact⟩ := guard_act.mp hact
    exact hinv.move hstamps (refreshMove_of_step hnotices hact)
  · cases htick
    exact hinv.tick

/-- As long as no refresh finds the file absent, and last seen absent, while
workspaces are served: what is served after a refresh has returned `Ok` is what
a version no older than its start declares; a refresh that failed has swapped
nothing, and each one during which a bad version is in place fails; and every
swap from the loaded snapshot on keeps the handles of unchanged endpoints and no
others. -/
theorem refreshed_fleet_is_current (hstamps : StampsDiffer file) {n m : Nat} (hnm : n ≤ m)
    {server : RemoteWorkspaceServer} (hload : load T path file n m = .ok server)
    (hrun : Run ((refreshers T path file).guard (noticesRemoval file)) (fun _ => True) (loadedSite server m) w) :
    (∀ i since till, w.party i = .ended since till (.ok ()) →
      Served T path file since w.shared.now w.shared.snapshot.workspaces) ∧
    (∀ i since till e, w.party i = .ended since till (.error e) → ∀ swap ∈ w.shared.swaps, swap.call ≠ i) ∧
    (∀ i bad r, w.party i = .ended bad bad r → BadVersion T path file bad → ∃ e, r = .error e) ∧
    SwapsLead server.snapshot w.shared.swaps w.shared.snapshot ∧ ∀ swap ∈ w.shared.swaps, swap.Reuses := by
  have hinv := reloadInv_of_run hstamps hnm hload hrun
  refine ⟨fun i since till hi => (hinv.current i since till hi).1, fun i since till e hi swap hswap heq => ?_,
    fun i bad r hi hbad => ?_, hinv.lead, hinv.reuses⟩
  · obtain ⟨since', till', hok⟩ := hinv.swappers swap hswap
    rw [heq, hi] at hok
    cases hok
  · have hlawful := hinv.lawful i
    rw [hi] at hlawful
    exact hlawful.2.2.2 rfl hbad

end

end

/-! ## A file that is gone before it was seen -/

section
open Crew

/-- A file whose version `n` declares the workspace `entries n`. -/
def fileOf (entries : Nat → Option NewEntry) (n : Nat) : Option (FleetVersion PlainTable) :=
  (entries n).map fun entry =>
    ⟨.ok ⟨n, 64⟩, .ok (plainToml.insert plainToml.empty entry.name entry.table)⟩

theorem stampsDiffer_fileOf (entries : Nat → Option NewEntry) : StampsDiffer (fileOf entries) := by
  intro m n v w stamp hv hw hvs hws
  obtain ⟨e, -, rfl⟩ := Option.map_eq_some_iff.mp hv
  obtain ⟨e', -, rfl⟩ := Option.map_eq_some_iff.mp hw
  cases hvs
  exact (Int.ofNat_inj.mp (congrArg FleetStamp.modified (Except.ok.inj hws))).symm

def labServer (stamp : Option FleetStamp) : RemoteWorkspaceServer where
  snapshot := [("lab", ⟨⟨0, labEntry.workspace.endpoint⟩, none⟩)]
  lastSeen := stamp
  lock := none
  nextHandle := 1
  swaps := []

/-- The file is stamped absent, read as it declares a workspace, and removed
again: it is as it was seen last, and the workspace is served. -/
theorem removed_fleet_is_served :
    let file := fileOf fun n => if n = 1 then some labEntry else none
    StampsDiffer file ∧ load plainToml "" file 0 1 = .ok (labServer none) ∧
    ∃ w, Run (refreshers plainToml "" file) (fun _ => True) (loadedSite (labServer none) 1) w ∧
      w.party 0 = .ended 2 2 (.ok ()) ∧ ∀ till, ¬ Served plainToml "" file 2 till w.shared.snapshot.workspaces := by
  intro file
  have hload : load plainToml "" file 0 1 = .ok (labServer none) := rfl
  have hrun : ∃ w, steps (refreshers plainToml "" file) (loadedSite (labServer none) 1)
      [.env (), .act 0 .start, .act 0 .lock, .act 0 .stamp] = some w ∧
        w.party 0 = .ended 2 2 (.ok ()) ∧ w.shared.snapshot = (labServer none).snapshot := ⟨_, rfl, rfl, rfl⟩
  obtain ⟨w, hw, hended, hsnapshot⟩ := hrun
  refine ⟨stampsDiffer_fileOf _, hload, w, run_of_steps (fun _ _ => trivial) hw, hended, ?_⟩
  rintro till ⟨n, hn, -, hserved⟩
  have habsent : file n = none := by
    show Option.map _ (if n = 1 then some labEntry else none) = none
    rw [if_neg (by omega)]
    rfl
  rw [habsent, hsnapshot] at hserved
  cases hserved

/-- The file is replaced after the load, and a refresh serves its new version. -/
theorem refreshed_fleet_is_current_gpu :
    let file := fileOf fun n => if n = 0 then some labEntry else if n = 1 then some gpuEntry else none
    ∃ w, Run ((refreshers plainToml "" file).guard (noticesRemoval file)) (fun _ => True)
        (loadedSite (labServer (some ⟨0, 64⟩)) 0) w ∧
      w.party 0 = .ended 0 1 (.ok ()) ∧
      Served plainToml "" file 0 w.shared.now w.shared.snapshot.workspaces := by
  intro file
  have hload : load plainToml "" file 0 0 = .ok (labServer (some ⟨0, 64⟩)) := rfl
  have hrun : ∃ w, steps ((refreshers plainToml "" file).guard (noticesRemoval file))
      (loadedSite (labServer (some ⟨0, 64⟩)) 0)
      [.act 0 .start, .env (), .act 0 .lock, .act 0 .stamp, .act 0 .readFile, .act 0 .swap] = some w ∧
        w.party 0 = .ended 0 1 (.ok ()) := ⟨_, rfl, rfl⟩
  obtain ⟨w, hw, hended⟩ := hrun
  have hreached : Run ((refreshers plainToml "" file).guard (noticesRemoval file)) (fun _ => True) _ w :=
    run_of_steps (fun _ _ => trivial) hw
  obtain ⟨hserved, -⟩ := refreshed_fleet_is_current (stampsDiffer_fileOf _) le_rfl hload hreached
  exact ⟨w, hreached, hended, hserved 0 0 1 hended⟩

end

end RemoteWorkspace
