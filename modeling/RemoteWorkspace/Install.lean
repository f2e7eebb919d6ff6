import Mathlib.Algebra.Group.Nat.Defs
import Mathlib.Data.Prod.Lex
import Mathlib.Order.Bounds.Basic
import Mathlib.Order.WithBot
import RemoteWorkspace.Lib.Crew
import RemoteWorkspace.Lib.Decimal

/-!
# Installing the server

When a version replaces another (`version.rs`), and the runs of `--install-to`
that put a server at the managed path (`install.rs`): any number of them, each
of its own version, one lock between the probe of what is installed and the
rename.
-/

namespace RemoteWorkspace

/-! ## Versions -/

structure VersionInfo where
  softwareVersion : String
  protocolVersion : Nat
  deriving DecidableEq

inductive Preflight
  | connect
  | needInstall
  | clientTooOld
  deriving DecidableEq

/-- Major, minor and patch number, the first that differs deciding. -/
abbrev Triple := ℕ ×ₗ ℕ ×ₗ ℕ

def parseTriple (s : String) : Option Triple :=
  match s.toList.splitOn '.' with
  | [major, minor, patch] => do
    let major ← Decimal.parse (2 ^ 64) major
    let minor ← Decimal.parse (2 ^ 64) minor
    let patch ← Decimal.parse (2 ^ 64) patch
    some (toLex (major, toLex (minor, patch)))
  | _ => none

/-- `none` where a side is not three numbers. -/
def softwareCmp (a b : String) : Option Ordering := do
  some (compare (← parseTriple a) (← parseTriple b))

/-- The client's decision, before it uploads anything. -/
def preflight (installed : Option VersionInfo) (desired : VersionInfo) : Preflight :=
  match installed with
  | none => .needInstall
  | some cur =>
    match compare cur.protocolVersion desired.protocolVersion with
    | .gt => .clientTooOld
    | .lt => .needInstall
    | .eq => if softwareCmp cur.softwareVersion desired.softwareVersion = some .lt then .needInstall else .connect

/-- The rule on the remote host, under the install lock. -/
def shouldReplace (installed : Option VersionInfo) (desired : VersionInfo) : Bool :=
  match installed with
  | none => true
  | some cur =>
    match compare cur.protocolVersion desired.protocolVersion with
    | .lt => true
    | .gt => false
    | .eq => softwareCmp cur.softwareVersion desired.softwareVersion = some .lt

/-! ## Runs of `--install-to` -/

/-- What is at the managed path. -/
inductive Managed
  | absent
  /-- A server too old or too broken to say its version. -/
  | unversioned
  | server (v : VersionInfo)
  deriving DecidableEq

def probeInstalled : Managed → Option VersionInfo
  | .absent | .unversioned => none
  | .server v => some v

inductive InstallError
  | currentExe
  | readOwnBinary
  | checksumMismatch
  | noParent
  | createDirectory
  | openLock
  | lockHeld
  | unsupportedOnWindows
  | rename
  | noVersionAfterInstall
  | killed
  deriving DecidableEq

structure InstallOutcome where
  installed : Bool
  previous : Option VersionInfo
  current : VersionInfo
  deriving DecidableEq

/-- How far a run of `run_install_to` has come. -/
inductive InstallPhase
  | started
  /-- It ended before it had the lock. -/
  | refused (e : InstallError)
  | locked
  | probed (previous : Option VersionInfo)
  /-- The binary is in place, or the upload was dropped. -/
  | settled (installed : Bool) (previous : Option VersionInfo)
  | ended (r : Except InstallError InstallOutcome)

/-- A freshly uploaded binary, which installs itself. -/
structure Installer where
  desired : VersionInfo
  phase : InstallPhase

structure LibDir where
  managed : Managed
  lock : Option Nat

inductive InstallStep
  | refuse (e : InstallError)
  | lock
  | probe
  | rename (ok : Bool)
  /-- What stands in the place of the rename on Windows. -/
  | bail
  | keep
  | report
  /-- The process dies; the kernel releases its lock. -/
  | die
  deriving DecidableEq

def release (i : Nat) (lock : Option Nat) : Option Nat := if lock = some i then none else lock

def runInstallTo (windows : Bool) (i : Nat) (step : InstallStep) (d : LibDir) (p : Installer) :
    Option (LibDir × Installer) :=
  let fail (e : InstallError) : LibDir × Installer :=
    ({ d with lock := release i d.lock }, { p with phase := .ended (.error e) })
  match p.phase, step with
  | .started, .refuse e => some (d, { p with phase := .refused e })
  | .started, .lock => if d.lock = none then some ({ d with lock := some i }, { p with phase := .locked }) else none
  | .locked, .probe => some (d, { p with phase := .probed (probeInstalled d.managed) })
  | .probed previous, .rename ok =>
    if shouldReplace previous p.desired ∧ !windows then
      if ok then some ({ d with managed := .server p.desired }, { p with phase := .settled true previous })
      else some (fail .rename)
    else none
  | .probed previous, .bail =>
    if shouldReplace previous p.desired ∧ windows then some (fail .unsupportedOnWindows) else none
  | .probed previous, .keep =>
    if shouldReplace previous p.desired then none else some (d, { p with phase := .settled false previous })
  | .settled installed previous, .report =>
    match probeInstalled d.managed with
    | some current =>
      some ({ d with lock := release i d.lock }, { p with phase := .ended (.ok ⟨installed, previous, current⟩) })
    | none => some (fail .noVersionAfterInstall)
  | .refused _, _ | .ended _, _ => none
  | _, .die => some (fail .killed)
  | _, _ => none

/-- The step is not one that ends a run before the binary is in place or
dropped. -/
def InstallStep.succeeds : InstallStep → Bool
  | .rename ok => ok
  | .bail | .die => false
  | .refuse _ | .lock | .probe | .keep | .report => true

/-- Any number of installers on one managed path; nothing else writes it. -/
def installers (windows : Bool) : Crew LibDir Installer InstallStep Empty where
  act := runInstallTo windows
  env := fun e => e.elim

/-- Installers of the versions `desired`, none of which has begun. -/
def installSite (m : Managed) (desired : Nat → VersionInfo) : Crew.World LibDir Installer :=
  ⟨⟨m, none⟩, fun i => ⟨desired i, .started⟩⟩

/-! ## The rule is an order -/

/-- An older protocol, or the same with smaller version numbers. -/
def VersionInfo.Older (v v' : VersionInfo) : Prop :=
  v.protocolVersion < v'.protocolVersion ∨
    v.protocolVersion = v'.protocolVersion ∧
      ∃ t t', parseTriple v.softwareVersion = some t ∧ parseTriple v'.softwareVersion = some t' ∧ t < t'

theorem VersionInfo.Older.trans {v₁ v₂ v₃ : VersionInfo} (h : v₁.Older v₂) (h' : v₂.Older v₃) : v₁.Older v₃ := by
  rcases h with h | ⟨heq, t₁, t₂, ht₁, ht₂, hlt⟩
  · rcases h' with h' | ⟨heq', -⟩
    · exact .inl (by omega)
    · exact .inl (by omega)
  · rcases h' with h' | ⟨heq', t₂', t₃, ht₂', ht₃, hlt'⟩
    · exact .inl (by omega)
    · obtain rfl : t₂ = t₂' := Option.some.inj (ht₂.symm.trans ht₂')
      exact .inr ⟨heq.trans heq', t₁, t₃, ht₁, ht₃, hlt.trans hlt'⟩

theorem softwareCmp_eq_lt_iff {a b : String} :
    softwareCmp a b = some .lt ↔ ∃ t t', parseTriple a = some t ∧ parseTriple b = some t' ∧ t < t' := by
  cases ha : parseTriple a <;> cases hb : parseTriple b <;> simp [softwareCmp, ha, hb, compare_lt_iff_lt]

theorem shouldReplace_some_iff {cur desired : VersionInfo} :
    shouldReplace (some cur) desired = true ↔ cur.Older desired := by
  rw [shouldReplace, VersionInfo.Older, ← softwareCmp_eq_lt_iff]
  rcases lt_trichotomy cur.protocolVersion desired.protocolVersion with h | h | h
  · simp [compare_lt_iff_lt.mpr h, h]
  · simp [h]
  · simp [compare_gt_iff_gt.mpr h, not_lt_of_gt h, ne_of_gt h]

theorem preflight_eq_needInstall_iff (installed : Option VersionInfo) (desired : VersionInfo) :
    preflight installed desired = .needInstall ↔ shouldReplace installed desired = true := by
  cases installed with
  | none => simp [preflight, shouldReplace]
  | some cur =>
    rw [preflight, shouldReplace]
    cases compare cur.protocolVersion desired.protocolVersion with
    | lt => simp
    | gt => simp
    | eq => by_cases h : softwareCmp cur.softwareVersion desired.softwareVersion = some .lt <;> simp [h]

/-- Protocol and version numbers as one value; the least one where the numbers
do not read. -/
def VersionInfo.rank (v : VersionInfo) : WithBot (ℕ ×ₗ Triple) :=
  match parseTriple v.softwareVersion with
  | some t => ((toLex (v.protocolVersion, t) : ℕ ×ₗ Triple) : WithBot (ℕ ×ₗ Triple))
  | none => ⊥

/-- The rank that is reported from the managed path, the least one for none. -/
def reported (m : Managed) : WithBot (ℕ ×ₗ Triple) :=
  match probeInstalled m with
  | some v => v.rank
  | none => ⊥

/-- A version of three numbers. -/
def VersionInfo.Plain (v : VersionInfo) : Prop := (parseTriple v.softwareVersion).isSome

theorem rank_lt_iff {v v' : VersionInfo} (hv : v.Plain) (hv' : v'.Plain) : v.rank < v'.rank ↔ v.Older v' := by
  obtain ⟨t, ht⟩ := Option.isSome_iff_exists.mp hv
  obtain ⟨t', ht'⟩ := Option.isSome_iff_exists.mp hv'
  simp [VersionInfo.rank, VersionInfo.Older, ht, ht', WithBot.coe_lt_coe, Prod.Lex.toLex_lt_toLex]

theorem shouldReplace_iff_lt {m : Managed} {desired : VersionInfo} (hm : ∀ v ∈ probeInstalled m, v.Plain)
    (hdesired : desired.Plain) : shouldReplace (probeInstalled m) desired = true ↔ reported m < desired.rank := by
  rw [reported]
  cases h : probeInstalled m with
  | none =>
    obtain ⟨t, ht⟩ := Option.isSome_iff_exists.mp hdesired
    simp [shouldReplace, VersionInfo.rank, ht, WithBot.bot_lt_coe]
  | some v => rw [shouldReplace_some_iff, rank_lt_iff (hm v (by rw [h]; rfl)) hdesired]

/-! ## What a step of an installer does -/

/-- The phases in which the run is over or about to say what it did. -/
def InstallPhase.isSettled : InstallPhase → Bool
  | .settled .. | .ended _ => true
  | .started | .refused _ | .locked | .probed _ => false

def InstallPhase.tookLock : InstallPhase → Bool
  | .started | .refused _ => false
  | .locked | .probed _ | .settled .. | .ended _ => true

inductive InstallMove (i : Nat) (v : VersionInfo) (d : LibDir) : InstallStep → InstallPhase → LibDir → InstallPhase → Prop
  | refuse (e : InstallError) : InstallMove i v d (.refuse e) .started d (.refused e)
  | lock : d.lock = none → InstallMove i v d .lock .started { d with lock := some i } .locked
  | probe : InstallMove i v d .probe .locked d (.probed (probeInstalled d.managed))
  | rename {previous : Option VersionInfo} : shouldReplace previous v = true →
      InstallMove i v d (.rename true) (.probed previous) { d with managed := .server v } (.settled true previous)
  | keep {previous : Option VersionInfo} : shouldReplace previous v = false →
      InstallMove i v d .keep (.probed previous) d (.settled false previous)
  | ends {step : InstallStep} {phase : InstallPhase} (r : Except InstallError InstallOutcome) : step ≠ .rename true →
      (step.succeeds = true → phase.isSettled = true) →
      InstallMove i v d step phase { d with lock := release i d.lock } (.ended r)

theorem move_of_runInstallTo {windows : Bool} {i : Nat} {step : InstallStep} {d d' : LibDir} {p p' : Installer}
    (h : runInstallTo windows i step d p = some (d', p')) :
    p'.desired = p.desired ∧ InstallMove i p.desired d step p.phase d' p'.phase := by
  obtain ⟨v, phase⟩ := p
  simp only [runInstallTo] at h
  split at h
  · cases h
    exact ⟨rfl, .refuse _⟩
  · split at h
    · next hlock =>
      cases h
      exact ⟨rfl, .lock hlock⟩
    · cases h
  · cases h
    exact ⟨rfl, .probe⟩
  · next previous ok =>
    split at h
    · next hreplace =>
      split at h
      · next hok =>
        cases h
        subst hok
        exact ⟨rfl, .rename hreplace.1⟩
      · next hok =>
        cases h
        exact ⟨rfl, .ends _ (by simpa using hok) fun hsucceeds => absurd hsucceeds hok⟩
    · cases h
  · split at h
    · cases h
      exact ⟨rfl, .ends _ (by simp) fun hsucceeds => nomatch hsucceeds⟩
    · cases h
  · split at h
    · cases h
    · next hkeep =>
      cases h
      exact ⟨rfl, .keep (by simpa using hkeep)⟩
  · split at h
    · cases h
      exact ⟨rfl, .ends _ (by simp) fun _ => rfl⟩
    · cases h
      exact ⟨rfl, .ends _ (by simp) fun _ => rfl⟩
  · cases h
  · cases h
  · cases h
    exact ⟨rfl, .ends _ (by simp) fun hsucceeds => nomatch hsucceeds⟩
  · cases h

/-- What holds of installer `i`: it has the lock from when it takes it to its
end, and what it probed is still what is installed. -/
def Installer.Lawful (i : Nat) (d : LibDir) (p : Installer) : Prop :=
  match p.phase with
  | .started | .refused _ | .ended _ => d.lock ≠ some i
  | .locked | .settled .. => d.lock = some i
  | .probed previous => d.lock = some i ∧ previous = probeInstalled d.managed

theorem Installer.Lawful.move {i : Nat} {d d' : LibDir} {p p' : Installer} {step : InstallStep} (h : p.Lawful i d)
    (hmove : InstallMove i p.desired d step p.phase d' p'.phase) : p'.Lawful i d' := by
  unfold Installer.Lawful at h ⊢
  generalize p'.phase = phase' at hmove
  generalize p.phase = phase at hmove h
  cases hmove with
  | refuse => exact h
  | lock => rfl
  | probe => exact ⟨h, rfl⟩
  | rename => exact h.1
  | keep => exact h.1
  | ends =>
    show release i d.lock ≠ some i
    unfold release
    split <;> simp_all

theorem Installer.Lawful.elsewhere {j : Nat} {d d' : LibDir} {q : Installer} (h : q.Lawful j d)
    (hlock : d.lock ≠ some j) (hlock' : d'.lock ≠ some j) : q.Lawful j d' := by
  unfold Installer.Lawful at h ⊢
  cases hphase : q.phase <;> simp_all

/-- Only the installer that has the lock writes the managed path. -/
theorem Installer.Lawful.frame {i : Nat} {d d' : LibDir} {p p' : Installer} {step : InstallStep} (h : p.Lawful i d)
    (hmove : InstallMove i p.desired d step p.phase d' p'.phase) :
    d' = d ∨ (d.lock = none ∨ d.lock = some i) ∧ (d'.lock = none ∨ d'.lock = some i) := by
  unfold Installer.Lawful at h
  generalize p'.phase = phase' at hmove
  generalize p.phase = phase at hmove h
  cases hmove with
  | refuse => exact .inl rfl
  | lock hlock => exact .inr ⟨.inl hlock, .inr rfl⟩
  | probe => exact .inl rfl
  | rename => exact .inr ⟨.inr h.1, .inr h.1⟩
  | keep => exact .inl rfl
  | ends =>
    unfold release
    split
    · next hlock => exact .inr ⟨.inr hlock, .inl rfl⟩
    · exact .inl rfl

/-- Another installer's move leaves alone what this one relies on. -/
theorem Installer.Lawful.other {i j : Nat} (hij : j ≠ i) {d d' : LibDir} {p p' q : Installer} {step : InstallStep}
    (h : p.Lawful i d) (hmove : InstallMove i p.desired d step p.phase d' p'.phase) (hq : q.Lawful j d) :
    q.Lawful j d' := by
  rcases h.frame hmove with rfl | ⟨hlock, hlock'⟩
  · exact hq
  · exact hq.elsewhere (Crew.not_held hij hlock) (Crew.not_held hij hlock')

/-! ## Runs -/

section
open Crew

variable {windows : Bool} {m : Managed} {desired : Nat → VersionInfo} {ok : Label InstallStep Empty → Prop}
  {w w' : World LibDir Installer}

/-- The invariant of every run. -/
structure InstallInv (desired : Nat → VersionInfo) (w : World LibDir Installer) : Prop where
  desired_eq : ∀ i, (w.party i).desired = desired i
  lawful : ∀ i, (w.party i).Lawful i w.shared

theorem installInv_site : InstallInv desired (installSite m desired) := ⟨fun _ => rfl, fun _ => nofun⟩

theorem InstallInv.move {i : Nat} {step : InstallStep} {d : LibDir} {p : Installer} (h : InstallInv desired w)
    (hdesired : p.desired = (w.party i).desired)
    (hmove : InstallMove i (w.party i).desired w.shared step (w.party i).phase d p.phase) :
    InstallInv desired ⟨d, Function.update w.party i p⟩ where
  desired_eq :=
    forall_update (P := fun i (q : Installer) => q.desired = desired i) (hdesired.trans (h.desired_eq i)) fun j _ =>
      h.desired_eq j
  lawful := forall_update ((h.lawful i).move hmove) fun j hj => (h.lawful i).other hj hmove (h.lawful j)

theorem InstallInv.run (h : InstallInv desired w) (hrun : Run (installers windows) ok w w') : InstallInv desired w' :=
  hrun.inv h (fun _ _ _ _ _ hinv _ hact =>
    have hmove := move_of_runInstallTo hact
    hinv.move hmove.1 hmove.2) fun _ e => e.elim

/-- What is reported stays, or gives way to a later version. -/
def Upgraded (m m' : Managed) : Prop :=
  ∀ v, probeInstalled m = some v → ∃ v', probeInstalled m' = some v' ∧ (v' = v ∨ v.Older v')

theorem Upgraded.refl (m : Managed) : Upgraded m m := fun v hv => ⟨v, hv, .inl rfl⟩

theorem Upgraded.trans {m₁ m₂ m₃ : Managed} (h : Upgraded m₁ m₂) (h' : Upgraded m₂ m₃) : Upgraded m₁ m₃ := by
  intro v hv
  obtain ⟨v₂, hv₂, hle⟩ := h v hv
  obtain ⟨v₃, hv₃, hle'⟩ := h' v₂ hv₂
  refine ⟨v₃, hv₃, ?_⟩
  rcases hle' with rfl | hlt'
  · exact hle
  · rcases hle with rfl | hlt
    · exact .inr hlt'
    · exact .inr (hlt.trans hlt')

theorem upgraded_of_move {i : Nat} {d d' : LibDir} {p p' : Installer} {step : InstallStep} (h : p.Lawful i d)
    (hmove : InstallMove i p.desired d step p.phase d' p'.phase) : Upgraded d.managed d'.managed := by
  unfold Installer.Lawful at h
  generalize p'.phase = phase' at hmove
  generalize p.phase = phase at hmove h
  cases hmove with
  | refuse | lock | probe | keep | ends => exact .refl _
  | rename hreplace =>
    intro v hv
    rw [h.2, hv, shouldReplace_some_iff] at hreplace
    exact ⟨_, rfl, .inr hreplace⟩

theorem managed_of_move {i : Nat} {v : VersionInfo} {d d' : LibDir} {step : InstallStep} {phase phase' : InstallPhase}
    (h : InstallMove i v d step phase d' phase') :
    d'.managed = if step = .rename true then .server v else d.managed := by
  cases h with
  | refuse | lock | probe | keep => exact (if_neg (by simp)).symm
  | rename => exact (if_pos rfl).symm
  | ends r hne => exact (if_neg hne).symm

/-- A rename puts the installer's version in place of an older one or of none, and
nothing else changes the managed path. -/
theorem replaces_of_move {i : Nat} {d d' : LibDir} {p p' : Installer} {step : InstallStep} (h : p.Lawful i d)
    (hmove : InstallMove i p.desired d step p.phase d' p'.phase) :
    (step ≠ .rename true → d'.managed = d.managed) ∧
      (step = .rename true → d'.managed = .server p.desired ∧
        ∀ v, probeInstalled d.managed = some v → v.Older p.desired) := by
  unfold Installer.Lawful at h
  generalize p'.phase = phase' at hmove
  generalize p.phase = phase at hmove h
  cases hmove with
  | refuse | lock | probe | keep => exact ⟨fun _ => rfl, fun hstep => by cases hstep⟩
  | rename hreplace =>
    refine ⟨fun hne => absurd rfl hne, fun _ => ⟨rfl, fun v hv => ?_⟩⟩
    rwa [h.2, hv, shouldReplace_some_iff] at hreplace
  | ends r hne => exact ⟨fun _ => rfl, fun hstep => absurd hstep hne⟩

theorem upgraded_of_run (h : InstallInv desired w) (hrun : Run (installers windows) ok w w') :
    Upgraded w.shared.managed w'.shared.managed := by
  have : InstallInv desired w' ∧ Upgraded w.shared.managed w'.shared.managed := by
    refine hrun.inv (I := fun w' => InstallInv desired w' ∧ Upgraded w.shared.managed w'.shared.managed)
      ⟨h, .refl _⟩ (fun w₁ i a s l hinv _ hact => ?_) fun _ e => e.elim
    have hmove := move_of_runInstallTo hact
    exact ⟨hinv.1.move hmove.1 hmove.2, hinv.2.trans (upgraded_of_move (hinv.1.lawful i) hmove.2)⟩
  exact this.2

/-! ## Runs that succeed -/

/-- The ranks to choose from: what was installed at first, and the versions of
the installers that `done` admits. -/
def offered (m : Managed) (desired : Nat → VersionInfo) (done : Nat → Prop) : Set (WithBot (ℕ ×ₗ Triple)) :=
  {r | r = reported m ∨ ∃ i, done i ∧ r = (desired i).rank}

theorem offered_congr {done done' : Nat → Prop} (h : ∀ i, done i ↔ done' i) :
    offered m desired done = offered m desired done' := by
  rw [show done = done' from funext fun i => propext (h i)]

theorem offered_insert {done done' : Nat → Prop} {i : Nat} (hi : done' i) (h : ∀ j, j ≠ i → (done' j ↔ done j)) :
    offered m desired done' = insert (desired i).rank (offered m desired done) := by
  ext r
  simp only [offered, Set.mem_ofPred_eq, Set.mem_insert_iff]
  constructor
  · rintro (rfl | ⟨j, hj, rfl⟩)
    · exact .inr (.inl rfl)
    · by_cases hji : j = i
      · exact .inl (by rw [hji])
      · exact .inr (.inr ⟨j, (h j hji).mp hj, rfl⟩)
  · rintro (rfl | rfl | ⟨j, hj, rfl⟩)
    · exact .inr ⟨i, hi, rfl⟩
    · exact .inl rfl
    · by_cases hji : j = i
      · exact .inr ⟨i, hi, by rw [hji]⟩
      · exact .inr ⟨j, (h j hji).mpr hj, rfl⟩

/-- The invariant of the runs whose steps succeed: the managed path reports the
greatest of what the settled installers offered. -/
structure Greatest (m : Managed) (desired : Nat → VersionInfo) (w : World LibDir Installer) : Prop
    extends InstallInv desired w where
  plain : ∀ v ∈ probeInstalled w.shared.managed, v.Plain
  greatest : IsGreatest (offered m desired fun i => (w.party i).phase.isSettled = true) (reported w.shared.managed)

def Label.succeeds : Label InstallStep Empty → Bool
  | .act _ step => step.succeeds
  | .env e => e.elim

theorem settled_update {party : Nat → Installer} {i : Nat} {p : Installer}
    (h : p.phase.isSettled = (party i).phase.isSettled) (j : Nat) :
    ((party j).phase.isSettled = true ↔ (Function.update party i p j).phase.isSettled = true) := by
  by_cases hj : j = i
  · subst hj
    rw [Function.update_self, h]
  · rw [Function.update_of_ne hj]

theorem offered_settle {party : Nat → Installer} {i : Nat} {p : Installer} (h : p.phase.isSettled = true) :
    offered m desired (fun j => (Function.update party i p j).phase.isSettled = true) =
      insert (desired i).rank (offered m desired fun j => (party j).phase.isSettled = true) := by
  refine offered_insert (by rwa [Function.update_self]) fun j hj => ?_
  rw [Function.update_of_ne hj]

theorem Greatest.move {i : Nat} {step : InstallStep} {d : LibDir} {p : Installer} (h : Greatest m desired w)
    (hplain : ∀ i, (desired i).Plain) (hsucceeds : step.succeeds = true) (hdesired : p.desired = (w.party i).desired)
    (hmove : InstallMove i (w.party i).desired w.shared step (w.party i).phase d p.phase) :
    Greatest m desired ⟨d, Function.update w.party i p⟩ := by
  have hinv := h.toInstallInv.move hdesired hmove
  have hlawful := h.lawful i
  have hsame : ∀ {d' : LibDir}, d'.managed = w.shared.managed → p.phase.isSettled = (w.party i).phase.isSettled →
      InstallInv desired ⟨d', Function.update w.party i p⟩ → Greatest m desired ⟨d', Function.update w.party i p⟩ := by
    intro d' hmanaged hsettled hinv'
    refine ⟨hinv', by simpa only [hmanaged] using h.plain, ?_⟩
    show IsGreatest _ (reported d'.managed)
    rw [hmanaged, ← offered_congr (settled_update hsettled)]
    exact h.greatest
  unfold Installer.Lawful at hlawful
  rw [h.desired_eq i] at hmove
  generalize hphase' : p.phase = phase' at hmove
  generalize hphase : (w.party i).phase = phase at hmove hlawful
  cases hmove with
  | refuse | lock | probe => exact hsame rfl (by rw [hphase, hphase']; rfl) hinv
  | rename hreplace =>
    rw [hlawful.2, shouldReplace_iff_lt h.plain (hplain i)] at hreplace
    refine ⟨hinv, ?_, ?_⟩
    · rintro v ⟨⟩
      exact hplain i
    · show IsGreatest _ (desired i).rank
      rw [offered_settle (by rw [hphase']; rfl)]
      have := h.greatest.insert (desired i).rank
      rwa [max_eq_left hreplace.le] at this
  | keep hkeep =>
    have hle : (desired i).rank ≤ reported w.shared.managed := by
      rw [hlawful.2, ← Bool.not_eq_true, shouldReplace_iff_lt h.plain (hplain i)] at hkeep
      exact not_lt.mp hkeep
    refine ⟨hinv, h.plain, ?_⟩
    rw [offered_settle (by rw [hphase']; rfl)]
    have := h.greatest.insert (desired i).rank
    rwa [max_eq_right hle] at this
  | ends r _ hends => exact hsame rfl (by rw [hphase, hphase', hends hsucceeds]; rfl) hinv

theorem greatest_of_run (hm : ∀ v ∈ probeInstalled m, v.Plain) (hplain : ∀ i, (desired i).Plain)
    (hrun : Run (installers windows) (fun l => Label.succeeds l = true) (installSite m desired) w) :
    Greatest m desired w := by
  refine hrun.inv ⟨installInv_site, hm, ?_⟩ (fun w₁ i a s l hinv hok hact => ?_) fun _ e => e.elim
  · refine ⟨.inl rfl, ?_⟩
    rintro r (rfl | ⟨i, hi, -⟩)
    · exact le_rfl
    · exact absurd hi (by simp [installSite, InstallPhase.isSettled])
  · have hmove := move_of_runInstallTo hact
    exact hinv.move hplain hok hmove.1 hmove.2

/-- The steps of an installer that finds the lock free and replaces what is
there, or keeps it. -/
def wholeRun (i : Nat) (replaces : Bool) : List (Label InstallStep Empty) :=
  [.lock, .probe, if replaces then .rename true else .keep, .report].map (.act i)

/-- Whatever the order and the outcomes, nothing but a rename changes the managed
path, and one that replaces a server which reports its version finds it strictly
older; so what is reported never goes back, and equal protocols are replaced only
for greater version numbers. Once the lock is free after steps that succeeded,
all versions being three numbers, what is reported is the greatest of the first
version and those of the runs that had the lock. The client's decision is that of
the installers. -/
theorem installs_only_upgrade_and_converge (windows : Bool) (m : Managed) (desired : Nat → VersionInfo) :
    (∀ w i step w', Run (installers windows) (fun _ => True) (installSite m desired) w →
      (installers windows).step w (.act i step) = some w' →
      (step ≠ .rename true → w'.shared.managed = w.shared.managed) ∧
        (step = .rename true → w'.shared.managed = .server (desired i) ∧
          ∀ v, probeInstalled w.shared.managed = some v → v.protocolVersion < (desired i).protocolVersion ∨
            v.protocolVersion = (desired i).protocolVersion ∧ ∃ t t', parseTriple v.softwareVersion = some t ∧
              parseTriple (desired i).softwareVersion = some t' ∧ t < t')) ∧
    (∀ w w', Run (installers windows) (fun _ => True) (installSite m desired) w →
      Run (installers windows) (fun _ => True) w w' →
      ∀ v, probeInstalled w.shared.managed = some v →
        ∃ v', probeInstalled w'.shared.managed = some v' ∧ v.protocolVersion ≤ v'.protocolVersion ∧
          (v.protocolVersion = v'.protocolVersion → v' = v ∨
            ∃ t t', parseTriple v.softwareVersion = some t ∧ parseTriple v'.softwareVersion = some t' ∧ t < t')) ∧
    ((∀ v ∈ probeInstalled m, v.Plain) → (∀ i, (desired i).Plain) →
      ∀ w, Run (installers windows) (fun l => Label.succeeds l = true) (installSite m desired) w →
        w.shared.lock = none →
        IsGreatest (offered m desired fun i => (w.party i).phase.tookLock = true) (reported w.shared.managed)) ∧
    ∀ installed wanted, preflight installed wanted = .needInstall ↔ shouldReplace installed wanted = true := by
  refine ⟨fun w i step w' hrun hstep => ?_, fun w w' hrun hrun' v hv => ?_, fun hm hplain w hrun hfree => ?_,
    preflight_eq_needInstall_iff⟩
  · have hinv := installInv_site.run hrun
    obtain ⟨⟨d, p⟩, hact, rfl⟩ := Option.map_eq_some_iff.mp hstep
    have hmove := move_of_runInstallTo hact
    have h := replaces_of_move (hinv.lawful i) hmove.2
    rwa [hinv.desired_eq i] at h
  · obtain ⟨v', hv', hle⟩ := upgraded_of_run (installInv_site.run hrun) hrun' v hv
    refine ⟨v', hv', ?_⟩
    rcases hle with rfl | hlt | ⟨heq, hlt⟩
    · exact ⟨le_rfl, fun _ => .inl rfl⟩
    · exact ⟨hlt.le, fun heq => absurd heq hlt.ne⟩
    · exact ⟨heq.le, fun _ => .inr hlt⟩
  · have h := greatest_of_run hm hplain hrun
    have hsettled : ∀ i, (w.party i).phase.tookLock = true ↔ (w.party i).phase.isSettled = true := by
      intro i
      have hlawful := h.lawful i
      unfold Installer.Lawful at hlawful
      rw [hfree] at hlawful
      cases hphase : (w.party i).phase <;> simp_all [InstallPhase.tookLock, InstallPhase.isSettled]
    rw [offered_congr hsettled]
    exact h.greatest

/-- The newer of two installers comes first. -/
theorem installs_only_upgrade_and_converge_newer_first :
    ∃ w, Run (installers false) (fun l => Label.succeeds l = true)
        (installSite .unversioned fun i => ⟨if i = 0 then "0.2.0" else "0.10.0", 3⟩) w ∧
      w.shared.managed = .server ⟨"0.10.0", 3⟩ ∧
      IsGreatest (offered .unversioned (fun i => ⟨if i = 0 then "0.2.0" else "0.10.0", 3⟩)
        fun i => (w.party i).phase.tookLock = true) (reported w.shared.managed) := by
  have hrun : ((steps (installers false) (installSite .unversioned fun i => ⟨if i = 0 then "0.2.0" else "0.10.0", 3⟩)
      (wholeRun 1 true ++ wholeRun 0 false)).map fun w =>
        decide (w.shared.lock = none ∧ w.shared.managed = .server ⟨"0.10.0", 3⟩)) = some true := by decide +kernel
  obtain ⟨w, hw, hend⟩ := Option.map_eq_some_iff.mp hrun
  have hend := of_decide_eq_true hend
  have hsucceeds : ∀ l ∈ wholeRun 1 true ++ wholeRun 0 false, Label.succeeds l = true := by decide
  have hreached : Run (installers false) (fun l => Label.succeeds l = true) _ w := run_of_steps hsucceeds hw
  refine ⟨w, hreached, hend.2, ?_⟩
  refine (installs_only_upgrade_and_converge false .unversioned _).2.2.1 (fun v hv => nomatch hv) (fun i => ?_) w hreached
    hend.1
  unfold VersionInfo.Plain
  split <;> decide +kernel

end

end RemoteWorkspace
