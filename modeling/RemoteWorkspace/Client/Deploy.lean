import RemoteWorkspace.Client.Fleet
import RemoteWorkspace.Client.Probes
import RemoteWorkspace.Lib.Alone

/-!
# Onboarding

`deploy_managed` of the client: it asks the server on the remote host for its
version, and where that is older gets the released artifact, uploads it and has
it install itself (`install.rs`). What the remote host prints is found behind a
marker, for a shell may print a banner of its own.

The artifact goes through a cache on this host that other clients write too, and
through a pipe to the remote one. Whatever happens to it there, only what has the
hash of the release manifest takes the managed path
(`deploy_installs_released`).
-/

namespace RemoteWorkspace

open Text
open Interleave

/-! ## What onboarding uses -/

structure ManifestArtifact where
  os : String
  arch : String
  file : String
  sha256 : String
  deriving DecidableEq, Repr

structure ReleaseManifest where
  softwareVersion : String
  protocolVersion : Nat
  artifacts : List ManifestArtifact
  deriving DecidableEq, Repr

inductive ManifestFailure where
  | fetch (e : String)
  | parse (e : String)
  | otherVersion (declared client : String)
  deriving DecidableEq, Repr

inductive RemoteInstallFailure where
  | readArtifact (e : String)
  | upload (e : String)
  | reported (v : Option VersionInfo)
  | script (e : String)
  | noOutcome (out : List Char)
  | unparseable (json : List Char) (e : String)
  deriving DecidableEq

/-- The errors of an onboarding, named by their codes, and what each reports. -/
inductive OnboardError where
  | sshConnectFailed (e : String)
  | remoteProbeFailed (out : List Char)
  | serverProbeFailed (json : List Char) (e : String)
  | clientTooOld (installed desired : VersionInfo)
  | noArtifactFor (os arch : String)
  | needsPosixShell
  | releaseManifestUnavailable (why : ManifestFailure)
  | artifactNotFound (why : String)
  | artifactCacheFailed (e : String)
  | artifactChecksumMismatch (file got expects : String)
  | remoteInstallFailed (why : RemoteInstallFailure)
  /-- The `expect` of a probed server. -/
  | panicked
  deriving DecidableEq

/-- A server that is probed. -/
inductive ProbedBin where
  | managed
  | uploaded
  deriving DecidableEq, Repr

inductive DeployCmd where
  | probe (bin : ProbedBin)
  | fetchManifest
  | createCacheDir
  | readCached
  | fetch (file : String)
  /-- Write a temporary file of its own and rename it to the cached one. -/
  | store (bytes : List UInt8)
  | readArtifact
  | spawnUpload
  /-- `cat` into a temporary file of its own on the remote host. -/
  | upload (bytes : List UInt8)
  | removeUpload
  /-- Start the uploaded server with `--install-to`. -/
  | installTo (expectSha256 : String)
  deriving DecidableEq, Repr

abbrev DeployCmd.Result : DeployCmd → Type
  | probe _ => Except String (List Char)
  | fetchManifest => Except String (List UInt8)
  | createCacheDir => Except String Unit
  | readCached => Option (List UInt8)
  | fetch _ => Except String (List UInt8)
  | store _ => Except String Unit
  | readArtifact => Except String (List UInt8)
  | spawnUpload => Except String Unit
  | upload _ => Except String Unit
  | removeUpload => Unit
  | installTo _ => Except String (List Char)

/-- What an onboarding does. -/
structure DeployLog where
  /-- The manifest it was given. -/
  manifest : Option (List UInt8) := none
  /-- What it put into the cache. -/
  stored : List (List UInt8) := []
  /-- What is at its own path on the remote host. -/
  upload : Option (List UInt8) := none
  /-- What it put at the managed path, and what was there. -/
  installs : List (Option (List UInt8) × List UInt8) := []
  deriving DecidableEq, Repr

/-- The uploaded server, which installs itself. -/
structure SelfInstall where
  /-- Its own binary. -/
  bytes : List UInt8
  expectSha256 : String
  run : Installer

structure DeployState where
  /-- The cached artifact. -/
  cached : Option (List UInt8)
  managed : Option (List UInt8)
  /-- Who has the install lock: the uploaded server is number 0. -/
  lock : Option Nat := none
  installer : Option SelfInstall := none
  mine : DeployLog

/-- What happens on the remote host by itself. -/
inductive HostMove where
  /-- Another process takes the install lock. -/
  | lock (i : Nat)
  | unlock (i : Nat)
  /-- Another process that has the lock writes the managed path. -/
  | write (i : Nat) (bytes : Option (List UInt8))
  /-- The uploaded server goes on, whether or not the client still waits for it. -/
  | install (step : InstallStep)
  deriving DecidableEq

/-- What a step meets: what others have put into the cache and what has happened on
the remote host by then, what the network and the remote host answer, what of an
upload arrives. -/
structure DeployChoice where
  cached : Option (List UInt8) → Option (List UInt8) := id
  moves : List HostMove := []
  fault : Option String := none
  out : Except String (List Char) := .ok []
  bytes : Except String (List UInt8) := .ok []
  arrives : List UInt8 → List UInt8 := id

def DeployChoice.done (ch : DeployChoice) : Except String Unit :=
  match ch.fault with
  | some e => .error e
  | none => .ok ()

def hexDigest (sha256 : Sha256) (bytes : List UInt8) : String := String.ofList (hexEncode (sha256 bytes))

/-- How the texts are read, and what a binary answers to `--version-json`. -/
structure ReleaseFormats where
  manifest : List UInt8 → Except String ReleaseManifest
  version : List Char → Except String VersionInfo
  outcome : List Char → Except String InstallOutcome
  versionOf : List UInt8 → Option VersionInfo
  lowercase : Lowercase

/-- What is at the managed path, as an installer sees it. -/
def managedOf (fmts : ReleaseFormats) : Option (List UInt8) → Managed
  | none => .absent
  | some bytes =>
    match fmts.versionOf bytes with
    | some v => .server v
    | none => .unversioned

section

variable (fmts : ReleaseFormats) (sha256 : Sha256)

def DeployState.libDir (s : DeployState) : LibDir := { managed := managedOf fmts s.managed, lock := s.lock }

/-- A step of `run_install_to` of the uploaded server, which checks its own hash
before it takes the lock. -/
def selfInstall (step : InstallStep) (s : DeployState) : DeployState :=
  match s.installer with
  | none => s
  | some self =>
    if step = .lock ∧ eqIgnoreAsciiCase (hexDigest sha256 self.bytes).toList self.expectSha256.toList = false then s
    else
      match runInstallTo false 0 step (s.libDir fmts) self.run with
      | none => s
      | some (d, run) =>
        { s with
          managed := if step = .rename true then some self.bytes else s.managed
          lock := d.lock
          installer := some { self with run }
          mine :=
            if step = .rename true then
              { s.mine with upload := none, installs := s.mine.installs ++ [(s.managed, self.bytes)] }
            else if step = .keep then { s.mine with upload := none }
            else s.mine }

def HostMove.exec (m : HostMove) (s : DeployState) : DeployState :=
  match m with
  | lock i => if s.lock = none then { s with lock := some (i + 1) } else s
  | unlock i => { s with lock := release (i + 1) s.lock }
  | write i bytes => if s.lock = some (i + 1) then { s with managed := bytes } else s
  | install step => selfInstall fmts sha256 step s

def hostMoves (moves : List HostMove) (s : DeployState) : DeployState :=
  moves.foldl (fun s m => m.exec fmts sha256 s) s

/-- The uploaded server is started, unless it does not run. A binary that says its
version is taken to be a server. -/
def startInstall (expectSha256 : String) (s : DeployState) : DeployState :=
  match s.mine.upload with
  | none => s
  | some bytes =>
    match fmts.versionOf bytes with
    | none => s
    | some desired => { s with installer := some { bytes, expectSha256, run := { desired, phase := .started } } }

/-- What a step finds. -/
def DeployChoice.meets (ch : DeployChoice) (s : DeployState) : DeployState :=
  hostMoves fmts sha256 ch.moves { s with cached := ch.cached s.cached }

def DeployCmd.exec (c : DeployCmd) (ch : DeployChoice) (s₀ : DeployState) : c.Result × DeployState :=
  let s := ch.meets fmts sha256 s₀
  match c with
  | probe _ => (ch.out, s)
  | fetchManifest => (ch.bytes, { s with mine := { s.mine with manifest := ch.bytes.toOption } })
  | createCacheDir => (ch.done, s)
  | readCached => (if ch.fault = none then s.cached else none, s)
  | fetch _ => (ch.bytes, s)
  | store bytes =>
    match ch.fault with
    | some e => (.error e, s)
    | none => (.ok (), { s with cached := some bytes, mine := { s.mine with stored := s.mine.stored ++ [bytes] } })
  | readArtifact =>
    (match ch.fault, s.cached with
      | some e, _ => .error e
      | none, none => .error "no such file"
      | none, some bytes => .ok bytes, s)
  | spawnUpload => (ch.done, s)
  | upload bytes => (ch.done, { s with mine := { s.mine with upload := some (ch.arrives bytes) } })
  | removeUpload => ((), { s with mine := { s.mine with upload := none } })
  | installTo expectSha256 => (ch.out, if ch.fault = none then startInstall fmts expectSha256 s else s)

abbrev Deploy := ExceptT OnboardError (Prog DeployCmd DeployCmd.Result)

def Deploy.call (c : DeployCmd) : Deploy c.Result := Prog.issue c

open Deploy (call)
open Prog (orThrow)

/-! ## The code -/

structure CachedArtifact where
  sha256 : String
  desired : VersionInfo
  deriving DecidableEq

inductive ServerStep where
  | installed (outcome : InstallOutcome)
  | alreadyCurrent (v : VersionInfo)
  deriving DecidableEq

def artifactTarget (os arch : String) : Except OnboardError String :=
  if os = "linux" ∧ arch = "x86_64" then .ok "linux-x86_64-musl" else .error (.noArtifactFor os arch)

def probeRemote (bin : ProbedBin) : Deploy (Option VersionInfo) := do
  let out ← orThrow .sshConnectFailed (call (.probe bin))
  match parseInstalledVersion fmts.version out with
  | .ok v => return v
  | .error (.noValue out) => throw (.remoteProbeFailed out)
  | .error (.unparseable json e) => throw (.serverProbeFailed json e)

def fetchArtifact (artifact : ManifestArtifact) (desired : VersionInfo) : Deploy CachedArtifact := do
  let bytes ← orThrow .artifactNotFound (call (.fetch artifact.file))
  let got := hexDigest sha256 bytes
  if eqIgnoreAsciiCase got.toList artifact.sha256.toList = false then
    throw (.artifactChecksumMismatch artifact.file got artifact.sha256)
  else
    orThrow .artifactCacheFailed (call (.store bytes))
    return { sha256 := got, desired }

/-- The artifact of the manifest, from the cache or fetched into it. -/
def cachedArtifact (artifact : ManifestArtifact) (desired : VersionInfo) : Deploy CachedArtifact := do
  orThrow .artifactCacheFailed (call .createCacheDir)
  match ← call .readCached with
  | some bytes =>
    if eqIgnoreAsciiCase (hexDigest sha256 bytes).toList artifact.sha256.toList then
      return { sha256 := String.ofList (fmts.lowercase.lower artifact.sha256.toList), desired }
    else fetchArtifact sha256 artifact desired
  | none => fetchArtifact sha256 artifact desired

def resolveArtifact (clientVersion os arch : String) : Deploy CachedArtifact := do
  let _target ← ExceptT.mk (pure (artifactTarget os arch))
  let bytes ← orThrow (fun e => .releaseManifestUnavailable (.fetch e)) (call .fetchManifest)
  match fmts.manifest bytes with
  | .error e => throw (.releaseManifestUnavailable (.parse e))
  | .ok manifest =>
    if manifest.softwareVersion ≠ clientVersion then
      throw (.releaseManifestUnavailable (.otherVersion manifest.softwareVersion clientVersion))
    else
      match manifest.artifacts.find? fun a => a.os = os ∧ a.arch = arch with
      | none => throw (.artifactNotFound (os ++ "-" ++ arch))
      | some artifact =>
        cachedArtifact fmts sha256 artifact
          { softwareVersion := manifest.softwareVersion, protocolVersion := manifest.protocolVersion }

def uploadAndInstall (artifact : CachedArtifact) : Deploy InstallOutcome := do
  let bytes ← orThrow (fun e => .remoteInstallFailed (.readArtifact e)) (call .readArtifact)
  orThrow .sshConnectFailed (call .spawnUpload)
  orThrow (fun e => .remoteInstallFailed (.upload e)) (call (.upload bytes))
  let reported ← probeRemote fmts .uploaded
  if reported ≠ some artifact.desired then
    call .removeUpload
    throw (.remoteInstallFailed (.reported reported))
  else
    let out ← orThrow (fun e => .remoteInstallFailed (.script e)) (call (.installTo artifact.sha256))
    match markedValue out with
    | none => throw (.remoteInstallFailed (.noOutcome out))
    | some json =>
      match fmts.outcome json with
      | .error e => throw (.remoteInstallFailed (.unparseable json e))
      | .ok outcome => return outcome

def deployManaged (shell : RemoteShell) (clientVersion : String) (protocolVersion : Nat) (os arch : String) :
    Deploy ServerStep := do
  let installed ← probeRemote fmts .managed
  let desired : VersionInfo := { softwareVersion := clientVersion, protocolVersion }
  match preflight installed desired, installed with
  | .connect, some v => return .alreadyCurrent v
  | .connect, none => throw .panicked
  | .clientTooOld, some v => throw (.clientTooOld v desired)
  | .clientTooOld, none => throw .panicked
  | .needInstall, _ =>
    if shell ≠ .posix then throw .needsPosixShell
    else
      let artifact ← resolveArtifact fmts sha256 clientVersion os arch
      let outcome ← uploadAndInstall fmts artifact
      return .installed outcome

/-- A step, whatever it meets. -/
def DeployStep (c : DeployCmd) (r : c.Result) (s s' : DeployState) : Prop :=
  ∃ ch, c.exec fmts sha256 ch s = (r, s')

end

/-! ## What an onboarding has done -/

/-- A manifest of this client's release gives an artifact for the platform this
hash. -/
def Released (fmts : ReleaseFormats) (clientVersion os arch : String) (manifest : Option (List UInt8)) (sha : String) :
    Prop :=
  ∃ bytes m artifact, manifest = some bytes ∧ fmts.manifest bytes = .ok m ∧ m.softwareVersion = clientVersion ∧
    artifact ∈ m.artifacts ∧ artifact.os = os ∧ artifact.arch = arch ∧
    eqIgnoreAsciiCase sha.toList artifact.sha256.toList = true

theorem Released.of_eq {fmts : ReleaseFormats} {clientVersion os arch sha sha' : String} {manifest : Option (List UInt8)}
    (h : Released fmts clientVersion os arch manifest sha) (heq : eqIgnoreAsciiCase sha'.toList sha.toList = true) :
    Released fmts clientVersion os arch manifest sha' := by
  obtain ⟨bytes, m, artifact, hm, hparse, hversion, hmem, hos, harch, hsha⟩ := h
  refine ⟨bytes, m, artifact, hm, hparse, hversion, hmem, hos, harch, ?_⟩
  rw [eqIgnoreAsciiCase_iff] at heq hsha ⊢
  exact heq.trans hsha

theorem ascii_hexDigest (sha256 : Sha256) (bytes : List UInt8) :
    ∀ c ∈ (hexDigest sha256 bytes).toList, c.toNat < 128 := by
  have hdigit : ∀ n, (hexDigit n).toNat < 128 := by
    intro n
    have hall : ('0' :: "0123456789abcdef".toList).all (fun c => c.toNat < 128) = true := by decide
    apply of_decide_eq_true
    apply List.all_eq_true.mp hall
    rw [hexDigit, List.getD_eq_getElem?_getD]
    cases h : "0123456789abcdef".toList[n]? with
    | none => exact List.mem_cons_self
    | some c => exact List.mem_cons_of_mem _ (List.mem_of_getElem? h)
  intro c hc
  rw [hexDigest, String.toList_ofList, hexEncode, List.mem_flatMap] at hc
  obtain ⟨b, -, hc⟩ := hc
  simp only [List.mem_cons, List.not_mem_nil, or_false] at hc
  rcases hc with rfl | rfl <;> exact hdigit _

section

variable {fmts : ReleaseFormats} {sha256 : Sha256} {clientVersion os arch : String}

/-- Nothing was installed, and only what is released went into the cache. -/
structure DeployLog.Waiting (fmts : ReleaseFormats) (sha256 : Sha256) (clientVersion os arch : String) (m : DeployLog) :
    Prop where
  installs : m.installs = []
  stored : ∀ b ∈ m.stored, Released fmts clientVersion os arch m.manifest (hexDigest sha256 b)

/-- What took the managed path has the hash of the manifest, says its version, and
what was there says an older one or none. -/
structure InstalledReleased (fmts : ReleaseFormats) (sha256 : Sha256) (clientVersion os arch : String)
    (manifest : Option (List UInt8)) (before : Option (List UInt8)) (b : List UInt8) : Prop where
  released : Released fmts clientVersion os arch manifest (hexDigest sha256 b)
  newer : ∃ v, fmts.versionOf b = some v ∧ shouldReplace (probeInstalled (managedOf fmts before)) v = true

/-- One installation at the most, of what is released. -/
structure DeployLog.Proper (fmts : ReleaseFormats) (sha256 : Sha256) (clientVersion os arch : String) (m : DeployLog) :
    Prop where
  installs : m.installs = [] ∨
    ∃ before b, m.installs = [(before, b)] ∧ InstalledReleased fmts sha256 clientVersion os arch m.manifest before b
  stored : ∀ b ∈ m.stored, Released fmts clientVersion os arch m.manifest (hexDigest sha256 b)

/-- Nothing has been done to either host. -/
structure DeployLog.Fresh (m : DeployLog) : Prop where
  stored : m.stored = []
  upload : m.upload = none
  installs : m.installs = []

theorem DeployLog.Fresh.waiting {m : DeployLog} (h : m.Fresh) : m.Waiting fmts sha256 clientVersion os arch :=
  ⟨h.installs, by simp [h.stored]⟩

/-- No uploaded server is running. -/
structure DeployState.Idle (P : DeployLog → Prop) (s : DeployState) : Prop where
  installer : s.installer = none
  lock : s.lock ≠ some 0
  mine : P s.mine

theorem DeployState.Idle.mono {P Q : DeployLog → Prop} (h : ∀ m, P m → Q m) {s : DeployState} (hs : s.Idle P) :
    s.Idle Q :=
  ⟨hs.installer, hs.lock, h _ hs.mine⟩

/-- From when it has the lock to the rename. -/
def InstallPhase.isArmed : InstallPhase → Bool
  | .locked | .probed _ => true
  | .started | .refused _ | .settled .. | .ended _ => false

/-- An uploaded server on its way: nothing was installed before it settles, it has
the released hash when it has the lock, and it has the lock when it ought to. -/
structure SelfInstall.Going (fmts : ReleaseFormats) (sha256 : Sha256) (clientVersion os arch : String) (s : DeployState)
    (b : SelfInstall) : Prop where
  version : fmts.versionOf b.bytes = some b.run.desired
  released : Released fmts clientVersion os arch s.mine.manifest b.expectSha256
  hash : b.run.phase.isArmed = true →
    eqIgnoreAsciiCase (hexDigest sha256 b.bytes).toList b.expectSha256.toList = true
  lawful : b.run.Lawful 0 (s.libDir fmts)
  early : b.run.phase.isSettled = false → s.mine.installs = []

/-- The invariant of an onboarding from its start on, whatever still runs. -/
structure DeployState.Sound (fmts : ReleaseFormats) (sha256 : Sha256) (clientVersion os arch : String) (s : DeployState) :
    Prop where
  proper : s.mine.Proper fmts sha256 clientVersion os arch
  going : ∀ b, s.installer = some b → b.Going fmts sha256 clientVersion os arch s

theorem DeployState.Idle.sound {s : DeployState} (h : s.Idle (DeployLog.Waiting fmts sha256 clientVersion os arch)) :
    s.Sound fmts sha256 clientVersion os arch where
  proper := ⟨.inl h.mine.installs, h.mine.stored⟩
  going := by
    intro self hself
    rw [h.installer] at hself
    cases hself

/-! ## What happens on the remote host -/

variable (fmts sha256) in
/-- Others take nothing from the uploaded server that it relies on. -/
theorem HostMove.others {m : HostMove} (hm : ∀ step, m ≠ .install step) (s : DeployState) :
    (m.exec fmts sha256 s).mine = s.mine ∧ (m.exec fmts sha256 s).installer = s.installer ∧
      (m.exec fmts sha256 s = s ∨ s.lock ≠ some 0 ∧ (m.exec fmts sha256 s).lock ≠ some 0) := by
  cases m with
  | lock i =>
    simp only [exec]
    split
    · rename_i hfree
      exact ⟨rfl, rfl, .inr ⟨by simp [hfree], by simp⟩⟩
    · exact ⟨rfl, rfl, .inl rfl⟩
  | unlock i =>
    refine ⟨rfl, rfl, ?_⟩
    simp only [exec, release]
    split
    · rename_i hheld
      exact .inr ⟨by simp [hheld], by simp⟩
    · exact .inl rfl
  | write i bytes =>
    simp only [exec]
    split
    · rename_i hheld
      exact ⟨rfl, rfl, .inr ⟨by simp [hheld], by simp [hheld]⟩⟩
    · exact ⟨rfl, rfl, .inl rfl⟩
  | install step => exact absurd rfl (hm step)

/-- The uploaded server takes the steps of an installer, and leaves the managed
path as that does. -/
theorem selfInstall_cases (step : InstallStep) {s t : DeployState} (ht : selfInstall fmts sha256 step s = t)
    {b : SelfInstall} (hb : s.installer = some b) (hversion : fmts.versionOf b.bytes = some b.run.desired) :
    t = s ∨ ∃ run, t.installer = some { b with run } ∧
      runInstallTo false 0 step (s.libDir fmts) b.run = some (t.libDir fmts, run) ∧
      (step = .lock → eqIgnoreAsciiCase (hexDigest sha256 b.bytes).toList b.expectSha256.toList = true) ∧
      t.mine.manifest = s.mine.manifest ∧ t.mine.stored = s.mine.stored ∧
      t.mine.installs = if step = .rename true then s.mine.installs ++ [(s.managed, b.bytes)] else s.mine.installs := by
  rw [selfInstall, hb] at ht
  dsimp only at ht
  split at ht
  · exact .inl ht.symm
  rename_i hhash
  split at ht
  · exact .inl ht.symm
  rename_i d run hrun
  refine .inr ⟨run, by rw [← ht], ?_, fun hlock => Bool.eq_true_of_not_eq_false fun hnot => hhash ⟨hlock, hnot⟩, ?_⟩
  · have hmanaged := managed_of_move (move_of_runInstallTo hrun).2
    obtain ⟨managed, lock⟩ := d
    rw [hrun, ← ht, DeployState.libDir]
    dsimp only at hmanaged ⊢
    rw [hmanaged]
    split
    · simp only [managedOf, hversion]
    · rfl
  · rw [← ht]
    dsimp only
    by_cases hrename : step = .rename true
    · simp only [if_pos hrename, and_self]
    · by_cases hkeep : step = .keep
      · simp only [if_neg hrename, if_pos hkeep, and_self]
      · simp only [if_neg hrename, if_neg hkeep, and_self]

/-- What an installer that takes a step was and is. -/
theorem InstallMove.armed {i : Nat} {v : VersionInfo} {d d' : LibDir} {step : InstallStep} {phase phase' : InstallPhase}
    (h : InstallMove i v d step phase d' phase') :
    (phase'.isArmed = true → step = .lock ∨ phase.isArmed = true) ∧
      (phase'.isSettled = false → phase.isSettled = false ∧ step ≠ .rename true) ∧
      (step = .rename true → phase.isArmed = true ∧ phase.isSettled = false ∧
        ∃ previous, phase = .probed previous ∧ shouldReplace previous v = true) := by
  cases h with
  | refuse e => exact ⟨by simp [InstallPhase.isArmed], fun _ => ⟨rfl, by simp⟩, by simp⟩
  | lock => exact ⟨fun _ => .inl rfl, fun _ => ⟨rfl, by simp⟩, by simp⟩
  | probe => exact ⟨fun _ => .inr rfl, fun _ => ⟨rfl, by simp⟩, by simp⟩
  | rename hreplace =>
    exact ⟨by simp [InstallPhase.isArmed], by simp [InstallPhase.isSettled], fun _ => ⟨rfl, rfl, _, rfl, hreplace⟩⟩
  | keep => exact ⟨by simp [InstallPhase.isArmed], by simp [InstallPhase.isSettled], by simp⟩
  | ends r hne => exact ⟨by simp [InstallPhase.isArmed], by simp [InstallPhase.isSettled], fun hstep => absurd hstep hne⟩

theorem DeployState.Sound.selfInstall {s : DeployState} (h : s.Sound fmts sha256 clientVersion os arch)
    (step : InstallStep) : (selfInstall fmts sha256 step s).Sound fmts sha256 clientVersion os arch := by
  generalize ht : RemoteWorkspace.selfInstall fmts sha256 step s = t
  cases hb : s.installer with
  | none =>
    rw [RemoteWorkspace.selfInstall, hb] at ht
    exact ht ▸ h
  | some b =>
    have hgoing := h.going b hb
    obtain rfl | ⟨run, hinstaller, hrun, hlock, hmanifest, hstored, hinstalls⟩ :=
      selfInstall_cases step ht hb hgoing.version
    · exact h
    obtain ⟨hdesired, hmove⟩ := move_of_runInstallTo hrun
    obtain ⟨harmed, hearly, hrename⟩ := hmove.armed
    refine ⟨⟨?_, ?_⟩, ?_⟩
    · rw [hinstalls, hmanifest]
      split
      · rename_i hstep
        obtain ⟨hwas, hbefore, previous, hphase, hreplace⟩ := hrename hstep
        have hlawful := hgoing.lawful
        rw [Installer.Lawful, hphase] at hlawful
        rw [hgoing.early hbefore]
        refine .inr ⟨s.managed, b.bytes, rfl, hgoing.released.of_eq (hgoing.hash hwas), b.run.desired, hgoing.version, ?_⟩
        rw [hlawful.2] at hreplace
        exact hreplace
      · exact h.proper.installs
    · rw [hstored, hmanifest]
      exact h.proper.stored
    · intro b' hb'
      rw [hinstaller] at hb'
      cases hb'
      refine ⟨?_, ?_, ?_, hgoing.lawful.move hmove, ?_⟩
      · rw [hdesired]
        exact hgoing.version
      · rw [hmanifest]
        exact hgoing.released
      · intro hnow
        rcases harmed hnow with hstep | hwas
        · exact hlock hstep
        · exact hgoing.hash hwas
      · intro hnow
        obtain ⟨hwas, hstep⟩ := hearly hnow
        rw [hinstalls, if_neg hstep]
        exact hgoing.early hwas

theorem DeployState.Sound.hostMove {s : DeployState} (h : s.Sound fmts sha256 clientVersion os arch) (m : HostMove) :
    (m.exec fmts sha256 s).Sound fmts sha256 clientVersion os arch := by
  by_cases hm : ∃ step, m = .install step
  · obtain ⟨step, rfl⟩ := hm
    exact h.selfInstall step
  · obtain ⟨hmine, hinstaller, hlock⟩ := HostMove.others fmts sha256 (not_exists.mp hm) s
    refine ⟨hmine.symm ▸ h.proper, ?_⟩
    intro b hb
    rw [hinstaller] at hb
    have hgoing := h.going b hb
    refine ⟨hgoing.version, hmine.symm ▸ hgoing.released, hgoing.hash, ?_, hmine.symm ▸ hgoing.early⟩
    obtain hsame | ⟨hbefore, hafter⟩ := hlock
    · rw [hsame]
      exact hgoing.lawful
    · exact hgoing.lawful.elsewhere hbefore hafter

theorem DeployState.Sound.hostMoves (moves : List HostMove) : ∀ {s : DeployState},
    s.Sound fmts sha256 clientVersion os arch →
      (hostMoves fmts sha256 moves s).Sound fmts sha256 clientVersion os arch := by
  induction moves with
  | nil => exact fun h => h
  | cons m moves ih => exact fun h => ih (h.hostMove m)

variable (fmts sha256) in
/-- Where no uploaded server runs, nothing of this onboarding happens on the remote
host by itself. -/
theorem DeployState.Idle.hostMove {P : DeployLog → Prop} {s : DeployState} (h : s.Idle P) (m : HostMove) :
    (m.exec fmts sha256 s).Idle P ∧ (m.exec fmts sha256 s).mine = s.mine := by
  by_cases hm : ∃ step, m = .install step
  · obtain ⟨step, rfl⟩ := hm
    have hnothing : selfInstall fmts sha256 step s = s := by rw [RemoteWorkspace.selfInstall, h.installer]
    rw [HostMove.exec, hnothing]
    exact ⟨h, rfl⟩
  · obtain ⟨hmine, hinstaller, hlock⟩ := HostMove.others fmts sha256 (not_exists.mp hm) s
    refine ⟨⟨hinstaller.trans h.installer, ?_, hmine.symm ▸ h.mine⟩, hmine⟩
    obtain hsame | ⟨-, hafter⟩ := hlock
    · rw [hsame]
      exact h.lock
    · exact hafter

variable (fmts sha256) in
theorem DeployState.Idle.hostMoves {P : DeployLog → Prop} (moves : List HostMove) : ∀ {s : DeployState}, s.Idle P →
    (hostMoves fmts sha256 moves s).Idle P ∧ (hostMoves fmts sha256 moves s).mine = s.mine := by
  induction moves with
  | nil => exact fun h => ⟨h, rfl⟩
  | cons m moves ih =>
    intro s h
    obtain ⟨hidle, hmine⟩ := h.hostMove fmts sha256 m
    obtain ⟨hidle', hmine'⟩ := ih hidle
    exact ⟨hidle', hmine'.trans hmine⟩

variable (fmts sha256) in
theorem DeployState.Idle.meets {P : DeployLog → Prop} {s : DeployState} (h : s.Idle P) (ch : DeployChoice) :
    (ch.meets fmts sha256 s).Idle P ∧ (ch.meets fmts sha256 s).mine = s.mine := by
  have hcached : ({ s with cached := ch.cached s.cached } : DeployState).Idle P := ⟨h.installer, h.lock, h.mine⟩
  exact hcached.hostMoves fmts sha256 ch.moves

/-- How an onboarding fails once it has decided to install: nothing is installed,
unless the script that installs it failed or what it printed does not read. -/
def FailsLate (fmts : ReleaseFormats) (sha256 : Sha256) (clientVersion os arch : String) (s : DeployState) :
    OnboardError → Prop
  | .clientTooOld _ _ | .panicked => False
  | .remoteInstallFailed (.script _) | .remoteInstallFailed (.noOutcome _) | .remoteInstallFailed (.unparseable _ _) =>
    s.Sound fmts sha256 clientVersion os arch
  | _ => s.Idle (DeployLog.Waiting fmts sha256 clientVersion os arch)

/-- What an onboarding that is over has done. -/
def DeployOver (fmts : ReleaseFormats) (sha256 : Sha256) (clientVersion os arch : String) (protocolVersion : Nat)
    (s : DeployState) : Except OnboardError ServerStep → Prop
  | .ok (.alreadyCurrent v) =>
    s.Idle DeployLog.Fresh ∧ v.protocolVersion = protocolVersion ∧
      ¬v.Older { softwareVersion := clientVersion, protocolVersion }
  | .ok (.installed _) => s.Sound fmts sha256 clientVersion os arch
  | .error (.clientTooOld v _) => s.Idle DeployLog.Fresh ∧ protocolVersion < v.protocolVersion
  | .error e => FailsLate fmts sha256 clientVersion os arch s e

/-- The commands that change nothing that counts. -/
def DeployCmd.Calm : DeployCmd → Prop
  | probe _ | createCacheDir | readCached | fetch _ | readArtifact | spawnUpload => True
  | _ => False

variable {s s' : DeployState}

theorem DeployStep.calm {c : DeployCmd} {r : c.Result} (hc : c.Calm) (h : DeployStep fmts sha256 c r s s')
    {P : DeployLog → Prop} (hs : s.Idle P) : s'.Idle P := by
  obtain ⟨ch, h⟩ := h
  have hmeets := (hs.meets fmts sha256 ch).1
  cases c <;> first
    | exact hc.elim
    | (cases h; exact hmeets)

theorem DeployStep.fetchManifest {r : Except String (List UInt8)} (h : DeployStep fmts sha256 .fetchManifest r s s')
    (hs : s.Idle DeployLog.Fresh) :
    s'.Idle DeployLog.Fresh ∧ ∀ bytes, r = .ok bytes → s'.mine.manifest = some bytes := by
  obtain ⟨ch, h⟩ := h
  obtain ⟨hinstaller, hlock, hm⟩ := (hs.meets fmts sha256 ch).1
  cases h
  refine ⟨⟨hinstaller, hlock, ⟨hm.stored, hm.upload, hm.installs⟩⟩, fun bytes hb => ?_⟩
  show ch.bytes.toOption = some bytes
  rw [hb]
  rfl

/-- What a resolved artifact leaves. -/
def Resolved (fmts : ReleaseFormats) (sha256 : Sha256) (clientVersion os arch : String) (sha : String) (m : DeployLog) :
    Prop :=
  m.Waiting fmts sha256 clientVersion os arch ∧ Released fmts clientVersion os arch m.manifest sha

theorem DeployStep.store {bytes : List UInt8} {r : Except String Unit} (h : DeployStep fmts sha256 (.store bytes) r s s')
    (hs : s.Idle (Resolved fmts sha256 clientVersion os arch (hexDigest sha256 bytes))) :
    s'.Idle (Resolved fmts sha256 clientVersion os arch (hexDigest sha256 bytes)) := by
  obtain ⟨ch, h⟩ := h
  obtain ⟨hinstaller, hlock, hm, hb⟩ := (hs.meets fmts sha256 ch).1
  simp only [DeployCmd.exec] at h
  split at h
  · cases h
    exact ⟨hinstaller, hlock, hm, hb⟩
  · cases h
    refine ⟨hinstaller, hlock, ⟨hm.installs, ?_⟩, hb⟩
    intro b hmem
    rcases List.mem_append.mp hmem with hmem | hmem
    · exact hm.stored b hmem
    · rw [List.mem_singleton.mp hmem]
      exact hb

theorem DeployStep.upload {bytes : List UInt8} {sha : String} {r : Except String Unit}
    (h : DeployStep fmts sha256 (.upload bytes) r s s') (hs : s.Idle (Resolved fmts sha256 clientVersion os arch sha)) :
    s'.Idle (Resolved fmts sha256 clientVersion os arch sha) := by
  obtain ⟨ch, h⟩ := h
  obtain ⟨hinstaller, hlock, hm, hb⟩ := (hs.meets fmts sha256 ch).1
  cases h
  exact ⟨hinstaller, hlock, ⟨hm.installs, hm.stored⟩, hb⟩

theorem DeployStep.removeUpload {sha : String} {r : Unit} (h : DeployStep fmts sha256 .removeUpload r s s')
    (hs : s.Idle (Resolved fmts sha256 clientVersion os arch sha)) :
    s'.Idle (Resolved fmts sha256 clientVersion os arch sha) := by
  obtain ⟨ch, h⟩ := h
  obtain ⟨hinstaller, hlock, hm, hb⟩ := (hs.meets fmts sha256 ch).1
  cases h
  exact ⟨hinstaller, hlock, ⟨hm.installs, hm.stored⟩, hb⟩

theorem DeployState.Idle.waiting {sha : String} (hs : s.Idle (Resolved fmts sha256 clientVersion os arch sha)) :
    s.Idle (DeployLog.Waiting fmts sha256 clientVersion os arch) := hs.mono fun _ h => h.1

/-- However the upload was torn or the cache changed, the uploaded server has what
it needs to install only what has the released hash. -/
theorem DeployStep.installTo {sha : String} {r : Except String (List Char)}
    (h : DeployStep fmts sha256 (.installTo sha) r s s') (hs : s.Idle (Resolved fmts sha256 clientVersion os arch sha)) :
    s'.Sound fmts sha256 clientVersion os arch := by
  obtain ⟨ch, h⟩ := h
  have hmeets := (hs.meets fmts sha256 ch).1
  have hsound := (hmeets.mono fun _ h => h.1).sound
  cases h
  split
  · unfold startInstall
    split
    · exact hsound
    · rename_i bytes _
      split
      · exact hsound
      · rename_i desired hdesired
        refine ⟨hsound.proper, ?_⟩
        intro b hb
        cases hb
        exact ⟨hdesired, hmeets.mine.2, by simp [InstallPhase.isArmed], hmeets.lock, fun _ => hmeets.mine.1.installs⟩
  · exact hsound

/-! ## Every step of the code -/

open Deploy (call)
open Prog (orThrow)

variable {α : Type}

/-- What holds whenever a command is about to be issued. -/
def DeploySound (fmts : ReleaseFormats) (sha256 : Sha256) (clientVersion os arch : String) :
    DeployCmd → DeployState → Prop :=
  fun _ s => s.Sound fmts sha256 clientVersion os arch

theorem keeps_deployCall {c : DeployCmd} {P : c.Result → DeployState → Prop} {E : OnboardError → DeployState → Prop}
    (hs : s.Idle (DeployLog.Waiting fmts sha256 clientVersion os arch))
    (h : ∀ r s', DeployStep fmts sha256 c r s s' → P r s') :
    (call c).run.Keeps (DeployStep fmts sha256) (DeploySound fmts sha256 clientVersion os arch) (Prog.Ends P E) s :=
  ⟨hs.sound, h⟩

theorem keeps_calmDeployCall {c : DeployCmd} (hc : c.Calm) {P : DeployLog → Prop} {E : OnboardError → DeployState → Prop}
    (hP : s.Idle P) (hs : s.Idle (DeployLog.Waiting fmts sha256 clientVersion os arch)) :
    (call c).run.Keeps (DeployStep fmts sha256) (DeploySound fmts sha256 clientVersion os arch)
      (Prog.Ends (fun _ s => s.Idle P) E) s :=
  keeps_deployCall hs fun _ _ hst => hst.calm hc hP

theorem keeps_deployOrThrow {h : Deploy (Except String α)} {f : String → OnboardError}
    {P : Except String α → DeployState → Prop}
    {Q : α → DeployState → Prop} {E : OnboardError → DeployState → Prop}
    (hh : h.run.Keeps (DeployStep fmts sha256) (DeploySound fmts sha256 clientVersion os arch) (Prog.Ends P E) s)
    (hok : ∀ a s, P (.ok a) s → Q a s) (herr : ∀ e s, P (.error e) s → E (f e) s) :
    (orThrow f h).run.Keeps (DeployStep fmts sha256) (DeploySound fmts sha256 clientVersion os arch)
      (Prog.Ends Q E) s := by
  refine Prog.Keeps.orThrow (hh.mono (fun _ _ h => h) ?_)
  intro o s ho
  rcases o with e | e | a
  · exact ho
  · exact herr e s ho
  · exact hok a s ho

/-- A probe changes nothing, and fails late. -/
theorem probeRemote_keeps (bin : ProbedBin) {P : DeployLog → Prop}
    (hP : ∀ m, P m → m.Waiting fmts sha256 clientVersion os arch) (hs : s.Idle P) :
    (probeRemote fmts bin).run.Keeps (DeployStep fmts sha256) (DeploySound fmts sha256 clientVersion os arch)
      (Prog.Ends (fun _ s => s.Idle P) fun e s => FailsLate fmts sha256 clientVersion os arch s e) s := by
  refine Prog.Keeps.bindE (keeps_deployOrThrow (keeps_calmDeployCall (c := .probe bin) trivial hs (hs.mono hP)) (fun _ _ h => h)
    fun e s h => h.mono hP) fun out s hs => ?_
  split
  · exact hs
  · exact hs.mono hP
  · exact hs.mono hP

theorem fetchArtifact_keeps {artifact : ManifestArtifact} {desired : VersionInfo}
    (hs : s.Idle (Resolved fmts sha256 clientVersion os arch artifact.sha256)) :
    (fetchArtifact sha256 artifact desired).run.Keeps (DeployStep fmts sha256)
      (DeploySound fmts sha256 clientVersion os arch)
      (Prog.Ends (fun a s => s.Idle (Resolved fmts sha256 clientVersion os arch a.sha256))
        fun e s => FailsLate fmts sha256 clientVersion os arch s e) s := by
  refine Prog.Keeps.bindE (keeps_deployOrThrow (keeps_calmDeployCall (c := .fetch artifact.file) trivial hs hs.waiting)
    (fun _ _ h => h) fun e s h => h.waiting) fun bytes s hs => ?_
  dsimp only
  split
  · exact hs.waiting
  · rename_i hhash
    have hb : s.Idle (Resolved fmts sha256 clientVersion os arch (hexDigest sha256 bytes)) :=
      hs.mono fun m hm => ⟨hm.1, hm.2.of_eq (Bool.eq_true_of_not_eq_false hhash)⟩
    exact Prog.Keeps.bindE (keeps_deployOrThrow (keeps_deployCall hs.waiting fun r s' hst => hst.store hb) (fun _ _ h => h)
      fun e s h => h.waiting) fun _ s hs => hs

theorem cachedArtifact_keeps {artifact : ManifestArtifact} {desired : VersionInfo}
    (hs : s.Idle (Resolved fmts sha256 clientVersion os arch artifact.sha256)) :
    (cachedArtifact fmts sha256 artifact desired).run.Keeps (DeployStep fmts sha256)
      (DeploySound fmts sha256 clientVersion os arch)
      (Prog.Ends (fun a s => s.Idle (Resolved fmts sha256 clientVersion os arch a.sha256))
        fun e s => FailsLate fmts sha256 clientVersion os arch s e) s := by
  refine Prog.Keeps.bindE (keeps_deployOrThrow (keeps_calmDeployCall (c := .createCacheDir) trivial hs hs.waiting)
    (fun _ _ h => h) fun e s h => h.waiting) fun _ s hs => ?_
  refine Prog.Keeps.bindE (keeps_calmDeployCall (c := .readCached) trivial hs hs.waiting) fun cached s hs => ?_
  split
  · rename_i bytes
    split
    · rename_i hhash
      have hlower := fmts.lowercase.eqIgnoreAsciiCase_lower (ascii_of_eqIgnoreAsciiCase hhash (ascii_hexDigest _ _))
      refine hs.mono fun m hm => ⟨hm.1, hm.2.of_eq ?_⟩
      rw [String.toList_ofList]
      exact hlower
    · exact fetchArtifact_keeps hs
  · exact fetchArtifact_keeps hs

theorem resolveArtifact_keeps (hs : s.Idle DeployLog.Fresh) :
    (resolveArtifact fmts sha256 clientVersion os arch).run.Keeps (DeployStep fmts sha256)
      (DeploySound fmts sha256 clientVersion os arch)
      (Prog.Ends (fun a s => s.Idle (Resolved fmts sha256 clientVersion os arch a.sha256))
        fun e s => FailsLate fmts sha256 clientVersion os arch s e) s := by
  have hwaiting : ∀ {s : DeployState}, s.Idle DeployLog.Fresh →
      s.Idle (DeployLog.Waiting fmts sha256 clientVersion os arch) := fun h => h.mono fun _ h => h.waiting
  have htarget : (ExceptT.mk (pure (artifactTarget os arch)) : Deploy String).run.Keeps (DeployStep fmts sha256)
      (DeploySound fmts sha256 clientVersion os arch)
      (Prog.Ends (fun _ s => s.Idle DeployLog.Fresh) fun e s => FailsLate fmts sha256 clientVersion os arch s e) s := by
    unfold artifactTarget
    split
    · exact hs
    · exact hwaiting hs
  refine htarget.bindE fun _ s hs => ?_
  refine Prog.Keeps.bindE (Q := fun bytes s => s.Idle DeployLog.Fresh ∧ s.mine.manifest = some bytes)
    (keeps_deployOrThrow (keeps_deployCall (hwaiting hs) fun r s' hst => hst.fetchManifest hs) (fun _ _ h => ⟨h.1, h.2 _ rfl⟩)
      fun e s h => hwaiting h.1) fun bytes s hs => ?_
  obtain ⟨hs, hmanifest⟩ := hs
  split
  · exact hwaiting hs
  · rename_i m hparse
    split
    · exact hwaiting hs
    · rename_i hversion
      split
      · exact hwaiting hs
      · rename_i artifact hfind
        have hplatform := List.find?_some hfind
        rw [decide_eq_true_eq] at hplatform
        have hreleased : Released fmts clientVersion os arch s.mine.manifest artifact.sha256 :=
          ⟨bytes, m, artifact, hmanifest, hparse, Decidable.not_not.mp hversion, List.mem_of_find?_eq_some hfind,
            hplatform.1, hplatform.2, eqIgnoreAsciiCase_iff.mpr rfl⟩
        exact cachedArtifact_keeps ⟨hs.installer, hs.lock, hs.mine.waiting, hreleased⟩

theorem uploadAndInstall_keeps {artifact : CachedArtifact}
    (hs : s.Idle (Resolved fmts sha256 clientVersion os arch artifact.sha256)) :
    (uploadAndInstall fmts artifact).run.Keeps (DeployStep fmts sha256) (DeploySound fmts sha256 clientVersion os arch)
      (Prog.Ends (fun _ s => s.Sound fmts sha256 clientVersion os arch)
        fun e s => FailsLate fmts sha256 clientVersion os arch s e) s := by
  refine Prog.Keeps.bindE (keeps_deployOrThrow (keeps_calmDeployCall (c := .readArtifact) trivial hs hs.waiting)
    (fun _ _ h => h) fun e s h => h.waiting) fun bytes s hs => ?_
  refine Prog.Keeps.bindE (keeps_deployOrThrow (keeps_calmDeployCall (c := .spawnUpload) trivial hs hs.waiting)
    (fun _ _ h => h) fun e s h => h.waiting) fun _ s hs => ?_
  refine Prog.Keeps.bindE (keeps_deployOrThrow (keeps_deployCall hs.waiting fun r s' hst => hst.upload hs) (fun _ _ h => h)
    fun e s h => h.waiting) fun _ s hs => ?_
  refine (probeRemote_keeps .uploaded (fun m (h : Resolved fmts sha256 clientVersion os arch artifact.sha256 m) =>
    h.1) hs).bindE fun reported s hs => ?_
  split
  · exact Prog.Keeps.bindE (keeps_deployCall hs.waiting fun r s' hst => hst.removeUpload hs) fun _ s hs => hs.waiting
  · refine Prog.Keeps.bindE (keeps_deployOrThrow (keeps_deployCall hs.waiting fun r s' hst => hst.installTo hs)
      (fun _ _ h => h) fun e s h => h) fun out s hs => ?_
    split
    · exact hs
    · split
      · exact hs
      · exact hs

/-- Why a server is not replaced. -/
theorem preflight_connect {v desired : VersionInfo} (h : preflight (some v) desired = .connect) :
    v.protocolVersion = desired.protocolVersion ∧ ¬v.Older desired := by
  have hnot : ¬v.Older desired := by
    rw [← shouldReplace_some_iff, ← preflight_eq_needInstall_iff, h]
    decide
  refine ⟨?_, hnot⟩
  rw [preflight] at h
  split at h
  · cases h
  · cases h
  · rename_i heq
    exact compare_eq_iff_eq.mp heq

theorem preflight_clientTooOld {v desired : VersionInfo} (h : preflight (some v) desired = .clientTooOld) :
    desired.protocolVersion < v.protocolVersion := by
  rw [preflight] at h
  split at h
  · rename_i hgt
    exact compare_gt_iff_gt.mp hgt
  · cases h
  · split at h <;> cases h

theorem FailsLate.over {protocolVersion : Nat} {e : OnboardError} (h : FailsLate fmts sha256 clientVersion os arch s e) :
    DeployOver fmts sha256 clientVersion os arch protocolVersion s (.error e) := by
  cases e <;> first
    | exact h.elim
    | exact h

/-- What is over stays so, whatever still happens on the remote host. -/
theorem FailsLate.hostMoves (moves : List HostMove) {e : OnboardError}
    (h : FailsLate fmts sha256 clientVersion os arch s e) :
    FailsLate fmts sha256 clientVersion os arch (hostMoves fmts sha256 moves s) e := by
  unfold FailsLate at h ⊢
  split at h
  · exact h.elim
  · exact h.elim
  · exact h.hostMoves moves
  · exact h.hostMoves moves
  · exact h.hostMoves moves
  · exact (h.hostMoves fmts sha256 moves).1

theorem DeployOver.hostMoves (moves : List HostMove) {protocolVersion : Nat} {r : Except OnboardError ServerStep}
    (h : DeployOver fmts sha256 clientVersion os arch protocolVersion s r) :
    DeployOver fmts sha256 clientVersion os arch protocolVersion (hostMoves fmts sha256 moves s) r := by
  unfold DeployOver at h ⊢
  split at h
  · exact ⟨(h.1.hostMoves fmts sha256 moves).1, h.2⟩
  · exact h.hostMoves moves
  · exact ⟨(h.1.hostMoves fmts sha256 moves).1, h.2⟩
  · exact FailsLate.hostMoves moves h

theorem FailsLate.sound {e : OnboardError} (h : FailsLate fmts sha256 clientVersion os arch s e) :
    s.Sound fmts sha256 clientVersion os arch := by
  unfold FailsLate at h
  split at h
  · exact h.elim
  · exact h.elim
  · exact h
  · exact h
  · exact h
  · exact h.sound

theorem DeployOver.sound {protocolVersion : Nat} {r : Except OnboardError ServerStep}
    (h : DeployOver fmts sha256 clientVersion os arch protocolVersion s r) :
    s.Sound fmts sha256 clientVersion os arch := by
  unfold DeployOver at h
  split at h
  · exact (h.1.mono fun _ h => h.waiting).sound
  · exact h
  · exact (h.1.mono fun _ h => h.waiting).sound
  · exact h.sound

/-- Failing late is a way to be over. -/
theorem keepsE_over {h : Deploy α} {Q : α → DeployState → Prop} {protocolVersion : Nat}
    (hh : h.run.Keeps (DeployStep fmts sha256) (DeploySound fmts sha256 clientVersion os arch)
      (Prog.Ends Q fun e s => FailsLate fmts sha256 clientVersion os arch s e) s) :
    h.run.Keeps (DeployStep fmts sha256) (DeploySound fmts sha256 clientVersion os arch)
      (Prog.Ends Q fun e s => DeployOver fmts sha256 clientVersion os arch protocolVersion s (.error e)) s := by
  apply hh.mono (fun _ _ h => h)
  intro o s h
  cases o with
  | ok a => exact h
  | error e => exact FailsLate.over h

theorem deployManaged_keeps {shell : RemoteShell} {protocolVersion : Nat} (hs : s.Idle DeployLog.Fresh) :
    (deployManaged fmts sha256 shell clientVersion protocolVersion os arch).run.Keeps (DeployStep fmts sha256)
      (DeploySound fmts sha256 clientVersion os arch)
      (fun r s => DeployOver fmts sha256 clientVersion os arch protocolVersion s r) s := by
  have hwaiting : ∀ m : DeployLog, m.Fresh → m.Waiting fmts sha256 clientVersion os arch := fun _ h => h.waiting
  have hends : (deployManaged fmts sha256 shell clientVersion protocolVersion os arch).run.Keeps (DeployStep fmts sha256)
      (DeploySound fmts sha256 clientVersion os arch)
      (Prog.Ends (fun r s => DeployOver fmts sha256 clientVersion os arch protocolVersion s (.ok r))
        fun e s => DeployOver fmts sha256 clientVersion os arch protocolVersion s (.error e)) s := by
    refine Prog.Keeps.bindE (keepsE_over (probeRemote_keeps .managed hwaiting hs)) fun installed s hs => ?_
    dsimp only
    split
    · rename_i v hpre
      obtain ⟨heq, hnot⟩ := preflight_connect hpre
      exact ⟨hs, heq, hnot⟩
    · rename_i hpre
      cases hpre
    · rename_i v hpre
      exact ⟨hs, preflight_clientTooOld hpre⟩
    · rename_i hpre
      cases hpre
    · split
      · exact hs.mono hwaiting
      · refine Prog.Keeps.bindE (keepsE_over (resolveArtifact_keeps hs)) fun artifact s hs => ?_
        refine Prog.Keeps.bindE (keepsE_over (uploadAndInstall_keeps hs)) fun outcome s hs => ?_
        exact hs
  apply hends.mono (fun _ _ h => h)
  intro r s h
  cases r with
  | ok r => exact h
  | error e => exact h

end

/-- Whatever happens to the cache meanwhile and whatever is torn on the way, and
while whoever else writes the managed path has the install lock, an onboarding
installs once at the most: what has the hash that its own release's manifest gives
for the platform, over a server that is older or none. Only such bytes go into the
cache. One that ends with a current server or with a newer one has changed
nothing, and an error other than of the installing script leaves nothing
installed. All this stays so while an uploaded server still runs that the client
no longer waits for. -/
theorem deploy_installs_released (fmts : ReleaseFormats) (sha256 : Sha256) (shell : RemoteShell)
    (clientVersion os arch : String) (protocolVersion : Nat) {s s' : DeployState} {es : List _}
    {p : Prog DeployCmd DeployCmd.Result (Except OnboardError ServerStep)} (hs : s.Idle DeployLog.Fresh)
    (hrun : Prog.Run (DeployStep fmts sha256) (deployManaged fmts sha256 shell clientVersion protocolVersion os arch).run
      s es p s') (moves : List HostMove) :
    (hostMoves fmts sha256 moves s').mine.Proper fmts sha256 clientVersion os arch ∧
      ∀ r, p = .pure r →
        DeployOver fmts sha256 clientVersion os arch protocolVersion (hostMoves fmts sha256 moves s') r := by
  have hkept := @deployManaged_keeps fmts sha256 clientVersion os arch s shell protocolVersion hs
  have hover : ∀ r (s : DeployState), DeployOver fmts sha256 clientVersion os arch protocolVersion s r →
      s.Sound fmts sha256 clientVersion os arch := fun _ _ h => h.sound
  have hsound : ∀ c s, DeploySound fmts sha256 clientVersion os arch c s →
      s.Sound fmts sha256 clientVersion os arch := fun _ _ h => h
  have hreached : s'.Sound fmts sha256 clientVersion os arch :=
    Prog.Keeps.reached (J := fun s => s.Sound fmts sha256 clientVersion os arch) hsound hover hkept hrun
  refine ⟨(hreached.hostMoves moves).proper, ?_⟩
  rintro r rfl
  exact DeployOver.hostMoves moves (hkept.run hrun)

def noteVersion (software : String) : VersionInfo := { softwareVersion := software, protocolVersion := 4 }

/-- The release of 0.9.0, and servers that are told by one byte. -/
def noteRelease : ReleaseFormats where
  manifest _ := .ok
    { softwareVersion := "0.9.0", protocolVersion := 4
      artifacts := [{ os := "linux", arch := "x86_64", file := "server", sha256 := hexDigest zeroDigest [2] }] }
  version := parseVersion versionFormat
  outcome _ := .error "not JSON"
  versionOf bytes :=
    if bytes = [1] then some (noteVersion "0.8.0") else if bytes = [2] then some (noteVersion "0.9.0") else none
  lowercase := .asciiOnly

/-- The line of a version probe. -/
def noteAnswer (software : String) : List Char :=
  printed [] ["ok ".toList ++ versionFormat.text ⟨noteVersion software, by simp [noteVersion]⟩] []

def noteHost : DeployState := { cached := none, managed := some [1], mine := {} }

/-- An upgrade from 0.8.0, with nothing in the cache, in which the client has lost
its connection before the uploaded server installs itself. -/
theorem deploy_installs_released_upgrade : ∃ es s',
    Prog.Run (DeployStep noteRelease zeroDigest)
      (deployManaged noteRelease zeroDigest .posix "0.9.0" 4 "linux" "x86_64").run noteHost es
      (.pure (.error (.remoteInstallFailed (.script "broken pipe")))) s' ∧
    s'.managed = some [1] ∧
    (hostMoves noteRelease zeroDigest [.lock 3, .unlock 3, .install .lock, .install .probe, .write 3 none,
      .install (.rename true)] s').managed = some [2] ∧
    (hostMoves noteRelease zeroDigest [.lock 3, .unlock 3, .install .lock, .install .probe, .write 3 none,
      .install (.rename true)] s').mine.Proper noteRelease zeroDigest "0.9.0" "linux" "x86_64" := by
  have h : ((Prog.drive (fun (c : DeployCmd) ch s => some (c.exec noteRelease zeroDigest ch s))
      [{ out := .ok (noteAnswer "0.8.0") }, {}, {}, {}, { bytes := .ok [2] }, {}, {}, {}, {},
        { out := .ok (noteAnswer "0.9.0") }, { out := .error "broken pipe" }]
      (deployManaged noteRelease zeroDigest .posix "0.9.0" 4 "linux" "x86_64").run noteHost).map
        fun y => (y.2.1.result?, y.2.2.managed, (hostMoves noteRelease zeroDigest [.lock 3, .unlock 3, .install .lock,
          .install .probe, .write 3 none, .install (.rename true)] y.2.2).managed)) =
      some (some (.error (.remoteInstallFailed (.script "broken pipe"))), some [1], some [2]) := by
    decide +kernel
  obtain ⟨⟨es, p, s'⟩, hdrive, hend⟩ := Option.map_eq_some_iff.mp h
  obtain ⟨hresult, hmanaged⟩ := Prod.mk.inj hend
  obtain ⟨hbefore, hafter⟩ := Prod.mk.inj hmanaged
  obtain rfl := Prog.eq_pure_of_result? hresult
  have hstep : ∀ (c : DeployCmd) (ch : DeployChoice) (r : c.Result) (s s' : DeployState), ch ∈ Set.univ →
      some (c.exec noteRelease zeroDigest ch s) = some (r, s') → DeployStep noteRelease zeroDigest c r s s' :=
    fun _ ch _ _ _ _ h => ⟨ch, Option.some.inj h⟩
  have hrun := Prog.run_of_drive hstep (fun _ _ => trivial) hdrive
  have hidle : noteHost.Idle DeployLog.Fresh := ⟨rfl, by simp [noteHost], rfl, rfl, rfl⟩
  exact ⟨es, s', hrun, hbefore, hafter,
    (deploy_installs_released noteRelease zeroDigest .posix "0.9.0" "linux" "x86_64" 4 hidle hrun _).1⟩

end RemoteWorkspace
