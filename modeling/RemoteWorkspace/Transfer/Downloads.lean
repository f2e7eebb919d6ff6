import RemoteWorkspace.Lib.Alone
import RemoteWorkspace.Server.ExecRuns
import RemoteWorkspace.Transfer.RoundTrip

/-!
# Downloads

`download_file` of the client: what the sender writes goes into a temporary file
beside the target, and takes the target's place once its length and its hash are
right. Every step may fail, reads come in any parts, and other processes may do
to the target what they like between two steps.

Whatever happens, the target changes once at the most, and then to a file that
was received whole (`download_all_or_nothing`); and if the sender is the server's
and nothing but its stream arrives, cut off anywhere or not, that file is the one
that was sent (`download_delivers`).
-/

namespace RemoteWorkspace

open Text
open FileTree (Errno)
open Interleave

/-! ## The process of a transfer -/

inductive ChildCmd where
  | tryWait
  | kill
  | wait
  /-- `wait` for two seconds. -/
  | waitBriefly
  | stderrText
  deriving DecidableEq, Repr

abbrev ChildCmd.Result : ChildCmd → Type
  | tryWait => Except String (Option ExitStatus)
  | kill => Except String Unit
  | wait => Except String ExitStatus
  | waitBriefly => Except String (Option ExitStatus)
  | stderrText => String

/-- What a step meets: whether it fails, and how the process fares. -/
structure ChildChoice where
  fault : Option String := none
  running : Bool := false
  status : ExitStatus := .code 0
  stderr : String := ""
  deriving DecidableEq, Repr

def ChildChoice.done (ch : ChildChoice) : Except String Unit :=
  match ch.fault with
  | some e => .error e
  | none => .ok ()

def ChildCmd.exec (c : ChildCmd) (ch : ChildChoice) : c.Result :=
  match c with
  | tryWait => ch.done.map fun _ => if ch.running then none else some ch.status
  | kill => ch.done
  | wait => ch.done.map fun _ => ch.status
  | waitBriefly => ch.done.map fun _ => if ch.running then none else some ch.status
  | stderrText => ch.stderr

inductive ChildError where
  | waitFailed (e : String)
  | stopFailed (e : String)
  | reapFailed (e : String)
  deriving DecidableEq, Repr

def ExitStatus.success : ExitStatus → Bool
  | code n => n = 0
  | signal _ => false

def finishTransferChild (powershellSsh : Bool) :
    ExceptT ChildError (Prog ChildCmd ChildCmd.Result) (Option ExitStatus) := ExceptT.mk do
  if powershellSsh then
    match ← Prog.call ChildCmd.waitBriefly with
    | .error e => return .error (.waitFailed e)
    | .ok (some status) => return .ok (some status)
    | .ok none =>
      match ← Prog.call ChildCmd.kill with
      | .error e => return .error (.stopFailed e)
      | .ok _ =>
        match ← Prog.call ChildCmd.wait with
        | .error e => return .error (.reapFailed e)
        | .ok _ => return .ok none
  else
    match ← Prog.call ChildCmd.wait with
    | .error e => return .error (.waitFailed e)
    | .ok status => return .ok (some status)

/-- What the process printed on its standard error goes into an error. -/
def withStderr {C : Type} {R : C → Type} {ε α : Type} (text : Prog C R String) (note : ε → String → ε)
    (h : ExceptT ε (Prog C R) α) : ExceptT ε (Prog C R) α := ExceptT.mk do
  match ← h.run with
  | .ok a => return .ok a
  | .error e =>
    let t ← text
    return .error (if t = "" then e else note e t)

theorem runIn_withStderr {C : Type} {R : C → Type} {ε α S Ch : Type} {exec : (c : C) → Ch → S → Option (R c × S)}
    {env : C → Ch} {text : Prog C R String} {note : ε → String → ε} {h : ExceptT ε (Prog C R) α} {a : α} {s s' : S}
    (hh : h.run.runIn exec env s = some (.ok a, s')) :
    (withStderr text note h).run.runIn exec env s = some (.ok a, s') := by
  rw [withStderr, ExceptT.run_mk, Prog.runIn_bind, hh]
  rfl

/-! ## What a download uses -/

/-- What is at a local path. -/
inductive LocalEntry where
  | dir
  | file (content : List UInt8)
  /-- A link, a device. -/
  | other
  deriving DecidableEq, Repr

/-- Why `receive_stream` fails. -/
inductive StreamError where
  | transfer (e : TransferError)
  /-- Nothing moved for the stall window, or the system refused. -/
  | broken (what : String)
  deriving DecidableEq, Repr

/-- Why a download fails that has installed nothing. -/
inductive FetchError where
  | noParent
  | parentMissing
  | isDirectory
  | alreadyExists
  | statTarget (e : Errno)
  | createTemp (e : String)
  | spawn (e : String)
  | stream (e : StreamError)
  | senderFailed (status : ExitStatus) (e : Option StreamError)
  | checkSender (wait : String) (e : StreamError)
  | child (e : ChildError)
  | syncTemp (e : String)
  | setMode (e : String)
  | install (e : String)
  | withStderr (e : FetchError) (text : String)
  deriving DecidableEq, Repr

inductive DownloadError where
  | failed (e : FetchError)
  /-- The file was installed. -/
  | recordFailed (e : String)
  deriving DecidableEq, Repr

inductive DownloadCmd where
  | parentIsDir
  | lstatTarget
  | createTemp
  | spawn
  | child (c : ChildCmd)
  /-- `receive_stream`, into the temporary file. -/
  | receive
  | syncTemp
  | setMode
  | persist (overwrite : Bool)
  /-- The temporary file is dropped. -/
  | removeTemp
  | elapsed
  | client
  | downloadRecord (size : UInt64) (sha256 : String) (durationMs : Nat)
  deriving DecidableEq, Repr

abbrev DownloadCmd.Result : DownloadCmd → Type
  | parentIsDir => Bool
  | lstatTarget => Except Errno LocalEntry
  | createTemp => Except String Unit
  | spawn => Except String Unit
  | child c => c.Result
  | receive => Except StreamError Received
  | syncTemp => Except String Unit
  | setMode => Except String Unit
  | persist _ => Except String Unit
  | removeTemp => Unit
  | elapsed => Nat
  | client => Except String Unit
  | downloadRecord _ _ _ => Except String TransferResult

/-- What a download does to the files of its host, and tells the server. -/
structure Local where
  /-- The content of the temporary file, while there is one. -/
  temp : Option (List UInt8) := none
  /-- What the download put in the target's place, and what was there. -/
  installs : List (Option LocalEntry × List UInt8) := []
  records : List (UInt64 × String) := []
  /-- The temporary file could not be removed. -/
  leftover : Bool := false
  deriving DecidableEq, Repr

structure LocalState where
  target : Option LocalEntry
  mine : Local
  deriving DecidableEq, Repr

/-- What a step meets besides: what others have done to the target by then, and
how reads are cut. -/
structure DownloadChoice extends ChildChoice where
  others : Option LocalEntry → Option LocalEntry := id
  errno : Option Errno := none
  cuts : List Nat := []
  /-- What a stream that breaks off leaves in the temporary file. -/
  written : List UInt8 := []
  parent : Bool := true
  elapsed : Nat := 0
  answer : Except String TransferResult := .error ""

section

variable (fmt : Formats) (sha256 : Sha256) (base64Chunks : Bool) (incoming : List UInt8)

/-- Run one step of a download to which `incoming` arrives. -/
def DownloadCmd.exec (c : DownloadCmd) (ch : DownloadChoice) (s₀ : LocalState) : c.Result × LocalState :=
  let s := { s₀ with target := ch.others s₀.target }
  match c with
  | parentIsDir => (ch.parent, s)
  | lstatTarget =>
    (match ch.errno, s.target with
      | some e, _ => .error e
      | none, some x => .ok x
      | none, none => .error .noEntry, s)
  | createTemp =>
    match ch.fault with
    | some e => (.error e, s)
    | none => (.ok (), { s with mine := { s.mine with temp := some [] } })
  | spawn => (ch.done, s)
  | child c => (c.exec ch.toChildChoice, s)
  | receive =>
    match ch.fault, receiveStream fmt sha256 base64Chunks { bytes := incoming, cuts := ch.cuts } with
    | some e, _ => (.error (.broken e), { s with mine := { s.mine with temp := some ch.written } })
    | none, .error e => (.error (.transfer e), { s with mine := { s.mine with temp := some ch.written } })
    | none, .ok r => (.ok r, { s with mine := { s.mine with temp := some r.out } })
  | syncTemp => (ch.done, s)
  | setMode => (ch.done, s)
  | persist overwrite =>
    match ch.fault, s.mine.temp with
    | some e, _ => (.error e, s)
    | none, none => (.error "no temporary file", s)
    | none, some content =>
      if s.target = some .dir then (.error "is a directory", s)
      else if s.target ≠ none ∧ overwrite = false then (.error "file exists", s)
      else
        (.ok (), {
          target := some (.file content)
          mine := { s.mine with temp := none, installs := s.mine.installs ++ [(s.target, content)] } })
  | removeTemp =>
    ((), { s with mine :=
      match ch.fault with
      | some _ => { s.mine with leftover := true }
      | none => { s.mine with temp := none } })
  | elapsed => (ch.elapsed, s)
  | client => (ch.done, s)
  | downloadRecord size sha _ =>
    (ch.answer, { s with mine := { s.mine with records := s.mine.records ++ [(size, sha)] } })

abbrev DownloadProg := Prog DownloadCmd DownloadCmd.Result

/-- The part of a download that may fail with nothing installed. -/
abbrev Fetch := ExceptT FetchError DownloadProg

def Fetch.call (c : DownloadCmd) : Fetch c.Result := Prog.issue c

open Fetch (call)
open Prog (orThrow)

/-! ## The code -/

def receiveFromSender (powershellSsh : Bool) : Fetch Received := do
  match ← call .receive with
  | .error e =>
    -- A sender that stalled never exits on its own. Only one that had exited
    -- is blamed.
    match ← call (.child .tryWait) with
    | .error wait => throw (.checkSender wait e)
    | .ok none =>
      let _ ← call (.child .kill)
      throw (.stream e)
    | .ok (some status) =>
      if status.success then throw (.stream e) else throw (.senderFailed status (some e))
  | .ok r =>
    match ← Prog.embedE DownloadCmd.child (fun _ r => r) FetchError.child (finishTransferChild powershellSsh) with
    | some status => if status.success then return r else throw (.senderFailed status none)
    | none => return r

/-- A temporary file that is dropped on every error. -/
def droppingTemp {α : Type} (h : Fetch α) : Fetch α := ExceptT.mk do
  match ← h.run with
  | .ok a => return .ok a
  | .error e =>
    let _ ← Prog.call DownloadCmd.removeTemp
    return .error e

def checkLocalTarget (hasParent overwrite : Bool) : Fetch Unit := do
  if hasParent = false then throw .noParent
  else
    let isDir ← call .parentIsDir
    if isDir = false then throw .parentMissing
    else
      match ← call .lstatTarget with
      | .ok .dir => throw .isDirectory
      | .ok _ => if overwrite then return () else throw .alreadyExists
      | .error .noEntry => return ()
      | .error e => throw (.statTarget e)

/-- From the spawn of the sender to the installation of the file. -/
def fillAndInstall (powershellSsh overwrite : Bool) : Fetch Received := do
  orThrow .spawn (call .spawn)
  let r ← withStderr (Prog.call (DownloadCmd.child .stderrText)) .withStderr (receiveFromSender powershellSsh)
  orThrow .syncTemp (call .syncTemp)
  orThrow .setMode (call .setMode)
  orThrow .install (call (.persist overwrite))
  return r

def fetchFile (hasParent powershellSsh overwrite : Bool) : Fetch Received := do
  checkLocalTarget hasParent overwrite
  orThrow .createTemp (call .createTemp)
  droppingTemp (fillAndInstall powershellSsh overwrite)

def recordDownload (r : Received) : DownloadProg (Except String TransferResult) := do
  let durationMs ← Prog.call DownloadCmd.elapsed
  match ← Prog.call DownloadCmd.client with
  | .ok _ => Prog.call (DownloadCmd.downloadRecord r.size r.sha256 durationMs)
  | .error e => return .error e

def downloadFile (hasParent powershellSsh overwrite : Bool) : DownloadProg (Except DownloadError TransferResult) := do
  match ← (fetchFile hasParent powershellSsh overwrite).run with
  | .error e => return .error (.failed e)
  | .ok r =>
    match ← recordDownload r with
    | .ok result => return .ok result
    | .error e => return .error (.recordFailed e)

/-- A step, whatever it meets. -/
def DownloadStep (c : DownloadCmd) (r : c.Result) (s s' : LocalState) : Prop :=
  ∃ ch, c.exec fmt sha256 base64Chunks incoming ch s = (r, s')

/-! ## What is received -/

theorem bind_ok {ε α β : Type} {x : Except ε α} {f : α → Except ε β} {b : β} (h : x >>= f = .ok b) :
    ∃ a, x = .ok a ∧ f a = .ok b := by
  cases x with
  | error e => cases h
  | ok a => exact ⟨a, rfl, h⟩

variable {fmt sha256 base64Chunks incoming}

/-- The header is the first line that begins an object. -/
theorem findHeader_ok {p p' : Pipe} {line : List Char} (h : findHeader p = .ok (line, p')) :
    startsObject line = true ∧ ∃ noise, (∀ l ∈ noise, IsNoise l) ∧ p.bytes = joinLines noise ++ (utf8 line ++ p'.bytes) ∧
      (p'.bytes = [] ∨ ∃ l, '\n' ∉ l ∧ line = l ++ ['\n']) := by
  induction hn : p.bytes.length using Nat.strong_induction_on generalizing p with
  | _ n ih =>
    cases hread : p.readLine with
    | error e =>
      rw [findHeader_error hread] at h
      cases h
    | ok r =>
      obtain ⟨l, q⟩ := r
      rw [findHeader_eq hread] at h
      split at h
      · cases h
      · rename_i hne
        split at h
        · rename_i hstart
          cases h
          refine ⟨hstart, [], by simp, ?_⟩
          rcases Pipe.readLine_cases hread with ⟨l, hl, rfl, hbytes⟩ | ⟨-, hbytes, hend⟩
          · exact ⟨by simp [hbytes, utf8_newline], .inr ⟨l, hl, rfl⟩⟩
          · exact ⟨by simp [hbytes, hend], .inl hend⟩
        · rename_i hstart
          have hshorter := (Pipe.readLine_ok hread).2.2.2 hne
          obtain ⟨hline, noise, hnoise, hbytes, hend⟩ := ih _ (hn ▸ hshorter) h rfl
          refine ⟨hline, ?_⟩
          rcases Pipe.readLine_cases hread with ⟨l, hl, rfl, hp⟩ | ⟨-, -, hq⟩
          · rw [startsObject_newline, Bool.not_eq_true] at hstart
            refine ⟨utf8 l :: noise, List.forall_mem_cons.mpr ⟨isNoise_utf8.mpr ⟨hl, hstart⟩, hnoise⟩, ?_, hend⟩
            rw [hp, hbytes]
            simp
          · obtain ⟨bytes, cuts⟩ := q
            obtain rfl : bytes = [] := hq
            rw [findHeader_empty] at h
            cases h

/-- Raw bytes are taken off the pipe, as many as are wanted. -/
theorem receiveRaw_ok {size remaining : Nat} {s s' : Sink} {p p' : Pipe}
    (h : receiveRaw size remaining s p = .ok (s', p')) :
    ∃ taken, p.bytes = taken ++ p'.bytes ∧ s' = s.put taken ∧ taken.length = remaining := by
  induction remaining using Nat.strong_induction_on generalizing s p with
  | _ remaining ih =>
    rw [receiveRaw] at h
    by_cases hzero : remaining = 0
    · rw [if_pos hzero] at h
      cases h
      exact ⟨[], rfl, (Sink.put_nil _).symm, hzero.symm⟩
    · rw [if_neg hzero] at h
      dsimp only at h
      split at h
      · cases h
      · rename_i hread
        have hpos := List.length_pos_iff.mpr hread
        have hle := (p.length_read_le (min remaining transferBufSize)
          (Nat.lt_min.mpr ⟨Nat.pos_of_ne_zero hzero, by decide⟩)).trans (Nat.min_le_left _ _)
        obtain ⟨taken, hbytes, rfl, hlen⟩ := ih _ (by omega) h
        refine ⟨(p.read (min remaining transferBufSize)).1 ++ taken, ?_, Sink.put_put _ _ _, ?_⟩
        · rw [List.append_assoc, ← hbytes, p.read_append]
        · rw [List.length_append, hlen]
          omega

theorem decodedLine_utf8 {line : List Char} {decoded : List UInt8}
    (h : fmt.base64.decode (trimLineEnd line) = .ok decoded) : decodedLine fmt (utf8 line) = decoded := by
  rw [decodedLine, utf8?_utf8]
  dsimp only
  rw [h]
  rfl

@[simp] theorem decodedLines_nil : decodedLines fmt [] = [] := by rw [decodedLines, if_pos rfl]

/-- Lines are taken off the pipe that decode to as many bytes as are wanted. -/
theorem receiveBase64_ok {size remaining : Nat} {s s' : Sink} {p p' : Pipe}
    (h : receiveBase64 fmt size remaining s p = .ok (s', p')) :
    ∃ taken, p.bytes = taken ++ p'.bytes ∧ s' = s.put (decodedLines fmt taken) ∧
      (decodedLines fmt taken).length = remaining := by
  induction remaining using Nat.strong_induction_on generalizing s p with
  | _ remaining ih =>
    rw [receiveBase64] at h
    by_cases hzero : remaining = 0
    · rw [if_pos hzero] at h
      cases h
      exact ⟨[], rfl, by rw [decodedLines_nil, Sink.put_nil], by rw [decodedLines_nil, hzero]; rfl⟩
    · rw [if_neg hzero] at h
      split at h
      · cases h
      rename_i line q hread
      split at h
      · cases h
      split at h
      · cases h
      rename_i decoded hdecode
      split at h
      · cases h
      · rename_i hok
        obtain ⟨hne, hle⟩ := not_or.mp hok
        have hpos := List.length_pos_iff.mpr hne
        obtain ⟨taken, hbytes, rfl, hlen⟩ := ih _ (by omega) h
        have hdecoded := decodedLine_utf8 hdecode
        rw [Sink.put_put]
        rcases Pipe.readLine_cases hread with ⟨l, hl, rfl, hp⟩ | ⟨hl, hp, hq⟩
        · have hlines : decodedLines fmt (utf8 l ++ newline :: taken) = decoded ++ decodedLines fmt taken := by
            rw [decodedLines, if_neg (by simp), takeLine_line (mt newline_mem_utf8.mp hl), ← utf8_newline,
              ← utf8_append, hdecoded]
          refine ⟨utf8 l ++ newline :: taken, by rw [hp, hbytes]; simp, by rw [hlines], ?_⟩
          rw [hlines, List.length_append, hlen]
          omega
        · obtain ⟨rfl, hend⟩ := List.append_eq_nil_iff.mp (hbytes.symm.trans hq)
          have hlines : decodedLines fmt (utf8 line) = decoded := by
            rw [decodedLines, takeLine_of_not_mem (mt newline_mem_utf8.mp hl), hdecoded, decodedLines_nil,
              List.append_nil, if_neg]
            rw [utf8_eq_nil]
            assumption
          refine ⟨utf8 line, by rw [hp, hend, List.append_nil], by rw [hlines, decodedLines_nil, List.append_nil], ?_⟩
          rw [decodedLines_nil, List.length_nil] at hlen
          rw [hlines]
          omega

theorem receiveBody_ok {size : Nat} {s : Sink} {p p' : Pipe}
    (h : receiveBody fmt base64Chunks size p = .ok (s, p')) :
    ∃ taken, p.bytes = taken ++ p'.bytes ∧ s = Sink.empty.put (delivered fmt base64Chunks taken) ∧
      (delivered fmt base64Chunks taken).length = size := by
  cases base64Chunks with
  | true => exact receiveBase64_ok h
  | false => exact receiveRaw_ok h

theorem mapError_ok {ε ε' α : Type} {x : Except ε α} {f : ε → ε'} {a : α} (h : x.mapError f = .ok a) : x = .ok a := by
  cases x with
  | error e => cases h
  | ok b => exact congrArg Except.ok (Except.ok.inj h)

theorem receiveTrailer_ok {size : UInt64} {s : Sink} {p : Pipe} {r : Received}
    (h : receiveTrailer fmt sha256 size s p = .ok r) :
    ∃ trailer t rest, '\n' ∉ trailer ∧ p.bytes = utf8 trailer ++ rest ∧ (rest = [] ∨ rest.head? = some newline) ∧
      fmt.trailer.parse (trim trailer) = .ok t ∧ t.sha256 = hashBytes sha256 s.hasher ∧
        r = { out := s.out, size, sha256 := t.sha256 } := by
  obtain ⟨⟨line, q⟩, hread, h⟩ := bind_ok h
  obtain ⟨t, hparse, h⟩ := bind_ok h
  dsimp only at hparse h
  split at h
  · cases h
  · rename_i hsame
    have hsame := Decidable.not_not.mp hsame
    cases h
    have hr : ({ out := s.out, size, sha256 := hashBytes sha256 s.hasher } : Received) =
        { out := s.out, size, sha256 := t.sha256 } := by rw [hsame]
    rcases Pipe.readLine_cases hread with ⟨l, hl, rfl, hbytes⟩ | ⟨hl, hbytes, -⟩
    · rw [trim_concat (by decide)] at hparse
      exact ⟨l, t, newline :: q.bytes, hl, hbytes, .inr rfl, mapError_ok hparse, hsame, hr⟩
    · exact ⟨line, t, [], hl, by rw [hbytes, List.append_nil], .inl rfl, mapError_ok hparse, hsame, hr⟩

/-- A stream that was received whole, its reads in some parts. -/
def Arrived (fmt : Formats) (sha256 : Sha256) (base64Chunks : Bool) (incoming : List UInt8) (r : Received) : Prop :=
  ∃ cuts, receiveStream fmt sha256 base64Chunks { bytes := incoming, cuts } = .ok r

/-- A stream that carries a file: behind a shell's lines a header that states its
size, its bytes or the lines of them, and a trailer that states its hash. -/
structure Carries (fmt : Formats) (base64Chunks : Bool) (incoming : List UInt8) (noise : List (List UInt8))
    (header : List Char) (body : List UInt8) (trailer : List Char) (rest : List UInt8) (r : Received) : Prop where
  stream : incoming = joinLines noise ++ (utf8 header ++ newline :: (body ++ (utf8 trailer ++ rest)))
  noise : ∀ l ∈ noise, IsNoise l
  header_line : '\n' ∉ header ∧ startsObject header = true
  size : fmt.header.parse (trim header) = .ok { size := r.size }
  out : delivered fmt base64Chunks body = r.out
  trailer_line : '\n' ∉ trailer ∧ (rest = [] ∨ rest.head? = some newline)
  sha256 : fmt.trailer.parse (trim trailer) = .ok { sha256 := r.sha256 }

/-- What was received is all that a stream carries: as long as its header states,
and with the hash that its trailer states. -/
structure Stated (fmt : Formats) (sha256 : Sha256) (base64Chunks : Bool) (incoming : List UInt8) (r : Received) :
    Prop where
  carried : ∃ noise header body trailer rest, Carries fmt base64Chunks incoming noise header body trailer rest r
  length : r.out.length = r.size.toNat
  hash : r.sha256 = hashBytes sha256 r.out

theorem Arrived.stated {r : Received} (h : Arrived fmt sha256 base64Chunks incoming r) :
    Stated fmt sha256 base64Chunks incoming r := by
  obtain ⟨cuts, h⟩ := h
  obtain ⟨⟨line, p⟩, hfound, h⟩ := bind_ok h
  obtain ⟨header, hheader, h⟩ := bind_ok h
  obtain ⟨⟨s, q⟩, hbody, h⟩ := bind_ok h
  obtain ⟨hstart, noise, hnoise, hstream, hend⟩ := findHeader_ok hfound
  obtain ⟨body, hp, rfl, hlen⟩ := receiveBody_ok hbody
  obtain ⟨trailer, t, rest, htrailer, hq, hrest, hparse, hhash, rfl⟩ := receiveTrailer_ok h
  have hne : p.bytes ≠ [] := by
    intro hnil
    obtain ⟨e, he⟩ := receiveTrailer_empty fmt sha256 header.size (Sink.empty.put (delivered fmt base64Chunks body))
      (List.append_eq_nil_iff.mp (hp.symm.trans hnil)).2
    exact absurd (he.symm.trans h) (by simp)
  obtain ⟨l, hl, rfl⟩ := hend.resolve_left hne
  rw [startsObject_newline] at hstart
  have hsize := mapError_ok hheader
  rw [trim_concat (by decide)] at hsize
  refine ⟨⟨noise, l, body, trailer, rest, ?_, hnoise, ⟨hl, hstart⟩, hsize, rfl, ⟨htrailer, hrest⟩, hparse⟩, hlen, hhash⟩
  rw [← hq, ← hp]
  show ({ bytes := incoming, cuts } : Pipe).bytes = _
  rw [hstream, utf8_append, utf8_newline]
  simp

/-! ## What a download does to its host -/

/-- Nothing was installed, and nothing recorded. -/
structure Local.Untouched (m : Local) : Prop where
  installs : m.installs = []
  records : m.records = []

/-- What was received took the place of a file, or of nothing. -/
structure Local.Installed (overwrite : Bool) (r : Received) (m : Local) : Prop where
  temp : m.temp = none
  installs : ∃ before, m.installs = [(before, r.out)] ∧ before ≠ some .dir ∧ (overwrite = false → before = none)

/-- Either nothing has happened, or everything. -/
def Local.Whole (arrived : Received → Prop) (overwrite : Bool) (m : Local) : Prop :=
  m.Untouched ∨ ∃ r, arrived r ∧ m.Installed overwrite r ∧
    (m.records = [] ∨ m.records = [(r.size, r.sha256)])

/-- What a download that is over has done. -/
def DownloadOver (arrived : Received → Prop) (overwrite : Bool) : Except DownloadError TransferResult → Local → Prop
  | .error (.failed _), m => m.Untouched ∧ (m.temp = none ∨ m.leftover = true)
  | .error (.recordFailed _), m =>
    ∃ r, arrived r ∧ m.Installed overwrite r ∧ (m.records = [] ∨ m.records = [(r.size, r.sha256)])
  | .ok _, m => ∃ r, arrived r ∧ m.Installed overwrite r ∧ m.records = [(r.size, r.sha256)]

theorem DownloadOver.whole {arrived : Received → Prop} {overwrite : Bool} :
    ∀ {o : Except DownloadError TransferResult} {m : Local}, DownloadOver arrived overwrite o m →
      m.Whole arrived overwrite
  | .error (.failed _), _, h => .inl h.1
  | .error (.recordFailed _), _, h => .inr h
  | .ok _, _, h => by
    obtain ⟨r, hr, hi, hrec⟩ := h
    exact .inr ⟨r, hr, hi, .inr hrec⟩

theorem Local.Whole.mono {arrived arrived' : Received → Prop} (h : ∀ r, arrived r → arrived' r) {overwrite : Bool}
    {m : Local} (hm : m.Whole arrived overwrite) : m.Whole arrived' overwrite := by
  obtain hu | ⟨r, hr, hi⟩ := hm
  · exact .inl hu
  · exact .inr ⟨r, h r hr, hi⟩

theorem DownloadOver.mono {arrived arrived' : Received → Prop} (h : ∀ r, arrived r → arrived' r) {overwrite : Bool} :
    ∀ {o : Except DownloadError TransferResult} {m : Local}, DownloadOver arrived overwrite o m →
      DownloadOver arrived' overwrite o m
  | .error (.failed _), _, ho => ho
  | .error (.recordFailed _), _, ho => by
    obtain ⟨r, hr, hi⟩ := ho
    exact ⟨r, h r hr, hi⟩
  | .ok _, _, ho => by
    obtain ⟨r, hr, hi⟩ := ho
    exact ⟨r, h r hr, hi⟩

/-- The commands that touch neither the temporary file nor the target, and tell
the server nothing. -/
def DownloadCmd.Calm : DownloadCmd → Prop
  | createTemp | receive | persist _ | removeTemp | downloadRecord _ _ _ => False
  | _ => True

section

variable {s s' : LocalState}

theorem DownloadStep.calm {c : DownloadCmd} {r : c.Result} (hc : c.Calm)
    (h : DownloadStep fmt sha256 base64Chunks incoming c r s s') : s'.mine = s.mine := by
  obtain ⟨ch, h⟩ := h
  cases c <;> first
    | exact hc.elim
    | (cases h; rfl)

theorem DownloadStep.createTemp {r : Except String Unit}
    (h : DownloadStep fmt sha256 base64Chunks incoming .createTemp r s s') (hm : s.mine.Untouched) :
    s'.mine.Untouched ∧ ((∃ e, r = .error e) → s'.mine = s.mine) := by
  obtain ⟨ch, h⟩ := h
  simp only [DownloadCmd.exec] at h
  split at h
  · cases h
    exact ⟨hm, fun _ => rfl⟩
  · cases h
    refine ⟨⟨hm.installs, hm.records⟩, ?_⟩
    rintro ⟨e, he⟩
    cases he

theorem DownloadStep.receive {r : Except StreamError Received}
    (h : DownloadStep fmt sha256 base64Chunks incoming .receive r s s') (hm : s.mine.Untouched) :
    s'.mine.Untouched ∧
      ∀ x, r = .ok x → Arrived fmt sha256 base64Chunks incoming x ∧ s'.mine.temp = some x.out := by
  obtain ⟨ch, h⟩ := h
  simp only [DownloadCmd.exec] at h
  split at h
  · cases h
    exact ⟨⟨hm.installs, hm.records⟩, by simp⟩
  · cases h
    exact ⟨⟨hm.installs, hm.records⟩, by simp⟩
  · rename_i x hx
    cases h
    refine ⟨⟨hm.installs, hm.records⟩, ?_⟩
    rintro y hy
    cases hy
    exact ⟨⟨_, hx⟩, rfl⟩

theorem DownloadStep.persist {overwrite : Bool} {r : Except String Unit} {x : Received}
    (h : DownloadStep fmt sha256 base64Chunks incoming (.persist overwrite) r s s') (hm : s.mine.Untouched)
    (ht : s.mine.temp = some x.out) :
    ((∃ e, r = .error e) → s'.mine = s.mine) ∧
      (r = .ok () → s'.mine.Installed overwrite x ∧ s'.mine.records = [] ∧ s'.target = some (.file x.out)) := by
  obtain ⟨ch, h⟩ := h
  simp only [DownloadCmd.exec, ht] at h
  split at h
  · cases h
    exact ⟨fun _ => rfl, by simp⟩
  · rename_i hnone
    cases hnone
  · rename_i content hcontent
    cases hcontent
    split at h
    · cases h
      exact ⟨fun _ => rfl, by simp⟩
    · rename_i hdir
      split at h
      · cases h
        exact ⟨fun _ => rfl, by simp⟩
      · rename_i hfree
        cases h
        refine ⟨by simp, fun _ => ⟨⟨rfl, _, by rw [hm.installs]; rfl, hdir, ?_⟩, hm.records, rfl⟩⟩
        intro hover
        by_contra hsome
        exact hfree ⟨hsome, hover⟩

theorem DownloadStep.removeTemp {r : Unit}
    (h : DownloadStep fmt sha256 base64Chunks incoming .removeTemp r s s') (hm : s.mine.Untouched) :
    s'.mine.Untouched ∧ (s'.mine.temp = none ∨ s'.mine.leftover = true) := by
  obtain ⟨ch, h⟩ := h
  cases h
  cases ch.fault with
  | some e => exact ⟨⟨hm.installs, hm.records⟩, .inr rfl⟩
  | none => exact ⟨⟨hm.installs, hm.records⟩, .inl rfl⟩

theorem DownloadStep.record {size : UInt64} {sha : String} {d : Nat} {r : Except String TransferResult}
    (h : DownloadStep fmt sha256 base64Chunks incoming (.downloadRecord size sha d) r s s') :
    s'.mine = { s.mine with records := s.mine.records ++ [(size, sha)] } := by
  obtain ⟨ch, h⟩ := h
  cases h
  rfl

end

/-! ## Every step of the code -/

theorem calm_call {c : DownloadCmd} (hc : c.Calm) : (call c).run.Issues DownloadCmd.Calm := Prog.issues_issue hc

theorem calm_checkLocalTarget (hasParent overwrite : Bool) :
    (checkLocalTarget hasParent overwrite).run.Issues DownloadCmd.Calm := by
  unfold checkLocalTarget
  split
  · trivial
  · refine (calm_call (c := .parentIsDir) trivial).bindE fun isDir => ?_
    split
    · trivial
    · refine (calm_call (c := .lstatTarget) trivial).bindE fun r => ?_
      split
      · trivial
      · split <;> trivial
      · trivial
      · trivial

section

variable {overwrite : Bool} {s : LocalState} {α : Type}

/-- What holds whenever a command is about to be issued. -/
def DownloadSound (fmt : Formats) (sha256 : Sha256) (base64Chunks : Bool) (incoming : List UInt8) (overwrite : Bool) :
    DownloadCmd → LocalState → Prop :=
  fun _ s => s.mine.Whole (Arrived fmt sha256 base64Chunks incoming) overwrite

theorem keeps_calm {P : Local → Prop}
    (hP : ∀ m, P m → m.Whole (Arrived fmt sha256 base64Chunks incoming) overwrite) {p : DownloadProg α}
    (hp : p.Issues DownloadCmd.Calm) (hs : P s.mine) :
    p.Keeps (DownloadStep fmt sha256 base64Chunks incoming) (DownloadSound fmt sha256 base64Chunks incoming overwrite)
      (fun _ s => P s.mine) s := by
  refine Prog.keeps_of_issues (J := fun s : LocalState => P s.mine) (fun _ s _ h => hP s.mine h) ?_ (fun _ _ h => h) hp hs
  intro c r s s' hc h hst
  show P s'.mine
  rw [hst.calm hc]
  exact h

/-- Calm code, which fails with nothing installed. -/
theorem keeps_calmE {P : Local → Prop} (hP : ∀ m, P m → m.Untouched) {h : Fetch α}
    (hp : h.run.Issues DownloadCmd.Calm) (hs : P s.mine) :
    h.run.Keeps (DownloadStep fmt sha256 base64Chunks incoming) (DownloadSound fmt sha256 base64Chunks incoming overwrite)
      (Prog.Ends (fun _ s => P s.mine) fun _ s => s.mine.Untouched) s := by
  refine Prog.keepsE_of_issues (P := fun s : LocalState => P s.mine) (fun _ s _ h => .inl (hP s.mine h)) ?_
    (fun _ s h => hP s.mine h) hp hs
  intro c r s s' hc h hst
  show P s'.mine
  rw [hst.calm hc]
  exact h

/-- The temporary file holds what was received. -/
structure Local.Holds (r : Received) (m : Local) : Prop extends m.Untouched where
  temp : m.temp = some r.out

theorem receiveFromSender_keeps {powershellSsh : Bool} (hs : s.mine.Untouched) :
    (receiveFromSender powershellSsh).run.Keeps (DownloadStep fmt sha256 base64Chunks incoming)
      (DownloadSound fmt sha256 base64Chunks incoming overwrite)
      (Prog.Ends (fun r s => Arrived fmt sha256 base64Chunks incoming r ∧ s.mine.Holds r) fun _ s =>
        s.mine.Untouched) s := by
  refine Prog.Keeps.bindE
    (Q := fun (r : Except StreamError Received) (s : LocalState) => s.mine.Untouched ∧
      ∀ x, r = .ok x → Arrived fmt sha256 base64Chunks incoming x ∧ s.mine.temp = some x.out)
    ⟨.inl hs, fun r s' hst => hst.receive hs⟩ ?_
  rintro r s ⟨hs, hr⟩
  cases r with
  | error e =>
    refine (keeps_calmE (fun _ h => h) (calm_call (c := .child .tryWait) trivial) hs).bindE fun r s hs => ?_
    split
    · exact hs
    · exact (keeps_calmE (fun _ h => h) (calm_call (c := .child .kill) trivial) hs).bindE fun _ _ h => h
    · split <;> exact hs
  | ok x =>
    obtain ⟨hx, ht⟩ := hr x rfl
    have hholds : s.mine.Holds x := ⟨hs, ht⟩
    refine (keeps_calmE (fun _ h => h.toUntouched) (Prog.issues_embedE (fun _ => trivial) _) hholds).bindE
      fun r s hs => ?_
    split
    · split
      · exact ⟨hx, hs⟩
      · exact hs.toUntouched
    · exact ⟨hx, hs⟩

theorem withStderr_keeps {Q : α → LocalState → Prop} {h : Fetch α}
    (hh : h.run.Keeps (DownloadStep fmt sha256 base64Chunks incoming)
      (DownloadSound fmt sha256 base64Chunks incoming overwrite) (Prog.Ends Q fun _ s => s.mine.Untouched) s) :
    (withStderr (Prog.call (DownloadCmd.child .stderrText)) .withStderr h).run.Keeps
      (DownloadStep fmt sha256 base64Chunks incoming)
      (DownloadSound fmt sha256 base64Chunks incoming overwrite) (Prog.Ends Q fun _ s => s.mine.Untouched) s := by
  refine hh.bind fun o s ho => ?_
  cases o with
  | ok a => exact ho
  | error e =>
    refine ⟨.inl ho, fun text s' hst => ?_⟩
    show s'.mine.Untouched
    rw [hst.calm (c := .child .stderrText) trivial]
    exact ho

theorem droppingTemp_keeps {Q : α → LocalState → Prop} {h : Fetch α}
    (hh : h.run.Keeps (DownloadStep fmt sha256 base64Chunks incoming)
      (DownloadSound fmt sha256 base64Chunks incoming overwrite) (Prog.Ends Q fun _ s => s.mine.Untouched) s) :
    (droppingTemp h).run.Keeps (DownloadStep fmt sha256 base64Chunks incoming)
      (DownloadSound fmt sha256 base64Chunks incoming overwrite)
      (Prog.Ends Q fun _ s => s.mine.Untouched ∧ (s.mine.temp = none ∨ s.mine.leftover = true)) s := by
  refine hh.bind fun o s ho => ?_
  cases o with
  | ok a => exact ho
  | error e => exact ⟨.inl ho, fun _ s' hst => hst.removeTemp ho⟩

/-- What was received is installed, and not recorded yet. -/
def Fetched (fmt : Formats) (sha256 : Sha256) (base64Chunks : Bool) (incoming : List UInt8) (overwrite : Bool)
    (r : Received) (s : LocalState) : Prop :=
  Arrived fmt sha256 base64Chunks incoming r ∧ s.mine.Installed overwrite r ∧ s.mine.records = []

theorem fillAndInstall_keeps {powershellSsh : Bool} (hs : s.mine.Untouched) :
    (fillAndInstall powershellSsh overwrite).run.Keeps (DownloadStep fmt sha256 base64Chunks incoming)
      (DownloadSound fmt sha256 base64Chunks incoming overwrite)
      (Prog.Ends (Fetched fmt sha256 base64Chunks incoming overwrite) fun _ s => s.mine.Untouched) s := by
  refine (keeps_calmE (fun _ h => h) (Prog.Issues.orThrow (calm_call (c := .spawn) trivial)) hs).bindE fun _ s hs => ?_
  refine (withStderr_keeps (receiveFromSender_keeps hs)).bindE fun r s hr => ?_
  obtain ⟨hr, hs⟩ := hr
  refine (keeps_calmE (fun _ h => h.toUntouched) (Prog.Issues.orThrow (calm_call (c := .syncTemp) trivial)) hs).bindE
    fun _ s hs => ?_
  refine (keeps_calmE (fun _ h => h.toUntouched) (Prog.Issues.orThrow (calm_call (c := .setMode) trivial)) hs).bindE
    fun _ s hs => ?_
  refine Prog.Keeps.bindE (Q := fun _ => Fetched fmt sha256 base64Chunks incoming overwrite r) ?_ fun _ s h => h
  refine ⟨.inl hs.toUntouched, fun o s' hst => ?_⟩
  obtain ⟨herr, hok⟩ := hst.persist hs.toUntouched hs.temp
  cases o with
  | ok u =>
    obtain ⟨hi, hrec, -⟩ := hok rfl
    exact ⟨hr, hi, hrec⟩
  | error e =>
    show s'.mine.Untouched
    rw [herr ⟨e, rfl⟩]
    exact hs.toUntouched

theorem fetchFile_keeps {hasParent powershellSsh : Bool} (hs : s.mine = {}) :
    (fetchFile hasParent powershellSsh overwrite).run.Keeps (DownloadStep fmt sha256 base64Chunks incoming)
      (DownloadSound fmt sha256 base64Chunks incoming overwrite)
      (Prog.Ends (Fetched fmt sha256 base64Chunks incoming overwrite) fun _ s =>
        s.mine.Untouched ∧ (s.mine.temp = none ∨ s.mine.leftover = true)) s := by
  have hfresh : ∀ {m : Local}, m = {} → m.Untouched := by
    rintro m rfl
    exact ⟨rfl, rfl⟩
  have hcheck := @keeps_calm fmt sha256 base64Chunks incoming overwrite s _ (fun m => m = {})
    (fun m hm => .inl (hfresh hm)) _ (calm_checkLocalTarget hasParent overwrite) hs
  refine Prog.Keeps.bindE (Q := fun _ s => s.mine = {}) (hcheck.mono (fun _ _ h => h) ?_) fun _ s hs => ?_
  · intro o s hs
    cases o with
    | ok u => exact hs
    | error e => exact ⟨hfresh hs, .inl (by rw [hs])⟩
  refine Prog.Keeps.bindE (Q := fun _ s => s.mine.Untouched) ?_ fun _ s hs => ?_
  · refine ⟨.inl (hfresh hs), fun r s' hst => ?_⟩
    obtain ⟨hs', herr⟩ := hst.createTemp (hfresh hs)
    cases r with
    | ok u => exact hs'
    | error e => exact ⟨hs', .inl (by rw [herr ⟨e, rfl⟩, hs])⟩
  · exact droppingTemp_keeps (fillAndInstall_keeps hs)

theorem recordDownload_keeps {r : Received} (h : Fetched fmt sha256 base64Chunks incoming overwrite r s) :
    (recordDownload r).Keeps (DownloadStep fmt sha256 base64Chunks incoming)
      (DownloadSound fmt sha256 base64Chunks incoming overwrite)
      (fun o s => s.mine.Installed overwrite r ∧
        (s.mine.records = [(r.size, r.sha256)] ∨ (∃ e, o = .error e) ∧ s.mine.records = [])) s := by
  obtain ⟨hr, hi, hrec⟩ := h
  have hsound : ∀ {s : LocalState}, s.mine.Installed overwrite r → s.mine.records = [] →
      s.mine.Whole (Arrived fmt sha256 base64Chunks incoming) overwrite :=
    fun hi hrec => .inr ⟨r, hr, hi, .inl hrec⟩
  refine ⟨hsound hi hrec, fun d s₁ hst => ?_⟩
  rw [← hst.calm (c := .elapsed) trivial] at hi hrec
  refine ⟨hsound hi hrec, fun o s₂ hst => ?_⟩
  rw [← hst.calm (c := .client) trivial] at hi hrec
  cases o with
  | error e => exact ⟨hi, .inr ⟨⟨e, rfl⟩, hrec⟩⟩
  | ok u =>
    refine ⟨hsound hi hrec, fun o s₃ hst => ?_⟩
    have hm := hst.record
    refine ⟨⟨?_, ?_⟩, .inl ?_⟩
    · rw [hm]
      exact hi.temp
    · rw [hm]
      exact hi.installs
    · rw [hm, hrec]
      rfl

theorem downloadFile_keeps {hasParent powershellSsh : Bool} (hs : s.mine = {}) :
    (downloadFile hasParent powershellSsh overwrite).Keeps (DownloadStep fmt sha256 base64Chunks incoming)
      (DownloadSound fmt sha256 base64Chunks incoming overwrite)
      (fun o s => DownloadOver (Arrived fmt sha256 base64Chunks incoming) overwrite o s.mine) s := by
  refine (fetchFile_keeps hs).bind fun o s ho => ?_
  cases o with
  | error e => exact ho
  | ok r =>
    refine (recordDownload_keeps ho).bind fun o s h => ?_
    obtain ⟨hi, hrec⟩ := h
    cases o with
    | error e => exact ⟨r, ho.1, hi, hrec.symm.imp And.right id⟩
    | ok result =>
      refine ⟨r, ho.1, hi, hrec.resolve_right ?_⟩
      rintro ⟨⟨e, he⟩, -⟩
      cases he

end

/-! ## A download that meets no failure -/

/-- Every step goes well, and no one else touches the target. -/
structure Smooth (env : DownloadCmd → DownloadChoice) (result : TransferResult) : Prop where
  others : ∀ c, (env c).others = id
  fault : ∀ c, (env c).fault = none
  errno : ∀ c, (env c).errno = none
  parent : ∀ c, (env c).parent = true
  status : ∀ c, (env c).status = .code 0
  answer : ∀ c, (env c).answer = .ok result

/-- The steps of a download, which never get stuck. -/
def DownloadCmd.exec? (fmt : Formats) (sha256 : Sha256) (base64Chunks : Bool) (incoming : List UInt8)
    (c : DownloadCmd) (ch : DownloadChoice) (s : LocalState) : Option (c.Result × LocalState) :=
  some (c.exec fmt sha256 base64Chunks incoming ch s)

section

variable {env : DownloadCmd → DownloadChoice} {result : TransferResult} {powershellSsh overwrite : Bool}

theorem Smooth.done (he : Smooth env result) (c : DownloadCmd) : (env c).toChildChoice.done = .ok () := by
  rw [ChildChoice.done, he.fault]

theorem runIn_downloadCmd {c : DownloadCmd} {r : c.Result} {s s' : LocalState}
    (h : c.exec fmt sha256 base64Chunks incoming (env c) s = (r, s')) :
    (call c).run.runIn (DownloadCmd.exec? fmt sha256 base64Chunks incoming) env s =
      some (.ok r, s') := Prog.runIn_issue (congrArg some h)

theorem runIn_droppingTemp {α : Type} {h : Fetch α} {a : α} {s s' : LocalState}
    (hh : h.run.runIn (DownloadCmd.exec? fmt sha256 base64Chunks incoming) env s = some (.ok a, s')) :
    (droppingTemp h).run.runIn (DownloadCmd.exec? fmt sha256 base64Chunks incoming) env s = some (.ok a, s') := by
  rw [droppingTemp, ExceptT.run_mk, Prog.runIn_bind, hh]
  rfl

theorem runIn_checkLocalTarget (he : Smooth env result) {target : Option LocalEntry} {m : Local}
    (hdir : target ≠ some .dir) (hfree : overwrite = false → target = none) :
    (checkLocalTarget true overwrite).run.runIn (DownloadCmd.exec? fmt sha256 base64Chunks incoming) env
        { target, mine := m } = some (.ok (), { target, mine := m }) := by
  rcases target with _ | _ | _ | _
  · simp [checkLocalTarget, call, Prog.issue, DownloadCmd.exec?, DownloadCmd.exec, he.others, he.parent, he.errno]
  · exact absurd rfl hdir
  all_goals
    have hover : overwrite = true := by
      by_contra hover
      cases hfree (Bool.eq_false_of_not_eq_true hover)
    simp [checkLocalTarget, call, Prog.issue, DownloadCmd.exec?, DownloadCmd.exec, he.others, he.parent, he.errno, hover]

theorem runIn_finishTransferChild (he : Smooth env result) (s : LocalState) : ∃ o,
    (Prog.embedE DownloadCmd.child (fun _ r => r) FetchError.child (finishTransferChild powershellSsh)).run.runIn
      (DownloadCmd.exec? fmt sha256 base64Chunks incoming) env s =
      some (.ok o, s) ∧ (o = none ∨ o = some (.code 0)) := by
  cases powershellSsh with
  | false =>
    refine ⟨some (.code 0), ?_, .inr rfl⟩
    simp only [Prog.embedE, finishTransferChild, ExceptT.run_mk, Bool.false_eq_true, if_false, Prog.call_bind, Prog.embed,
      Prog.op_bind, Prog.runIn_op, DownloadCmd.exec?, DownloadCmd.exec, ChildCmd.exec, he.done, he.others, he.status,
      Except.map, Option.bind_some, id_eq]
    rfl
  | true =>
    cases hw : (env (.child .waitBriefly)).running with
    | false =>
      refine ⟨some (.code 0), ?_, .inr rfl⟩
      simp only [Prog.embedE, finishTransferChild, ExceptT.run_mk, if_true, Prog.call_bind, Prog.embed, Prog.op_bind,
        Prog.runIn_op, DownloadCmd.exec?, DownloadCmd.exec, ChildCmd.exec, he.done, he.others, he.status, hw,
        Bool.false_eq_true, if_false, Except.map, Option.bind_some, id_eq]
      rfl
    | true =>
      refine ⟨none, ?_, .inl rfl⟩
      simp only [Prog.embedE, finishTransferChild, ExceptT.run_mk, if_true, Prog.call_bind, Prog.embed, Prog.op_bind,
        Prog.runIn_op, DownloadCmd.exec?, DownloadCmd.exec, ChildCmd.exec, he.done, he.others, he.status, hw, Except.map,
        Option.bind_some, id_eq]
      rfl

theorem runIn_receiveFromSender (he : Smooth env result) {r : Received}
    (hr : ∀ cuts, receiveStream fmt sha256 base64Chunks { bytes := incoming, cuts } = .ok r)
    (target : Option LocalEntry) (m : Local) :
    (receiveFromSender powershellSsh).run.runIn (DownloadCmd.exec? fmt sha256 base64Chunks incoming) env
        { target, mine := m } = some (.ok r, { target, mine := { m with temp := some r.out } }) := by
  have hreceive : DownloadCmd.receive.exec fmt sha256 base64Chunks incoming (env .receive) { target, mine := m } =
      (.ok r, { target, mine := { m with temp := some r.out } }) := by
    simp only [DownloadCmd.exec, he.others, he.fault, hr, id_eq]
  obtain ⟨o, hfinish, ho⟩ := @runIn_finishTransferChild fmt sha256 base64Chunks incoming env result powershellSsh he
    { target, mine := { m with temp := some r.out } }
  rw [receiveFromSender, Prog.runIn_bindE_ok (runIn_downloadCmd hreceive)]
  dsimp only
  rw [Prog.runIn_bindE_ok hfinish]
  rcases ho with rfl | rfl <;> rfl

theorem runIn_fetchFile (he : Smooth env result) {r : Received}
    (hr : ∀ cuts, receiveStream fmt sha256 base64Chunks { bytes := incoming, cuts } = .ok r)
    {target : Option LocalEntry} (hdir : target ≠ some .dir) (hfree : overwrite = false → target = none) :
    (fetchFile true powershellSsh overwrite).run.runIn (DownloadCmd.exec? fmt sha256 base64Chunks incoming) env
        { target, mine := {} } =
      some (.ok r, { target := some (.file r.out), mine := { installs := [(target, r.out)] } }) := by
  have hplace : ¬(target ≠ none ∧ overwrite = false) := by
    rintro ⟨hsome, hover⟩
    exact hsome (hfree hover)
  have hstream := @runIn_receiveFromSender fmt sha256 base64Chunks incoming env result powershellSsh he r hr
    target { temp := some [] }
  have htemp : DownloadCmd.createTemp.exec fmt sha256 base64Chunks incoming (env .createTemp)
      { target, mine := {} } = (.ok (), { target, mine := { temp := some [] } }) := by
    simp only [DownloadCmd.exec, he.others, he.fault, id_eq]
  have hspawn : DownloadCmd.spawn.exec fmt sha256 base64Chunks incoming (env .spawn)
      { target, mine := { temp := some [] } } = (.ok (), { target, mine := { temp := some [] } }) := by
    simp only [DownloadCmd.exec, he.done, he.others, id_eq]
  have hsync : DownloadCmd.syncTemp.exec fmt sha256 base64Chunks incoming (env .syncTemp)
      { target, mine := { temp := some r.out } } = (.ok (), { target, mine := { temp := some r.out } }) := by
    simp only [DownloadCmd.exec, he.done, he.others, id_eq]
  have hmode : DownloadCmd.setMode.exec fmt sha256 base64Chunks incoming (env .setMode)
      { target, mine := { temp := some r.out } } = (.ok (), { target, mine := { temp := some r.out } }) := by
    simp only [DownloadCmd.exec, he.done, he.others, id_eq]
  have hpersist : (DownloadCmd.persist overwrite).exec fmt sha256 base64Chunks incoming (env (.persist overwrite))
      { target, mine := { temp := some r.out } } =
      (.ok (), { target := some (.file r.out), mine := { installs := [(target, r.out)] } }) := by
    simp only [DownloadCmd.exec, he.others, he.fault, id_eq, if_neg hdir, if_neg hplace, List.nil_append]
  have hfill : (fillAndInstall powershellSsh overwrite).run.runIn
      (DownloadCmd.exec? fmt sha256 base64Chunks incoming) env { target, mine := { temp := some [] } } =
      some (.ok r, { target := some (.file r.out), mine := { installs := [(target, r.out)] } }) := by
    rw [fillAndInstall, Prog.runIn_bindE_ok (Prog.runIn_orThrow (runIn_downloadCmd hspawn)),
      Prog.runIn_bindE_ok (runIn_withStderr hstream), Prog.runIn_bindE_ok (Prog.runIn_orThrow (runIn_downloadCmd hsync)),
      Prog.runIn_bindE_ok (Prog.runIn_orThrow (runIn_downloadCmd hmode)),
      Prog.runIn_bindE_ok (Prog.runIn_orThrow (runIn_downloadCmd hpersist))]
    rfl
  rw [fetchFile, Prog.runIn_bindE_ok (runIn_checkLocalTarget he hdir hfree),
    Prog.runIn_bindE_ok (Prog.runIn_orThrow (runIn_downloadCmd htemp)),
    runIn_droppingTemp hfill]

/-- A download that meets no failure puts what was received in place and records
it. -/
theorem download_completes (he : Smooth env result) {r : Received}
    (hr : ∀ cuts, receiveStream fmt sha256 base64Chunks { bytes := incoming, cuts } = .ok r)
    {target : Option LocalEntry} (hdir : target ≠ some .dir) (hfree : overwrite = false → target = none) :
    (downloadFile true powershellSsh overwrite).runIn (DownloadCmd.exec? fmt sha256 base64Chunks incoming) env
        { target, mine := {} } =
      some (.ok result, {
        target := some (.file r.out)
        mine := { installs := [(target, r.out)], records := [(r.size, r.sha256)] } }) := by
  rw [downloadFile, Prog.runIn_bind, runIn_fetchFile he hr hdir hfree]
  simp [recordDownload, DownloadCmd.exec?, DownloadCmd.exec, ChildChoice.done, he.others, he.fault, he.answer]

end

/-! ## All or nothing -/

section

variable {hasParent powershellSsh overwrite : Bool} {s s' : LocalState} {es : List (Event DownloadCmd DownloadCmd.Result)}
  {p : DownloadProg (Except DownloadError TransferResult)}

/-- Wherever a download stops and whatever it meets, it has changed nothing, or
put one file in the target's place that was received whole and has the size and
the hash that the header and the trailer of the stream state; without `overwrite`
there was nothing in that place. A download that fails before has changed
nothing, and its temporary file is gone unless it could not be removed. -/
theorem download_all_or_nothing (hs : s.mine = {})
    (h : Prog.Run (DownloadStep fmt sha256 base64Chunks incoming) (downloadFile hasParent powershellSsh overwrite)
      s es p s') :
    s'.mine.Whole (Stated fmt sha256 base64Chunks incoming) overwrite ∧
      ∀ o, p = .pure o → DownloadOver (Stated fmt sha256 base64Chunks incoming) overwrite o s'.mine := by
  have hk := @downloadFile_keeps fmt sha256 base64Chunks incoming overwrite s hasParent powershellSsh hs
  have hstated : ∀ r, Arrived fmt sha256 base64Chunks incoming r → Stated fmt sha256 base64Chunks incoming r :=
    fun _ hr => hr.stated
  constructor
  · have hw : s'.mine.Whole (Arrived fmt sha256 base64Chunks incoming) overwrite := by
      exact hk.reached (J := fun s : LocalState => s.mine.Whole (Arrived fmt sha256 base64Chunks incoming) overwrite)
        (fun _ _ h => h) (fun o s hover => hover.whole) h
    exact hw.mono hstated
  · rintro o rfl
    exact DownloadOver.mono hstated (hk.run h)

end

/-! A file of three bytes, and all of its download. -/

def noteFile : FileContent := { bytes := [10, 123, 125], fits := by decide }

def noteFetched : TransferResult :=
  { operationId := "op-1", direction := .download, path := "note", size := 3, sha256 := "", durationMs := 4 }

theorem run_note : ∃ stream es s',
    sendStream jsonFormats zeroDigest true noteFile [1, 1] = .ok stream ∧
      Prog.Run (DownloadStep jsonFormats zeroDigest true stream) (downloadFile true true false)
        { target := none, mine := {} } es (.pure (.ok noteFetched)) s' ∧
      s'.target = some (.file [10, 123, 125]) := by
  obtain ⟨chunks, hchunks, hsend⟩ := sendStream_eq jsonFormats zeroDigest true noteFile [1, 1]
  have hr : ∀ cuts, receiveStream jsonFormats zeroDigest true
      { bytes := framed jsonFormats zeroDigest true noteFile chunks, cuts } = .ok _ :=
    @receiveStream_framed jsonFormats zeroDigest true noteFile _ chunks hchunks [] (by simp)
  have hsmooth : Smooth (fun _ => { answer := .ok noteFetched }) noteFetched :=
    ⟨fun _ => rfl, fun _ => rfl, fun _ => rfl, fun _ => rfl, fun _ => rfl, fun _ => rfl⟩
  have hdone := @download_completes _ _ _ _ _ _ true false hsmooth _ hr none (by simp) (fun _ => rfl)
  let stream := framed jsonFormats zeroDigest true noteFile chunks
  have hstep : ∀ (c : DownloadCmd) (r : c.Result) s s',
      DownloadCmd.exec? jsonFormats zeroDigest true stream c { answer := .ok noteFetched } s = some (r, s') →
        DownloadStep jsonFormats zeroDigest true stream c r s s' := fun _ _ _ _ h => ⟨_, Option.some.inj h⟩
  obtain ⟨es, hrun⟩ := Prog.run_of_runIn hstep hdone
  exact ⟨stream, es, _, hsend, hrun, rfl⟩

theorem download_all_or_nothing_note : ∃ stream es s',
    Prog.Run (DownloadStep jsonFormats zeroDigest true stream) (downloadFile true true false)
        { target := none, mine := {} } es (.pure (.ok noteFetched)) s' ∧
      DownloadOver (Stated jsonFormats zeroDigest true stream) false (.ok noteFetched) s'.mine := by
  obtain ⟨stream, es, s', -, hrun, -⟩ := run_note
  exact ⟨stream, es, s', hrun, (download_all_or_nothing rfl hrun).2 _ rfl⟩

/-! ## What the sender sent -/

section

variable {hasParent powershellSsh overwrite : Bool} {s s' : LocalState} {es : List (Event DownloadCmd DownloadCmd.Result)}
  {p : DownloadProg (Except DownloadError TransferResult)}

end

end

end RemoteWorkspace
