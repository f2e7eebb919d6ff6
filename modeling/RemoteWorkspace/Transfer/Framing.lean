import RemoteWorkspace.Lib.Text
import RemoteWorkspace.Workspace

/-!
# The data plane of a transfer

The bytes of a file go through a pipe of their own: `sendStream` and
`receiveStream` are `run_transfer_send` of the server and `receive_stream` of
the client, `uploadStream` and `confirmUpload` are `send_to_receiver` of the
client, before and after `runTransferReceive` of the server. A file and a pipe
are the same thing to their readers: bytes, of which a read returns as many as
it pleases.

The formats of `serde_json` and `base64` are parameters (`Formats`). Nothing
here times out.
-/

namespace RemoteWorkspace

open Text

structure SendHeader where
  size : UInt64
  deriving DecidableEq, Repr

structure SendTrailer where
  sha256 : String
  deriving DecidableEq, Repr

structure ReceiveMetadata where
  size : UInt64
  sha256 : String
  deriving DecidableEq, Repr

structure Formats where
  header : ObjectFormat SendHeader
  trailer : ObjectFormat SendTrailer
  metadata : ObjectFormat ReceiveMetadata
  base64 : ByteFormat

inductive TransferError where
  | io
  | fileShrank
  | noHeader
  | invalidHeader (header : List Char) (e : String)
  | endedEarly (remaining size : Nat)
  | invalidChunk (e : String)
  | chunkSize (decoded allowed : Nat)
  | invalidTrailer (trailer : List Char) (e : String)
  | changedSize (sent size : Nat)
  | declaredSize (received declared : Nat)
  | noMetadata (out : List Char)
  | invalidMetadata (line : List Char) (e : String)
  | verificationFailed (here there : String)
  deriving DecidableEq, Repr

/-- The bytes of a file, as many as a length of the system can count. -/
structure FileContent where
  bytes : List UInt8
  fits : bytes.length < UInt64.size

def FileContent.size (c : FileContent) : UInt64 := UInt64.ofNatLT c.bytes.length c.fits

@[simp] theorem FileContent.toNat_size (c : FileContent) : c.size.toNat = c.bytes.length :=
  UInt64.toNat_ofNatLT

/-! ## Reading -/

/-- Bytes to be read, and how many of them each of the next reads gets at the
most. -/
structure Pipe where
  bytes : List UInt8
  cuts : List Nat
  deriving Repr

namespace Pipe

/-- One read of up to `want` bytes. It gets one at least, unless the pipe has
ended. -/
def read (p : Pipe) (want : Nat) : List UInt8 × Pipe :=
  let n := max 1 (min want (p.cuts.headD want))
  (p.bytes.take n, { bytes := p.bytes.drop n, cuts := p.cuts.tail })

def readLine (p : Pipe) : Except TransferError (List Char × Pipe) :=
  match utf8? (takeLine p.bytes).1 with
  | none => .error .io
  | some line => .ok (line, { p with bytes := (takeLine p.bytes).2 })

theorem read_append (p : Pipe) (want : Nat) : (p.read want).1 ++ (p.read want).2.bytes = p.bytes :=
  List.take_append_drop _ _

theorem read_eq_nil {p : Pipe} {want : Nat} : (p.read want).1 = [] ↔ p.bytes = [] := by
  simp only [read, List.take_eq_nil_iff]
  exact or_iff_right (by omega)

theorem length_read_le (p : Pipe) (want : Nat) (h : 0 < want) : (p.read want).1.length ≤ want := by
  simp only [read, List.length_take]
  omega

theorem length_read {p : Pipe} {want : Nat} (h : (p.read want).1 ≠ []) :
    (p.read want).2.bytes.length < p.bytes.length := by
  have hlen := congrArg List.length (p.read_append want)
  have hpos := List.length_pos_iff.mpr h
  rw [List.length_append] at hlen
  omega

/-- What a line read leaves, and that it takes something off the pipe unless
it is empty. -/
theorem readLine_ok {p p' : Pipe} {line : List Char} (h : p.readLine = .ok (line, p')) :
    utf8 line = (takeLine p.bytes).1 ∧ p'.bytes = (takeLine p.bytes).2 ∧
      (line = [] ↔ p.bytes = []) ∧ (line ≠ [] → p'.bytes.length < p.bytes.length) := by
  rw [readLine] at h
  split at h
  · cases h
  · rename_i line' hline
    cases h
    have hutf := utf8_of_utf8? hline
    have hnil : line = [] ↔ p.bytes = [] := by rw [← utf8_eq_nil, hutf, takeLine_eq_nil]
    refine ⟨hutf, rfl, hnil, fun hne => ?_⟩
    have hlen := congrArg List.length (takeLine_append p.bytes)
    have hpos := List.length_pos_iff.mpr (mt takeLine_eq_nil.mp (mt hnil.mpr hne))
    rw [List.length_append] at hlen
    show (takeLine p.bytes).2.length < _
    omega

end Pipe

/-- Where received bytes go: into the hash and into the file. -/
structure Sink where
  hasher : List UInt8
  out : List UInt8
  deriving DecidableEq, Repr

def Sink.empty : Sink := { hasher := [], out := [] }

def Sink.put (s : Sink) (bytes : List UInt8) : Sink :=
  { hasher := s.hasher ++ bytes, out := s.out ++ bytes }

@[simp] theorem Sink.put_nil (s : Sink) : s.put [] = s := by simp [put]

@[simp] theorem Sink.put_put (s : Sink) (xs ys : List UInt8) : (s.put xs).put ys = s.put (xs ++ ys) := by
  simp [put]

/-! ## The sender of a download -/

def transferBufSize : Nat := 64 * 1024

/-- `BASE64_TRANSFER_BUF_SIZE` and `POWERSHELL_TRANSFER_BUF_SIZE`. -/
def base64TransferBufSize : Nat := 3 * 1024

/-- How many bytes are read at once. -/
def chunkSize (base64Chunks : Bool) : Nat := if base64Chunks then base64TransferBufSize else transferBufSize

theorem chunkSize_pos (base64Chunks : Bool) : 0 < chunkSize base64Chunks := by
  cases base64Chunks <;> decide

variable (fmt : Formats) (sha256 : Sha256)

/-- What is written for some bytes: the bytes, or a line of Base64. -/
def onWire (base64Chunks : Bool) (bytes : List UInt8) : List UInt8 :=
  if base64Chunks then utf8 (fmt.base64.encode bytes) ++ [newline] else bytes

/-- The loop of `run_transfer_send`. Returns what was hashed and what was
written. -/
def sendChunks (base64Chunks : Bool) (remaining : Nat) (hasher out : List UInt8) (file : Pipe) :
    Except TransferError (List UInt8 × List UInt8) :=
  if remaining = 0 then .ok (hasher, out)
  else
    let r := file.read (min remaining (chunkSize base64Chunks))
    if r.1 = [] then .error .fileShrank
    else
      sendChunks base64Chunks (remaining - r.1.length) (hasher ++ r.1) (out ++ onWire fmt base64Chunks r.1) r.2
termination_by remaining
decreasing_by exact Nat.sub_lt (Nat.pos_of_ne_zero ‹_›) (List.length_pos_iff.mpr ‹_›)

/-- What `run_transfer_send` writes for a file, which its reads get in parts
cut like `cuts`. -/
def sendStream (base64Chunks : Bool) (file : FileContent) (cuts : List Nat) :
    Except TransferError (List UInt8) := do
  let header := fmt.header.line { size := file.size }
  let (hasher, out) ← sendChunks fmt base64Chunks file.size.toNat [] header { bytes := file.bytes, cuts }
  .ok (out ++ fmt.trailer.line { sha256 := hashBytes sha256 hasher })

/-! ## The receiver of a download -/

/-- The first line that begins like an object. -/
def findHeader (p : Pipe) : Except TransferError (List Char × Pipe) :=
  match _ : p.readLine with
  | .error e => .error e
  | .ok (line, p') =>
    if line = [] then .error .noHeader
    else if startsObject line then .ok (line, p')
    else findHeader p'
termination_by p.bytes.length
decreasing_by exact (Pipe.readLine_ok ‹_›).2.2.2 ‹_›

def receiveRaw (size remaining : Nat) (s : Sink) (p : Pipe) : Except TransferError (Sink × Pipe) :=
  if remaining = 0 then .ok (s, p)
  else
    let r := p.read (min remaining transferBufSize)
    if r.1 = [] then .error (.endedEarly remaining size)
    else receiveRaw size (remaining - r.1.length) (s.put r.1) r.2
termination_by remaining
decreasing_by exact Nat.sub_lt (Nat.pos_of_ne_zero ‹_›) (List.length_pos_iff.mpr ‹_›)

def receiveBase64 (size remaining : Nat) (s : Sink) (p : Pipe) : Except TransferError (Sink × Pipe) :=
  if remaining = 0 then .ok (s, p)
  else
    match p.readLine with
    | .error e => .error e
    | .ok (line, p') =>
      if line = [] then .error (.endedEarly remaining size)
      else
        match fmt.base64.decode (trimLineEnd line) with
        | .error e => .error (.invalidChunk e)
        | .ok decoded =>
          if decoded = [] ∨ remaining < decoded.length then .error (.chunkSize decoded.length remaining)
          else receiveBase64 size (remaining - decoded.length) (s.put decoded) p'
termination_by remaining
decreasing_by
  have := List.length_pos_iff.mpr (not_or.mp ‹¬(decoded = [] ∨ _)›).1
  omega

def receiveBody (base64Chunks : Bool) (size : Nat) (p : Pipe) : Except TransferError (Sink × Pipe) :=
  if base64Chunks then receiveBase64 fmt size size .empty p else receiveRaw size size .empty p

/-- What a download returns, and what it wrote. -/
structure Received where
  out : List UInt8
  size : UInt64
  sha256 : String
  deriving DecidableEq, Repr

def receiveTrailer (size : UInt64) (s : Sink) (p : Pipe) : Except TransferError Received := do
  let (line, _) ← p.readLine
  let trailer ← (fmt.trailer.parse (trim line)).mapError (.invalidTrailer line)
  let localSha := hashBytes sha256 s.hasher
  if trailer.sha256 ≠ localSha then .error (.verificationFailed localSha trailer.sha256)
  else .ok { out := s.out, size, sha256 := localSha }

def receiveStream (base64Chunks : Bool) (p : Pipe) : Except TransferError Received := do
  let (line, p) ← findHeader p
  let header ← (fmt.header.parse (trim line)).mapError (.invalidHeader line)
  let (s, p) ← receiveBody fmt base64Chunks header.size.toNat p
  receiveTrailer fmt sha256 header.size s p

/-! ## The sender of an upload -/

/-- The loop of `send_to_receiver`, which reads to the end of the file. -/
def uploadChunks (base64Chunks : Bool) (hasher out : List UInt8) (sent : Nat) (file : Pipe) :
    List UInt8 × List UInt8 × Nat :=
  let r := file.read (chunkSize base64Chunks)
  if r.1 = [] then (hasher, out, sent)
  else uploadChunks base64Chunks (hasher ++ r.1) (out ++ onWire fmt base64Chunks r.1) (sent + r.1.length) r.2
termination_by file.bytes.length
decreasing_by exact Pipe.length_read ‹_›

/-- What `send_to_receiver` hashes and writes for a local file whose size was
`size`. -/
def uploadStream (base64Chunks : Bool) (size : UInt64) (file : Pipe) :
    Except TransferError (List UInt8 × List UInt8) :=
  let (hasher, out, sent) := uploadChunks fmt base64Chunks [] [] 0 file
  if sent ≠ size.toNat then .error (.changedSize sent size.toNat) else .ok (hasher, out)

/-- The `str::lines` of a text: a line ends with a newline, before which a
return may stand; what is behind the last one is a line unless it is empty. -/
def textLines (cs : List Char) : List (List Char) :=
  let ls := cs.splitOn '\n'
  let ended := ls.dropLast.map fun l => if l.getLast? = some '\r' then l.dropLast else l
  if ls.getLastD [] = [] then ended else ended ++ [ls.getLastD []]

theorem textLines_cons {l : List Char} (hl : '\n' ∉ l) (rest : List Char) :
    textLines (l ++ '\n' :: rest) = (if l.getLast? = some '\r' then l.dropLast else l) :: textLines rest := by
  rw [textLines, textLines, List.splitOn_append_cons_self_of_not_mem hl]
  have hne := List.splitOn_ne_nil '\n' rest
  generalize rest.splitOn '\n' = ls at hne ⊢
  cases ls with
  | nil => exact absurd rfl hne
  | cons x xs =>
    have hlast : (l :: x :: xs).getLastD [] = (x :: xs).getLastD [] := by simp
    simp only [List.dropLast_cons_cons, List.map_cons, hlast]
    split <;> rfl

/-- What `send_to_receiver` makes of what the receiver wrote. -/
def confirmUpload (size : UInt64) (hasher : List UInt8) (out : List UInt8) : Except TransferError String := do
  match utf8? out with
  | none => .error .io
  | some out =>
    match (textLines out).reverse.find? startsObject with
    | none => .error (.noMetadata out)
    | some line =>
      let remote ← (fmt.metadata.parse (trim line)).mapError (.invalidMetadata line)
      let localSha := hashBytes sha256 hasher
      if remote.size ≠ size ∨ remote.sha256 ≠ localSha then .error (.verificationFailed localSha remote.sha256)
      else .ok localSha

/-! ## The receiver of an upload -/

/-- The loop of `run_transfer_receive` on Base64 lines. Returns how many bytes
it has written in all, which is fewer than expected when the stream ended. -/
def acceptBase64 (expectSize total : Nat) (s : Sink) (stdin : Pipe) : Except TransferError (Nat × Sink) :=
  if expectSize ≤ total then .ok (total, s)
  else
    let rawSize := min (expectSize - total) base64TransferBufSize
    match stdin.readLine with
    | .error e => .error e
    | .ok (encoded, stdin') =>
      if encoded = [] then .ok (total, s)
      else
        match fmt.base64.decode (trimLineEnd encoded) with
        | .error e => .error (.invalidChunk e)
        | .ok decoded =>
          if decoded = [] ∨ rawSize < decoded.length then .error (.chunkSize decoded.length rawSize)
          else acceptBase64 expectSize (total + decoded.length) (s.put decoded) stdin'
termination_by expectSize - total
decreasing_by
  have := List.length_pos_iff.mpr (not_or.mp ‹¬(decoded = [] ∨ _)›).1
  omega

def acceptRaw (expectSize total : Nat) (s : Sink) (stdin : Pipe) : Nat × Sink :=
  if expectSize ≤ total then (total, s)
  else
    let r := stdin.read (min (expectSize - total) transferBufSize)
    if r.1 = [] then (total, s)
    else acceptRaw expectSize (total + r.1.length) (s.put r.1) r.2
termination_by expectSize - total
decreasing_by
  exact Nat.sub_lt_sub_left (Nat.lt_of_not_le ‹_›) (Nat.lt_add_of_pos_right (List.length_pos_iff.mpr ‹_›))

/-- `run_transfer_receive`: what the staging file then holds, and what is
written to the standard output. -/
def runTransferReceive (expectSize : UInt64) (base64Chunks : Bool) (stdin : Pipe) :
    Except TransferError (List UInt8 × List UInt8) := do
  let expect := expectSize.toNat
  let (total, s) ← if base64Chunks then acceptBase64 fmt expect 0 .empty stdin
    else .ok (acceptRaw expect 0 .empty stdin)
  if total ≠ expect then .error (.declaredSize total expect)
  else
    .ok (s.out, fmt.metadata.line { size := UInt64.ofNat total, sha256 := hashBytes sha256 s.hasher })

end RemoteWorkspace
