import RemoteWorkspace.Transfer.Downloads

/-!
# Uploads

`upload_file` of the client: the server prepares a staging file, the bytes of the
local file go to a receiver that writes them there, and the server is told to put
the staging file in place once the receiver has confirmed their number and their
hash.

A commit is sent only for what was read and what the receiver stated, and with
the server's receiver at the other end the staging file then holds just that,
wherever the stream between them may have broken off (`upload_commits_verified`).
Once it knows of its staging file, an upload that fails has tried to abort it
(`upload_aborts`).
-/

namespace RemoteWorkspace

open Text
open Interleave

/-! ## What an upload uses -/

inductive SendError where
  | spawn (e : String)
  | openSource (e : String)
  | send (e : StreamError)
  | closeStdin (e : String)
  | confirm (e : StreamError)
  | unconfirmed (e : TransferError)
  | child (e : ChildError)
  | receiverFailed (status : ExitStatus)
  | withStderr (e : SendError) (text : String)
  deriving DecidableEq, Repr

inductive UploadError where
  | stat (e : String)
  | notRegular
  /-- No connection, or an error of the server. -/
  | control (e : String)
  | stream (e : SendError)
  /-- The first error, and that the abort failed too. -/
  | cleanup (e : UploadError) (abort : String)
  deriving DecidableEq, Repr

inductive UploadOp where
  | metadata
  | client
  | prepare
  | spawn (size : UInt64)
  | openSource
  /-- The loop that reads the file and writes to the receiver. -/
  | send (size : UInt64)
  | closeStdin
  /-- `read_to_string` of what the receiver writes. -/
  | confirmation
  | child (c : ChildCmd)
  | elapsed
  | commit (transferId : String) (size : UInt64) (sha256 : String) (durationMs : Nat)
  | abort (transferId : String)
  deriving DecidableEq, Repr

abbrev UploadOp.Result : UploadOp → Type
  | metadata => Except String (Option UInt64)
  | client => Except String Unit
  | prepare => Except String String
  | spawn _ => Except String Unit
  | openSource => Except String Unit
  | send _ => Except StreamError (List UInt8)
  | closeStdin => Except String Unit
  | confirmation => Except StreamError (List UInt8)
  | child c => c.Result
  | elapsed => Nat
  | commit _ _ _ _ => Except String TransferResult
  | abort _ => Except String Unit

structure Commit where
  transferId : String
  size : UInt64
  sha256 : String
  /-- What the staging file holds when the commit is sent. -/
  staged : List UInt8
  answer : Except String TransferResult
  deriving DecidableEq

/-- What an upload does to the server. -/
structure Upload where
  /-- The transfer for which the server has made a staging file. -/
  prepared : Option String := none
  /-- The transfer that the client was told of. -/
  told : Option String := none
  /-- The size the receiver was told. -/
  expect : UInt64 := 0
  /-- What was read of the local file, and what was written for it. -/
  read : List UInt8 := []
  wire : List UInt8 := []
  staged : List UInt8 := []
  /-- All that the receiver was heard to write. -/
  heard : Option (List UInt8) := none
  commits : List Commit := []
  aborts : List (String × Except String Unit) := []
  deriving DecidableEq

/-- What a step meets besides: the file and how its reads are cut; how much of
the stream gets to the receiver; what the remote shell says; what a receiver
writes that is not the server's. -/
structure UploadOpChoice extends ChildChoice where
  size : Option UInt64 := none
  transferId : String := ""
  /-- The server has made a staging file, and its answer is lost. -/
  lost : Bool := false
  content : List UInt8 := []
  cuts : List Nat := []
  arrives : Nat := 0
  noise : List (List UInt8) := []
  forged : Option (List UInt8) := none
  /-- What a receiver that fails leaves in the staging file. -/
  torn : List UInt8 := []
  elapsed : Nat := 0
  result : TransferResult :=
    { operationId := "", direction := .upload, path := "", size := 0, sha256 := "", durationMs := 0 }
  deriving DecidableEq, Repr

section

variable (fmt : Formats) (sha256 : Sha256) (powershellSsh : Bool)

/-- What a receiver writes, and what it leaves in the staging file. -/
def UploadOpChoice.receiver (ch : UploadOpChoice) (u : Upload) : List UInt8 × List UInt8 :=
  match ch.forged with
  | some out => (out, ch.torn)
  | none =>
    match runTransferReceive fmt sha256 u.expect powershellSsh { bytes := u.wire.take ch.arrives, cuts := ch.cuts } with
    | .ok (staged, out) => (joinLines ch.noise ++ out, staged)
    | .error _ => (joinLines ch.noise, ch.torn)

def UploadOp.exec (c : UploadOp) (ch : UploadOpChoice) (u : Upload) : c.Result × Upload :=
  match c with
  | metadata => (ch.done.map fun _ => ch.size, u)
  | client => (ch.done, u)
  | prepare =>
    match ch.fault with
    | some e => (.error e, { u with prepared := if ch.lost then some ch.transferId else none })
    | none => (.ok ch.transferId, { u with prepared := some ch.transferId, told := some ch.transferId })
  | spawn size => (ch.done, { u with expect := size })
  | openSource => (ch.done, u)
  | send size =>
    match ch.fault, uploadStream fmt powershellSsh size { bytes := ch.content, cuts := ch.cuts } with
    | some e, _ => (.error (.broken e), u)
    | none, .error e => (.error (.transfer e), u)
    | none, .ok (hasher, wire) => (.ok hasher, { u with read := hasher, wire })
  | closeStdin => (ch.done, u)
  | confirmation =>
    match ch.fault with
    | some e => (.error (.broken e), { u with staged := ch.torn })
    | none =>
      let (out, staged) := ch.receiver fmt sha256 powershellSsh u
      (.ok out, { u with staged, heard := some out })
  | child c => (c.exec ch.toChildChoice, u)
  | elapsed => (ch.elapsed, u)
  | commit transferId size sha _ =>
    let answer := ch.done.map fun _ => ch.result
    (answer, { u with commits := u.commits ++ [{ transferId, size, sha256 := sha, staged := u.staged, answer }] })
  | abort transferId => (ch.done, { u with aborts := u.aborts ++ [(transferId, ch.done)] })

abbrev UploadProg := Prog UploadOp UploadOp.Result

abbrev Send := ExceptT SendError UploadProg

def Send.call (c : UploadOp) : Send c.Result := Prog.issue c

open Send (call)
open Prog (orThrow)

/-! ## The code -/

def sendToReceiver (size : UInt64) : Send String := do
  orThrow .openSource (call .openSource)
  let streamed ← call (.send size)
  let closed ← call .closeStdin
  match streamed with
  | .error e =>
    let _ ← call (.child .kill)
    let _ ← call (.child .wait)
    throw (.send e)
  | .ok hasher =>
    match closed with
    | .error e => throw (.closeStdin e)
    | .ok _ =>
      match ← call .confirmation with
      | .error e => throw (.confirm e)
      | .ok out =>
        match confirmUpload fmt sha256 size hasher out with
        | .error e => throw (.unconfirmed e)
        | .ok localSha =>
          match ← Prog.embedE UploadOp.child (fun _ r => r) SendError.child (finishTransferChild powershellSsh) with
          | some status => if status.success then return localSha else throw (.receiverFailed status)
          | none => return localSha

def streamToReceiver (size : UInt64) : Send String := do
  orThrow .spawn (call (.spawn size))
  withStderr (Prog.call (UploadOp.child .stderrText)) .withStderr (sendToReceiver fmt sha256 powershellSsh size)

def abortAfter (transferId : String) (e : UploadError) : UploadProg (Except UploadError TransferResult) := do
  match ← Prog.call UploadOp.client with
  | .error a => return .error (.cleanup e a)
  | .ok _ =>
    match ← Prog.call (UploadOp.abort transferId) with
    | .error a => return .error (.cleanup e a)
    | .ok _ => return .error e

/-- What follows the preparation. -/
def uploadPrepared (size : UInt64) (transferId : String) : UploadProg (Except UploadError TransferResult) := do
  match ← (streamToReceiver fmt sha256 powershellSsh size).run with
  | .error e => abortAfter transferId (.stream e)
  | .ok localSha =>
    let durationMs ← Prog.call UploadOp.elapsed
    match ← Prog.call UploadOp.client with
    | .error e => abortAfter transferId (.control e)
    | .ok _ =>
      match ← Prog.call (UploadOp.commit transferId size localSha durationMs) with
      | .ok result => return .ok result
      | .error e => abortAfter transferId (.control e)

def uploadFile : UploadProg (Except UploadError TransferResult) := do
  match ← Prog.call UploadOp.metadata with
  | .error e => return .error (.stat e)
  | .ok none => return .error .notRegular
  | .ok (some size) =>
    match ← Prog.call UploadOp.client with
    | .error e => return .error (.control e)
    | .ok _ =>
      match ← Prog.call UploadOp.prepare with
      | .error e => return .error (.control e)
      | .ok transferId => uploadPrepared fmt sha256 powershellSsh size transferId

/-- A step, whatever it meets; an honest receiver is the server's, behind the
noise of a remote shell. -/
def UploadStep (honest : Bool) (c : UploadOp) (r : c.Result) (u u' : Upload) : Prop :=
  ∃ ch, c.exec fmt sha256 powershellSsh ch u = (r, u') ∧
    (honest = true → ch.forged = none ∧ ∀ l ∈ ch.noise, IsNoise l)

end

/-! ## What the server's receiver takes -/

section

variable {fmt : Formats} {sha256 : Sha256} {powershellSsh : Bool}

/-- What can be read of a part of a text is a part of its bytes. -/
def CutsShort (F : ByteFormat) : Prop :=
  ∀ bytes cs xs, cs <+: F.encode bytes → F.decode cs = .ok xs → xs <+: bytes

/-- No more comes of an empty pipe. -/
theorem acceptBase64_empty {expectSize total n : Nat} {s s' : Sink} {cuts : List Nat}
    (h : acceptBase64 fmt expectSize total s { bytes := [], cuts } = .ok (n, s')) : n = total ∧ s' = s := by
  rw [acceptBase64] at h
  split at h
  · cases h
    exact ⟨rfl, rfl⟩
  · rw [Pipe.readLine_empty] at h
    dsimp only at h
    rw [if_pos rfl] at h
    cases h
    exact ⟨rfl, rfl⟩

/-- A line that is cut off gives a part of its chunk. -/
theorem acceptBase64_torn_line (hcut : CutsShort fmt.base64) {expectSize total n : Nat} {s s' : Sink} {c q : List UInt8}
    (hq : q <+: utf8 (fmt.base64.encode c)) {cuts : List Nat}
    (h : acceptBase64 fmt expectSize total s { bytes := q, cuts } = .ok (n, s')) :
    ∃ xs, xs <+: c ∧ n = total + xs.length ∧ s' = s.put xs := by
  rw [acceptBase64] at h
  split at h
  · cases h
    exact ⟨[], List.nil_prefix, rfl, (Sink.put_nil _).symm⟩
  rw [Pipe.readLine_torn (newline_not_mem_of_torn (fmt.base64.newline_not_mem c) hq)] at h
  cases hline : utf8? q with
  | none =>
    rw [hline] at h
    cases h
  | some line =>
    rw [hline] at h
    have hstart : line <+: fmt.base64.encode c := prefix_of_utf8_prefix (utf8_of_utf8? hline ▸ hq)
    have htrim : trimLineEnd line = line := trimLineEnd_of_not_mem
      (fun hr => fmt.base64.return_not_mem c (hstart.subset hr))
      (fun hn => fmt.base64.newline_not_mem c (hstart.subset hn))
    dsimp only at h
    rw [htrim] at h
    split at h
    · cases h
      exact ⟨[], List.nil_prefix, rfl, (Sink.put_nil _).symm⟩
    split at h
    · cases h
    · rename_i decoded hdecode
      split at h
      · cases h
      · obtain ⟨rfl, rfl⟩ := acceptBase64_empty h
        exact ⟨decoded, hcut c line decoded hstart hdecode, rfl, rfl⟩

/-- Of lines that are cut off somewhere, all bytes are taken or too few. -/
theorem acceptBase64_torn (hcut : CutsShort fmt.base64) {chunks : List (List UInt8)} (hne : ∀ c ∈ chunks, c ≠ [])
    (hbound : ∀ c ∈ chunks, c.length ≤ base64TransferBufSize) {total n : Nat} {s s' : Sink} {q : List UInt8}
    (hq : q <+: body fmt true chunks) {cuts : List Nat}
    (h : acceptBase64 fmt (total + chunks.flatten.length) total s { bytes := q, cuts } = .ok (n, s'))
    (hn : n = total + chunks.flatten.length) : s' = s.put chunks.flatten := by
  induction chunks generalizing total s q with
  | nil =>
    have hnil : q = [] := List.prefix_nil.mp hq
    rw [hnil] at h
    rw [(acceptBase64_empty h).2, List.flatten_nil, Sink.put_nil]
  | cons c chunks ih =>
    obtain ⟨hc, hne⟩ := List.forall_mem_cons.mp hne
    obtain ⟨hcb, hbound⟩ := List.forall_mem_cons.mp hbound
    rw [body_base64_cons] at hq
    rcases prefix_line_cases hq with hq | ⟨q', rfl, hq'⟩
    · obtain ⟨xs, hxs, hlen, rfl⟩ := acceptBase64_torn_line hcut hq h
      have hle := hxs.length_le
      rw [hn, List.flatten_cons, List.length_append] at hlen
      have hall : xs = c := hxs.eq_of_length_le (by omega)
      have hrest : chunks.flatten = [] := List.length_eq_zero_iff.mp (by omega)
      rw [hall, List.flatten_cons, hrest, List.append_nil]
    · rw [acceptBase64_line fmt s hc hcb (by simp), List.flatten_cons, List.length_append, ← Nat.add_assoc] at h
      rw [List.flatten_cons, List.length_append, ← Nat.add_assoc] at hn
      rw [ih hne hbound hq' h hn, List.flatten_cons, Sink.put_put]

/-- The server's receiver writes all the bytes that were sent, or fails, wherever
the stream breaks off. -/
theorem runTransferReceive_torn (hcut : CutsShort fmt.base64) {size : UInt64} {bytes : List UInt8}
    (hsize : bytes.length = size.toNat) {chunks : List (List UInt8)}
    (hchunks : Chunks (chunkSize powershellSsh) bytes chunks) {q : List UInt8}
    (hq : q <+: body fmt powershellSsh chunks) {cuts : List Nat} {staged out : List UInt8}
    (h : runTransferReceive fmt sha256 size powershellSsh { bytes := q, cuts } = .ok (staged, out)) :
    staged = bytes := by
  cases powershellSsh with
  | true =>
    rw [runTransferReceive, if_pos rfl] at h
    obtain ⟨⟨total, s⟩, haccept, h⟩ := bind_ok h
    dsimp only at h
    split at h
    · cases h
    · rename_i htotal
      cases h
      have hlen : size.toNat = 0 + chunks.flatten.length := by rw [hchunks.flatten, hsize, Nat.zero_add]
      have htotal : total = 0 + chunks.flatten.length := (Decidable.not_not.mp htotal).trans hlen
      rw [hlen] at haccept
      rw [acceptBase64_torn hcut hchunks.nonempty hchunks.bounded hq haccept htotal, hchunks.flatten]
      exact List.nil_append bytes
  | false =>
    rw [runTransferReceive, if_neg Bool.false_ne_true, acceptRaw_eq] at h
    obtain ⟨⟨total, s⟩, haccept, h⟩ := bind_ok h
    rw [body_raw, hchunks.flatten] at hq
    cases haccept
    dsimp only at h
    split at h
    · cases h
    · rename_i htotal
      cases h
      have hle := hq.length_le
      have htotal := Decidable.not_not.mp htotal
      rw [Nat.sub_zero, Nat.zero_add, List.length_take] at htotal
      have hall : q = bytes := hq.eq_of_length_le (by omega)
      rw [hall, Nat.sub_zero, ← hsize, List.take_length]
      exact List.nil_append bytes

/-- Where there is only the noise of a remote shell, nothing is confirmed. -/
theorem confirmUpload_noise {noise : List (List UInt8)} (hnoise : ∀ l ∈ noise, IsNoise l) (size : UInt64)
    (hasher : List UInt8) {sha : String} :
    confirmUpload fmt sha256 size hasher (joinLines noise) ≠ .ok sha := by
  have hlines : ∀ cs, utf8 cs = joinLines noise → ∀ l ∈ textLines cs, startsObject l = false := by
    induction noise with
    | nil =>
      intro cs hcs
      rw [utf8_eq_nil.mp hcs]
      simp [textLines]
    | cons l noise ih =>
      obtain ⟨hl, hrest⟩ := List.forall_mem_cons.mp hnoise
      intro cs hcs
      rw [joinLines_cons] at hcs
      obtain ⟨l, ds, rfl, rfl, hds⟩ := utf8_eq_line hl.1 hcs
      obtain ⟨hn, hstart⟩ := isNoise_utf8.mp hl
      rw [textLines_cons hn]
      refine List.forall_mem_cons.mpr ⟨?_, ih hrest ds hds⟩
      split
      · exact startsObject_of_torn (List.dropLast_prefix l) hstart
      · exact hstart
  rw [confirmUpload]
  cases htext : utf8? (joinLines noise) with
  | none => simp
  | some cs =>
    have hnone : (textLines cs).reverse.find? startsObject = none := by
      refine List.find?_eq_none.mpr fun l hl => ?_
      simp [hlines cs (utf8_of_utf8? htext) l (List.mem_reverse.mp hl)]
    dsimp only
    rw [hnone]
    simp

/-- The last line that begins an object states this size and this hash. -/
def States (fmt : Formats) (out : List UInt8) (size : UInt64) (sha : String) : Prop :=
  ∃ text before line after, out = utf8 text ∧ textLines text = before ++ line :: after ∧ startsObject line = true ∧
    (∀ l ∈ after, startsObject l = false) ∧ fmt.metadata.parse (trim line) = .ok { size, sha256 := sha }

/-- What is confirmed is the size and the hash of what was read, and both are
stated. -/
theorem confirmUpload_ok {size : UInt64} {hasher out : List UInt8} {sha : String}
    (h : confirmUpload fmt sha256 size hasher out = .ok sha) :
    sha = hashBytes sha256 hasher ∧ States fmt out size sha := by
  rw [confirmUpload] at h
  split at h
  · cases h
  rename_i text htext
  split at h
  · cases h
  rename_i line hfind
  obtain ⟨remote, hparse, h⟩ := bind_ok h
  dsimp only at h
  split at h
  · cases h
  · rename_i hsame
    obtain ⟨hsize, hsha⟩ := not_or.mp hsame
    cases h
    obtain ⟨hstart, after, before, hlines, hafter⟩ := List.find?_eq_some_iff_append.mp hfind
    refine ⟨rfl, text, before.reverse, line, after.reverse, (utf8_of_utf8? htext).symm, ?_, hstart, ?_, ?_⟩
    · rw [← List.reverse_reverse (textLines text), hlines]
      simp
    · intro l hl
      simpa using hafter l (List.mem_reverse.mp hl)
    · rw [mapError_ok hparse, ← Decidable.not_not.mp hsize, ← Decidable.not_not.mp hsha]

theorem uploadStream_ok {size : UInt64} {content cuts hasher wire}
    (h : uploadStream fmt powershellSsh size { bytes := content, cuts } = .ok (hasher, wire)) :
    hasher.length = size.toNat ∧
      ∃ chunks, Chunks (chunkSize powershellSsh) hasher chunks ∧ wire = body fmt powershellSsh chunks := by
  obtain ⟨chunks, hchunks, heq⟩ := uploadChunks_eq fmt powershellSsh [] [] 0 { bytes := content, cuts }
  rw [uploadStream, heq] at h
  dsimp only at h
  split at h
  · cases h
  · rename_i hsize
    cases h
    simp only [Nat.zero_add, ne_eq, not_not] at hsize
    exact ⟨hsize, chunks, hchunks, rfl⟩

/-! ## What an upload has done -/

/-- The commit is of the transfer that was prepared, with the size and the hash of
what was read, and what the receiver was heard to write states both; an honest one
has written just what was read. -/
structure Verified (fmt : Formats) (sha256 : Sha256) (honest : Bool) (u : Upload) (c : Commit) : Prop where
  transfer : u.prepared = some c.transferId
  size : u.read.length = c.size.toNat
  hash : c.sha256 = hashBytes sha256 u.read
  confirmed : ∃ out, u.heard = some out ∧ States fmt out c.size c.sha256
  staged : honest = true → c.staged = u.read

/-- At most one commit is sent, a verified one, and at most one abort. -/
structure Upload.Proper (fmt : Formats) (sha256 : Sha256) (honest : Bool) (u : Upload) : Prop where
  commits : u.commits = [] ∨ ∃ c, u.commits = [c] ∧ Verified fmt sha256 honest u c
  aborts : u.aborts = [] ∨ ∃ transferId o, u.prepared = some transferId ∧ u.aborts = [(transferId, o)]

/-- What an upload that is over has done about its staging file. One that was told
of none may have left one behind, if the answer to its preparation was lost. -/
def UploadOver : Except UploadError TransferResult → Upload → Prop
  | .ok result, u => (∃ c, u.commits = [c] ∧ u.told = some c.transferId ∧ c.answer = .ok result) ∧ u.aborts = []
  | .error e, u =>
    (u.told = none ∧ u.commits = [] ∧ u.aborts = []) ∨
      ∃ transferId, u.told = some transferId ∧
        (u.aborts = [(transferId, .ok ())] ∨
          ∃ e' a, e = .cleanup e' a ∧ (u.aborts = [] ∨ u.aborts = [(transferId, .error a)]))

/-- Prepared, with neither a commit nor an abort yet. -/
structure Upload.Pending (transferId : String) (u : Upload) : Prop where
  prepared : u.prepared = some transferId
  told : u.told = some transferId
  commits : u.commits = []
  aborts : u.aborts = []

theorem Upload.Pending.proper {honest : Bool} {transferId : String} {u : Upload} (h : u.Pending transferId) :
    u.Proper fmt sha256 honest := ⟨.inl h.commits, .inl h.aborts⟩

/-- The receiver knows the size. -/
structure Upload.Spawned (transferId : String) (size : UInt64) (u : Upload) : Prop extends u.Pending transferId where
  expect : u.expect = size

/-- The file was read to its end, and written. -/
structure Upload.Streamed (fmt : Formats) (powershellSsh : Bool) (transferId : String) (size : UInt64) (u : Upload) : Prop
    extends u.Spawned transferId size where
  size : u.read.length = size.toNat
  wire : ∃ chunks, Chunks (chunkSize powershellSsh) u.read chunks ∧ u.wire = body fmt powershellSsh chunks

/-- The receiver has confirmed what it wrote. -/
structure Upload.Confirmed (fmt : Formats) (sha256 : Sha256) (honest : Bool) (transferId : String) (size : UInt64)
    (sha : String) (u : Upload) : Prop extends u.Pending transferId where
  verified : ∀ answer, Verified fmt sha256 honest u { transferId, size, sha256 := sha, staged := u.staged, answer }

/-- The commands that leave everything as it is. -/
def UploadOp.Calm : UploadOp → Prop
  | metadata | client | openSource | closeStdin | child _ | elapsed => True
  | _ => False

section

variable {honest : Bool} {u u' : Upload}

theorem UploadStep.calm {c : UploadOp} {r : c.Result} (hc : c.Calm)
    (h : UploadStep fmt sha256 powershellSsh honest c r u u') : u' = u := by
  obtain ⟨ch, h, -⟩ := h
  cases c <;> first
    | exact hc.elim
    | (cases h; rfl)

theorem UploadStep.prepare {r : Except String String} (hu : u = {})
    (h : UploadStep fmt sha256 powershellSsh honest .prepare r u u') :
    ((∃ e, r = .error e) ∧ u'.told = none ∧ u'.commits = [] ∧ u'.aborts = []) ∨
      ∃ transferId, r = .ok transferId ∧ u'.Pending transferId := by
  obtain ⟨ch, h, -⟩ := h
  simp only [UploadOp.exec] at h
  split at h
  · cases h
    rw [hu]
    exact .inl ⟨⟨_, rfl⟩, rfl, rfl, rfl⟩
  · cases h
    rw [hu]
    exact .inr ⟨_, rfl, rfl, rfl, rfl, rfl⟩

theorem UploadStep.spawn {size : UInt64} {r : Except String Unit} {transferId : String}
    (h : UploadStep fmt sha256 powershellSsh honest (.spawn size) r u u') (hu : u.Pending transferId) :
    u'.Spawned transferId size := by
  obtain ⟨ch, h, -⟩ := h
  cases h
  exact ⟨⟨hu.prepared, hu.told, hu.commits, hu.aborts⟩, rfl⟩

theorem UploadStep.send {size : UInt64} {r : Except StreamError (List UInt8)} {transferId : String}
    (h : UploadStep fmt sha256 powershellSsh honest (.send size) r u u') (hu : u.Spawned transferId size) :
    u'.Pending transferId ∧
      ∀ hasher, r = .ok hasher → u'.read = hasher ∧ u'.Streamed fmt powershellSsh transferId size := by
  obtain ⟨ch, h, -⟩ := h
  simp only [UploadOp.exec] at h
  split at h
  · cases h
    exact ⟨hu.toPending, by simp⟩
  · cases h
    exact ⟨hu.toPending, by simp⟩
  · rename_i hasher wire _ hok
    cases h
    obtain ⟨hsize, hwire⟩ := uploadStream_ok hok
    have hpending : Upload.Pending transferId { u with read := hasher, wire := wire } :=
      ⟨hu.prepared, hu.told, hu.commits, hu.aborts⟩
    refine ⟨hpending, ?_⟩
    intro x hx
    cases hx
    exact ⟨rfl, ⟨hpending, hu.expect⟩, hsize, hwire⟩

/-- What a receiver confirms was confirmed of what was read, and an honest
receiver has written it. -/
theorem UploadStep.confirmation (hcut : honest = true → CutsShort fmt.base64) {size : UInt64}
    {r : Except StreamError (List UInt8)} {transferId : String}
    (h : UploadStep fmt sha256 powershellSsh honest .confirmation r u u')
    (hu : u.Streamed fmt powershellSsh transferId size) :
    u'.Pending transferId ∧ ∀ out sha, r = .ok out → confirmUpload fmt sha256 size u.read out = .ok sha →
      u'.Confirmed fmt sha256 honest transferId size sha := by
  obtain ⟨ch, h, hhonest⟩ := h
  simp only [UploadOp.exec] at h
  have hpending : ∀ staged heard, Upload.Pending transferId { u with staged, heard } :=
    fun _ _ => ⟨hu.prepared, hu.told, hu.commits, hu.aborts⟩
  split at h
  · cases h
    exact ⟨hpending _ _, by simp⟩
  · cases h
    refine ⟨hpending _ _, ?_⟩
    intro out sha hout hconfirm
    cases hout
    obtain ⟨hsha, hstates⟩ := confirmUpload_ok hconfirm
    refine ⟨hpending _ _, fun answer => ⟨hu.prepared, hu.size, hsha, ⟨_, rfl, hstates⟩, fun hon => ?_⟩⟩
    obtain ⟨hforged, hnoise⟩ := hhonest hon
    show (ch.receiver fmt sha256 powershellSsh u).2 = u.read
    obtain ⟨chunks, hchunks, hwire⟩ := hu.wire
    rw [UploadOpChoice.receiver, hforged] at hconfirm ⊢
    dsimp only at hconfirm ⊢
    split at hconfirm
    · rename_i staged out hreceive
      rw [hu.expect, hwire] at hreceive
      exact runTransferReceive_torn (hcut hon) hu.size hchunks (List.take_prefix _ _) hreceive
    · exact absurd hconfirm (confirmUpload_noise hnoise size u.read)

theorem UploadStep.eq_abort {transferId : String} {r : Except String Unit}
    (h : UploadStep fmt sha256 powershellSsh honest (.abort transferId) r u u') :
    u' = { u with aborts := u.aborts ++ [(transferId, r)] } := by
  obtain ⟨ch, h, -⟩ := h
  cases h
  rfl

theorem UploadStep.abort {transferId : String} {r : Except String Unit}
    (h : UploadStep fmt sha256 powershellSsh honest (.abort transferId) r u u') (hp : u.prepared = some transferId)
    (ha : u.aborts = []) (hu : u.Proper fmt sha256 honest) : u'.Proper fmt sha256 honest := by
  rw [h.eq_abort]
  refine ⟨?_, .inr ⟨transferId, r, hp, by rw [ha]; rfl⟩⟩
  obtain hnone | ⟨c, hc, hv⟩ := hu.commits
  · exact .inl hnone
  · exact .inr ⟨c, hc, ⟨hv.transfer, hv.size, hv.hash, hv.confirmed, hv.staged⟩⟩

theorem UploadStep.commit {transferId sha : String} {size : UInt64} {d : Nat} {r : Except String TransferResult}
    (h : UploadStep fmt sha256 powershellSsh honest (.commit transferId size sha d) r u u')
    (hu : u.Confirmed fmt sha256 honest transferId size sha) :
    (∃ c, u'.commits = [c] ∧ c.transferId = transferId ∧ c.answer = r) ∧ u'.prepared = some transferId ∧
      u'.told = some transferId ∧ u'.aborts = [] ∧ u'.Proper fmt sha256 honest := by
  obtain ⟨ch, h, -⟩ := h
  simp only [UploadOp.exec] at h
  cases h
  have hcommits : ∀ c : Commit, u.commits ++ [c] = [c] := fun c => by rw [hu.commits, List.nil_append]
  have hv := hu.verified (ch.done.map fun _ => ch.result)
  exact ⟨⟨_, hcommits _, rfl, rfl⟩, hu.prepared, hu.told, hu.aborts,
    .inr ⟨_, hcommits _, ⟨hv.transfer, hv.size, hv.hash, hv.confirmed, hv.staged⟩⟩, .inl hu.aborts⟩

end

/-! ## Every step of the code -/

open Send (call)
open Prog (orThrow)

theorem calm_uploadCall {c : UploadOp} (hc : c.Calm) : (call c).run.Issues UploadOp.Calm := Prog.issues_issue hc

section

variable {honest : Bool} {u : Upload} {α : Type} {transferId : String}

/-- What holds whenever a command is about to be issued. -/
def UploadSound (fmt : Formats) (sha256 : Sha256) (honest : Bool) : UploadOp → Upload → Prop :=
  fun _ u => u.Proper fmt sha256 honest

/-- Calm code, which fails with nothing but the preparation done. -/
theorem keeps_calmUpload {P : Upload → Prop} (hP : ∀ u, P u → u.Pending transferId) {h : Send α}
    (hh : h.run.Issues UploadOp.Calm) (hu : P u) :
    h.run.Keeps (UploadStep fmt sha256 powershellSsh honest) (UploadSound fmt sha256 honest)
      (Prog.Ends (fun _ => P) fun _ => Upload.Pending transferId) u := by
  refine Prog.keepsE_of_issues (fun _ u _ h => (hP u h).proper) ?_ (fun _ u h => hP u h) hh hu
  intro c r u u' hc h hst
  rw [hst.calm hc]
  exact h

theorem sendToReceiver_keeps (hcut : honest = true → CutsShort fmt.base64) {size : UInt64}
    (hu : u.Spawned transferId size) :
    (sendToReceiver fmt sha256 powershellSsh size).run.Keeps (UploadStep fmt sha256 powershellSsh honest)
      (UploadSound fmt sha256 honest)
      (Prog.Ends (Upload.Confirmed fmt sha256 honest transferId size) fun _ => Upload.Pending transferId) u := by
  have hopen : (orThrow SendError.openSource (call .openSource)).run.Issues UploadOp.Calm :=
    Prog.Issues.orThrow (calm_uploadCall trivial)
  refine (keeps_calmUpload (fun _ h => h.toPending) hopen hu).bindE fun _ u hu => ?_
  refine Prog.Keeps.bindE
    (Q := fun (r : Except StreamError (List UInt8)) (u : Upload) => u.Pending transferId ∧
      ∀ hasher, r = .ok hasher → u.read = hasher ∧ u.Streamed fmt powershellSsh transferId size)
    ⟨hu.proper, fun r u' hst => hst.send hu⟩ fun streamed u hs => ?_
  refine (keeps_calmUpload (P := fun u => u.Pending transferId ∧
      ∀ hasher, streamed = .ok hasher → u.read = hasher ∧ u.Streamed fmt powershellSsh transferId size)
    (fun _ h => h.1) (calm_uploadCall (c := .closeStdin) trivial) hs).bindE fun closed u hs => ?_
  cases streamed with
  | error e =>
    refine (keeps_calmUpload (fun _ h => h) (calm_uploadCall (c := .child .kill) trivial) hs.1).bindE fun _ u hu => ?_
    exact (keeps_calmUpload (fun _ h => h) (calm_uploadCall (c := .child .wait) trivial) hu).bindE fun _ _ h => h
  | ok hasher =>
    obtain ⟨hread, hstreamed⟩ := hs.2 hasher rfl
    cases closed with
    | error e => exact hs.1
    | ok _ =>
      refine Prog.Keeps.bindE
        (Q := fun (r : Except StreamError (List UInt8)) (u' : Upload) => u'.Pending transferId ∧
          ∀ out sha, r = .ok out → confirmUpload fmt sha256 size u.read out = .ok sha →
            u'.Confirmed fmt sha256 honest transferId size sha)
        ⟨hs.1.proper, fun r u' hst => hst.confirmation hcut hstreamed⟩ fun r u' hr => ?_
      cases r with
      | error e => exact hr.1
      | ok out =>
        dsimp only
        split
        · exact hr.1
        · rename_i sha hconfirm
          rw [← hread] at hconfirm
          refine (keeps_calmUpload (fun _ h => h.toPending) (Prog.issues_embedE (fun _ => trivial) _)
              (hr.2 out sha rfl hconfirm)).bindE
            fun status u hu => ?_
          split
          · split
            · exact hu
            · exact hu.toPending
          · exact hu

theorem streamToReceiver_keeps (hcut : honest = true → CutsShort fmt.base64) {size : UInt64} (hu : u.Pending transferId) :
    (streamToReceiver fmt sha256 powershellSsh size).run.Keeps (UploadStep fmt sha256 powershellSsh honest)
      (UploadSound fmt sha256 honest)
      (Prog.Ends (Upload.Confirmed fmt sha256 honest transferId size) fun _ => Upload.Pending transferId) u := by
  refine Prog.Keeps.bindE (Q := fun _ => Upload.Spawned transferId size) ?_ fun _ u hu => ?_
  · refine ⟨hu.proper, fun r u' hst => ?_⟩
    have hspawned := hst.spawn hu
    cases r with
    | ok _ => exact hspawned
    | error e => exact hspawned.toPending
  · refine (sendToReceiver_keeps hcut hu).bind fun o u ho => ?_
    cases o with
    | ok sha => exact ho
    | error e =>
      refine ⟨ho.proper, fun text u' hst => ?_⟩
      show u'.Pending transferId
      rw [hst.calm (c := .child .stderrText) trivial]
      exact ho

/-- What the abort of a failed upload leaves. -/
theorem abortAfter_keeps {e : UploadError} (hp : u.prepared = some transferId) (ht : u.told = some transferId)
    (ha : u.aborts = [])
    (hc : u.Proper fmt sha256 honest) :
    (abortAfter transferId e).Keeps (UploadStep fmt sha256 powershellSsh honest) (UploadSound fmt sha256 honest)
      (fun o u => UploadOver o u ∧ u.Proper fmt sha256 honest) u := by
  refine ⟨hc, fun r u₁ hst => ?_⟩
  rw [hst.calm (c := .client) trivial]
  cases r with
  | error a => exact ⟨.inr ⟨transferId, ht, .inr ⟨_, _, rfl, .inl ha⟩⟩, hc⟩
  | ok _ =>
    refine ⟨hc, fun r u₂ hst => ?_⟩
    have hproper := hst.abort hp ha hc
    have haborts : u₂.aborts = [(transferId, r)] := by
      rw [hst.eq_abort, ha]
      rfl
    have ht₂ : u₂.told = some transferId := by rw [hst.eq_abort, ht]
    cases r with
    | error a => exact ⟨.inr ⟨transferId, ht₂, .inr ⟨_, _, rfl, .inr haborts⟩⟩, hproper⟩
    | ok _ => exact ⟨.inr ⟨transferId, ht₂, .inl haborts⟩, hproper⟩

theorem uploadPrepared_keeps (hcut : honest = true → CutsShort fmt.base64) {size : UInt64} (hu : u.Pending transferId) :
    (uploadPrepared fmt sha256 powershellSsh size transferId).Keeps (UploadStep fmt sha256 powershellSsh honest)
      (UploadSound fmt sha256 honest) (fun o u => UploadOver o u ∧ u.Proper fmt sha256 honest) u := by
  refine (streamToReceiver_keeps hcut hu).bind fun o u ho => ?_
  cases o with
  | error e => exact abortAfter_keeps ho.prepared ho.told ho.aborts ho.proper
  | ok sha =>
    have hproper : u.Proper fmt sha256 honest := ho.toPending.proper
    refine ⟨hproper, fun d u₁ hst => ?_⟩
    rw [hst.calm (c := .elapsed) trivial]
    refine ⟨hproper, fun r u₂ hst => ?_⟩
    rw [hst.calm (c := .client) trivial]
    cases r with
    | error e => exact abortAfter_keeps ho.prepared ho.told ho.aborts hproper
    | ok _ =>
      refine ⟨hproper, fun r u₃ hst => ?_⟩
      obtain ⟨⟨c, hcommits, rfl, rfl⟩, hprepared, htold, haborts, hproper⟩ := hst.commit ho
      cases hanswer : c.answer with
      | ok result => exact ⟨⟨⟨c, hcommits, htold, hanswer⟩, haborts⟩, hproper⟩
      | error e => exact abortAfter_keeps hprepared htold haborts hproper

theorem uploadFile_keeps (hcut : honest = true → CutsShort fmt.base64) (hu : u = {}) :
    (uploadFile fmt sha256 powershellSsh).Keeps (UploadStep fmt sha256 powershellSsh honest)
      (UploadSound fmt sha256 honest) (fun o u => UploadOver o u ∧ u.Proper fmt sha256 honest) u := by
  have hproper : ({} : Upload).Proper fmt sha256 honest := ⟨.inl rfl, .inl rfl⟩
  have hnothing : ∀ {e : UploadError}, UploadOver (.error e) {} ∧ ({} : Upload).Proper fmt sha256 honest :=
    ⟨.inl ⟨rfl, rfl, rfl⟩, hproper⟩
  subst hu
  refine ⟨hproper, fun r u₁ hst => ?_⟩
  rw [hst.calm (c := .metadata) trivial]
  rcases r with e | _ | size
  · exact hnothing
  · exact hnothing
  refine ⟨hproper, fun r u₂ hst => ?_⟩
  rw [hst.calm (c := .client) trivial]
  cases r with
  | error e => exact hnothing
  | ok _ =>
    refine ⟨hproper, fun r u₃ hst => ?_⟩
    obtain ⟨⟨e, rfl⟩, htold, hcommits, haborts⟩ | ⟨transferId, rfl, hu⟩ := hst.prepare rfl
    · exact ⟨.inl ⟨htold, hcommits, haborts⟩, .inl hcommits, .inl haborts⟩
    · exact uploadPrepared_keeps hcut hu

end

/-! ## An upload that meets no failure -/

/-- The steps of an upload, which never get stuck. -/
def UploadOp.exec? (fmt : Formats) (sha256 : Sha256) (powershellSsh : Bool) (c : UploadOp) (ch : UploadOpChoice)
    (u : Upload) : Option (c.Result × Upload) :=
  some (c.exec fmt sha256 powershellSsh ch u)

/-- Every step goes well, the file stays as it is, and all that is written for it
arrives. -/
structure SmoothUpload (fmt : Formats) (powershellSsh : Bool) (file : FileContent) (ch : UploadOpChoice) : Prop where
  fault : ch.fault = none
  running : ch.running = false
  status : ch.status = .code 0
  size : ch.size = some file.size
  content : ch.content = file.bytes
  forged : ch.forged = none
  noise : ch.noise = []
  arrives : ∀ chunks, Chunks (chunkSize powershellSsh) file.bytes chunks →
    (body fmt powershellSsh chunks).length ≤ ch.arrives

section

variable {file : FileContent} {ch : UploadOpChoice}

theorem runIn_uploadCall {env : UploadOp → UploadOpChoice} {c : UploadOp} {r : c.Result} {u u' : Upload}
    (h : c.exec fmt sha256 powershellSsh (env c) u = (r, u')) :
    (call c).run.runIn (UploadOp.exec? fmt sha256 powershellSsh) env u = some (.ok r, u') :=
  Prog.runIn_issue (congrArg some h)

theorem SmoothUpload.done (hc : SmoothUpload fmt powershellSsh file ch) : ch.toChildChoice.done = .ok () := by
  rw [ChildChoice.done, hc.fault]

theorem runIn_uploadChild (hc : SmoothUpload fmt powershellSsh file ch) (u : Upload) : ∃ o,
    (Prog.embedE UploadOp.child (fun _ r => r) SendError.child (finishTransferChild powershellSsh)).run.runIn
      (UploadOp.exec? fmt sha256 powershellSsh) (fun _ => ch) u =
      some (.ok o, u) ∧ (o = none ∨ o = some (.code 0)) := by
  refine ⟨some (.code 0), ?_, .inr rfl⟩
  cases powershellSsh with
  | false =>
    simp only [Prog.embedE, finishTransferChild, ExceptT.run_mk, Bool.false_eq_true, if_false, Prog.call_bind, Prog.embed,
      Prog.op_bind, Prog.runIn_op, UploadOp.exec?, UploadOp.exec, ChildCmd.exec, hc.done, hc.status, Except.map,
      Option.bind_some]
    rfl
  | true =>
    simp only [Prog.embedE, finishTransferChild, ExceptT.run_mk, if_true, Prog.call_bind, Prog.embed, Prog.op_bind,
      Prog.runIn_op, UploadOp.exec?, UploadOp.exec, ChildCmd.exec, hc.done, hc.status, hc.running, Bool.false_eq_true,
      if_false, Except.map, Option.bind_some]
    rfl

theorem runIn_sendToReceiver (hc : SmoothUpload fmt powershellSsh file ch) (transferId : String) : ∃ u,
    (sendToReceiver fmt sha256 powershellSsh file.size).run.runIn (UploadOp.exec? fmt sha256 powershellSsh)
        (fun _ => ch) { prepared := some transferId, told := some transferId, expect := file.size } =
          some (.ok (hashBytes sha256 file.bytes), u) ∧
      u.commits = [] ∧ u.staged = file.bytes := by
  obtain ⟨chunks, hchunks, hupload⟩ := uploadStream_eq fmt powershellSsh file ch.cuts
  have htake := List.take_of_length_le (hc.arrives chunks hchunks)
  have hreceive := @runTransferReceive_body fmt sha256 powershellSsh file chunks hchunks ch.cuts
  have hconfirm := confirmUpload_line fmt sha256 file.size file.bytes
  let u₁ : Upload := { prepared := some transferId, told := some transferId, expect := file.size }
  let u₂ : Upload := { u₁ with read := file.bytes, wire := body fmt powershellSsh chunks }
  let u₃ : Upload :=
    { u₂ with
      staged := file.bytes
      heard := some (fmt.metadata.line { size := file.size, sha256 := hashBytes sha256 file.bytes }) }
  have hopen : UploadOp.openSource.exec fmt sha256 powershellSsh ch u₁ = (.ok (), u₁) := by
    simp only [UploadOp.exec, hc.done]
  have hsend : (UploadOp.send file.size).exec fmt sha256 powershellSsh ch u₁ = (.ok file.bytes, u₂) := by
    simp only [UploadOp.exec, hc.fault, hc.content, hupload, u₂]
  have hclose : UploadOp.closeStdin.exec fmt sha256 powershellSsh ch u₂ = (.ok (), u₂) := by
    simp only [UploadOp.exec, hc.done]
  have hread : UploadOp.confirmation.exec fmt sha256 powershellSsh ch u₂ =
      (.ok (fmt.metadata.line { size := file.size, sha256 := hashBytes sha256 file.bytes }), u₃) := by
    have hreceiver : ch.receiver fmt sha256 powershellSsh u₂ =
        (fmt.metadata.line { size := file.size, sha256 := hashBytes sha256 file.bytes }, file.bytes) := by
      simp only [UploadOpChoice.receiver, hc.forged, hc.noise, u₂, u₁, htake, hreceive, joinLines_nil, List.nil_append]
    simp only [UploadOp.exec, hc.fault, hreceiver, u₃]
  obtain ⟨o, hchild, ho⟩ := @runIn_uploadChild fmt sha256 powershellSsh file ch hc u₃
  refine ⟨u₃, ?_, rfl, rfl⟩
  have hopened : (orThrow .openSource (call .openSource)).run.runIn (UploadOp.exec? fmt sha256 powershellSsh)
      (fun _ => ch) u₁ = some (.ok (), u₁) := Prog.runIn_orThrow (runIn_uploadCall hopen)
  rw [sendToReceiver, Prog.runIn_bindE_ok hopened, Prog.runIn_bindE_ok (runIn_uploadCall hsend),
    Prog.runIn_bindE_ok (runIn_uploadCall hclose)]
  dsimp only
  rw [Prog.runIn_bindE_ok (runIn_uploadCall hread)]
  dsimp only
  rw [hconfirm]
  dsimp only
  rw [Prog.runIn_bindE_ok hchild]
  rcases ho with rfl | rfl <;> rfl

/-- An upload that meets no failure commits the file. -/
theorem upload_completes (hc : SmoothUpload fmt powershellSsh file ch) : ∃ u,
    (uploadFile fmt sha256 powershellSsh).runIn (UploadOp.exec? fmt sha256 powershellSsh) (fun _ => ch) {} =
        some (.ok ch.result, u) ∧
      u.commits = [⟨ch.transferId, file.size, hashBytes sha256 file.bytes, file.bytes, .ok ch.result⟩] := by
  obtain ⟨u, hsend, hcommits, hstaged⟩ := @runIn_sendToReceiver fmt sha256 powershellSsh file ch hc ch.transferId
  have hspawn : (UploadOp.spawn file.size).exec fmt sha256 powershellSsh ch
        { prepared := some ch.transferId, told := some ch.transferId } =
      (.ok (), { prepared := some ch.transferId, told := some ch.transferId, expect := file.size }) := by
    simp only [UploadOp.exec, hc.done]
  have hspawned : (orThrow .spawn (call (.spawn file.size))).run.runIn (UploadOp.exec? fmt sha256 powershellSsh)
      (fun _ => ch) { prepared := some ch.transferId, told := some ch.transferId } =
      some (.ok (), { prepared := some ch.transferId, told := some ch.transferId, expect := file.size }) := by
    rw [orThrow, Prog.runIn_bindE_ok (runIn_uploadCall hspawn)]
    rfl
  have hstream : (streamToReceiver fmt sha256 powershellSsh file.size).run.runIn
      (UploadOp.exec? fmt sha256 powershellSsh) (fun _ => ch)
        { prepared := some ch.transferId, told := some ch.transferId } =
      some (.ok (hashBytes sha256 file.bytes), u) := by
    rw [streamToReceiver, Prog.runIn_bindE_ok hspawned, runIn_withStderr hsend]
  refine ⟨{ u with commits := _ }, ?_, rfl⟩
  simp only [uploadFile, uploadPrepared, Prog.call_bind, Prog.runIn_op, UploadOp.exec?, UploadOp.exec, hc.done, hc.fault,
    hc.size, Except.map, Option.bind_some, Prog.runIn_bind, hstream, hcommits, hstaged, List.nil_append]
  rfl

end

/-! ## Whole uploads -/

section

variable {honest : Bool} {es : List (Event UploadOp UploadOp.Result)}
  {p : UploadProg (Except UploadError TransferResult)} {u : Upload}

/-- Wherever an upload stops and whatever it meets, it has sent one commit at the
most, of the transfer that was prepared, with the size and the hash of all it read
of the file, which the receiver was heard to state; and if the receiver is the
server's, the staging file then holds just what was read, wherever the stream to
it broke off. -/
theorem upload_commits_verified (hcut : honest = true → CutsShort fmt.base64)
    (h : Prog.Run (UploadStep fmt sha256 powershellSsh honest) (uploadFile fmt sha256 powershellSsh) {} es p u) :
    u.commits.length ≤ 1 ∧ ∀ c ∈ u.commits, Verified fmt sha256 honest u c := by
  have hk := @uploadFile_keeps fmt sha256 powershellSsh honest {} hcut rfl
  have hproper : u.Proper fmt sha256 honest := by
    exact hk.reached (J := fun u : Upload => u.Proper fmt sha256 honest) (fun _ _ h => h) (fun _ _ h => h.2) h
  obtain hnone | ⟨c, hc, hv⟩ := hproper.commits
  · rw [hnone]
    exact ⟨Nat.zero_le _, by simp⟩
  · rw [hc]
    refine ⟨Nat.le_refl _, ?_⟩
    intro c' hc'
    rw [List.mem_singleton.mp hc']
    exact hv

theorem cutsShort_standard : CutsShort Base64.standard := by
  intro bytes cs xs hcs hd
  simp only [Base64.standard] at hcs hd
  split at hd
  · rename_i ys hys
    cases hd
    exact Base64.decode?_torn hcs hys
  · cases hd

def noteSent : TransferResult := { noteFetched with direction := .upload }

/-- An upload of the file of three bytes, in which nothing fails. -/
theorem run_noteUpload : ∃ es u,
    Prog.Run (UploadStep jsonFormats zeroDigest false true) (uploadFile jsonFormats zeroDigest false) {} es
        (.pure (.ok noteSent)) u ∧
      u.commits = [⟨"x", noteFile.size, hashBytes zeroDigest noteFile.bytes, noteFile.bytes, .ok noteSent⟩] := by
  let ch : UploadOpChoice :=
    { size := some noteFile.size, transferId := "x", content := noteFile.bytes, arrives := 3, result := noteSent }
  have hsmooth : SmoothUpload jsonFormats false noteFile ch := by
    refine ⟨rfl, rfl, rfl, rfl, rfl, rfl, rfl, ?_⟩
    intro chunks hchunks
    rw [body_raw, hchunks.flatten]
    exact Nat.le_refl 3
  obtain ⟨u, hrun, hcommits⟩ := @upload_completes jsonFormats zeroDigest false noteFile _ hsmooth
  have hstep : ∀ (c : UploadOp) (r : c.Result) u u', c.exec? jsonFormats zeroDigest false ch u = some (r, u') →
      UploadStep jsonFormats zeroDigest false true c r u u' :=
    fun _ _ _ _ h => ⟨_, Option.some.inj h, fun _ => ⟨rfl, by simp [ch]⟩⟩
  obtain ⟨es, hrun⟩ := Prog.run_of_runIn hstep hrun
  exact ⟨es, u, hrun, hcommits⟩

theorem upload_commits_verified_note : ∃ es u,
    Prog.Run (UploadStep jsonFormats zeroDigest false true) (uploadFile jsonFormats zeroDigest false) {} es
        (.pure (.ok noteSent)) u ∧
      u.commits ≠ [] ∧ u.commits.length ≤ 1 ∧ ∀ c ∈ u.commits, Verified jsonFormats zeroDigest true u c := by
  obtain ⟨es, u, hrun, hcommits⟩ := run_noteUpload
  exact ⟨es, u, hrun, by simp [hcommits], upload_commits_verified (fun _ => cutsShort_standard) hrun⟩

/-- An upload that is over was told that its staging file was put in place, or was
told of no staging file, or one abort of it has succeeded, or the error says that
the abort failed. -/
theorem upload_aborts
    (h : Prog.Run (UploadStep fmt sha256 powershellSsh honest) (uploadFile fmt sha256 powershellSsh) {} es p u) :
    (u.aborts = [] ∨ ∃ transferId o, u.prepared = some transferId ∧ u.aborts = [(transferId, o)]) ∧
      ∀ o, p = .pure o → UploadOver o u := by
  -- that a receiver may be honest does not matter here
  have hfalse : Prog.Run (UploadStep fmt sha256 powershellSsh false) (uploadFile fmt sha256 powershellSsh) {} es p u := by
    refine Prog.Run.map id ?_ h
    rintro c r s s' ⟨ch, hexec, -⟩
    exact ⟨ch, hexec, fun h => absurd h Bool.false_ne_true⟩
  have hk := @uploadFile_keeps fmt sha256 powershellSsh false {} (fun h => absurd h Bool.false_ne_true) rfl
  constructor
  · have hproper : u.Proper fmt sha256 false := by
      exact hk.reached (J := fun u : Upload => u.Proper fmt sha256 false) (fun _ _ h => h) (fun _ _ h => h.2) hfalse
    exact hproper.aborts
  · rintro o rfl
    exact (hk.run hfalse).1

/-- An upload in which nothing fails, and one that the server has prepared without
its learning of it. -/
theorem upload_aborts_note :
    (∃ es u, Prog.Run (UploadStep jsonFormats zeroDigest false true) (uploadFile jsonFormats zeroDigest false) {} es
        (.pure (.ok noteSent)) u ∧ UploadOver (.ok noteSent) u) ∧
      ∃ es u, Prog.Run (UploadStep jsonFormats zeroDigest false true) (uploadFile jsonFormats zeroDigest false) {} es
        (.pure (.error (.control "timed out"))) u ∧ UploadOver (.error (.control "timed out")) u ∧
          u.prepared = some "x" ∧ u.aborts = [] := by
  constructor
  · obtain ⟨es, u, hrun, -⟩ := run_noteUpload
    exact ⟨es, u, hrun, (upload_aborts hrun).2 _ rfl⟩
  · let env : UploadOp → UploadOpChoice := fun c =>
      { size := some 3, transferId := "x", fault := if c = .prepare then some "timed out" else none, lost := true }
    have hstep : ∀ (c : UploadOp) (r : c.Result) u u', c.exec? jsonFormats zeroDigest false (env c) u = some (r, u') →
        UploadStep jsonFormats zeroDigest false true c r u u' :=
      fun _ _ _ _ h => ⟨_, Option.some.inj h, fun _ => ⟨rfl, by simp [env]⟩⟩
    have hrunIn : (uploadFile jsonFormats zeroDigest false).runIn (UploadOp.exec? jsonFormats zeroDigest false) env {} =
        some (.error (.control "timed out"), { prepared := some "x" }) := by rfl
    obtain ⟨es, hrun⟩ := Prog.run_of_runIn hstep hrunIn
    exact ⟨es, _, hrun, (upload_aborts hrun).2 _ rfl, rfl, rfl⟩

end

end

end RemoteWorkspace
