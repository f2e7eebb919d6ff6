import RemoteWorkspace.Lib.Base64
import RemoteWorkspace.Lib.Json
import RemoteWorkspace.Transfer.Framing

/-!
# Transfers round trip

Whatever parts the reads at either end come in, `receiveStream` gets back the
bytes that `sendStream` was given, behind any noise of the remote shell that is
UTF-8, and `runTransferReceive` those that `uploadStream` was given
(`transfers_round_trip_iff`). Both go through what is between the frames: the
bytes cut into chunks (`Chunks`), each of them put on the wire by itself. A
stream that is cut short runs out of bytes for one of the loops, or leaves a
text that its format cannot read.
-/

namespace RemoteWorkspace

open Text

/-! ## Lines of a pipe -/

theorem Pipe.readLine_line {l : List Char} (h : '\n' ∉ l) (rest : List UInt8) (cuts : List Nat) :
    Pipe.readLine { bytes := utf8 l ++ newline :: rest, cuts } =
      .ok (l ++ ['\n'], { bytes := rest, cuts }) := by
  have htake := takeLine_line (mt newline_mem_utf8.mp h) rest
  rw [← utf8_newline, ← utf8_append] at htake
  simp only [readLine, htake, utf8?_utf8]

/-- The last line, which no newline ends. -/
theorem Pipe.readLine_torn {bytes : List UInt8} (h : newline ∉ bytes) (cuts : List Nat) :
    Pipe.readLine { bytes, cuts } =
      match utf8? bytes with
      | none => .error .io
      | some line => .ok (line, { bytes := [], cuts }) := by
  cases hline : utf8? bytes <;> simp only [readLine, takeLine_of_not_mem h, hline]

theorem Pipe.readLine_empty (cuts : List Nat) :
    Pipe.readLine { bytes := [], cuts } = .ok ([], { bytes := [], cuts }) :=
  readLine_torn List.not_mem_nil cuts

/-- A line that was read ends with a newline, or the pipe does. -/
theorem Pipe.readLine_cases {p p' : Pipe} {line : List Char} (h : p.readLine = .ok (line, p')) :
    (∃ l, '\n' ∉ l ∧ line = l ++ ['\n'] ∧ p.bytes = utf8 l ++ newline :: p'.bytes) ∨
      ('\n' ∉ line ∧ p.bytes = utf8 line ∧ p'.bytes = []) := by
  obtain ⟨hutf, hrest, -⟩ := Pipe.readLine_ok h
  rcases takeLine_cases p.bytes with ⟨l, rest, hl, hbytes⟩ | hn
  · rw [hbytes, takeLine_line hl] at hutf hrest
    obtain ⟨cs, ds, rfl, rfl, hds⟩ := utf8_eq_line hl hutf
    rw [utf8_eq_nil.mp hds]
    exact .inl ⟨cs, mt newline_mem_utf8.mpr hl, rfl, by rw [hrest, hbytes]⟩
  · rw [takeLine_of_not_mem hn] at hutf hrest
    exact .inr ⟨mt newline_mem_utf8.mpr (hutf ▸ hn), hutf.symm, hrest⟩

/-! ## Chunks -/

/-- Bytes in parts, none of them empty or longer than `bound`. -/
structure Chunks (bound : Nat) (bytes : List UInt8) (chunks : List (List UInt8)) : Prop where
  flatten : chunks.flatten = bytes
  nonempty : ∀ c ∈ chunks, c ≠ []
  bounded : ∀ c ∈ chunks, c.length ≤ bound

theorem Chunks.nil (bound : Nat) : Chunks bound [] [] := ⟨rfl, by simp, by simp⟩

theorem Chunks.cons {bound : Nat} {c bytes : List UInt8} {chunks : List (List UInt8)} (hc : c ≠ [])
    (hle : c.length ≤ bound) (h : Chunks bound bytes chunks) : Chunks bound (c ++ bytes) (c :: chunks) where
  flatten := by rw [List.flatten_cons, h.flatten]
  nonempty := List.forall_mem_cons.mpr ⟨hc, h.nonempty⟩
  bounded := List.forall_mem_cons.mpr ⟨hle, h.bounded⟩

variable (fmt : Formats) (sha256 : Sha256)

/-- What is between the header and the trailer. -/
def body (base64Chunks : Bool) (chunks : List (List UInt8)) : List UInt8 :=
  chunks.flatMap (onWire fmt base64Chunks)

theorem body_cons (base64Chunks : Bool) (c : List UInt8) (chunks : List (List UInt8)) :
    body fmt base64Chunks (c :: chunks) = onWire fmt base64Chunks c ++ body fmt base64Chunks chunks :=
  List.flatMap_cons

@[simp] theorem body_raw (chunks : List (List UInt8)) : body fmt false chunks = chunks.flatten := by
  show chunks.flatMap id = _
  exact List.flatMap_id

theorem body_base64_cons (c : List UInt8) (chunks : List (List UInt8)) :
    body fmt true (c :: chunks) = utf8 (fmt.base64.encode c) ++ newline :: body fmt true chunks := by
  simp [body_cons, onWire]

/-- The sender hashes the whole file, and writes it in chunks. -/
theorem sendChunks_eq (base64Chunks : Bool) {remaining : Nat} (hasher out : List UInt8) {file : Pipe}
    (h : file.bytes.length = remaining) : ∃ chunks, Chunks (chunkSize base64Chunks) file.bytes chunks ∧
      sendChunks fmt base64Chunks remaining hasher out file =
        .ok (hasher ++ file.bytes, out ++ body fmt base64Chunks chunks) := by
  induction remaining using Nat.strong_induction_on generalizing hasher out file with
  | _ remaining ih =>
    rw [sendChunks]
    by_cases hzero : remaining = 0
    · have hnil : file.bytes = [] := List.length_eq_zero_iff.mp (h.trans hzero)
      rw [if_pos hzero, hnil]
      exact ⟨[], .nil _, by simp [body]⟩
    · have hread : (file.read (min remaining (chunkSize base64Chunks))).1 ≠ [] := fun hnil => by
        rw [Pipe.read_eq_nil] at hnil
        rw [hnil] at h
        exact hzero h.symm
      have happ := file.read_append (min remaining (chunkSize base64Chunks))
      have hle := file.length_read_le (min remaining (chunkSize base64Chunks))
        (Nat.lt_min.mpr ⟨Nat.pos_of_ne_zero hzero, chunkSize_pos _⟩)
      have hpos := List.length_pos_iff.mpr hread
      rw [if_neg hzero]
      dsimp only
      rw [if_neg hread]
      generalize file.read (min remaining (chunkSize base64Chunks)) = r at hread happ hle hpos ⊢
      have hrest : r.2.bytes.length = remaining - r.1.length := by
        rw [← h, ← happ, List.length_append]
        omega
      obtain ⟨chunks, hchunks, heq⟩ := ih (remaining - r.1.length) (by omega) (hasher ++ r.1)
        (out ++ onWire fmt base64Chunks r.1) hrest
      refine ⟨r.1 :: chunks, happ ▸ hchunks.cons hread (hle.trans (Nat.min_le_right _ _)), ?_⟩
      rw [heq, body_cons, ← happ]
      simp only [List.append_assoc]

theorem uploadChunks_eq (base64Chunks : Bool) (hasher out : List UInt8) (sent : Nat) (file : Pipe) :
    ∃ chunks, Chunks (chunkSize base64Chunks) file.bytes chunks ∧
      uploadChunks fmt base64Chunks hasher out sent file =
        (hasher ++ file.bytes, out ++ body fmt base64Chunks chunks, sent + file.bytes.length) := by
  induction h : file.bytes.length using Nat.strong_induction_on generalizing hasher out sent file with
  | _ n ih =>
    have happ := file.read_append (chunkSize base64Chunks)
    have hle := file.length_read_le (chunkSize base64Chunks) (chunkSize_pos base64Chunks)
    rw [uploadChunks]
    by_cases hread : (file.read (chunkSize base64Chunks)).1 = []
    · rw [if_pos hread]
      have hnil := Pipe.read_eq_nil.mp hread
      rw [hnil] at h ⊢
      exact ⟨[], .nil _, by simp [body, ← h]⟩
    · rw [if_neg hread]
      have hlt := Pipe.length_read hread
      generalize file.read (chunkSize base64Chunks) = r at hread happ hle hlt ⊢
      obtain ⟨chunks, hchunks, heq⟩ := ih r.2.bytes.length (h ▸ hlt) (hasher ++ r.1)
        (out ++ onWire fmt base64Chunks r.1) (sent + r.1.length) r.2 rfl
      refine ⟨r.1 :: chunks, happ ▸ hchunks.cons hread hle, ?_⟩
      rw [heq, body_cons, ← h, ← happ, List.length_append]
      simp only [List.append_assoc, Nat.add_assoc]

/-! ## The header -/

/-- A line of a remote shell's own, in whatever encoding. -/
def IsNoise (line : List UInt8) : Prop := newline ∉ line ∧ ¬BeginsObject line

theorem isNoise_utf8 {line : List Char} : IsNoise (utf8 line) ↔ '\n' ∉ line ∧ startsObject line = false := by
  rw [IsNoise, newline_mem_utf8, beginsObject_utf8, Bool.not_eq_true]

theorem findHeader_eq {p p' : Pipe} {line : List Char} (h : p.readLine = .ok (line, p')) : findHeader p =
    if line = [] then .error .noHeader
    else if startsObject line then .ok (line, p')
    else findHeader p' := by
  rw [findHeader]
  split
  · rename_i e he
    rw [he] at h
    cases h
  · rename_i line' q hq
    rw [hq] at h
    cases h
    split <;> rfl

theorem findHeader_error {p : Pipe} {e : TransferError} (h : p.readLine = .error e) : findHeader p = .error e := by
  rw [findHeader]
  split
  · rename_i e' he
    rw [he] at h
    exact h
  · rename_i hok
    rw [hok] at h
    cases h

/-- A line of noise is passed over, unless it is not UTF-8. -/
theorem findHeader_noise {l : List UInt8} (hl : IsNoise l) (rest : List UInt8) (cuts : List Nat) :
    findHeader { bytes := l ++ newline :: rest, cuts } =
      if isUtf8 l then findHeader { bytes := rest, cuts } else .error .io := by
  by_cases hutf : isUtf8 l = true
  · obtain ⟨cs, rfl⟩ := eq_utf8_of_isUtf8 hutf
    obtain ⟨hn, hstart⟩ := isNoise_utf8.mp hl
    rw [if_pos hutf, findHeader_eq (Pipe.readLine_line hn rest cuts), if_neg (by simp), if_neg]
    rw [startsObject_newline, hstart]
    exact Bool.false_ne_true
  · have hread : Pipe.readLine { bytes := l ++ newline :: rest, cuts } = .error .io := by
      simp only [Pipe.readLine, takeLine_line hl.1, utf8?_line_of_not hl.1 (Bool.eq_false_iff.mpr hutf)]
    rw [if_neg hutf, findHeader_error hread]

/-- The header is found behind any noise that is UTF-8. -/
theorem findHeader_header {noise : List (List UInt8)} (hnoise : ∀ l ∈ noise, IsNoise l) (h : SendHeader)
    (rest : List UInt8) (cuts : List Nat) :
    findHeader { bytes := joinLines noise ++ (fmt.header.line h ++ rest), cuts } =
      if noise.all isUtf8 then .ok (fmt.header.text h ++ ['\n'], { bytes := rest, cuts }) else .error .io := by
  induction noise with
  | nil =>
    have hread := Pipe.readLine_line (fmt.header.newline_not_mem h) rest cuts
    have hbytes : joinLines [] ++ (fmt.header.line h ++ rest) = utf8 (fmt.header.text h) ++ newline :: rest := by
      simp [ObjectFormat.line, ObjectFormat.bytes]
    rw [hbytes, findHeader_eq hread, if_neg (by simp), if_pos]
    · rfl
    · rw [startsObject_newline, fmt.header.startsObject_text]
  | cons l noise ih =>
    obtain ⟨hl, hnoise⟩ := List.forall_mem_cons.mp hnoise
    rw [joinLines_cons, List.append_assoc, List.cons_append, findHeader_noise hl, ih hnoise, List.all_cons]
    cases isUtf8 l <;> rfl

/-- In an empty pipe there is no header. -/
theorem findHeader_empty (cuts : List Nat) : findHeader { bytes := [], cuts } = .error .noHeader := by
  rw [findHeader_eq (Pipe.readLine_empty cuts), if_pos rfl]

/-- What is found where no line ends is all there is. -/
theorem findHeader_torn_line {q : List UInt8} (hq : newline ∉ q) {cuts : List Nat} {line : List Char} {p' : Pipe}
    (hfound : findHeader { bytes := q, cuts } = .ok (line, p')) :
    p'.bytes = [] ∧ line ≠ [] ∧ utf8 line = q ∧ startsObject line = true := by
  have hread := Pipe.readLine_torn hq cuts
  cases hcs : utf8? q with
  | none =>
    rw [hcs] at hread
    rw [findHeader_error hread] at hfound
    cases hfound
  | some cs =>
    rw [hcs] at hread
    rw [findHeader_eq hread] at hfound
    split at hfound
    · cases hfound
    · split at hfound
      · cases hfound
        exact ⟨rfl, ‹_›, utf8_of_utf8? hcs, ‹_›⟩
      · rw [findHeader_empty] at hfound
        cases hfound

/-- What is found in a stream that ends before the header does is a part of the
header, and nothing is left behind it. -/
theorem findHeader_torn {noise : List (List UInt8)} (hnoise : ∀ l ∈ noise, IsNoise l) (h : SendHeader)
    {q : List UInt8} (hq : q <+: joinLines noise ++ fmt.header.bytes h) {cuts : List Nat}
    {line : List Char} {p' : Pipe} (hfound : findHeader { bytes := q, cuts } = .ok (line, p')) :
    p'.bytes = [] ∧ line ≠ [] ∧ line <+: fmt.header.text h := by
  induction noise generalizing q with
  | nil =>
    have hn := newline_not_mem_of_torn (fmt.header.newline_not_mem h) hq
    obtain ⟨hp, hne, rfl, -⟩ := findHeader_torn_line hn hfound
    exact ⟨hp, hne, prefix_of_utf8_prefix hq⟩
  | cons l noise ih =>
    obtain ⟨hl, hnoise⟩ := List.forall_mem_cons.mp hnoise
    rw [joinLines_cons, List.append_assoc, List.cons_append] at hq
    rcases prefix_line_cases hq with hq | ⟨q', rfl, hq'⟩
    · obtain ⟨-, -, rfl, hstart⟩ := findHeader_torn_line (fun hmem => hl.1 (hq.subset hmem)) hfound
      exact absurd ((beginsObject_utf8.mpr hstart).mono hq) hl.2
    · rw [findHeader_noise hl] at hfound
      split at hfound
      · exact ih hnoise hq' hfound
      · cases hfound

/-! ## The bytes of a download -/

/-- Enough raw bytes are taken as they are. -/
theorem receiveRaw_eq (size remaining : Nat) (s : Sink) {p : Pipe} (h : remaining ≤ p.bytes.length) :
    ∃ cuts, receiveRaw size remaining s p =
      .ok (s.put (p.bytes.take remaining), { bytes := p.bytes.drop remaining, cuts }) := by
  induction remaining using Nat.strong_induction_on generalizing s p with
  | _ remaining ih =>
    rw [receiveRaw]
    by_cases hzero : remaining = 0
    · rw [if_pos hzero, hzero]
      exact ⟨p.cuts, by simp⟩
    · have happ := p.read_append (min remaining transferBufSize)
      have hle := p.length_read_le (min remaining transferBufSize)
        (Nat.lt_min.mpr ⟨Nat.pos_of_ne_zero hzero, by decide⟩)
      have hread : (p.read (min remaining transferBufSize)).1 ≠ [] := fun hnil => by
        rw [Pipe.read_eq_nil] at hnil
        rw [hnil] at h
        exact hzero (Nat.le_zero.mp h)
      rw [if_neg hzero]
      dsimp only
      rw [if_neg hread]
      generalize p.read (min remaining transferBufSize) = r at happ hle hread ⊢
      have hpos := List.length_pos_iff.mpr hread
      have hbytes : p.bytes = r.1 ++ r.2.bytes := happ.symm
      have hlen : p.bytes.length = r.1.length + r.2.bytes.length := by rw [hbytes, List.length_append]
      have hle' : r.1.length ≤ remaining := hle.trans (Nat.min_le_left _ _)
      obtain ⟨cuts, heq⟩ := ih (remaining - r.1.length) (by omega) (s.put r.1) (p := r.2) (by omega)
      refine ⟨cuts, ?_⟩
      rw [heq, hbytes, List.take_append, List.drop_append, List.take_of_length_le hle',
        List.drop_eq_nil_of_le hle', Sink.put_put, List.nil_append]

theorem receiveRaw_short (size remaining : Nat) (s : Sink) {p : Pipe} (h : p.bytes.length < remaining) :
    ∃ e, receiveRaw size remaining s p = .error e := by
  induction remaining using Nat.strong_induction_on generalizing s p with
  | _ remaining ih =>
    rw [receiveRaw, if_neg (by omega)]
    dsimp only
    by_cases hread : (p.read (min remaining transferBufSize)).1 = []
    · rw [if_pos hread]
      exact ⟨_, rfl⟩
    · rw [if_neg hread]
      have hpos := List.length_pos_iff.mpr hread
      have hlen := congrArg List.length (p.read_append (min remaining transferBufSize))
      rw [List.length_append] at hlen
      exact ih _ (by omega) _ (by omega)

theorem receiveBase64_zero (size : Nat) (s : Sink) (p : Pipe) : receiveBase64 fmt size 0 s p = .ok (s, p) := by
  rw [receiveBase64, if_pos rfl]

/-- A line of Base64 gives the chunk it was made of. -/
theorem decode_line (c : List UInt8) : fmt.base64.decode (trimLineEnd (fmt.base64.encode c ++ ['\n'])) = .ok c := by
  rw [trimLineEnd_newline, trimLineEnd_of_not_mem (fmt.base64.return_not_mem c) (fmt.base64.newline_not_mem c),
    fmt.base64.decode_encode]

theorem receiveBase64_line (size : Nat) {remaining : Nat} (s : Sink) {c : List UInt8} (hne : c ≠ [])
    (hle : c.length ≤ remaining) (rest : List UInt8) (cuts : List Nat) :
    receiveBase64 fmt size remaining s { bytes := utf8 (fmt.base64.encode c) ++ newline :: rest, cuts } =
      receiveBase64 fmt size (remaining - c.length) (s.put c) { bytes := rest, cuts } := by
  have hpos := List.length_pos_iff.mpr hne
  rw [receiveBase64, if_neg (by omega), Pipe.readLine_line (fmt.base64.newline_not_mem c)]
  simp only [decode_line, List.append_eq_nil_iff, List.cons_ne_self, and_false, if_false]
  rw [if_neg (by simp [hne]; omega)]

/-- The lines of chunks are taken one by one. -/
theorem receiveBase64_body (size : Nat) {chunks : List (List UInt8)} (hne : ∀ c ∈ chunks, c ≠ [])
    (s : Sink) (rest : List UInt8) (cuts : List Nat) :
    receiveBase64 fmt size chunks.flatten.length s { bytes := body fmt true chunks ++ rest, cuts } =
      .ok (s.put chunks.flatten, { bytes := rest, cuts }) := by
  induction chunks generalizing s with
  | nil => simp [body, receiveBase64_zero]
  | cons c chunks ih =>
    obtain ⟨hc, hne⟩ := List.forall_mem_cons.mp hne
    rw [body_base64_cons, List.append_assoc, List.cons_append, receiveBase64_line fmt size s hc (by simp),
      List.flatten_cons, List.length_append, Nat.add_sub_cancel_left, ih hne, Sink.put_put]

/-- An empty pipe is left empty. -/
theorem receiveBase64_empty {size remaining : Nat} {s s' : Sink} {p p' : Pipe} (hp : p.bytes = [])
    (h : receiveBase64 fmt size remaining s p = .ok (s', p')) : p'.bytes = [] := by
  obtain ⟨bytes, cuts⟩ := p
  cases hp
  rw [receiveBase64] at h
  split at h
  · cases h
    rfl
  · rw [Pipe.readLine_empty] at h
    cases h

/-- A stream that ends among the lines is an error, or read to its end. -/
theorem receiveBase64_torn {size : Nat} {chunks : List (List UInt8)} (hne : ∀ c ∈ chunks, c ≠ []) {s s' : Sink}
    {q : List UInt8} (hq : q <+: body fmt true chunks) {cuts : List Nat} {p' : Pipe}
    (h : receiveBase64 fmt size chunks.flatten.length s { bytes := q, cuts } = .ok (s', p')) : p'.bytes = [] := by
  induction chunks generalizing s q with
  | nil => exact receiveBase64_empty fmt (List.prefix_nil.mp hq) h
  | cons c chunks ih =>
    obtain ⟨hc, hne⟩ := List.forall_mem_cons.mp hne
    rw [body_base64_cons] at hq
    rcases prefix_line_cases hq with hq | ⟨q', rfl, hq'⟩
    · rw [receiveBase64] at h
      split at h
      · rename_i hzero
        rw [List.flatten_cons, List.length_append] at hzero
        exact absurd (List.length_pos_iff.mpr hc) (by omega)
      · rw [Pipe.readLine_torn (newline_not_mem_of_torn (fmt.base64.newline_not_mem c) hq)] at h
        cases hline : utf8? q with
        | none => rw [hline] at h; cases h
        | some line =>
          rw [hline] at h
          dsimp only at h
          split at h
          · cases h
          · split at h
            · cases h
            · split at h
              · cases h
              · exact receiveBase64_empty fmt rfl h
    · rw [receiveBase64_line fmt size s hc (by simp), List.flatten_cons, List.length_append,
        Nat.add_sub_cancel_left] at h
      exact ih hne hq' h

theorem receiveBody_eq (base64Chunks : Bool) {bound : Nat} {bytes : List UInt8} {chunks : List (List UInt8)}
    (h : Chunks bound bytes chunks) (rest : List UInt8) (cuts : List Nat) : ∃ cuts',
      receiveBody fmt base64Chunks bytes.length { bytes := body fmt base64Chunks chunks ++ rest, cuts } =
        .ok (Sink.empty.put bytes, { bytes := rest, cuts := cuts' }) := by
  cases base64Chunks with
  | true =>
    refine ⟨cuts, ?_⟩
    have := receiveBase64_body fmt bytes.length h.nonempty .empty rest cuts
    rw [h.flatten] at this
    rw [receiveBody, if_pos rfl, this]
  | false =>
    obtain ⟨cuts', heq⟩ := receiveRaw_eq bytes.length bytes.length .empty
      (p := { bytes := bytes ++ rest, cuts }) (by simp)
    refine ⟨cuts', ?_⟩
    rw [receiveBody, if_neg Bool.false_ne_true, body_raw, h.flatten, heq]
    simp

theorem receiveBody_empty {base64Chunks : Bool} {size : Nat} {p p' : Pipe} {s : Sink} (hp : p.bytes = [])
    (h : receiveBody fmt base64Chunks size p = .ok (s, p')) : p'.bytes = [] := by
  rw [receiveBody] at h
  split at h
  · exact receiveBase64_empty fmt hp h
  · by_cases hzero : size = 0
    · rw [hzero, receiveRaw, if_pos rfl] at h
      cases h
      exact hp
    · obtain ⟨e, he⟩ := receiveRaw_short size size .empty (p := p)
        (by rw [hp]; exact Nat.pos_of_ne_zero hzero)
      rw [he] at h
      cases h

/-- A stream that ends before the trailer is an error, or read to its end. -/
theorem receiveBody_torn {base64Chunks : Bool} {bound : Nat} {bytes : List UInt8} {chunks : List (List UInt8)}
    (hchunks : Chunks bound bytes chunks) {q : List UInt8} (hq : q <+: body fmt base64Chunks chunks)
    {cuts : List Nat} {s : Sink} {p' : Pipe}
    (h : receiveBody fmt base64Chunks bytes.length { bytes := q, cuts } = .ok (s, p')) : p'.bytes = [] := by
  cases base64Chunks with
  | true =>
    rw [receiveBody, if_pos rfl] at h
    have htorn := @receiveBase64_torn fmt bytes.length chunks hchunks.nonempty .empty s q hq cuts p'
    rw [hchunks.flatten] at htorn
    exact htorn h
  | false =>
    rw [body_raw, hchunks.flatten] at hq
    rw [receiveBody, if_neg Bool.false_ne_true] at h
    by_cases hlt : q.length < bytes.length
    · obtain ⟨e, he⟩ := receiveRaw_short bytes.length bytes.length .empty (p := { bytes := q, cuts }) hlt
      rw [he] at h
      cases h
    · have hall : q = bytes := hq.eq_of_length_le (Nat.not_lt.mp hlt)
      obtain ⟨cuts', heq⟩ := receiveRaw_eq bytes.length bytes.length .empty
        (p := { bytes := q, cuts }) (by rw [hall])
      rw [heq] at h
      cases h
      simp [hall]

/-! ## The trailer -/

theorem receiveTrailer_line (size : UInt64) (s : Sink) (cuts : List Nat) :
    receiveTrailer fmt sha256 size s
        { bytes := fmt.trailer.line { sha256 := hashBytes sha256 s.hasher }, cuts } =
      .ok { out := s.out, size, sha256 := hashBytes sha256 s.hasher } := by
  have hread := Pipe.readLine_line (fmt.trailer.newline_not_mem { sha256 := hashBytes sha256 s.hasher }) [] cuts
  rw [receiveTrailer, ObjectFormat.line, ObjectFormat.bytes, hread]
  simp [bind, Except.bind, fmt.trailer.trim_text_newline, fmt.trailer.parse_text, Except.mapError]

/-- A trailer whose text is not complete cannot be read. -/
theorem receiveTrailer_torn (size : UInt64) (s : Sink) (t : SendTrailer) {p : Pipe}
    (hq : p.bytes <+: fmt.trailer.bytes t) (hlt : p.bytes.length < (fmt.trailer.bytes t).length) :
    ∃ e, receiveTrailer fmt sha256 size s p = .error e := by
  obtain ⟨q, cuts⟩ := p
  have hread := Pipe.readLine_torn (newline_not_mem_of_torn (fmt.trailer.newline_not_mem t) hq) cuts
  rw [receiveTrailer, hread]
  cases hline : utf8? q with
  | none => exact ⟨_, rfl⟩
  | some line =>
    have hutf := utf8_of_utf8? hline
    have hprefix : line <+: fmt.trailer.text t := prefix_of_utf8_prefix (hutf ▸ hq)
    have hshort : line ≠ fmt.trailer.text t := by
      rintro rfl
      exact absurd hlt (hutf ▸ lt_irrefl _)
    have herror : ∃ e, fmt.trailer.parse (trim line) = .error e := by
      by_cases hnil : line = []
      · rw [hnil]
        exact fmt.trailer.parse_prefix t [] List.nil_prefix (fmt.trailer.text_ne_nil t).symm
      · exact (fmt.trailer.trim_of_torn hnil hprefix hshort).2
    obtain ⟨e, he⟩ := herror
    exact ⟨.invalidTrailer line e, by simp [bind, Except.bind, he, Except.mapError]⟩

theorem receiveTrailer_empty (size : UInt64) (s : Sink) {p : Pipe} (hp : p.bytes = []) :
    ∃ e, receiveTrailer fmt sha256 size s p = .error e := by
  apply receiveTrailer_torn fmt sha256 size s { sha256 := "" } (hp ▸ List.nil_prefix)
  rw [hp]
  exact List.length_pos_iff.mpr (mt utf8_eq_nil.mp (fmt.trailer.text_ne_nil _))

/-! ## Downloads -/

/-- A file between its frames. -/
def framed (base64Chunks : Bool) (file : FileContent) (chunks : List (List UInt8)) : List UInt8 :=
  fmt.header.line { size := file.size } ++
    (body fmt base64Chunks chunks ++ fmt.trailer.line { sha256 := hashBytes sha256 file.bytes })

theorem sendStream_eq (base64Chunks : Bool) (file : FileContent) (cuts : List Nat) :
    ∃ chunks, Chunks (chunkSize base64Chunks) file.bytes chunks ∧
      sendStream fmt sha256 base64Chunks file cuts = .ok (framed fmt sha256 base64Chunks file chunks) := by
  have hlen : ({ bytes := file.bytes, cuts } : Pipe).bytes.length = file.bytes.length := rfl
  obtain ⟨chunks, hchunks, heq⟩ := sendChunks_eq fmt base64Chunks [] (fmt.header.line { size := file.size }) hlen
  refine ⟨chunks, hchunks, ?_⟩
  rw [sendStream, FileContent.toNat_size]
  simp only [heq, bind, Except.bind, framed, List.nil_append, List.append_assoc]

/-- What a receiver gets of a framed file: all of it, or nothing where the noise
before it is not UTF-8. -/
theorem receiveStream_framed {base64Chunks : Bool} {file : FileContent} {bound : Nat}
    {chunks : List (List UInt8)} (hchunks : Chunks bound file.bytes chunks) {noise : List (List UInt8)}
    (hnoise : ∀ l ∈ noise, IsNoise l) (cuts : List Nat) :
    receiveStream fmt sha256 base64Chunks
        { bytes := joinLines noise ++ framed fmt sha256 base64Chunks file chunks, cuts } =
      if noise.all isUtf8 then
        .ok { out := file.bytes, size := file.size, sha256 := hashBytes sha256 file.bytes }
      else .error .io := by
  obtain ⟨cuts', hbody⟩ := receiveBody_eq fmt base64Chunks hchunks
    (fmt.trailer.line { sha256 := hashBytes sha256 file.bytes }) cuts
  have htrailer := receiveTrailer_line fmt sha256 file.size (Sink.empty.put file.bytes) cuts'
  rw [receiveStream, framed, findHeader_header fmt hnoise]
  split
  · simp only [bind, Except.bind, fmt.header.trim_text_newline, fmt.header.parse_text, Except.mapError,
      FileContent.toNat_size, hbody]
    simpa [Sink.put, Sink.empty] using htrailer
  · rfl

/-- A framed file that is cut short anywhere in its frames is an error. -/
theorem receiveStream_torn {base64Chunks : Bool} {file : FileContent} {bound : Nat}
    {chunks : List (List UInt8)} (hchunks : Chunks bound file.bytes chunks) {noise : List (List UInt8)}
    (hnoise : ∀ l ∈ noise, IsNoise l) {q : List UInt8}
    (hq : q <+: joinLines noise ++ framed fmt sha256 base64Chunks file chunks)
    (hlt : q.length + 1 < (joinLines noise ++ framed fmt sha256 base64Chunks file chunks).length)
    (cuts : List Nat) : ∃ e, receiveStream fmt sha256 base64Chunks { bytes := q, cuts } = .error e := by
  -- Nothing is left for the trailer.
  have hnothing : ∀ {size : UInt64} {p : Pipe},
      (∀ s p', receiveBody fmt base64Chunks size.toNat p = .ok (s, p') → p'.bytes = []) →
        ∃ e, (receiveBody fmt base64Chunks size.toNat p >>= fun r =>
          receiveTrailer fmt sha256 size r.1 r.2) = .error e := by
    intro size p hp
    cases hb : receiveBody fmt base64Chunks size.toNat p with
    | error e => exact ⟨e, rfl⟩
    | ok r => exact receiveTrailer_empty fmt sha256 size r.1 (hp r.1 r.2 hb)
  rw [framed, ObjectFormat.line, List.append_assoc, List.singleton_append, ← List.append_assoc] at hq hlt
  rcases prefix_line_cases hq with hq | ⟨q', rfl, hq'⟩
  · rw [receiveStream]
    cases hfound : findHeader { bytes := q, cuts } with
    | error e => exact ⟨e, rfl⟩
    | ok r =>
      obtain ⟨line, p⟩ := r
      obtain ⟨hp, hne, hprefix⟩ := findHeader_torn fmt hnoise { size := file.size } hq hfound
      by_cases hall : line = fmt.header.text { size := file.size }
      · simp only [bind, Except.bind, hall, fmt.header.trim_text, fmt.header.parse_text, Except.mapError]
        exact hnothing fun s p' hb => receiveBody_empty fmt hp hb
      · obtain ⟨e, he⟩ := (fmt.header.trim_of_torn hne hprefix hall).2
        exact ⟨.invalidHeader line e, by simp [bind, Except.bind, he, Except.mapError]⟩
  · rw [List.append_assoc, receiveStream, ← List.singleton_append, ← List.append_assoc (fmt.header.bytes _),
      ← ObjectFormat.line, findHeader_header fmt hnoise]
    split
    case isFalse => exact ⟨_, rfl⟩
    simp only [bind, Except.bind, fmt.header.trim_text_newline, fmt.header.parse_text, Except.mapError]
    rw [ObjectFormat.line, ← List.append_assoc] at hq' hlt
    simp only [List.length_append, List.length_cons, List.length_nil] at hlt
    have hcut : q' <+: body fmt base64Chunks chunks ++
        fmt.trailer.bytes { sha256 := hashBytes sha256 file.bytes } := by
      rcases List.prefix_concat_iff.mp hq' with rfl | hq'
      · simp only [List.length_append, List.length_cons, List.length_nil] at hlt
        omega
      · exact hq'
    rcases List.prefix_or_prefix_of_prefix hcut (List.prefix_append _ _) with hbody | ⟨t, rfl⟩
    · refine hnothing fun s p' hb => ?_
      rw [FileContent.toNat_size] at hb
      exact receiveBody_torn fmt hchunks hbody hb
    · obtain ⟨cuts', hb⟩ := receiveBody_eq fmt base64Chunks hchunks t cuts
      rw [FileContent.toNat_size, hb]
      refine receiveTrailer_torn fmt sha256 file.size _ { sha256 := hashBytes sha256 file.bytes }
        ((List.prefix_append_right_inj _).mp hcut) ?_
      simp only [List.length_append] at hlt
      show t.length < _
      omega

/-! ## The receiver of an upload -/

/-- Raw bytes are taken up to the expected size. -/
theorem acceptRaw_eq (expectSize total : Nat) (s : Sink) (p : Pipe) : acceptRaw expectSize total s p =
    (total + (p.bytes.take (expectSize - total)).length, s.put (p.bytes.take (expectSize - total))) := by
  induction h : expectSize - total using Nat.strong_induction_on generalizing total s p with
  | _ n ih =>
    rw [acceptRaw]
    by_cases hle : expectSize ≤ total
    · have hzero : n = 0 := by omega
      rw [if_pos hle, hzero]
      simp
    · have hread := p.length_read_le (min n transferBufSize) (Nat.lt_min.mpr ⟨by omega, by decide⟩)
      have happ := p.read_append (min n transferBufSize)
      have hnil : (p.read (min n transferBufSize)).1 = [] ↔ p.bytes = [] := Pipe.read_eq_nil
      rw [if_neg hle, h]
      dsimp only
      generalize p.read (min n transferBufSize) = r at hread happ hnil ⊢
      split
      · rename_i hr
        rw [hnil.mp hr]
        simp
      · rename_i hr
        have hpos := List.length_pos_iff.mpr hr
        have hle' : r.1.length ≤ n := hread.trans (Nat.min_le_left _ _)
        have htake : p.bytes.take n = r.1 ++ r.2.bytes.take (n - r.1.length) := by
          rw [← happ, List.take_append, List.take_of_length_le hle']
        rw [ih (n - r.1.length) (by omega) (total + r.1.length) (s.put r.1) r.2 (by omega), htake,
          Sink.put_put, List.length_append, Nat.add_assoc]

theorem acceptBase64_line {expectSize total : Nat} (s : Sink) {c : List UInt8} (hne : c ≠ [])
    (hbound : c.length ≤ base64TransferBufSize) (hle : total + c.length ≤ expectSize) (rest : List UInt8)
    (cuts : List Nat) :
    acceptBase64 fmt expectSize total s { bytes := utf8 (fmt.base64.encode c) ++ newline :: rest, cuts } =
      acceptBase64 fmt expectSize (total + c.length) (s.put c) { bytes := rest, cuts } := by
  have hpos := List.length_pos_iff.mpr hne
  rw [acceptBase64, if_neg (by omega), Pipe.readLine_line (fmt.base64.newline_not_mem c)]
  simp only [decode_line, List.append_eq_nil_iff, List.cons_ne_self, and_false, if_false]
  rw [if_neg (not_or.mpr ⟨hne, Nat.not_lt.mpr (Nat.le_min.mpr ⟨by omega, hbound⟩)⟩)]

theorem acceptBase64_body {chunks : List (List UInt8)} (hne : ∀ c ∈ chunks, c ≠ [])
    (hbound : ∀ c ∈ chunks, c.length ≤ base64TransferBufSize) (total : Nat) (s : Sink) (cuts : List Nat) :
    acceptBase64 fmt (total + chunks.flatten.length) total s { bytes := body fmt true chunks, cuts } =
      .ok (total + chunks.flatten.length, s.put chunks.flatten) := by
  induction chunks generalizing total s with
  | nil => rw [acceptBase64]; simp
  | cons c chunks ih =>
    obtain ⟨hc, hne⟩ := List.forall_mem_cons.mp hne
    obtain ⟨hcb, hbound⟩ := List.forall_mem_cons.mp hbound
    rw [body_base64_cons, acceptBase64_line fmt s hc hcb (by simp), List.flatten_cons,
      List.length_append, ← Nat.add_assoc, ih hne hbound, Sink.put_put]

/-- The bytes of a line of Base64, none if it is not one. -/
def decodedLine (line : List UInt8) : List UInt8 :=
  match utf8? line with
  | none => []
  | some cs => (fmt.base64.decode (trimLineEnd cs)).toOption.getD []

/-- The bytes of all lines. -/
def decodedLines (bytes : List UInt8) : List UInt8 :=
  if bytes = [] then [] else decodedLine fmt (takeLine bytes).1 ++ decodedLines (takeLine bytes).2
termination_by bytes.length
decreasing_by
  have hlen := congrArg List.length (takeLine_append bytes)
  have hpos := List.length_pos_iff.mpr (mt takeLine_eq_nil.mp ‹_›)
  rw [List.length_append] at hlen
  omega

/-- The bytes of a file that an upload stream delivers. -/
def delivered (base64Chunks : Bool) (bytes : List UInt8) : List UInt8 :=
  if base64Chunks then decodedLines fmt bytes else bytes

/-- No more is taken than the lines deliver. -/
theorem acceptBase64_le {expectSize total n : Nat} {s s' : Sink} {p : Pipe}
    (h : acceptBase64 fmt expectSize total s p = .ok (n, s')) :
    n ≤ total + (decodedLines fmt p.bytes).length := by
  induction hk : expectSize - total using Nat.strong_induction_on generalizing total s p with
  | _ k ih =>
    rw [acceptBase64] at h
    split at h
    · cases h
      exact Nat.le_add_right _ _
    cases hread : p.readLine with
    | error e => rw [hread] at h; cases h
    | ok r =>
      obtain ⟨line, p'⟩ := r
      obtain ⟨hutf, hrest, hnil, -⟩ := Pipe.readLine_ok hread
      rw [hread] at h
      dsimp only at h
      split at h
      · cases h
        exact Nat.le_add_right _ _
      rename_i hne
      cases hdec : fmt.base64.decode (trimLineEnd line) with
      | error e => rw [hdec] at h; cases h
      | ok decoded =>
        rw [hdec] at h
        dsimp only at h
        split at h
        · cases h
        rename_i hok
        have hpos := List.length_pos_iff.mpr (not_or.mp hok).1
        have hn := ih _ (by omega) h rfl
        have hline : decodedLine fmt (takeLine p.bytes).1 = decoded := by
          rw [decodedLine, ← hutf, utf8?_utf8]
          dsimp only
          rw [hdec]
          rfl
        rw [decodedLines, if_neg (mt hnil.mpr hne), hline, List.length_append, ← hrest]
        omega

/-- A stream that delivers fewer bytes than declared is an error. -/
theorem runTransferReceive_short {expectSize : UInt64} {base64Chunks : Bool} {p : Pipe}
    (h : (delivered fmt base64Chunks p.bytes).length < expectSize.toNat) :
    ∃ e, runTransferReceive fmt sha256 expectSize base64Chunks p = .error e := by
  cases base64Chunks with
  | true =>
    rw [delivered, if_pos rfl] at h
    rw [runTransferReceive, if_pos rfl]
    cases haccept : acceptBase64 fmt expectSize.toNat 0 .empty p with
    | error e => exact ⟨e, rfl⟩
    | ok r =>
      have hle := acceptBase64_le fmt haccept
      exact ⟨.declaredSize r.1 expectSize.toNat, if_pos (by omega)⟩
  | false =>
    rw [delivered, if_neg Bool.false_ne_true] at h
    rw [runTransferReceive, if_neg Bool.false_ne_true, acceptRaw_eq]
    refine ⟨.declaredSize _ expectSize.toNat, if_pos ?_⟩
    simp only [List.length_take]
    omega

/-! ## Uploads -/

/-- What `send_to_receiver` writes: the chunks of the file, and nothing around
them. -/
theorem uploadStream_eq (base64Chunks : Bool) (file : FileContent) (cuts : List Nat) :
    ∃ chunks, Chunks (chunkSize base64Chunks) file.bytes chunks ∧
      uploadStream fmt base64Chunks file.size { bytes := file.bytes, cuts } =
        .ok (file.bytes, body fmt base64Chunks chunks) := by
  obtain ⟨chunks, hchunks, heq⟩ := uploadChunks_eq fmt base64Chunks [] [] 0 { bytes := file.bytes, cuts }
  refine ⟨chunks, hchunks, ?_⟩
  simp [uploadStream, heq]

theorem runTransferReceive_body {base64Chunks : Bool} {file : FileContent} {chunks : List (List UInt8)}
    (h : Chunks (chunkSize base64Chunks) file.bytes chunks) (cuts : List Nat) :
    runTransferReceive fmt sha256 file.size base64Chunks { bytes := body fmt base64Chunks chunks, cuts } =
      .ok (file.bytes,
        fmt.metadata.line { size := file.size, sha256 := hashBytes sha256 file.bytes }) := by
  have hsize : UInt64.ofNat file.bytes.length = file.size := by
    rw [← file.toNat_size, UInt64.ofNat_toNat]
  cases base64Chunks with
  | true =>
    have haccept := acceptBase64_body fmt h.nonempty h.bounded 0 .empty cuts
    rw [Nat.zero_add, h.flatten] at haccept
    rw [runTransferReceive, if_pos rfl, file.toNat_size, haccept]
    simp [bind, Except.bind, hsize, Sink.put, Sink.empty]
  | false =>
    rw [runTransferReceive, if_neg Bool.false_ne_true, file.toNat_size, acceptRaw_eq, body_raw, h.flatten]
    simp [bind, Except.bind, hsize, Sink.put, Sink.empty]

theorem textLines_line {l : List Char} (hn : '\n' ∉ l) (hr : l.getLast? ≠ some '\r') :
    textLines (l ++ ['\n']) = [l] := by
  rw [textLines, List.splitOn_append_cons_self_of_not_mem hn]
  simp [hr]

/-- What the receiver reports is what the sender wants to see. -/
theorem confirmUpload_line (size : UInt64) (bytes : List UInt8) :
    confirmUpload fmt sha256 size bytes
        (fmt.metadata.line { size, sha256 := hashBytes sha256 bytes }) = .ok (hashBytes sha256 bytes) := by
  have hlast : (fmt.metadata.text { size, sha256 := hashBytes sha256 bytes }).getLast? ≠ some '\r' := by
    obtain ⟨cs, hcs⟩ := fmt.metadata.object { size, sha256 := hashBytes sha256 bytes }
    rw [hcs, List.getLast?_concat]
    decide
  have hlines := textLines_line (fmt.metadata.newline_not_mem _) hlast
  rw [confirmUpload, ObjectFormat.line, ObjectFormat.bytes, ← utf8_newline, ← utf8_append, utf8?_utf8]
  dsimp only
  rw [hlines, List.reverse_singleton, List.find?_cons_of_pos (fmt.metadata.startsObject_text _)]
  simp [bind, Except.bind, fmt.metadata.trim_text, fmt.metadata.parse_text, Except.mapError]

/-! ## Both directions -/

/-- A download delivers the file behind any noise, whatever parts its reads come
in, and is an error if the stream is cut short. -/
def DownloadRoundTrips (base64Chunks : Bool) (file : FileContent) (fileCuts : List Nat)
    (noise : List (List UInt8)) : Prop :=
  ∃ stream, sendStream fmt sha256 base64Chunks file fileCuts = .ok stream ∧
    (∀ cuts, receiveStream fmt sha256 base64Chunks { bytes := joinLines noise ++ stream, cuts } =
      .ok { out := file.bytes, size := file.size, sha256 := hashBytes sha256 file.bytes }) ∧
    ∀ q cuts, q <+: joinLines noise ++ stream → q.length + 1 < (joinLines noise ++ stream).length →
      ∃ e, receiveStream fmt sha256 base64Chunks { bytes := q, cuts } = .error e

/-- An upload delivers the file, whatever parts its reads come in. -/
def UploadRoundTrips (base64Chunks : Bool) (file : FileContent) (fileCuts : List Nat) : Prop :=
  ∃ stream out,
    uploadStream fmt base64Chunks file.size { bytes := file.bytes, cuts := fileCuts } = .ok (file.bytes, stream) ∧
      (∀ cuts, runTransferReceive fmt sha256 file.size base64Chunks { bytes := stream, cuts } =
        .ok (file.bytes, out)) ∧
      out = fmt.metadata.line { size := file.size, sha256 := hashBytes sha256 file.bytes } ∧
      confirmUpload fmt sha256 file.size file.bytes out = .ok (hashBytes sha256 file.bytes)

theorem downloadRoundTrips_iff (base64Chunks : Bool) (file : FileContent) (fileCuts : List Nat)
    {noise : List (List UInt8)} (hnoise : ∀ l ∈ noise, IsNoise l) :
    DownloadRoundTrips fmt sha256 base64Chunks file fileCuts noise ↔ ∀ l ∈ noise, isUtf8 l = true := by
  obtain ⟨chunks, hchunks, heq⟩ := sendStream_eq fmt sha256 base64Chunks file fileCuts
  have hframed := @receiveStream_framed fmt sha256 base64Chunks _ _ _ hchunks _ hnoise
  rw [← List.all_eq_true]
  constructor
  · rintro ⟨stream, hsend, hreceive, -⟩
    rw [heq] at hsend
    cases hsend
    by_contra hutf
    have hread := hreceive []
    rw [hframed, if_neg hutf] at hread
    cases hread
  · intro hutf
    refine ⟨_, heq, ?_, ?_⟩
    · intro cuts
      rw [hframed, if_pos hutf]
    · intro q cuts hq hlt
      exact receiveStream_torn fmt sha256 hchunks hnoise hq hlt cuts

theorem uploadRoundTrips (base64Chunks : Bool) (file : FileContent) (fileCuts : List Nat) :
    UploadRoundTrips fmt sha256 base64Chunks file fileCuts := by
  obtain ⟨chunks, hchunks, heq⟩ := uploadStream_eq fmt base64Chunks file fileCuts
  exact ⟨_, _, heq, runTransferReceive_body fmt sha256 hchunks, rfl, confirmUpload_line fmt sha256 _ _⟩

/-- A transfer delivers the file, whatever parts its reads come in, but for a
download behind noise that is not UTF-8: that is an error, as is any stream that
is cut short. -/
theorem transfers_round_trip_iff :
    (∀ (base64Chunks : Bool) (file : FileContent) (fileCuts : List Nat) (noise : List (List UInt8)),
      (∀ l ∈ noise, IsNoise l) →
        (DownloadRoundTrips fmt sha256 base64Chunks file fileCuts noise ↔ ∀ l ∈ noise, isUtf8 l = true)) ∧
    (∀ (base64Chunks : Bool) (file : FileContent) (fileCuts : List Nat) (noise : List (List UInt8)),
      (∀ l ∈ noise, IsNoise l) → ∃ stream, sendStream fmt sha256 base64Chunks file fileCuts = .ok stream ∧
        ∀ q cuts, q <+: joinLines noise ++ stream → q.length + 1 < (joinLines noise ++ stream).length →
          ∃ e, receiveStream fmt sha256 base64Chunks { bytes := q, cuts } = .error e) ∧
    (∀ (base64Chunks : Bool) (file : FileContent) (fileCuts : List Nat),
      UploadRoundTrips fmt sha256 base64Chunks file fileCuts) ∧
    ∀ (base64Chunks : Bool) (expectSize : UInt64) (p : Pipe),
      (delivered fmt base64Chunks p.bytes).length < expectSize.toNat →
        ∃ e, runTransferReceive fmt sha256 expectSize base64Chunks p = .error e := by
  refine ⟨fun base64Chunks file fileCuts noise => downloadRoundTrips_iff fmt sha256 base64Chunks file fileCuts, ?_,
    uploadRoundTrips fmt sha256, fun base64Chunks expectSize p => runTransferReceive_short fmt sha256⟩
  intro base64Chunks file fileCuts noise hnoise
  obtain ⟨chunks, hchunks, heq⟩ := sendStream_eq fmt sha256 base64Chunks file fileCuts
  exact ⟨_, heq, fun q cuts hq hlt => receiveStream_torn fmt sha256 hchunks hnoise hq hlt cuts⟩

/-- The texts as `serde_json` and `base64` write them. -/
def jsonFormats : Formats where
  header := Json.object (Json.behind "\"size\":".toList (by decide) Json.number) SendHeader.mk
    SendHeader.size fun _ => rfl
  trailer := Json.object (Json.behind "\"sha256\":".toList (by decide) Json.string) SendTrailer.mk
    SendTrailer.sha256 fun _ => rfl
  metadata := Json.object
    (Json.both (Json.behind "\"size\":".toList (by decide) Json.number)
      (Json.behind "\"sha256\":".toList (by decide) Json.string))
    (fun r => { size := r.1, sha256 := r.2 }) (fun m => (m.size, m.sha256)) fun _ => rfl
  base64 := Base64.standard

/-- `caf` and an e with an acute accent, in Latin-1. -/
def latin1Noise : List UInt8 := [0x63, 0x61, 0x66, 0xe9]

theorem isNoise_latin1Noise : IsNoise latin1Noise := by
  refine ⟨by decide, not_beginsObject_cons (by decide) (by decide) ?_ _⟩
  intro c hc
  simp only [isWhitespace, hc]
  decide

/-- A startup file that prints one line of Latin-1 ends any download. -/
theorem latin1_noise_ends_download :
    IsNoise latin1Noise ∧ ∃ stream,
      sendStream jsonFormats zeroDigest false { bytes := [10, 123, 125], fits := by decide } [] = .ok stream ∧
      ∀ cuts, receiveStream jsonFormats zeroDigest false { bytes := joinLines [latin1Noise] ++ stream, cuts } =
        .error .io := by
  obtain ⟨chunks, hchunks, heq⟩ := sendStream_eq jsonFormats zeroDigest false
    { bytes := [10, 123, 125], fits := by decide } []
  refine ⟨isNoise_latin1Noise, _, heq, fun cuts => ?_⟩
  rw [receiveStream_framed jsonFormats zeroDigest hchunks
    (List.forall_mem_singleton.mpr isNoise_latin1Noise), if_neg (by decide)]

/-- A file of three bytes behind one line of noise, in chunks of one byte; and
an upload of which one byte is missing. -/
theorem transfers_round_trip_iff_three :
    DownloadRoundTrips jsonFormats zeroDigest true { bytes := [10, 123, 125], fits := by decide } [1, 1]
        [utf8 "Last login: today".toList] ∧
      ¬DownloadRoundTrips jsonFormats zeroDigest true { bytes := [10, 123, 125], fits := by decide } [1, 1]
        [latin1Noise] ∧
      (∃ stream, sendStream jsonFormats zeroDigest true { bytes := [10, 123, 125], fits := by decide } [1, 1] =
          .ok stream ∧
        ∃ e, receiveStream jsonFormats zeroDigest true { bytes := joinLines [latin1Noise], cuts := [] } = .error e) ∧
      ∃ e, runTransferReceive jsonFormats zeroDigest 3 false { bytes := [10, 123], cuts := [] } = .error e := by
  obtain ⟨hdown, hcut, -, hshort⟩ := transfers_round_trip_iff jsonFormats zeroDigest
  have hlogin : ∀ l ∈ [utf8 "Last login: today".toList], IsNoise l :=
    List.forall_mem_singleton.mpr (isNoise_utf8.mpr ⟨by decide, by decide⟩)
  have hlatin1 : ∀ l ∈ [latin1Noise], IsNoise l := List.forall_mem_singleton.mpr isNoise_latin1Noise
  refine ⟨(hdown true _ [1, 1] _ hlogin).mpr (by simp), ?_, ?_,
    hshort false 3 { bytes := [10, 123], cuts := [] } (by decide)⟩
  · rw [hdown true _ [1, 1] _ hlatin1, List.forall_mem_singleton]
    decide
  · obtain ⟨stream, hsend, herror⟩ := hcut true { bytes := [10, 123, 125], fits := by decide } [1, 1] _ hlatin1
    refine ⟨stream, hsend, herror _ [] (List.prefix_append _ _) ?_⟩
    have hlong : 2 ≤ stream.length := by
      obtain ⟨chunks, -, heq⟩ := sendStream_eq jsonFormats zeroDigest true
        { bytes := [10, 123, 125], fits := by decide } [1, 1]
      rw [heq] at hsend
      cases hsend
      simp [framed, ObjectFormat.line]
      omega
    rw [List.length_append]
    omega

end RemoteWorkspace
