import RemoteWorkspace.Lib.Utf8
import RemoteWorkspace.Protocol
import RemoteWorkspace.Store.Table

/-!
# The preview of a command's output

`OutputCapture` of `exec.rs`: the first bytes of a stream and its last ones, each
decoded on its own once the stream has ended. What is captured depends on the
stream and not on its chunks (`capture_eq`), and the two parts are windows of the
stream (`capture_accounts`). A stream that is not longer than both parts is cut
at a fixed byte, and its preview is the whole output only if no character is cut
there (`preview_is_whole_iff`).
-/

namespace RemoteWorkspace

open Text Utf8

/-! ## The code -/

def outputPrefixLimit : Nat := 4 * 1024

def outputSuffixLimit : Nat := 12 * 1024

structure OutputCapture where
  prefixBytes : List UInt8
  suffixBytes : List UInt8
  totalBytes : Nat
  deriving DecidableEq, Repr

/-- The `Default` of `OutputCapture`. -/
def OutputCapture.empty : OutputCapture := { prefixBytes := [], suffixBytes := [], totalBytes := 0 }

/-- `u64::saturating_add`. -/
def saturatingAddU64 (a b : Nat) : Nat := min (a + b) (u64Bound - 1)

/-- One byte for the suffix, in place of its oldest one where it is full. -/
def pushSuffix (suffix : List UInt8) (byte : UInt8) : List UInt8 :=
  (if suffix.length = outputSuffixLimit then suffix.tail else suffix) ++ [byte]

def OutputCapture.push (c : OutputCapture) (bytes : List UInt8) : OutputCapture :=
  let prefixLen := min (outputPrefixLimit - c.prefixBytes.length) bytes.length
  { prefixBytes := c.prefixBytes ++ bytes.take prefixLen
    suffixBytes := (bytes.drop prefixLen).foldl pushSuffix c.suffixBytes
    totalBytes := saturatingAddU64 c.totalBytes bytes.length }

inductive Keep where
  | start | stop
  deriving DecidableEq, Repr

/-- `decode`, on Unix. -/
def decode (bytes : List UInt8) : List Char := lossy bytes

/-- The size of a text in bytes. -/
def byteLen (text : List Char) : Nat := (utf8 text).length

/-- The loop of `fit`, for so many turns: the text, and how many bytes it is of.
`none` if it has not ended by then, or has a slice out of range. -/
def fitTurns (limit : Nat) (keep : Keep) : Nat → List UInt8 → Option (List Char × Nat)
  | 0, _ => none
  | turns + 1, bytes =>
    let text := decode bytes
    if byteLen text ≤ limit then some (text, bytes.length)
    else
      let excess := max ((byteLen text - limit) / 3) 1
      if bytes.length < excess then none
      else
        match keep with
        | .start => fitTurns limit keep turns (bytes.take (bytes.length - excess))
        | .stop => fitTurns limit keep turns (bytes.drop excess)

/-- `fit`: no turn of its loop leaves the bytes as they are. -/
def fit (bytes : List UInt8) (limit : Nat) (keep : Keep) : Option (List Char × Nat) :=
  fitTurns limit keep (bytes.length + 1) bytes

def OutputCapture.finish (c : OutputCapture) : Option ExecOutput := do
  let (prefixText, prefixLen) ← fit c.prefixBytes outputPrefixLimit .start
  let (suffixText, suffixLen) ← fit c.suffixBytes outputSuffixLimit .stop
  some {
    prefixText := String.ofList prefixText
    suffixText := String.ofList suffixText
    totalBytes := c.totalBytes
    omittedBytes := c.totalBytes - (prefixLen + suffixLen) }

/-- What is captured of a stream that arrives in these chunks. -/
def capture (chunks : List (List UInt8)) : Option ExecOutput :=
  (chunks.foldl OutputCapture.push .empty).finish

/-! ## What is kept of a stream -/

section

variable {α : Type} (n : Nat) (l l' : List α)

/-- The last `n` of a list. -/
def lastN : List α := l.drop (l.length - n)

theorem length_lastN : (lastN n l).length = min n l.length := by
  rw [lastN, List.length_drop]
  omega

theorem lastN_of_le {n : Nat} {l : List α} (h : l.length ≤ n) : lastN n l = l := by
  rw [lastN, Nat.sub_eq_zero_of_le h, List.drop_zero]

/-- One more, in place of the oldest of `n`. -/
theorem lastN_concat {n : Nat} (hn : 0 < n) (a : α) :
    (if (lastN n l).length = n then (lastN n l).tail else lastN n l) ++ [a] = lastN n (l ++ [a]) := by
  have hlen : (lastN n l).length = min n l.length := length_lastN n l
  rw [hlen, lastN, lastN, List.length_append, List.length_singleton]
  split
  · rw [List.tail_drop, ← List.drop_append_of_le_length (by omega)]
    congr 1
    omega
  · rw [← List.drop_append_of_le_length (by omega)]
    congr 1
    omega

/-- The first `n`, filled up from what follows. -/
theorem take_fill : l.take n ++ l'.take (min (n - (l.take n).length) l'.length) = (l ++ l').take n := by
  rw [List.take_append, List.length_take]
  congr 1
  rw [List.take_eq_take_iff]
  omega

theorem drop_fill : l.drop n ++ l'.drop (min (n - (l.take n).length) l'.length) = (l ++ l').drop n := by
  rw [List.drop_append, List.length_take]
  congr 1
  by_cases h : n - l.length ≤ l'.length
  · congr 1
    omega
  · rw [List.drop_eq_nil_of_le (by omega), List.drop_eq_nil_of_le (by omega)]

end

theorem foldl_pushSuffix (l bytes : List UInt8) :
    bytes.foldl pushSuffix (lastN outputSuffixLimit l) = lastN outputSuffixLimit (l ++ bytes) := by
  induction bytes generalizing l with
  | nil => rw [List.append_nil, List.foldl_nil]
  | cons byte bytes ih =>
    have hone : pushSuffix (lastN outputSuffixLimit l) byte = lastN outputSuffixLimit (l ++ [byte]) :=
      lastN_concat l (by decide) byte
    rw [List.foldl_cons, hone, ih, List.append_assoc, List.singleton_append]

/-- The capture of a stream, whatever its chunks were. -/
def OutputCapture.ofStream (stream : List UInt8) : OutputCapture where
  prefixBytes := stream.take outputPrefixLimit
  suffixBytes := lastN outputSuffixLimit (stream.drop outputPrefixLimit)
  totalBytes := min stream.length (u64Bound - 1)

theorem push_ofStream (stream bytes : List UInt8) :
    (OutputCapture.ofStream stream).push bytes = .ofStream (stream ++ bytes) := by
  have htotal : saturatingAddU64 (min stream.length (u64Bound - 1)) bytes.length =
      min (stream ++ bytes).length (u64Bound - 1) := by
    rw [saturatingAddU64, List.length_append]
    omega
  simp only [OutputCapture.push, OutputCapture.ofStream, foldl_pushSuffix, take_fill, drop_fill, htotal]

theorem foldl_push (stream : List UInt8) (chunks : List (List UInt8)) :
    chunks.foldl OutputCapture.push (.ofStream stream) = .ofStream (stream ++ chunks.flatten) := by
  induction chunks generalizing stream with
  | nil => rw [List.foldl_nil, List.flatten_nil, List.append_nil]
  | cons chunk chunks ih => rw [List.foldl_cons, push_ofStream, ih, List.flatten_cons, List.append_assoc]

/-- What is captured depends on the stream only. -/
theorem capture_eq (chunks : List (List UInt8)) : capture chunks = (OutputCapture.ofStream chunks.flatten).finish := by
  have := foldl_push [] chunks
  rw [List.nil_append] at this
  rw [capture, ← this]
  rfl

/-! ## Fitting a window -/

/-- What `fit` may leave of its bytes. -/
def Keep.Part : Keep → List UInt8 → List UInt8 → Prop
  | .start, part, bytes => part <+: bytes
  | .stop, part, bytes => part <:+ bytes

theorem Keep.part_refl (keep : Keep) (bytes : List UInt8) : keep.Part bytes bytes := by
  cases keep
  · exact List.prefix_rfl
  · exact List.suffix_rfl

theorem Keep.Part.trans {keep : Keep} {a b c : List UInt8} (h : keep.Part a b) (h' : keep.Part b c) : keep.Part a c := by
  cases keep
  · exact List.IsPrefix.trans h h'
  · exact List.IsSuffix.trans h h'

theorem Keep.Part.length_le {keep : Keep} {a b : List UInt8} (h : keep.Part a b) : a.length ≤ b.length := by
  cases keep
  · exact List.IsPrefix.length_le h
  · exact List.IsSuffix.length_le h

theorem Keep.Part.eq_of_length {keep : Keep} {a b : List UInt8} (h : keep.Part a b) (hlen : a.length = b.length) :
    a = b := by
  cases keep
  · exact List.IsPrefix.eq_of_length h hlen
  · exact List.IsSuffix.eq_of_length h hlen

/-- The text of a part that fits, and all of the bytes if their text fits. -/
structure Fitted (bytes : List UInt8) (limit : Nat) (keep : Keep) (text : List Char) (n : Nat) : Prop where
  part : ∃ part, keep.Part part bytes ∧ text = decode part ∧ n = part.length
  fits : byteLen text ≤ limit
  whole : byteLen (decode bytes) ≤ limit → n = bytes.length

/-- Decoding a byte makes three at the most, so a turn never gives up more
bytes than there are, and it gives up one at least. -/
theorem fitTurns_fitted (limit : Nat) (keep : Keep) (turns : Nat) (bytes : List UInt8) (h : bytes.length < turns) :
    ∃ text n, fitTurns limit keep turns bytes = some (text, n) ∧ Fitted bytes limit keep text n := by
  induction turns generalizing bytes with
  | zero => omega
  | succ turns ih =>
    rw [fitTurns]
    by_cases hfits : byteLen (decode bytes) ≤ limit
    · rw [if_pos hfits]
      exact ⟨_, _, rfl, ⟨bytes, keep.part_refl bytes, rfl, rfl⟩, hfits, fun _ => rfl⟩
    · rw [if_neg hfits]
      have hgrows : byteLen (decode bytes) ≤ 3 * bytes.length := length_utf8_lossy bytes
      have hexcess : max ((byteLen (decode bytes) - limit) / 3) 1 ≤ bytes.length := by omega
      rw [if_neg (Nat.not_lt.mpr hexcess)]
      have hsmaller : ∀ part, keep.Part part bytes → part.length < bytes.length →
          ∃ text n, fitTurns limit keep turns part = some (text, n) ∧ Fitted bytes limit keep text n := by
        intro part hpart hlen
        obtain ⟨text, n, htext, ⟨part', hpart', heq, hn⟩, hfit, -⟩ := ih part (by omega)
        exact ⟨text, n, htext, ⟨part', hpart'.trans hpart, heq, hn⟩, hfit, fun hall => absurd hall hfits⟩
      cases keep with
      | start => exact hsmaller _ (List.take_prefix _ _) (by rw [List.length_take]; omega)
      | stop => exact hsmaller _ (List.drop_suffix _ _) (by rw [List.length_drop]; omega)

theorem fit_fitted (bytes : List UInt8) (limit : Nat) (keep : Keep) :
    ∃ text n, fit bytes limit keep = some (text, n) ∧ Fitted bytes limit keep text n :=
  fitTurns_fitted limit keep (bytes.length + 1) bytes (Nat.lt_succ_self _)

/-- All bytes are kept exactly if their text fits. -/
theorem Fitted.all_iff {bytes : List UInt8} {limit : Nat} {keep : Keep} {text : List Char} {n : Nat}
    (h : Fitted bytes limit keep text n) : n = bytes.length ↔ byteLen (decode bytes) ≤ limit := by
  refine ⟨fun hn => ?_, h.whole⟩
  obtain ⟨part, hpart, rfl, hlen⟩ := h.part
  rw [← hpart.eq_of_length (hlen.symm.trans hn)]
  exact h.fits

/-! ## What is captured -/

/-- The output captured of a stream, of whose bytes the first `a` and the last
`b` are kept. -/
structure Captured (stream : List UInt8) (out : ExecOutput) (a b : Nat) : Prop where
  prefix_le : a ≤ outputPrefixLimit
  suffix_le : b ≤ min outputSuffixLimit (stream.length - outputPrefixLimit)
  sum_le : a + b ≤ stream.length
  prefixText : out.prefixText.toList = decode (stream.take a)
  suffixText : out.suffixText.toList = decode (stream.drop (stream.length - b))
  prefix_fits : byteLen out.prefixText.toList ≤ outputPrefixLimit
  suffix_fits : byteLen out.suffixText.toList ≤ outputSuffixLimit
  total : out.totalBytes = min stream.length (u64Bound - 1)
  omitted : out.omittedBytes = out.totalBytes - (a + b)
  counted : a + b ≤ out.totalBytes
  /-- Nothing is given up of a window whose text fits. -/
  prefix_whole : a = min outputPrefixLimit stream.length ↔
    byteLen (decode (stream.take outputPrefixLimit)) ≤ outputPrefixLimit
  suffix_whole : b = min outputSuffixLimit (stream.length - outputPrefixLimit) ↔
    byteLen (decode (lastN outputSuffixLimit (stream.drop outputPrefixLimit))) ≤ outputSuffixLimit

theorem finish_captured (stream : List UInt8) :
    ∃ out a b, (OutputCapture.ofStream stream).finish = some out ∧ Captured stream out a b := by
  obtain ⟨prefixText, a, hprefix, hfit⟩ := fit_fitted (stream.take outputPrefixLimit) outputPrefixLimit .start
  obtain ⟨suffixText, b, hsuffix, hfit'⟩ :=
    fit_fitted (lastN outputSuffixLimit (stream.drop outputPrefixLimit)) outputSuffixLimit .stop
  obtain ⟨front, hfront, hfrontText, ha⟩ := hfit.part
  obtain ⟨back, hback, hbackText, hb⟩ := hfit'.part
  have hfrontLen := hfront.length_le
  have hbackLen := hback.length_le
  rw [List.length_take] at hfrontLen
  rw [length_lastN, List.length_drop] at hbackLen
  have hfrontEq : front = stream.take a := by
    rw [ha]
    exact List.prefix_iff_eq_take.mp (List.IsPrefix.trans hfront (List.take_prefix _ _))
  have hbackEq : back = stream.drop (stream.length - b) := by
    rw [hb]
    exact List.suffix_iff_eq_drop.mp
      (List.IsSuffix.trans hback ((List.drop_suffix _ _).trans (List.drop_suffix _ _)))
  have hwhole := hfit.all_iff
  have hwhole' := hfit'.all_iff
  rw [List.length_take] at hwhole
  rw [length_lastN, List.length_drop] at hwhole'
  have hbound : outputPrefixLimit + outputSuffixLimit ≤ u64Bound - 1 := by decide
  refine ⟨{ prefixText := String.ofList prefixText, suffixText := String.ofList suffixText
            totalBytes := min stream.length (u64Bound - 1)
            omittedBytes := min stream.length (u64Bound - 1) - (a + b) }, a, b, ?_, ?_⟩
  · simp only [OutputCapture.finish, OutputCapture.ofStream, hprefix, hsuffix, Option.bind_eq_bind, Option.bind_some]
  · exact {
      prefix_le := by omega
      suffix_le := by omega
      sum_le := by omega
      prefixText := by rw [String.toList_ofList, hfrontText, hfrontEq]
      suffixText := by rw [String.toList_ofList, hbackText, hbackEq]
      prefix_fits := by rw [String.toList_ofList]; exact hfit.fits
      suffix_fits := by rw [String.toList_ofList]; exact hfit'.fits
      total := rfl
      omitted := rfl
      counted := by dsimp only; omega
      prefix_whole := hwhole
      suffix_whole := hwhole' }

/-- The accounting of captured output. It depends on the stream and not on its
chunks; the two texts are the first `a` bytes and the last `b`, inside their
limits; nothing else is omitted, and nothing is given up of a window whose text
fits. The count of bytes stays at the largest `u64` from there on. The loop of
`fit` ends, whatever its bytes are, and no slice of it is out of range. -/
theorem capture_accounts (chunks : List (List UInt8)) :
    (∃ out a b, capture chunks = some out ∧ Captured chunks.flatten out a b ∧
      ∀ chunks', chunks'.flatten = chunks.flatten → capture chunks' = some out) ∧
    ∀ (limit : Nat) (keep : Keep) (bytes : List UInt8) (turns : Nat), bytes.length < turns →
      ∃ text n, fitTurns limit keep turns bytes = some (text, n) ∧ Fitted bytes limit keep text n := by
  refine ⟨?_, fun limit keep bytes turns h => fitTurns_fitted limit keep turns bytes h⟩
  obtain ⟨out, a, b, hfinish, hcaptured⟩ := finish_captured chunks.flatten
  refine ⟨out, a, b, (capture_eq chunks).trans hfinish, hcaptured, fun chunks' h => ?_⟩
  rw [capture_eq, h]
  exact hfinish

/-- The count does not reach the length of a stream of this many bytes. -/
theorem count_of_endless_output : ∃ out, capture [List.replicate u64Bound 97] = some out ∧
    out.totalBytes ≠ [List.replicate u64Bound (97 : UInt8)].flatten.length := by
  obtain ⟨out, a, b, hfinish, hcaptured⟩ := finish_captured [List.replicate u64Bound (97 : UInt8)].flatten
  refine ⟨out, (capture_eq _).trans hfinish, ?_⟩
  rw [hcaptured.total, List.flatten_singleton, List.length_replicate]
  decide

/-! ## Whole previews -/

/-- That a preview which claims to omit nothing is the whole output, and that a
text of at most 16 KiB has such a preview. -/
def PreviewIsWhole (chunks : List (List UInt8)) : Prop :=
  ∃ out, capture chunks = some out ∧
    (out.omittedBytes = 0 → out.prefixText ++ out.suffixText = String.ofList (decode chunks.flatten)) ∧
    ∀ cs, chunks.flatten = utf8 cs → chunks.flatten.length ≤ 16 * 1024 →
      out.omittedBytes = 0 ∧ out.prefixText ++ out.suffixText = String.ofList cs

section

variable {stream : List UInt8} {out : ExecOutput} {a b : Nat}

/-- A stream that is longer than both windows has bytes omitted. -/
theorem Captured.omitted_pos (h : Captured stream out a b) (hlong : outputPrefixLimit + outputSuffixLimit < stream.length) :
    out.omittedBytes ≠ 0 := by
  have hbound : outputPrefixLimit + outputSuffixLimit < u64Bound - 1 := by decide
  have hprefix := h.prefix_le
  have hsuffix := h.suffix_le
  rw [h.omitted, h.total]
  omega

/-- Of another stream nothing is omitted exactly if both texts fit. -/
theorem Captured.omitted_eq_zero_iff (h : Captured stream out a b)
    (hshort : stream.length ≤ outputPrefixLimit + outputSuffixLimit) :
    out.omittedBytes = 0 ↔ byteLen (decode (stream.take outputPrefixLimit)) ≤ outputPrefixLimit ∧
      byteLen (decode (stream.drop outputPrefixLimit)) ≤ outputSuffixLimit := by
  have hbound : outputPrefixLimit + outputSuffixLimit < u64Bound - 1 := by decide
  have hprefix := h.prefix_le
  have hsuffix := h.suffix_le
  have hsum := h.sum_le
  have hlast : lastN outputSuffixLimit (stream.drop outputPrefixLimit) = stream.drop outputPrefixLimit :=
    lastN_of_le (by rw [List.length_drop]; omega)
  have hwhole' := h.suffix_whole
  rw [hlast] at hwhole'
  rw [← h.prefix_whole, ← hwhole', h.omitted, h.total]
  omega

/-- With nothing omitted, the preview is the texts of the two parts. -/
theorem Captured.texts (h : Captured stream out a b)
    (hshort : stream.length ≤ outputPrefixLimit + outputSuffixLimit) (hnone : out.omittedBytes = 0) :
    (out.prefixText ++ out.suffixText).toList =
      decode (stream.take outputPrefixLimit) ++ decode (stream.drop outputPrefixLimit) := by
  have hfits := (h.omitted_eq_zero_iff hshort).mp hnone
  have hlast : lastN outputSuffixLimit (stream.drop outputPrefixLimit) = stream.drop outputPrefixLimit :=
    lastN_of_le (by rw [List.length_drop]; omega)
  have ha := h.prefix_whole.mpr hfits.1
  have hb := h.suffix_whole.mpr (by rw [hlast]; exact hfits.2)
  have htake : stream.take a = stream.take outputPrefixLimit := by
    rw [List.take_eq_take_iff]
    omega
  have hdrop : stream.drop (stream.length - b) = stream.drop outputPrefixLimit := by
    by_cases hlen : outputPrefixLimit ≤ stream.length
    · rw [show stream.length - b = outputPrefixLimit by omega]
    · rw [List.drop_eq_nil_of_le (by omega), List.drop_eq_nil_of_le (by omega)]
  rw [String.toList_append, h.prefixText, h.suffixText, htake, hdrop]

/-- With nothing omitted, the preview is the whole output only if no unit is
cut. -/
theorem Captured.whole_iff (h : Captured stream out a b)
    (hshort : stream.length ≤ outputPrefixLimit + outputSuffixLimit) (hnone : out.omittedBytes = 0) :
    out.prefixText ++ out.suffixText = String.ofList (decode stream) ↔ CutsBetween stream outputPrefixLimit := by
  rw [← lossy_cut_iff, ← String.toList_inj, h.texts hshort hnone, String.toList_ofList]
  rfl

/-- The parts of a text that is cut between two characters fit. -/
theorem Captured.omitted_of_text (h : Captured stream out a b) {cs : List Char} (hcs : stream = utf8 cs)
    (hshort : stream.length ≤ outputPrefixLimit + outputSuffixLimit) (hcut : CutsBetween stream outputPrefixLimit) :
    out.omittedBytes = 0 := by
  rw [h.omitted_eq_zero_iff hshort]
  subst hcs
  by_cases hlen : outputPrefixLimit ≤ (utf8 cs).length
  · obtain ⟨p, ⟨rest, rfl⟩, hp⟩ := (cutsBetween_utf8 hlen).mp hcut
    rw [utf8_append, List.length_append] at hshort
    rw [utf8_append, List.take_left' hp, List.drop_left' hp, decode, decode, lossy_utf8, lossy_utf8, byteLen, byteLen]
    omega
  · rw [List.take_of_length_le (by omega), List.drop_eq_nil_of_le (by omega), decode, decode, lossy_utf8, lossy_nil,
      byteLen, byteLen, utf8_nil, List.length_nil]
    omega

end

/-- A text of at most 16 KiB of which a character is cut. -/
theorem not_previewIsWhole_of_text {chunks : List (List UInt8)} {cs : List Char} (hcs : chunks.flatten = utf8 cs)
    (hshort : chunks.flatten.length ≤ outputPrefixLimit + outputSuffixLimit)
    (hcut : ¬ CutsBetween chunks.flatten outputPrefixLimit) : ¬ PreviewIsWhole chunks := by
  rintro ⟨out, hout, -, htext⟩
  obtain ⟨out', a, b, hfinish, hcaptured⟩ := finish_captured chunks.flatten
  obtain rfl : out = out' := Option.some.inj (hout.symm.trans ((capture_eq chunks).trans hfinish))
  obtain ⟨hnone, hwhole⟩ := htext cs hcs hshort
  refine hcut ((hcaptured.whole_iff hshort hnone).mp ?_)
  rw [hwhole, hcs, decode, lossy_utf8]

/-- A preview that claims to omit nothing is the whole output, and a text of at
most 16 KiB has one, except where the stream has between 4 and 16 KiB, its byte
4096 is inside a character or a malformed sequence, and the stream is a text or
the texts of its two parts fit. -/
theorem preview_is_whole_iff (chunks : List (List UInt8)) : PreviewIsWhole chunks ↔
    CutsBetween chunks.flatten outputPrefixLimit ∨
    outputPrefixLimit + outputSuffixLimit < chunks.flatten.length ∨
    (∀ cs, chunks.flatten ≠ utf8 cs) ∧
      (outputPrefixLimit < byteLen (decode (chunks.flatten.take outputPrefixLimit)) ∨
        outputSuffixLimit < byteLen (decode (chunks.flatten.drop outputPrefixLimit))) := by
  obtain ⟨out, a, b, hfinish, hcaptured⟩ := finish_captured chunks.flatten
  have hcapture : capture chunks = some out := (capture_eq chunks).trans hfinish
  by_cases hlong : outputPrefixLimit + outputSuffixLimit < chunks.flatten.length
  · have hpos := hcaptured.omitted_pos hlong
    refine iff_of_true ⟨out, hcapture, fun hnone => absurd hnone hpos, fun cs hcs hshort => ?_⟩ (.inr (.inl hlong))
    rw [outputPrefixLimit, outputSuffixLimit] at hlong
    omega
  have hshort : chunks.flatten.length ≤ outputPrefixLimit + outputSuffixLimit := Nat.le_of_not_lt hlong
  by_cases hcut : CutsBetween chunks.flatten outputPrefixLimit
  · refine iff_of_true ⟨out, hcapture, fun hnone => (hcaptured.whole_iff hshort hnone).mpr hcut,
      fun cs hcs _ => ?_⟩ (.inl hcut)
    have hnone := hcaptured.omitted_of_text hcs hshort hcut
    refine ⟨hnone, ?_⟩
    rw [(hcaptured.whole_iff hshort hnone).mpr hcut, hcs, decode, lossy_utf8]
  by_cases htext : ∃ cs, chunks.flatten = utf8 cs
  · obtain ⟨cs, hcs⟩ := htext
    refine iff_of_false (not_previewIsWhole_of_text hcs hshort hcut) ?_
    rintro (h | h | ⟨h, -⟩)
    · exact hcut h
    · exact hlong h
    · exact h cs hcs
  have hno : ∀ cs, chunks.flatten ≠ utf8 cs := fun cs hcs => htext ⟨cs, hcs⟩
  have hfits := hcaptured.omitted_eq_zero_iff hshort
  constructor
  · rintro ⟨out', hout', hwhole, -⟩
    obtain rfl : out = out' := Option.some.inj (hcapture.symm.trans hout')
    refine .inr (.inr ⟨hno, ?_⟩)
    by_contra hboth
    have hnone := hfits.mpr (by omega)
    exact hcut ((hcaptured.whole_iff hshort hnone).mp (hwhole hnone))
  · rintro (h | h | ⟨-, hgrows⟩)
    · exact absurd h hcut
    · exact absurd h hlong
    · refine ⟨out, hcapture, fun hnone => ?_, fun cs hcs => absurd hcs (hno cs)⟩
      have := hfits.mp hnone
      omega

/-- Three bytes of a character of four are in the prefix, which then has the
size of its window, and the fourth is the suffix. -/
theorem preview_of_cut_character :
    ¬ PreviewIsWhole [utf8 (List.replicate 4093 'a' ++ [Char.ofNat 0x1F600])] := by
  have hrep : ∀ n, utf8 (List.replicate n 'a') = List.replicate n 97 := fun n => by
    induction n with
    | zero => rfl
    | succ n ih =>
      rw [List.replicate_succ, utf8_cons, ih, List.replicate_succ]
      rfl
  have hface : utf8 [Char.ofNat 0x1F600] = [0xF0, 0x9F, 0x98, 0x80] := by decide
  have hbytes : utf8 (List.replicate 4093 'a' ++ [Char.ofNat 0x1F600]) =
      List.replicate 4093 97 ++ [0xF0, 0x9F, 0x98, 0x80] := by rw [utf8_append, hrep, hface]
  have hlen : (List.replicate 4093 (97 : UInt8) ++ [0xF0, 0x9F, 0x98, 0x80]).length = 4097 := by
    rw [List.length_append, List.length_replicate]
    rfl
  refine not_previewIsWhole_of_text (List.flatten_singleton) ?_ ?_
  · rw [List.flatten_singleton, hbytes, hlen]
    decide
  · rw [List.flatten_singleton, cutsBetween_utf8 (by rw [hbytes, hlen]; decide), boundary_iff, hbytes]
    rintro ⟨-, hfirst⟩
    have := hfirst 0x80 (by
      rw [List.getElem?_append_right (by rw [List.length_replicate]; decide), List.length_replicate]
      rfl)
    revert this
    decide

end RemoteWorkspace
