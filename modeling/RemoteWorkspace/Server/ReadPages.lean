import RemoteWorkspace.Lib.Utf8
import RemoteWorkspace.Server.Handlers
import RemoteWorkspace.Wire.Messages

/-!
# Reading a file page by page

`read` of `fs_ops.rs`: a page is a window of the file, cut behind the character
that its limit falls into. Small files are read whole, others only in the
window, and both make the same page (`readWhole_eq`). A page begins where it was
asked to and ends at a place that only the file and the limit decide
(`IsPage`), so the pages of a text are the text (`follow_text`), and the pages of
a file that is no text do not reach its end (`follow_not_ended`).

Numbers of type `u64` are natural numbers whose additions are checked: `none` is
an addition that overflows, or a slice out of range.
-/

namespace RemoteWorkspace

open Text Utf8
open Wire (ReadResult)

/-! ## The code -/

def readDefaultLimit : Nat := 65536

def readMaxLimit : Nat := 64 * 1024

def utf8TailSlack : Nat := 3

def isContinuation (byte : UInt8) : Bool := byte &&& 0xC0 == 0x80

def addU64 (a b : Nat) : Option Nat := if a + b < u64Bound then some (a + b) else none

/-- `bytes[start..end]`. -/
def sliceOf (bytes : List UInt8) (start stop : Nat) : Option (List UInt8) :=
  if start ≤ stop ∧ stop ≤ bytes.length then some ((bytes.take stop).drop start) else none

def pastEndOfFile (start fileLen : Nat) : ProtocolError :=
  .new .invalidRequest ("offset " ++ start.repr ++ " is past end of file (" ++ fileLen.repr ++ " bytes)")

def notOnBoundary (start : Nat) : ProtocolError :=
  .new .invalidRequest ("offset " ++ start.repr ++ " is not on a UTF-8 character boundary")

def binaryRead : ProtocolError :=
  .new .invalidRequest "file is not valid UTF-8; binary reads are not supported"

/-- How many bytes of its window a page takes: up to the limit, and on to the
next character. -/
def pageEnd (window : List UInt8) (limit : Nat) : Nat :=
  let stop := min window.length limit
  stop + ((window.drop stop).takeWhile isContinuation).length

/-- What `read` makes of its window. -/
def pageOf (start limit fileLen : Nat) (window : List UInt8) (hash : Option String) :
    Option (Except ProtocolError ReadResult) :=
  if window.head?.any isContinuation then some (.error (notOnBoundary start))
  else
    match utf8? (window.take (pageEnd window limit)) with
    | none => some (.error binaryRead)
    | some content => do
      let nextOffset ← addU64 start (pageEnd window limit)
      let truncated := decide (nextOffset < fileLen)
      some (.ok { content := String.ofList content, hash, truncated
                  nextOffset := if truncated then some nextOffset else none })

section

variable (sha256 : Sha256)

/-- A file that is read whole. -/
def readWhole (whole : List UInt8) (start limit : Nat) : Option (Except ProtocolError ReadResult) :=
  if start > whole.length then some (.error (pastEndOfFile start whole.length))
  else do
    let stop ← addU64 (← addU64 start limit) utf8TailSlack
    let window ← sliceOf whole start (min whole.length stop)
    pageOf start limit whole.length window (some (hashBytes sha256 whole))

/-- A file of which only the window is read. -/
def readWindow (file : List UInt8) (start limit : Nat) : Option (Except ProtocolError ReadResult) :=
  if start > file.length then some (.error (pastEndOfFile start file.length))
  else do
    let n ← addU64 limit utf8TailSlack
    pageOf start limit file.length ((file.drop start).take n) none

/-- A file that can be opened: only those that `edit` takes are read whole. -/
def readFile (file : List UInt8) (start limit : Nat) : Option (Except ProtocolError ReadResult) :=
  if file.length ≤ maxTextBytes then readWhole sha256 file start limit else readWindow file start limit

def read (ws : Workspace) (t : Tree) (path : String) (offset limit : Option Nat) :
    Option (Except ProtocolError ReadResult) :=
  match ws.resolve t path with
  | .error e => some (.error e)
  | .ok abs =>
    match t.stat abs with
    | .error .noEntry => some (.error (.new .notFound ("not found: " ++ path)))
    | .error e => some (.error (ioFailed "read failed: " e))
    | .ok .dir => some (.error (.new .isADirectory ("is a directory: " ++ path)))
    | .ok (.file f) =>
      let limit := limit.getD readDefaultLimit
      if limit = 0 ∨ limit > readMaxLimit then
        some (.error (.new .invalidRequest ("read limit must be between 1 and " ++ readMaxLimit.repr ++ " bytes")))
      else if f.readable = false then some (.error (ioFailed "read failed: " .denied))
      else readFile sha256 f.content (offset.getD 0) limit
    | .ok _ => some (.error (notARegularFile path))

end

/-- How following the offsets of pages ends. -/
inductive PagingEnd where
  | ended
  /-- There are more pages, from here. -/
  | goesOn (offset : Nat)
  | refused (e : ProtocolError)
  | overflowed
  deriving DecidableEq

/-- Follow `next_offset` from an offset, with a limit for each page: the text of
the pages, one behind the other, and how it ends. -/
def follow (page : Nat → Nat → Option (Except ProtocolError ReadResult)) : List Nat → Nat → List Char × PagingEnd
  | [], offset => ([], .goesOn offset)
  | limit :: limits, offset =>
    match page offset limit with
    | none => ([], .overflowed)
    | some (.error e) => ([], .refused e)
    | some (.ok r) =>
      match r.nextOffset with
      | none => (r.content.toList, .ended)
      | some next => (r.content.toList ++ (follow page limits next).1, (follow page limits next).2)

/-- The limits that `read` accepts. -/
def ReadLimit (limit : Nat) : Prop := 1 ≤ limit ∧ limit ≤ readMaxLimit

/-! ## One page -/

theorem isContinuation_eq (b : UInt8) : isContinuation b = isTail b := by
  have hall : ∀ n : Fin 256, isContinuation (UInt8.ofNat n) = isTail (UInt8.ofNat n) := by decide +kernel
  simpa using hall ⟨b.toNat, b.toNat_lt⟩

/-- The window of a page. -/
def pageWindow (file : List UInt8) (start limit : Nat) : List UInt8 := (file.drop start).take (limit + utf8TailSlack)

/-- Where a page stops. -/
def pageStop (file : List UInt8) (start limit : Nat) : Nat := start + pageEnd (pageWindow file start limit) limit

section

variable {file : List UInt8} {start limit : Nat}

theorem length_pageWindow : (pageWindow file start limit).length = min (limit + 3) (file.length - start) := by
  rw [pageWindow, List.length_take, List.length_drop, utf8TailSlack]

/-- A byte of the window, in the file. -/
theorem getElem?_pageWindow {i : Nat} (h : i < limit + 3) : (pageWindow file start limit)[i]? = file[start + i]? := by
  rw [pageWindow, List.getElem?_take_of_lt (by rw [utf8TailSlack]; exact h), List.getElem?_drop]

/-- How far `takeWhile` goes. -/
theorem length_takeWhile_spec {α : Type} (p : α → Bool) (l : List α) :
    (l.takeWhile p).length ≤ l.length ∧ (∀ i < (l.takeWhile p).length, ∃ a, l[i]? = some a ∧ p a = true) ∧
      ((l.takeWhile p).length = l.length ∨ ∃ a, l[(l.takeWhile p).length]? = some a ∧ p a = false) := by
  induction l with
  | nil => simp
  | cons a l ih =>
    obtain ⟨hle, hall, hstop⟩ := ih
    cases ha : p a with
    | false => simp [ha]
    | true =>
      rw [List.takeWhile_cons_of_pos ha]
      refine ⟨Nat.succ_le_succ hle, fun i hi => ?_, ?_⟩
      · cases i with
        | zero => exact ⟨a, rfl, ha⟩
        | succ i => exact hall i (Nat.lt_of_succ_lt_succ hi)
      · exact hstop.imp (congrArg Nat.succ) id

theorem pageEnd_le (window : List UInt8) (limit : Nat) : pageEnd window limit ≤ window.length := by
  have := (length_takeWhile_spec isContinuation (window.drop (min window.length limit))).1
  rw [List.length_drop] at this
  rw [pageEnd]
  omega

/-- Between its limit and its end a page has nothing but the rest of a
character. -/
theorem isTail_before_pageEnd {window : List UInt8} {i : Nat} (hfrom : min window.length limit ≤ i)
    (h : i < pageEnd window limit) : ∃ b, window[i]? = some b ∧ isTail b = true := by
  rw [pageEnd] at h
  obtain ⟨j, rfl⟩ := Nat.exists_eq_add_of_le hfrom
  obtain ⟨b, hb, htail⟩ := (length_takeWhile_spec isContinuation _).2.1 j (Nat.lt_of_add_lt_add_left h)
  rw [List.getElem?_drop] at hb
  exact ⟨b, hb, (isContinuation_eq b).symm.trans htail⟩

/-- A page stops at the end of its window, or where a character begins. -/
theorem pageEnd_stops (window : List UInt8) (limit : Nat) :
    pageEnd window limit = window.length ∨ ∃ b, window[pageEnd window limit]? = some b ∧ isTail b = false := by
  have hstop := (length_takeWhile_spec isContinuation (window.drop (min window.length limit))).2.2
  rw [pageEnd]
  rcases hstop with hend | ⟨b, hb, htail⟩
  · rw [hend, List.length_drop]
    omega
  · rw [List.getElem?_drop] at hb
    exact .inr ⟨b, hb, (isContinuation_eq b).symm.trans htail⟩

/-- Where a page that begins in the file stops. -/
structure StopsAt (file : List UInt8) (start limit n : Nat) : Prop where
  within : n ≤ file.length
  from_limit : min (start + limit) file.length ≤ n
  to_slack : n ≤ start + limit + 3
  /-- Behind the limit there is only the rest of a character. -/
  tails : ∀ m, min (start + limit) file.length ≤ m → m < n → ∃ b, file[m]? = some b ∧ isTail b = true
  stops : n = file.length ∨ n = start + limit + 3 ∨ ∃ b, file[n]? = some b ∧ isTail b = false

theorem stopsAt_pageStop (limit : Nat) (h : start ≤ file.length) :
    StopsAt file start limit (pageStop file start limit) := by
  have hwindow : (pageWindow file start limit).length = min (limit + 3) (file.length - start) := length_pageWindow
  have hle := pageEnd_le (pageWindow file start limit) limit
  refine ⟨?_, ?_, ?_, fun m hfrom hm => ?_, ?_⟩
  · rw [pageStop]
    omega
  · rw [pageStop, pageEnd]
    omega
  · rw [pageStop]
    omega
  · rw [pageStop] at hm
    obtain ⟨i, rfl⟩ : ∃ i, m = start + i := ⟨m - start, by omega⟩
    obtain ⟨b, hb, htail⟩ := isTail_before_pageEnd
      (show min (pageWindow file start limit).length limit ≤ i by omega) (Nat.lt_of_add_lt_add_left hm)
    rw [getElem?_pageWindow (by omega)] at hb
    exact ⟨b, hb, htail⟩
  · rcases pageEnd_stops (pageWindow file start limit) limit with hend | ⟨b, hb, htail⟩
    · rw [pageStop, hend]
      omega
    · rw [getElem?_pageWindow] at hb
      · exact .inr (.inr ⟨b, hb, htail⟩)
      · have := (List.getElem?_eq_some_iff.mp hb).1
        omega

/-- A page of the file that stops at `n`. -/
structure IsPage (file : List UInt8) (start limit : Nat) (r : ReadResult) (n : Nat) : Prop where
  content : utf8 r.content.toList = (file.take n).drop start
  progress : start < n ∨ start = file.length ∧ n = file.length
  stopsAt : StopsAt file start limit n
  truncated : r.truncated = true ↔ n < file.length
  next : r.nextOffset = if n < file.length then some n else none

variable {r : ReadResult} {hash : Option String}

/-- No addition overflows in a file whose size fits into 63 bits. -/
theorem pageOf_isSome (hfile : file.length < 2 ^ 63) (hstart : start ≤ file.length) :
    ∃ o, pageOf start limit file.length (pageWindow file start limit) hash = some o := by
  have hstop := (stopsAt_pageStop limit hstart).within
  rw [pageStop] at hstop
  have hadd : addU64 start (pageEnd (pageWindow file start limit) limit) =
      some (start + pageEnd (pageWindow file start limit) limit) :=
    if_pos (by rw [u64Bound]; omega)
  rw [pageOf, hadd]
  split
  · exact ⟨_, rfl⟩
  · split <;> exact ⟨_, rfl⟩

theorem take_pageWindow {n : Nat} (hn : n ≤ limit + 3) :
    (pageWindow file start limit).take n = (file.take (start + n)).drop start := by
  rw [pageWindow, List.take_take, Nat.min_eq_left (by rw [utf8TailSlack]; exact hn), List.drop_take,
    Nat.add_sub_cancel_left]

/-- A page that is returned. -/
theorem isPage_of_pageOf (hstart : start ≤ file.length) (hlimit : 0 < limit)
    (h : pageOf start limit file.length (pageWindow file start limit) hash = some (.ok r)) :
    IsPage file start limit r (pageStop file start limit) ∧ r.hash = hash := by
  have hstop := stopsAt_pageStop limit hstart
  have hwithin := hstop.within
  have hfrom := hstop.from_limit
  have hslack := hstop.to_slack
  rw [pageOf] at h
  split at h
  · cases h
  split at h
  · cases h
  next content hcontent =>
    rw [addU64] at h
    split at h
    · obtain rfl := Except.ok.inj (Option.some.inj h)
      refine ⟨⟨?_, ?_, hstop, decide_eq_true_iff, ?_⟩, rfl⟩
      · rw [String.toList_ofList, utf8_of_utf8? hcontent, take_pageWindow, pageStop]
        rw [pageStop] at hslack
        omega
      · rw [pageStop] at *
        omega
      · simp only [decide_eq_true_eq]
        rfl
    · cases h

/-- What `read` makes of a file, whether it reads all of it or not. -/
def readPage (file : List UInt8) (start limit : Nat) (hash : Option String) :
    Option (Except ProtocolError ReadResult) :=
  if start > file.length then some (.error (pastEndOfFile start file.length))
  else pageOf start limit file.length (pageWindow file start limit) hash

theorem readWhole_eq (sha256 : Sha256) (hfile : file.length < 2 ^ 63) (hlimit : limit ≤ readMaxLimit) :
    readWhole sha256 file start limit = readPage file start limit (some (hashBytes sha256 file)) := by
  rw [readWhole, readPage]
  split
  · rfl
  · next hstart =>
    rw [readMaxLimit] at hlimit
    have hadd : addU64 start limit = some (start + limit) := if_pos (by rw [u64Bound]; omega)
    have hslack : addU64 (start + limit) utf8TailSlack = some (start + limit + 3) :=
      if_pos (by rw [u64Bound, utf8TailSlack]; omega)
    have hslice : sliceOf file start (min file.length (start + limit + 3)) = some (pageWindow file start limit) := by
      rw [sliceOf, if_pos (by omega), pageWindow, utf8TailSlack, List.drop_take]
      congr 1
      rw [List.take_eq_take_iff, List.length_drop]
      omega
    simp only [hadd, hslack, hslice, Option.bind_eq_bind, Option.bind_some]

theorem readWindow_eq (hlimit : limit ≤ readMaxLimit) :
    readWindow file start limit = readPage file start limit none := by
  rw [readWindow, readPage]
  split
  · rfl
  · rw [readMaxLimit] at hlimit
    have hadd : addU64 limit utf8TailSlack = some (limit + utf8TailSlack) :=
      if_pos (by rw [u64Bound, utf8TailSlack]; omega)
    rw [hadd]
    rfl

/-- The page but for the hash. -/
def unhashed (r : ReadResult) : ReadResult := { r with hash := none }

theorem readPage_unhashed : (readPage file start limit hash).map (Except.map unhashed) =
    readPage file start limit none := by
  rw [readPage, readPage]
  split
  · rfl
  · rw [pageOf, pageOf]
    split
    · rfl
    · split
      · rfl
      · cases addU64 start (pageEnd (pageWindow file start limit) limit) <;> rfl

theorem readPage_isSome (start limit : Nat) (hash : Option String) (hfile : file.length < 2 ^ 63) :
    ∃ o, readPage file start limit hash = some o := by
  rw [readPage]
  split
  · exact ⟨_, rfl⟩
  · exact pageOf_isSome hfile (by omega)

theorem isPage_of_readPage (hlimit : 0 < limit) (h : readPage file start limit hash = some (.ok r)) :
    start ≤ file.length ∧ IsPage file start limit r (pageStop file start limit) := by
  rw [readPage] at h
  split at h
  · cases h
  · exact ⟨by omega, (isPage_of_pageOf (by omega) hlimit h).1⟩

/-! ## Pages of a text -/

/-- A page of a text ends with the first character boundary that its limit
reaches. -/
theorem StopsAt.least {cs : List Char} {n : Nat} (h : StopsAt (utf8 cs) start limit n) :
    Boundary cs n ∧ ∀ m, Boundary cs m → min (start + limit) (utf8 cs).length ≤ m → n ≤ m := by
  have hwithin := h.within
  have hslack := h.to_slack
  have hinside : ∀ m, min (start + limit) (utf8 cs).length ≤ m → m < n → ¬ Boundary cs m := fun m hfrom hm hb => by
    obtain ⟨b, hbyte, htail⟩ := h.tails m hfrom hm
    rw [(boundary_iff.mp hb).2 b hbyte] at htail
    cases htail
  refine ⟨?_, fun m hm hfrom => Nat.le_of_not_lt fun hlt => hinside m hfrom hlt hm⟩
  rcases h.stops with rfl | hn | ⟨b, hb, htail⟩
  · exact .all cs
  · -- the slack is used up, and no character has more bytes behind its first
    obtain ⟨m, hm, hfrom, hle⟩ := exists_boundary (show start + limit ≤ (utf8 cs).length by omega)
    have : ¬ m < n := fun hlt => hinside m (by omega) hlt hm
    obtain rfl : m = n := by omega
    exact hm
  · refine boundary_of_byte hwithin fun b' hb' => ?_
    obtain rfl : b = b' := Option.some.inj (hb.symm.trans hb')
    exact htail

/-- The bytes between two characters of a text are text. -/
theorem utf8?_between {cs : List Char} {m n : Nat} (hm : Boundary cs m) (hn : Boundary cs n) :
    ∃ content, utf8? (((utf8 cs).take n).drop m) = some content := by
  obtain ⟨p, ⟨rest, rfl⟩, rfl⟩ := hn
  rw [utf8_append, List.take_left]
  by_cases hle : m ≤ (utf8 p).length
  · obtain ⟨q, hq, rfl⟩ := hm
    have hpre : utf8 q <+: utf8 p := by
      obtain ⟨r, hr⟩ := hq
      refine @List.prefix_of_prefix_length_le _ _ _ (utf8 (p ++ rest)) ⟨utf8 r, ?_⟩ ⟨utf8 rest, ?_⟩ hle
      · rw [← utf8_append, hr]
      · rw [utf8_append]
    obtain ⟨r, rfl⟩ := prefix_of_utf8_prefix hpre
    exact ⟨r, by rw [utf8_append, List.drop_left, utf8?_utf8]⟩
  · exact ⟨[], by rw [List.drop_eq_nil_of_le (by omega)]; exact utf8?_utf8 []⟩

/-- Where a character of a text begins, there is a page. -/
theorem readPage_text {cs : List Char} (hfile : (utf8 cs).length < 2 ^ 63) (hstart : Boundary cs start) :
    ∃ r, readPage (utf8 cs) start limit hash = some (.ok r) := by
  have hle := hstart.le
  have hstop := stopsAt_pageStop limit hle
  have hwithin := hstop.within
  obtain ⟨content, hcontent⟩ := utf8?_between hstart hstop.least.1
  have hbytes : utf8? ((pageWindow (utf8 cs) start limit).take (pageEnd (pageWindow (utf8 cs) start limit) limit)) =
      some content := by
    rw [take_pageWindow, ← pageStop, hcontent]
    have := hstop.to_slack
    rw [pageStop] at this
    omega
  have hfirst : (pageWindow (utf8 cs) start limit).head?.any isContinuation = false := by
    cases hhead : (pageWindow (utf8 cs) start limit).head? with
    | none => rfl
    | some b =>
      rw [List.head?_eq_getElem?, getElem?_pageWindow (by omega), Nat.add_zero] at hhead
      rw [Option.any_some, isContinuation_eq]
      exact (boundary_iff.mp hstart).2 b hhead
  have hadd : addU64 start (pageEnd (pageWindow (utf8 cs) start limit) limit) = some (pageStop (utf8 cs) start limit) :=
    if_pos (by rw [u64Bound, ← pageStop]; omega)
  rw [readPage, if_neg (by omega), pageOf, hfirst, hbytes, hadd]
  exact ⟨_, rfl⟩

end

/-! ## All the pages -/

section

variable {page : Nat → Nat → Option (Except ProtocolError ReadResult)} {file : List UInt8}

/-- What `follow` needs of a reader of pages: they are pages of the file. -/
def ReadsPages (page : Nat → Nat → Option (Except ProtocolError ReadResult)) (file : List UInt8) : Prop :=
  ∀ start limit r, ReadLimit limit → page start limit = some (.ok r) → ∃ n, IsPage file start limit r n

/-- Pages that reach the end are the rest of the file. -/
theorem follow_ended (hpage : ReadsPages page file) {limits : List Nat} (hlimits : ∀ l ∈ limits, ReadLimit l)
    {start : Nat} {text : List Char} (h : follow page limits start = (text, .ended)) : utf8 text = file.drop start := by
  induction limits generalizing start text with
  | nil => cases h
  | cons limit limits ih =>
    rw [follow] at h
    split at h
    · cases h
    · cases h
    · next r hr =>
      obtain ⟨n, hn⟩ := hpage start limit r (hlimits limit List.mem_cons_self) hr
      have hnext := hn.next
      have hwithin := hn.stopsAt.within
      split at h
      · next hlast =>
        rw [hlast] at hnext
        have hall : n = file.length := by
          by_contra hne
          rw [if_pos (by omega)] at hnext
          cases hnext
        obtain rfl := (Prod.mk.inj h).1
        rw [hn.content, hall, List.take_length]
      · next m hmore =>
        obtain ⟨htext, hend⟩ := Prod.mk.inj h
        rw [hmore] at hnext
        obtain rfl : m = n := by
          split at hnext
          · exact Option.some.inj hnext
          · cases hnext
        have hrest := ih (fun l hl => hlimits l (List.mem_cons_of_mem _ hl)) (Prod.ext rfl hend)
        have hprogress := hn.progress
        rw [← htext, utf8_append, hrest, hn.content]
        conv_rhs => rw [← List.take_append_drop m file]
        rw [List.drop_append_of_le_length]
        rw [List.length_take]
        omega

/-- Where every place at which a character begins has a page, following the
offsets from one of them comes to the end. -/
theorem follow_text {cs : List Char} (hpage : ReadsPages page (utf8 cs)) {limits : Nat → Nat}
    (hlimits : ∀ i, ReadLimit (limits i))
    (htotal : ∀ start i, Boundary cs start → ∃ r, page start (limits i) = some (.ok r)) :
    ∀ start i, Boundary cs start → ∃ k, (follow page ((List.range' i k).map limits) start).2 = .ended := by
  intro start
  induction hrest : (utf8 cs).length - start using Nat.strong_induction_on generalizing start with
  | _ rest ih =>
    intro i hstart
    obtain ⟨r, hr⟩ := htotal start i hstart
    obtain ⟨n, hn⟩ := hpage _ _ r (hlimits i) hr
    have hnext := hn.next
    have hprogress := hn.progress
    by_cases hmore : n < (utf8 cs).length
    · rw [if_pos hmore] at hnext
      obtain ⟨k, hk⟩ := ih ((utf8 cs).length - n) (by omega) n rfl (i + 1) hn.stopsAt.least.1
      refine ⟨k + 1, ?_⟩
      rw [List.range'_succ, List.map_cons, follow, hr]
      dsimp only
      rw [hnext]
      exact hk
    · rw [if_neg hmore] at hnext
      refine ⟨1, ?_⟩
      rw [List.range'_one, List.map_singleton, follow, hr]
      dsimp only
      rw [hnext]

end

/-- The bytes of a file: a file's size is a signed number of 64 bits. -/
abbrev FileBytes := { bytes : List UInt8 // bytes.length < 2 ^ 63 }

section

variable (sha256 : Sha256) {file : List UInt8} {start limit : Nat}

theorem readFile_eq (file : List UInt8) (start : Nat) (h : ReadLimit limit) :
    ∃ hash, readFile sha256 file start limit = readPage file start limit hash := by
  rw [readFile]
  split
  · next hsmall =>
    rw [maxTextBytes] at hsmall
    exact ⟨_, readWhole_eq sha256 (by omega) h.2⟩
  · exact ⟨_, readWindow_eq h.2⟩

theorem isPage_of_readFile {r : ReadResult} (hlimit : ReadLimit limit)
    (h : readFile sha256 file start limit = some (.ok r)) :
    start ≤ file.length ∧ IsPage file start limit r (pageStop file start limit) := by
  obtain ⟨hash, heq⟩ := readFile_eq sha256 file start hlimit
  exact isPage_of_readPage hlimit.1 (heq.symm.trans h)

theorem readsPages_readFile : ReadsPages (readFile sha256 file) file := fun _ _ _ hlimit h =>
  ⟨_, (isPage_of_readFile sha256 hlimit h).2⟩

/-- What `read` returns is a page of the file at the path. -/
theorem isPage_of_read {ws : Workspace} {t : Tree} {path : String} {offset limit : Option Nat} {r : ReadResult}
    (h : read sha256 ws t path offset limit = some (.ok r)) :
    ∃ abs f n, ws.resolve t path = .ok abs ∧ t.stat abs = .ok (.file f) ∧
      ReadLimit (limit.getD readDefaultLimit) ∧
      IsPage f.content (offset.getD 0) (limit.getD readDefaultLimit) r n := by
  rw [read] at h
  split at h
  · cases h
  next abs habs =>
    split at h
    · cases h
    · cases h
    · cases h
    · next f hf =>
      dsimp only at h
      split at h
      · cases h
      next hlimit =>
        split at h
        · cases h
        · have hlimit' : ReadLimit (limit.getD readDefaultLimit) := by
            rw [ReadLimit]
            omega
          exact ⟨abs, f, _, habs, hf, hlimit', (isPage_of_readFile sha256 hlimit' h).2⟩
    · cases h

theorem read_ne_none (ws : Workspace) (t : Tree) (path : String) (offset limit : Option Nat)
    (hfiles : ∀ p f, t.stat p = .ok (.file f) → f.content.length < 2 ^ 63) :
    read sha256 ws t path offset limit ≠ none := by
  rw [read]
  split
  · simp
  next abs habs =>
    split
    · simp
    · simp
    · simp
    · next f hf =>
      dsimp only
      split
      · simp
      next hlimit =>
        split
        · simp
        · have hlimit' : ReadLimit (limit.getD readDefaultLimit) := by
            rw [ReadLimit]
            omega
          obtain ⟨hash, heq⟩ := readFile_eq sha256 f.content (offset.getD 0) hlimit'
          obtain ⟨o, ho⟩ := readPage_isSome (offset.getD 0) (limit.getD readDefaultLimit) hash (hfiles abs f hf)
          rw [heq, ho]
          simp
    · simp

/-- The path leads to a regular file that can be opened, with this content. -/
def Opens (ws : Workspace) (t : Tree) (path : String) (file : FileBytes) : Prop :=
  ∃ abs f, ws.resolve t path = .ok abs ∧ t.stat abs = .ok (.file f) ∧ f.readable = true ∧ f.content = file.1

theorem read_eq_readFile {ws : Workspace} {t : Tree} {path : String} {file : FileBytes} (h : Opens ws t path file)
    {offset limit : Option Nat} (hlimit : ReadLimit (limit.getD readDefaultLimit)) :
    read sha256 ws t path offset limit = readFile sha256 file.1 (offset.getD 0) (limit.getD readDefaultLimit) := by
  obtain ⟨abs, f, habs, hf, hreadable, hcontent⟩ := h
  have hrange : ¬(limit.getD readDefaultLimit = 0 ∨ limit.getD readDefaultLimit > readMaxLimit) := by
    rw [ReadLimit] at hlimit
    omega
  rw [read, habs]
  dsimp only
  rw [hf]
  dsimp only
  rw [if_neg hrange, hreadable, if_neg (by simp), hcontent]

/-- The pages of `read`, each asked for by its offset and a limit. -/
def readsAt (ws : Workspace) (t : Tree) (path : String) (offset limit : Nat) : Option (Except ProtocolError ReadResult) :=
  read sha256 ws t path (some offset) (some limit)

theorem follow_congr {page page' : Nat → Nat → Option (Except ProtocolError ReadResult)}
    (h : ∀ start limit, ReadLimit limit → page start limit = page' start limit) {limits : List Nat}
    (hlimits : ∀ l ∈ limits, ReadLimit l) (start : Nat) : follow page limits start = follow page' limits start := by
  induction limits generalizing start with
  | nil => rfl
  | cons limit limits ih =>
    obtain ⟨hlimit, hlimits⟩ := List.forall_mem_cons.mp hlimits
    rw [follow, follow, h start limit hlimit]
    simp only [ih hlimits]

theorem follow_readsAt {ws : Workspace} {t : Tree} {path : String} {file : FileBytes} (h : Opens ws t path file)
    {limits : List Nat} (hlimits : ∀ l ∈ limits, ReadLimit l) (start : Nat) :
    follow (readsAt sha256 ws t path) limits start = follow (readFile sha256 file.1) limits start :=
  follow_congr (fun start limit (hlimit : ReadLimit limit) =>
    @read_eq_readFile sha256 ws t path file h (some start) (some limit) hlimit) hlimits start

/-- Paging with `read`, where a path leads to a regular file that can be opened.
Reading it whole and reading a window of it give the same page but for the hash,
and `read` gives that page. A page that is returned, of whatever path, begins at
its offset and ends at or behind its limit, inside the slack; of a text, it ends
with the first character boundary there is. No addition overflows. Following
`next_offset` from the start gives all of a text, whatever the limits are, and
never comes to the end of a file that is no text. -/
theorem read_pages :
    (∀ (ws : Workspace) (t : Tree) (path : String) (file : FileBytes), Opens ws t path file →
      ∀ offset limit, ReadLimit (limit.getD readDefaultLimit) →
        ∃ o, readWindow file.1 (offset.getD 0) (limit.getD readDefaultLimit) = some o ∧
          (readWhole sha256 file.1 (offset.getD 0) (limit.getD readDefaultLimit)).map (Except.map unhashed) = some o ∧
          (read sha256 ws t path offset limit).map (Except.map unhashed) = some o) ∧
    (∀ (ws : Workspace) (t : Tree) (path : String) (offset limit : Option Nat),
      (∀ p f, t.stat p = .ok (.file f) → f.content.length < 2 ^ 63) →
        read sha256 ws t path offset limit ≠ none) ∧
    (∀ (ws : Workspace) (t : Tree) (path : String) (offset limit : Option Nat) (r : ReadResult),
      read sha256 ws t path offset limit = some (.ok r) →
        ∃ abs f n, ws.resolve t path = .ok abs ∧ t.stat abs = .ok (.file f) ∧
          ReadLimit (limit.getD readDefaultLimit) ∧
          IsPage f.content (offset.getD 0) (limit.getD readDefaultLimit) r n ∧
          ∀ cs, f.content = utf8 cs → Boundary cs n ∧ ∀ m, Boundary cs m →
            min (offset.getD 0 + limit.getD readDefaultLimit) f.content.length ≤ m → n ≤ m) ∧
    (∀ (ws : Workspace) (t : Tree) (path : String) (file : FileBytes), Opens ws t path file →
      (∀ cs, file.1 = utf8 cs → ∀ limits : Nat → Nat, (∀ i, ReadLimit (limits i)) →
        ∃ k, follow (readsAt sha256 ws t path) ((List.range k).map limits) 0 = (cs, .ended)) ∧
      ((∀ cs, file.1 ≠ utf8 cs) → ∀ limits : List Nat, (∀ l ∈ limits, ReadLimit l) →
        (follow (readsAt sha256 ws t path) limits 0).2 ≠ .ended)) := by
  refine ⟨fun ws t path file h offset limit hlimit => ?_,
    fun ws t path offset limit => read_ne_none sha256 ws t path offset limit,
    fun ws t path offset limit r h => ?_, fun ws t path file h => ⟨?_, fun hno limits hlimits hend => ?_⟩⟩
  · obtain ⟨o, ho⟩ := readPage_isSome (offset.getD 0) (limit.getD readDefaultLimit) none file.2
    obtain ⟨hash, heq⟩ := readFile_eq sha256 file.1 (offset.getD 0) hlimit
    refine ⟨o, (readWindow_eq hlimit.2).trans ho, ?_, ?_⟩
    · rw [readWhole_eq sha256 file.2 hlimit.2, readPage_unhashed, ho]
    · rw [read_eq_readFile sha256 h hlimit, heq, readPage_unhashed, ho]
  · obtain ⟨abs, f, n, habs, hf, hlimit, hpage⟩ := isPage_of_read sha256 h
    refine ⟨abs, f, n, habs, hf, hlimit, hpage, fun cs hcs => ?_⟩
    have hstop := hpage.stopsAt
    rw [hcs] at hstop ⊢
    exact hstop.least
  · intro cs hcs limits hlimits
    have htotal : ∀ start i, Boundary cs start → ∃ r, readFile sha256 (utf8 cs) start (limits i) = some (.ok r) := by
      intro start i hstart
      obtain ⟨hash, heq⟩ := readFile_eq sha256 (utf8 cs) start (hlimits i)
      rw [heq]
      exact readPage_text (hcs ▸ file.2) hstart
    obtain ⟨k, hk⟩ := follow_text (readsPages_readFile sha256) hlimits htotal 0 0 (.zero cs)
    rw [← List.range_eq_range'] at hk
    have hall : ∀ l ∈ (List.range k).map limits, ReadLimit l := by
      intro l hl
      obtain ⟨i, -, rfl⟩ := List.mem_map.mp hl
      exact hlimits i
    refine ⟨k, ?_⟩
    rw [follow_readsAt sha256 h hall, hcs]
    exact Prod.ext (utf8_injective (follow_ended (readsPages_readFile sha256) hall (Prod.ext rfl hk))) hk
  · rw [follow_readsAt sha256 h hlimits] at hend
    exact hno _ (follow_ended (readsPages_readFile sha256) hlimits (Prod.ext rfl hend)).symm

end

/-! A text of three characters and six bytes, two bytes a page. -/

def pagedFile : FileBytes := ⟨utf8 "a€é".toList, by decide +kernel⟩

def pagedTree : Tree := homeTree.set ["page", "ws"] (some (.file { content := pagedFile.1, readable := true })) rfl

theorem opens_pagedTree : Opens homeWorkspace pagedTree "page" pagedFile :=
  ⟨_, _, rfl, rfl, rfl, rfl⟩

theorem read_pages_paged : ∃ k,
    follow (readsAt zeroDigest homeWorkspace pagedTree "page") ((List.range k).map fun _ => 2) 0 =
      ("a€é".toList, .ended) := by
  obtain ⟨-, -, -, hpaging⟩ := read_pages zeroDigest
  exact (hpaging homeWorkspace pagedTree "page" pagedFile opens_pagedTree).1 _ rfl (fun _ => 2) fun _ =>
    ⟨by decide, by decide⟩

end RemoteWorkspace
