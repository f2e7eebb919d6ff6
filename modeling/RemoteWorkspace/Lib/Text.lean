import Mathlib.Data.List.DropRight
import Mathlib.Tactic.Common

/-!
# Text in files

Text is a list of characters, a file a list of bytes. `utf8` and `utf8?` go
from one to the other; that a byte prefix of valid text which is itself valid
is a prefix of its characters (`prefix_of_utf8_prefix`) is what a reader of
files that were cut short relies on. `ObjectFormat` is a text format for
values, each one a line: what the reader and the writer of a log or of a stream
must agree on.
-/

namespace Text

def newline : UInt8 := 10

/-! ## UTF-8 -/

def utf8 (cs : List Char) : List UInt8 := cs.flatMap String.utf8EncodeChar

/-- The text that bytes encode, if they do. -/
def utf8? (bytes : List UInt8) : Option (List Char) := bytes.toByteArray.utf8Decode?.map Array.toList

@[simp] theorem utf8_nil : utf8 [] = [] := rfl

@[simp] theorem utf8_append (cs ds : List Char) : utf8 (cs ++ ds) = utf8 cs ++ utf8 ds := List.flatMap_append

theorem utf8_cons (c : Char) (cs : List Char) : utf8 (c :: cs) = String.utf8EncodeChar c ++ utf8 cs :=
  List.flatMap_cons

theorem utf8_eq_nil {cs : List Char} : utf8 cs = [] ↔ cs = [] := by
  cases cs with
  | nil => simp
  | cons c cs => simp [utf8_cons]

theorem toByteArray_utf8 (cs : List Char) : (utf8 cs).toByteArray = cs.utf8Encode := rfl

@[simp] theorem utf8?_utf8 (cs : List Char) : utf8? (utf8 cs) = some cs := by
  rw [utf8?, toByteArray_utf8, List.utf8Decode?_utf8Encode]
  rfl

theorem utf8_of_utf8? {bytes : List UInt8} {cs : List Char} (h : utf8? bytes = some cs) : utf8 cs = bytes := by
  obtain ⟨chars, hchars, rfl⟩ := Option.map_eq_some_iff.mp h
  have hsome : bytes.toByteArray.utf8Decode?.isSome = true := by rw [hchars]; rfl
  have hget := ByteArray.utf8Encode_get_utf8Decode? (h := hsome)
  simp only [hchars, Option.get_some] at hget
  rw [← toByteArray_utf8] at hget
  simpa using congrArg (fun b : ByteArray => b.data.toList) hget

theorem utf8_injective {cs ds : List Char} (h : utf8 cs = utf8 ds) : cs = ds := by
  have := congrArg utf8? h
  simpa using this

/-- Of two texts whose bytes begin alike, one is the beginning of the other. -/
theorem prefix_of_utf8_prefix {cs ds : List Char} (h : utf8 cs <+: utf8 ds) : cs <+: ds := by
  obtain ⟨rest, hrest⟩ := h
  apply List.isPrefix_of_utf8Encode_append_eq_utf8Encode rest.toByteArray
  rw [← toByteArray_utf8, ← toByteArray_utf8, ← List.toByteArray_append, hrest]

/-- A byte below 128 stands for the character with its number, and for nothing
else. -/
theorem ascii_mem_utf8EncodeChar {b : UInt8} (hb : b.toNat < 128) {c : Char} :
    b ∈ String.utf8EncodeChar c ↔ c.val.toNat = b.toNat := by
  have hof : ∀ n : Nat, b = UInt8.ofNat n ↔ b.toNat = n % 256 := fun n => by
    rw [← UInt8.toNat_inj, UInt8.toNat_ofNat']
  have hlt := c.val.toNat_lt
  unfold String.utf8EncodeChar
  dsimp only
  split
  · simp only [List.mem_singleton, hof]
    omega
  · split
    · simp only [List.mem_cons, List.not_mem_nil, or_false, hof]
      omega
    · split
      · simp only [List.mem_cons, List.not_mem_nil, or_false, hof]
        omega
      · simp only [List.mem_cons, List.not_mem_nil, or_false, hof]
        omega

/-- The bytes of a text hold a newline only where the text does. -/
theorem newline_mem_utf8 {cs : List Char} : newline ∈ utf8 cs ↔ '\n' ∈ cs := by
  have hchar : ∀ c : Char, newline ∈ String.utf8EncodeChar c ↔ c = '\n' := fun c => by
    rw [ascii_mem_utf8EncodeChar (by decide)]
    constructor
    · intro h
      exact Char.ext (UInt32.toNat_inj.mp h)
    · rintro rfl
      rfl
  rw [utf8, List.mem_flatMap]
  simp [hchar]

theorem utf8_newline : utf8 ['\n'] = [newline] := by decide

/-- What valid bytes without a newline begin with, if it is valid, has none. -/
theorem newline_not_mem_of_torn {cs : List Char} {bytes : List UInt8} (hcs : '\n' ∉ cs)
    (h : bytes <+: utf8 cs) : newline ∉ bytes := fun hmem => hcs (newline_mem_utf8.mp (h.subset hmem))

/-- Whether bytes encode a text. -/
def isUtf8 (bytes : List UInt8) : Bool := (utf8? bytes).isSome

@[simp] theorem isUtf8_utf8 (cs : List Char) : isUtf8 (utf8 cs) = true := by rw [isUtf8, utf8?_utf8]; rfl

theorem eq_utf8_of_isUtf8 {bytes : List UInt8} (h : isUtf8 bytes = true) : ∃ cs, bytes = utf8 cs := by
  obtain ⟨cs, hcs⟩ := Option.isSome_iff_exists.mp h
  exact ⟨cs, (utf8_of_utf8? hcs).symm⟩

/-! ## Blank text -/

/-- `char::is_whitespace`: the characters with the property `White_Space`. -/
def isWhitespace (c : Char) : Bool :=
  (9 ≤ c.toNat && c.toNat ≤ 13) || (0x2000 ≤ c.toNat && c.toNat ≤ 0x200A) ||
    [0x20, 0x85, 0xA0, 0x1680, 0x2028, 0x2029, 0x202F, 0x205F, 0x3000].contains c.toNat

def trimStart (cs : List Char) : List Char := cs.dropWhile isWhitespace

def trimEnd (cs : List Char) : List Char := cs.rdropWhile isWhitespace

def trim (cs : List Char) : List Char := trimEnd (trimStart cs)

theorem trimEnd_prefix (cs : List Char) : trimEnd cs <+: cs := List.rdropWhile_prefix _ _

theorem trimStart_cons {c : Char} (h : isWhitespace c = false) (cs : List Char) :
    trimStart (c :: cs) = c :: cs := by
  rw [trimStart, List.dropWhile_cons_of_neg (by simp [h])]

theorem trim_prefix {c : Char} (h : isWhitespace c = false) (cs : List Char) : trim (c :: cs) <+: c :: cs := by
  rw [trim, trimStart_cons h]
  exact trimEnd_prefix _

theorem trim_ne_nil {c : Char} (h : isWhitespace c = false) (cs : List Char) : trim (c :: cs) ≠ [] := by
  intro hnil
  rw [trim, trimStart_cons h, trimEnd, List.rdropWhile_eq_nil_iff] at hnil
  have := hnil c List.mem_cons_self
  rw [h] at this
  cases this

theorem trim_concat {c : Char} (hc : isWhitespace c = true) (l : List Char) : trim (l ++ [c]) = trim l := by
  by_cases hall : ∀ x ∈ l, isWhitespace x = true
  · have hnil : trimStart l = [] := List.dropWhile_eq_nil_iff.mpr hall
    have hnil' : trimStart (l ++ [c]) = [] := by
      apply List.dropWhile_eq_nil_iff.mpr
      intro x hx
      rcases List.mem_append.mp hx with hx | hx
      · exact hall x hx
      · rw [List.mem_singleton.mp hx, hc]
    rw [trim, trim, hnil, hnil']
  · have hne : trimStart l ≠ [] := by
      intro hnil
      exact hall (List.dropWhile_eq_nil_iff.mp hnil)
    have happ : trimStart (l ++ [c]) = trimStart l ++ [c] := by
      rw [trimStart, List.dropWhile_append, ← trimStart, if_neg (by simpa using hne)]
    rw [trim, trim, happ]
    exact List.rdropWhile_concat_pos _ _ _ hc

theorem trim_eq_self {cs : List Char} (h : ∀ c ∈ cs, isWhitespace c = false) : trim cs = cs := by
  have hstart : trimStart cs = cs := by
    cases cs with
    | nil => rfl
    | cons c cs => exact trimStart_cons (h c List.mem_cons_self) cs
  rw [trim, hstart, trimEnd, List.rdropWhile_eq_self_iff]
  intro hne
  rw [h _ (List.getLast_mem hne)]
  exact Bool.false_ne_true

/-- Whether a text begins an object, leading blanks left out. -/
def startsObject (cs : List Char) : Bool := (trimStart cs).head? = some '\x7b'

/-- More text behind it does not change what a text starts with. -/
theorem startsObject_of_torn {cs ds : List Char} (h : cs <+: ds) (hd : startsObject ds = false) :
    startsObject cs = false := by
  obtain ⟨rest, rfl⟩ := h
  rw [startsObject, trimStart, List.dropWhile_append] at hd
  rw [startsObject, trimStart]
  cases hcs : cs.dropWhile isWhitespace with
  | nil => rfl
  | cons c cs => rw [hcs] at hd; exact hd

theorem startsObject_newline (cs : List Char) : startsObject (cs ++ ['\n']) = startsObject cs := by
  rw [startsObject, startsObject, trimStart, trimStart, List.dropWhile_append]
  cases hcs : cs.dropWhile isWhitespace with
  | nil => decide
  | cons c cs => rfl

/-- The same of bytes, which need not encode a text. -/
def BeginsObject (bytes : List UInt8) : Prop :=
  ∃ blank rest, (∀ c ∈ blank, isWhitespace c = true) ∧ bytes = utf8 blank ++ 0x7b :: rest

theorem BeginsObject.mono {bytes more : List UInt8} (h : BeginsObject bytes) (hmore : bytes <+: more) :
    BeginsObject more := by
  obtain ⟨blank, rest, hblank, rfl⟩ := h
  obtain ⟨rest', rfl⟩ := hmore
  exact ⟨blank, rest ++ rest', hblank, by simp⟩

theorem beginsObject_utf8 {cs : List Char} : BeginsObject (utf8 cs) ↔ startsObject cs = true := by
  constructor
  · rintro ⟨blank, rest, hblank, hbytes⟩
    have hstart : startsObject (blank ++ ['\x7b']) = true := by
      rw [startsObject, trimStart, List.dropWhile_append_of_pos hblank]
      decide
    have hprefix : blank ++ ['\x7b'] <+: cs := by
      have hbrace : utf8 ['\x7b'] = [0x7b] := by decide
      apply prefix_of_utf8_prefix
      rw [utf8_append, hbrace, hbytes]
      exact ⟨rest, by simp⟩
    by_contra hnot
    rw [startsObject_of_torn hprefix (Bool.eq_false_iff.mpr hnot)] at hstart
    cases hstart
  · intro h
    refine ⟨cs.takeWhile isWhitespace, utf8 (trimStart cs).tail, fun c hc => List.mem_takeWhile_imp hc, ?_⟩
    have hhead : (trimStart cs).head? = some '\x7b' := of_decide_eq_true h
    have hbrace : trimStart cs = '\x7b' :: (trimStart cs).tail := List.eq_cons_of_mem_head? hhead
    have hchar : utf8 (trimStart cs) = 0x7b :: utf8 (trimStart cs).tail := by
      rw [hbrace, utf8_cons]
      rfl
    rw [← hchar, ← utf8_append, trimStart, List.takeWhile_append_dropWhile]

/-- What begins with another character that is not blank begins no object. -/
theorem not_beginsObject_cons {b : UInt8} (hascii : b.toNat < 128) (hbrace : b ≠ 0x7b)
    (hblank : ∀ c : Char, c.toNat = b.toNat → isWhitespace c = false) (bytes : List UInt8) :
    ¬BeginsObject (b :: bytes) := by
  rintro ⟨blank, rest, hall, hbytes⟩
  cases blank with
  | nil => exact hbrace (List.cons.inj hbytes).1
  | cons c blank =>
    have hmem : b ∈ String.utf8EncodeChar c := by
      have hne : String.utf8EncodeChar c ≠ [] := by simp
      obtain ⟨b', bs, hc⟩ := List.exists_cons_of_ne_nil hne
      rw [utf8_cons, hc, List.cons_append, List.cons_append] at hbytes
      rw [hc, (List.cons.inj hbytes).1]
      exact List.mem_cons_self
    have hc := hblank c ((ascii_mem_utf8EncodeChar hascii).mp hmem)
    rw [hall c List.mem_cons_self] at hc
    cases hc

/-! ## Letters -/

/-- `char::to_ascii_lowercase`. -/
def asciiLower (c : Char) : Char := if 65 ≤ c.toNat ∧ c.toNat ≤ 90 then Char.ofNat (c.toNat + 32) else c

theorem toNat_asciiLower (c : Char) :
    (asciiLower c).toNat = if 65 ≤ c.toNat ∧ c.toNat ≤ 90 then c.toNat + 32 else c.toNat := by
  rw [asciiLower]
  split
  · rename_i h
    have hvalid : (c.toNat + 32).isValidChar := .inl (by omega)
    rw [Char.ofNat, dif_pos hvalid]
    rfl
  · rfl

theorem asciiLower_asciiLower (c : Char) : asciiLower (asciiLower c) = asciiLower c := by
  have h := toNat_asciiLower c
  rw [asciiLower, if_neg]
  split at h <;> omega

/-- `str::to_lowercase`, which goes by the tables of Unicode. -/
structure Lowercase where
  lower : List Char → List Char
  ascii : ∀ cs, (∀ c ∈ cs, c.toNat < 128) → lower cs = cs.map asciiLower

/-- Lower-casing that knows no letters but those of ASCII. -/
def Lowercase.asciiOnly : Lowercase where
  lower cs := cs.map asciiLower
  ascii _ _ := rfl

/-- `eq_ignore_ascii_case`. -/
def eqIgnoreAsciiCase (cs ds : List Char) : Bool := cs.map asciiLower = ds.map asciiLower

theorem eqIgnoreAsciiCase_iff {cs ds : List Char} :
    eqIgnoreAsciiCase cs ds = true ↔ cs.map asciiLower = ds.map asciiLower := by
  rw [eqIgnoreAsciiCase, decide_eq_true_eq]

/-- What a text of ASCII equals but for case is of ASCII too. -/
theorem ascii_of_eqIgnoreAsciiCase {cs ds : List Char} (h : eqIgnoreAsciiCase cs ds = true)
    (hcs : ∀ c ∈ cs, c.toNat < 128) : ∀ d ∈ ds, d.toNat < 128 := by
  intro d hd
  have hmem : asciiLower d ∈ cs.map asciiLower := by
    rw [eqIgnoreAsciiCase_iff.mp h]
    exact List.mem_map_of_mem hd
  obtain ⟨c, hc, hsame⟩ := List.mem_map.mp hmem
  have hnat := congrArg Char.toNat hsame
  have hlt := hcs c hc
  rw [toNat_asciiLower, toNat_asciiLower] at hnat
  split at hnat <;> split at hnat <;> omega

theorem Lowercase.eqIgnoreAsciiCase_lower (L : Lowercase) {cs : List Char} (h : ∀ c ∈ cs, c.toNat < 128) :
    eqIgnoreAsciiCase (L.lower cs) cs = true := by
  rw [eqIgnoreAsciiCase_iff, L.ascii cs h, List.map_map]
  exact List.map_congr_left fun c _ => asciiLower_asciiLower c

/-! ## Lines -/

/-- What a line and more bytes begin with is cut inside the line, or behind
it. -/
theorem prefix_line_cases {q l more : List UInt8} (h : q <+: l ++ newline :: more) :
    q <+: l ∨ ∃ q', q = l ++ newline :: q' ∧ q' <+: more := by
  have hline : l ++ [newline] <+: l ++ newline :: more := ⟨more, by simp⟩
  rcases List.prefix_or_prefix_of_prefix h hline with hq | ⟨q', rfl⟩
  · rcases List.prefix_concat_iff.mp hq with rfl | hq
    · exact .inr ⟨[], rfl, List.nil_prefix⟩
    · exact .inl hq
  · rw [List.append_assoc, List.prefix_append_right_inj] at h
    exact .inr ⟨q', by simp, (List.cons_prefix_cons.mp h).2⟩

/-- These lines, each ended by a newline. -/
def joinLines (ls : List (List UInt8)) : List UInt8 := ls.flatMap (· ++ [newline])

/-- The lines that newlines end, and what is behind the last newline. -/
def splitLines : List UInt8 → List (List UInt8) × List UInt8
  | [] => ([], [])
  | b :: bytes =>
    let (ls, rest) := splitLines bytes
    if b = newline then ([] :: ls, rest)
    else
      match ls with
      | [] => ([], b :: rest)
      | l :: ls => ((b :: l) :: ls, rest)

@[simp] theorem joinLines_nil : joinLines [] = [] := rfl

@[simp] theorem joinLines_cons (l : List UInt8) (ls : List (List UInt8)) :
    joinLines (l :: ls) = l ++ newline :: joinLines ls := by simp [joinLines]

theorem joinLines_append (ls ls' : List (List UInt8)) :
    joinLines (ls ++ ls') = joinLines ls ++ joinLines ls' := List.flatMap_append

/-- Lines end with a newline, if there are any. -/
theorem joinLines_ends (ls : List (List UInt8)) : joinLines ls = [] ∨ (joinLines ls).getLast? = some newline := by
  rcases List.eq_nil_or_concat ls with rfl | ⟨ls, l, rfl⟩
  · exact .inl rfl
  · refine .inr ?_
    rw [List.concat_eq_append, joinLines_append, joinLines_cons, joinLines_nil, ← List.append_assoc,
      List.getLast?_concat]

theorem splitLines_cons (b : UInt8) (bytes : List UInt8) : splitLines (b :: bytes) =
    if b = newline then ([] :: (splitLines bytes).1, (splitLines bytes).2)
    else
      match (splitLines bytes).1 with
      | [] => ([], b :: (splitLines bytes).2)
      | l :: ls => ((b :: l) :: ls, (splitLines bytes).2) := rfl

theorem splitLines_of_not_mem {rest : List UInt8} (h : newline ∉ rest) : splitLines rest = ([], rest) := by
  induction rest with
  | nil => rfl
  | cons b rest ih =>
    obtain ⟨hb, hrest⟩ := not_or.mp (List.mem_cons.not.mp h)
    rw [splitLines_cons, if_neg (Ne.symm hb), ih hrest]

theorem splitLines_line {l : List UInt8} (h : newline ∉ l) (bytes : List UInt8) :
    splitLines (l ++ newline :: bytes) = (l :: (splitLines bytes).1, (splitLines bytes).2) := by
  induction l with
  | nil => rfl
  | cons b l ih =>
    obtain ⟨hb, hl⟩ := not_or.mp (List.mem_cons.not.mp h)
    rw [List.cons_append, splitLines_cons, if_neg (Ne.symm hb), ih hl]

/-- Splitting undoes joining. -/
theorem splitLines_joinLines {ls : List (List UInt8)} {rest : List UInt8} (hls : ∀ l ∈ ls, newline ∉ l)
    (hrest : newline ∉ rest) : splitLines (joinLines ls ++ rest) = (ls, rest) := by
  induction ls with
  | nil => exact splitLines_of_not_mem hrest
  | cons l ls ih =>
    rw [joinLines_cons, List.append_assoc, List.cons_append, splitLines_line (hls l List.mem_cons_self),
      ih fun l hl => hls l (List.mem_cons_of_mem _ hl)]

theorem splitLines_spec (bytes : List UInt8) :
    joinLines (splitLines bytes).1 ++ (splitLines bytes).2 = bytes ∧
      (∀ l ∈ (splitLines bytes).1, newline ∉ l) ∧ newline ∉ (splitLines bytes).2 := by
  induction bytes with
  | nil => simp [splitLines]
  | cons b bytes ih =>
    obtain ⟨hjoin, hls, hrest⟩ := ih
    rw [splitLines_cons]
    split
    · rename_i hb
      subst hb
      exact ⟨by simpa using hjoin, by simpa using hls, hrest⟩
    · rename_i hb
      cases hlines : (splitLines bytes).1 with
      | nil =>
        rw [hlines] at hjoin
        refine ⟨by simpa using hjoin, by simp, ?_⟩
        exact List.mem_cons.not.mpr (not_or.mpr ⟨Ne.symm hb, hrest⟩)
      | cons l ls =>
        rw [hlines] at hjoin hls
        refine ⟨by simpa using hjoin, ?_, hrest⟩
        rintro l' hl'
        rcases List.mem_cons.mp hl' with rfl | hl'
        · exact List.mem_cons.not.mpr (not_or.mpr ⟨Ne.symm hb, hls l List.mem_cons_self⟩)
        · exact hls l' (List.mem_cons_of_mem _ hl')

/-- Text up to its last newline is lines. -/
theorem eq_joinLines {bytes : List UInt8} (h : bytes = [] ∨ bytes.getLast? = some newline) :
    bytes = joinLines (splitLines bytes).1 := by
  obtain ⟨hjoin, -, hrest⟩ := splitLines_spec bytes
  rcases List.eq_nil_or_concat (splitLines bytes).2 with hnil | ⟨rest, b, hb⟩
  · rw [hnil, List.append_nil] at hjoin
    exact hjoin.symm
  · rw [hb] at hjoin hrest
    rcases h with rfl | hlast
    · simp at hjoin
    · rw [← hjoin] at hlast
      refine absurd ?_ hrest
      simp at hlast
      simp [hlast]

/-- What is read up to a newline, which comes with it, and what is behind it. -/
def takeLine : List UInt8 → List UInt8 × List UInt8
  | [] => ([], [])
  | b :: bytes => if b = newline then ([b], bytes) else (b :: (takeLine bytes).1, (takeLine bytes).2)

theorem takeLine_line {l : List UInt8} (h : newline ∉ l) (rest : List UInt8) :
    takeLine (l ++ newline :: rest) = (l ++ [newline], rest) := by
  induction l with
  | nil => rfl
  | cons b l ih =>
    obtain ⟨hb, hl⟩ := not_or.mp (List.mem_cons.not.mp h)
    rw [List.cons_append, takeLine, if_neg (Ne.symm hb), ih hl]
    rfl

/-- The first line of bytes that encode a text encodes the first line of it. -/
theorem utf8_eq_line {ds : List Char} {l rest : List UInt8} (hl : newline ∉ l)
    (h : utf8 ds = l ++ newline :: rest) :
    ∃ cs ds', ds = cs ++ '\n' :: ds' ∧ utf8 cs = l ∧ utf8 ds' = rest := by
  have hmem : '\n' ∈ ds := newline_mem_utf8.mp (h ▸ by simp)
  obtain ⟨cs, ds', rfl, hcs⟩ := List.eq_append_cons_of_mem hmem
  refine ⟨cs, ds', rfl, ?_⟩
  have hbytes : utf8 (cs ++ '\n' :: ds') = utf8 cs ++ newline :: utf8 ds' := by
    rw [utf8_append, ← List.singleton_append, utf8_append, utf8_newline, List.singleton_append]
  have htake := congrArg takeLine (hbytes.symm.trans h)
  rw [takeLine_line (mt newline_mem_utf8.mp hcs), takeLine_line hl] at htake
  exact ⟨List.append_cancel_right (congrArg Prod.fst htake), congrArg Prod.snd htake⟩

/-- A line of bytes that encode no text encodes none with its end either. -/
theorem utf8?_line_of_not {l : List UInt8} (hl : newline ∉ l) (h : isUtf8 l = false) : utf8? (l ++ [newline]) = none := by
  cases hds : utf8? (l ++ [newline]) with
  | none => rfl
  | some ds =>
    obtain ⟨cs, -, -, rfl, -⟩ := utf8_eq_line hl (utf8_of_utf8? hds)
    rw [isUtf8_utf8] at h
    cases h

theorem takeLine_of_not_mem {l : List UInt8} (h : newline ∉ l) : takeLine l = (l, []) := by
  induction l with
  | nil => rfl
  | cons b l ih =>
    obtain ⟨hb, hl⟩ := not_or.mp (List.mem_cons.not.mp h)
    rw [takeLine, if_neg (Ne.symm hb), ih hl]

/-- There is a line, or all that is left. -/
theorem takeLine_cases (bytes : List UInt8) :
    (∃ l rest, newline ∉ l ∧ bytes = l ++ newline :: rest) ∨ newline ∉ bytes := by
  by_cases h : newline ∈ bytes
  · obtain ⟨l, rest, rfl, hl⟩ := List.eq_append_cons_of_mem h
    exact .inl ⟨l, rest, hl, rfl⟩
  · exact .inr h

theorem takeLine_append (bytes : List UInt8) : (takeLine bytes).1 ++ (takeLine bytes).2 = bytes := by
  induction bytes with
  | nil => rfl
  | cons b bytes ih =>
    rw [takeLine]
    split
    · rfl
    · exact congrArg (b :: ·) ih

theorem takeLine_eq_nil {bytes : List UInt8} : (takeLine bytes).1 = [] ↔ bytes = [] := by
  cases bytes with
  | nil => simp [takeLine]
  | cons b bytes =>
    rw [takeLine]
    split <;> simp

/-- Text without the line breaks at its end. -/
def trimLineEnd (cs : List Char) : List Char := cs.rdropWhile fun c => c = '\r' || c = '\n'

theorem trimLineEnd_of_not_mem {cs : List Char} (hr : '\r' ∉ cs) (hn : '\n' ∉ cs) : trimLineEnd cs = cs := by
  rcases List.eq_nil_or_concat cs with rfl | ⟨ds, c, rfl⟩
  · rfl
  · rw [List.concat_eq_append] at hr hn ⊢
    apply List.rdropWhile_concat_neg _ _ _
    simp only [List.mem_append, List.mem_singleton, not_or] at hr hn
    simp [Ne.symm hr.2, Ne.symm hn.2]

theorem trimLineEnd_newline (cs : List Char) : trimLineEnd (cs ++ ['\n']) = trimLineEnd cs :=
  List.rdropWhile_concat_pos _ _ _ (by simp)

/-- A text format for bytes, on one line. -/
structure ByteFormat where
  encode : List UInt8 → List Char
  decode : List Char → Except String (List UInt8)
  decode_encode : ∀ bytes, decode (encode bytes) = .ok bytes
  newline_not_mem : ∀ bytes, '\n' ∉ encode bytes
  return_not_mem : ∀ bytes, '\r' ∉ encode bytes

/-! ## Objects on a line -/

/-- A text format whose texts are objects, each on one line. No part of such a
text that lacks its end can be read. -/
structure ObjectFormat (α : Type) where
  text : α → List Char
  parse : List Char → Except String α
  parse_text : ∀ a, parse (text a) = .ok a
  newline_not_mem : ∀ a, '\n' ∉ text a
  object : ∀ a, ∃ cs, text a = '{' :: cs ++ ['}']
  parse_prefix : ∀ a cs, cs <+: text a → cs ≠ text a → ∃ e, parse cs = .error e

namespace ObjectFormat

variable {α : Type} (F : ObjectFormat α)

/-- The bytes of a value's text. -/
def bytes (a : α) : List UInt8 := utf8 (F.text a)

/-- The bytes of a value's text and a newline. -/
def line (a : α) : List UInt8 := F.bytes a ++ [newline]

def lines (as : List α) : List UInt8 := joinLines (as.map F.bytes)

@[simp] theorem lines_nil : F.lines [] = [] := rfl

theorem lines_append (as as' : List α) : F.lines (as ++ as') = F.lines as ++ F.lines as' := by
  rw [lines, List.map_append, joinLines_append, lines, lines]

theorem newline_not_mem_bytes (a : α) : newline ∉ F.bytes a := fun h =>
  F.newline_not_mem a (newline_mem_utf8.mp h)

theorem text_ne_nil (a : α) : F.text a ≠ [] := by
  obtain ⟨cs, hcs⟩ := F.object a
  simp [hcs]

/-- Nothing but an object's own text is left once it is trimmed. -/
@[simp] theorem trim_text (a : α) : trim (F.text a) = F.text a := by
  obtain ⟨cs, hcs⟩ := F.object a
  have hbrace : isWhitespace '}' = false := by decide
  rw [hcs, List.cons_append, trim, trimStart_cons (by decide), trimEnd, ← List.cons_append,
    List.rdropWhile_concat_neg _ _ _ (by simp [hbrace])]

/-- A text that has been read as a line. -/
theorem trim_text_newline (a : α) : trim (F.text a ++ ['\n']) = F.text a := by
  obtain ⟨cs, hcs⟩ := F.object a
  have hbrace : isWhitespace '}' = false := by decide
  have hnl : isWhitespace '\n' = true := by decide
  rw [hcs, List.cons_append, List.cons_append, trim, trimStart_cons (by decide), trimEnd, ← List.cons_append,
    ← List.cons_append, List.rdropWhile_concat_pos _ _ _ (by simp [hnl]),
    List.rdropWhile_concat_neg _ _ _ (by simp [hbrace])]

theorem startsObject_text (a : α) : startsObject (F.text a) = true := by
  obtain ⟨cs, hcs⟩ := F.object a
  rw [hcs, startsObject, List.cons_append, trimStart_cons (by decide)]
  rfl

theorem head_of_prefix {a : α} {c : Char} {cs : List Char} (h : c :: cs <+: F.text a) : c = '{' := by
  obtain ⟨ds, hds⟩ := F.object a
  obtain ⟨rest, hrest⟩ := h
  rw [hds] at hrest
  exact (List.cons.inj hrest).1

/-- A torn text is not blank, and what is left of it once it is trimmed cannot
be read. -/
theorem trim_of_torn {a : α} {cs : List Char} (hne : cs ≠ []) (h : cs <+: F.text a) (hshort : cs ≠ F.text a) :
    trim cs ≠ [] ∧ ∃ e, F.parse (trim cs) = .error e := by
  cases cs with
  | nil => exact absurd rfl hne
  | cons c cs =>
    have hc : isWhitespace c = false := by rw [F.head_of_prefix h]; decide
    have htrim : trim (c :: cs) <+: c :: cs := trim_prefix hc cs
    refine ⟨trim_ne_nil hc cs, F.parse_prefix a _ (htrim.trans h) fun heq => hshort ?_⟩
    rw [heq] at htrim
    exact h.eq_of_length_le htrim.length_le

end ObjectFormat

end Text
