import RemoteWorkspace.Lib.Decimal
import RemoteWorkspace.Lib.Text

/-!
# Objects of JSON

Formats for objects with fields known beforehand, put together from their
fields. A `Value` is written inside an object, and read from the front of what
is left of it; that reading does not depend on what comes behind (`read_append`)
is what makes every text that lacks its end unreadable.
-/

namespace Json

open Text

/-- A value inside an object, with a comma or a brace behind it. `read` returns
it and what is behind it. -/
structure Value (α : Type) where
  write : α → List Char
  read : List Char → Option (α × List Char)
  read_write : ∀ a c rest, c = ',' ∨ c = '}' → read (write a ++ c :: rest) = some (a, c :: rest)
  read_append : ∀ cs a rest more, read cs = some (a, rest) → read (cs ++ more) = some (a, rest ++ more)
  newline_not_mem : ∀ a, '\n' ∉ write a

variable {α β : Type}

/-! ## Numbers -/

def readNumber (cs : List Char) : Option (UInt64 × List Char) :=
  match cs.dropWhile Char.isDigit with
  | [] => none
  | c :: rest =>
    (Decimal.parse UInt64.size (cs.takeWhile Char.isDigit)).map fun n => (UInt64.ofNat n, c :: rest)

def number : Value UInt64 where
  write n := n.toNat.repr.toList
  read := readNumber
  read_write n c rest hc := by
    have hdigits : ∀ d ∈ n.toNat.repr.toList, d.isDigit = true := fun d => Decimal.isDigit_of_mem_repr
    have hc' : c.isDigit = false := by rcases hc with rfl | rfl <;> decide
    have htake : (n.toNat.repr.toList ++ c :: rest).takeWhile Char.isDigit = n.toNat.repr.toList := by
      rw [List.takeWhile_append_of_pos hdigits, List.takeWhile_cons_of_neg (by simp [hc']), List.append_nil]
    have hdrop : (n.toNat.repr.toList ++ c :: rest).dropWhile Char.isDigit = c :: rest := by
      rw [List.dropWhile_append_of_pos hdigits, List.dropWhile_cons_of_neg (by simp [hc'])]
    rw [readNumber, hdrop, htake, Decimal.parse_repr n.toNat_lt]
    simp
  read_append cs n rest more h := by
    rw [readNumber] at h
    split at h
    · cases h
    · rename_i c behind hdrop
      obtain ⟨m, hm, heq⟩ := Option.map_eq_some_iff.mp h
      cases heq
      have hsplit := List.takeWhile_append_dropWhile (p := Char.isDigit) (l := cs)
      have htake : (cs ++ more).takeWhile Char.isDigit = cs.takeWhile Char.isDigit := by
        have hc : c.isDigit = false := by
          have := List.head?_dropWhile_not Char.isDigit cs
          rw [hdrop] at this
          simpa using this
        rw [← hsplit, hdrop, List.append_assoc, List.cons_append,
          List.takeWhile_append_of_pos (fun d hd => List.mem_takeWhile_imp hd),
          List.takeWhile_cons_of_neg (by simp [hc]), List.append_nil]
        rw [List.takeWhile_append_of_pos (fun d hd => List.mem_takeWhile_imp hd),
          List.takeWhile_cons_of_neg (by simp [hc]), List.append_nil]
      rw [readNumber, List.dropWhile_append, hdrop, htake, hm]
      rfl
  newline_not_mem n h := absurd (Decimal.isDigit_of_mem_repr h) (by decide)

/-! ## Strings -/

def hexDigit (n : Nat) : Char := if n < 10 then Char.ofNat (48 + n) else Char.ofNat (87 + n)

def hexValue (c : Char) : Nat := if c.toNat < 58 then c.toNat - 48 else c.toNat - 87

theorem hexValue_hexDigit {n : Nat} (h : n < 16) : hexValue (hexDigit n) = n := by
  have : ∀ n : Fin 16, hexValue (hexDigit n) = n := by decide
  exact this ⟨n, h⟩

def escaped (c : Char) : Bool := c = '"' || c = '\\' || c.toNat < 32

def escape (c : Char) : List Char :=
  if escaped c then ['\\', 'u', '0', '0', hexDigit (c.toNat / 16), hexDigit (c.toNat % 16)] else [c]

/-- The characters up to a quote, and what is behind it. -/
def readChars : List Char → Option (List Char × List Char)
  | [] => none
  | '"' :: cs => some ([], cs)
  | '\\' :: 'u' :: '0' :: '0' :: a :: b :: cs =>
    (readChars cs).map fun r => (Char.ofNat (16 * hexValue a + hexValue b) :: r.1, r.2)
  | '\\' :: _ => none
  | c :: cs => (readChars cs).map fun r => (c :: r.1, r.2)

theorem readChars_plain {c : Char} (hquote : c ≠ '"') (hslash : c ≠ '\\') (cs : List Char) :
    readChars (c :: cs) = (readChars cs).map fun r => (c :: r.1, r.2) := by
  rw [readChars]
  · exact hquote
  · exact fun a b cs' h _ => hslash h
  · exact hslash

theorem toNat_lt_of_escaped {c : Char} (h : escaped c = true) : c.toNat < 256 := by
  simp only [escaped, Bool.or_eq_true, decide_eq_true_eq] at h
  rcases h with (rfl | rfl) | h
  · decide
  · decide
  · omega

theorem readChars_escape (c : Char) (cs : List Char) :
    readChars (escape c ++ cs) = (readChars cs).map fun r => (c :: r.1, r.2) := by
  rw [escape]
  split
  · rename_i hc
    have hlt := toNat_lt_of_escaped hc
    have hvalue : 16 * hexValue (hexDigit (c.toNat / 16)) + hexValue (hexDigit (c.toNat % 16)) = c.toNat := by
      rw [hexValue_hexDigit (by omega), hexValue_hexDigit (by omega)]
      omega
    simp only [List.cons_append, List.nil_append]
    rw [readChars, hvalue, Char.ofNat_toNat]
  · rename_i hc
    simp only [escaped, Bool.or_eq_true, decide_eq_true_eq, not_or] at hc
    rw [List.singleton_append, readChars_plain hc.1.1 hc.1.2]

theorem readChars_flatMap (s rest : List Char) :
    readChars (s.flatMap escape ++ '"' :: rest) = some (s, rest) := by
  induction s with
  | nil => rw [List.flatMap_nil, List.nil_append, readChars]
  | cons c s ih => rw [List.flatMap_cons, List.append_assoc, readChars_escape, ih]; rfl

theorem readChars_append {cs s rest : List Char} (more : List Char) (h : readChars cs = some (s, rest)) :
    readChars (cs ++ more) = some (s, rest ++ more) := by
  induction cs using readChars.induct generalizing s with
  | case1 => cases h
  | case2 cs =>
    rw [readChars] at h
    cases h
    rw [List.cons_append, readChars]
  | case3 a b cs ih =>
    rw [readChars] at h
    obtain ⟨⟨s', rest'⟩, hr, heq⟩ := Option.map_eq_some_iff.mp h
    cases heq
    simp only [List.cons_append]
    rw [readChars, ih hr]
    rfl
  | case4 cs hcs =>
    rw [readChars] at h
    · cases h
    · exact hcs
  | case5 c cs hquote _ hslash ih =>
    rw [readChars_plain hquote hslash] at h
    obtain ⟨⟨s', rest'⟩, hr, heq⟩ := Option.map_eq_some_iff.mp h
    cases heq
    rw [List.cons_append, readChars_plain hquote hslash, ih hr]
    rfl

theorem newline_not_mem_escape (c : Char) : '\n' ∉ escape c := by
  rw [escape]
  split
  · rename_i hc
    have hlt := toNat_lt_of_escaped hc
    have hhex : ∀ n, n < 16 → '\n' ≠ hexDigit n := fun n hn h => by
      have : ∀ n : Fin 16, '\n' ≠ hexDigit n := by decide
      exact this ⟨n, hn⟩ h
    have h₁ := hhex (c.toNat / 16) (by omega)
    have h₂ := hhex (c.toNat % 16) (by omega)
    simp [h₁, h₂]
  · rename_i hc
    rw [List.mem_singleton]
    rintro rfl
    exact hc (by decide)

def string : Value String where
  write s := '"' :: (s.toList.flatMap escape ++ ['"'])
  read cs :=
    match cs with
    | '"' :: cs => (readChars cs).map fun r => (String.ofList r.1, r.2)
    | _ => none
  read_write s c rest _ := by
    simp only [List.cons_append, List.append_assoc, List.nil_append, readChars_flatMap, Option.map_some,
      String.ofList_toList]
  read_append cs s rest more h := by
    split at h
    · obtain ⟨⟨s', rest'⟩, hr, heq⟩ := Option.map_eq_some_iff.mp h
      cases heq
      simp only [List.cons_append, readChars_append more hr, Option.map_some]
    · cases h
  newline_not_mem s := by
    simp [newline_not_mem_escape]

/-! ## Fields -/

/-- Fixed text before a value. -/
def behind (key : List Char) (hkey : '\n' ∉ key) (v : Value α) : Value α where
  write a := key ++ v.write a
  read cs := if key.isPrefixOf cs then v.read (cs.drop key.length) else none
  read_write a c rest hc := by
    rw [List.append_assoc, if_pos (by simp), List.drop_left, v.read_write a c rest hc]
  read_append cs a rest more h := by
    split at h
    · rename_i hprefix
      obtain ⟨cs', rfl⟩ := List.isPrefixOf_iff_prefix.mp hprefix
      rw [List.drop_left] at h
      rw [List.append_assoc, if_pos (by simp), List.drop_left, v.read_append cs' a rest more h]
    · cases h
  newline_not_mem a h := (List.mem_append.mp h).elim hkey (v.newline_not_mem a)

/-- Two fields. -/
def both (v : Value α) (w : Value β) : Value (α × β) where
  write r := v.write r.1 ++ ',' :: w.write r.2
  read cs :=
    match v.read cs with
    | some (a, ',' :: cs) => (w.read cs).map fun r => ((a, r.1), r.2)
    | _ => none
  read_write r c rest hc := by
    rw [List.append_assoc, List.cons_append, v.read_write _ _ _ (.inl rfl)]
    simp only [w.read_write _ _ _ hc, Option.map_some]
  read_append cs r rest more h := by
    split at h
    · rename_i a cs' hv
      obtain ⟨⟨b, rest'⟩, hw, heq⟩ := Option.map_eq_some_iff.mp h
      cases heq
      rw [v.read_append _ _ _ more hv]
      simp only [List.cons_append, w.read_append _ _ _ more hw, Option.map_some]
    · cases h
  newline_not_mem r h := by
    rcases List.mem_append.mp h with h | h
    · exact v.newline_not_mem _ h
    · exact w.newline_not_mem _ ((List.mem_cons.mp h).resolve_left (by decide))

/-- An object with these fields, standing for a value of another type. -/
def object (v : Value α) (mk : α → β) (fields : β → α) (h : ∀ b, mk (fields b) = b) : ObjectFormat β where
  text b := '\x7b' :: v.write (fields b) ++ ['\x7d']
  parse cs :=
    match cs with
    | '\x7b' :: cs =>
      match v.read cs with
      | some (a, ['\x7d']) => .ok (mk a)
      | _ => .error "expected an object"
    | _ => .error "expected an object"
  parse_text b := by
    simp only [List.cons_append, v.read_write _ _ _ (.inr rfl), h]
  newline_not_mem b hmem := by
    simp only [List.cons_append, List.mem_cons, List.mem_append, List.not_mem_nil, or_false] at hmem
    rcases hmem with hmem | hmem | hmem
    · exact absurd hmem (by decide)
    · exact v.newline_not_mem _ hmem
    · exact absurd hmem (by decide)
  object b := ⟨v.write (fields b), rfl⟩
  parse_prefix b cs hprefix hne := by
    split
    · rename_i cs
      split
      · rename_i a hread
        -- What is missing at the end would be left behind the object.
        obtain ⟨more, hmore⟩ := hprefix
        have hcs : cs ++ more = v.write (fields b) ++ ['\x7d'] := (List.cons.inj hmore).2
        have hall := v.read_append _ _ _ more hread
        rw [hcs, v.read_write _ _ _ (.inr rfl)] at hall
        have hnil : more = [] := by simpa using congrArg (fun r => r.map (·.2.length)) hall
        rw [hnil, List.append_nil] at hcs
        exact absurd (congrArg ('\x7b' :: ·) hcs) hne
      · exact ⟨_, rfl⟩
    · exact ⟨_, rfl⟩

end Json
