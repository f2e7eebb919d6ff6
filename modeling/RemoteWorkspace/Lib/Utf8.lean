import RemoteWorkspace.Lib.Text

/-!
# Bytes and characters

Where the characters of a text begin in its bytes (`Boundary`): wherever a byte
is no tail (`boundary_iff`), and never more than three bytes further on
(`exists_boundary`). Bytes that are not UTF-8 are decoded too (`lossy`): they
are cut into units, each a character or as much of one as there is, and a unit
that is no character reads as one replacement character. Cutting the bytes
elsewhere than between two units shows in the text (`lossy_cut_iff`).
-/

namespace Utf8

open Text

/-- Whether a byte stands inside a character, behind its first. -/
def isTail (b : UInt8) : Bool := 0x80 ≤ b.toNat && b.toNat < 0xC0

/-- How many bytes a character has that begins with `b`; zero where none does. -/
def width (b : UInt8) : Nat :=
  if b.toNat < 0x80 then 1
  else if b.toNat < 0xC2 then 0
  else if b.toNat < 0xE0 then 2
  else if b.toNat < 0xF0 then 3
  else if b.toNat < 0xF5 then 4
  else 0

/-- Whether `b'` may stand behind the first byte `b`: no character is longer than
it needs to be, a surrogate, or above the last one. -/
def second (b b' : UInt8) : Bool :=
  isTail b' && (b.toNat != 0xE0 || 0xA0 ≤ b'.toNat) && (b.toNat != 0xED || b'.toNat < 0xA0) &&
    (b.toNat != 0xF0 || 0x90 ≤ b'.toNat) && (b.toNat != 0xF4 || b'.toNat < 0x90)

/-- How many bytes at the front belong together: a character, or as much of one
as there is. -/
def unitLength : List UInt8 → Nat
  | [] => 0
  | b :: bs =>
    if width b ≤ 1 || !second b (bs.getD 0 0) then 1
    else if width b = 2 || !isTail (bs.getD 1 0) then 2
    else if width b = 3 || !isTail (bs.getD 2 0) then 3
    else 4

/-- The bytes of one character. -/
inductive Encoded : List UInt8 → Prop
  | one {b : UInt8} : width b = 1 → Encoded [b]
  | two {b b₁ : UInt8} : width b = 2 → second b b₁ = true → Encoded [b, b₁]
  | three {b b₁ b₂ : UInt8} : width b = 3 → second b b₁ = true → isTail b₂ = true → Encoded [b, b₁, b₂]
  | four {b b₁ b₂ b₃ : UInt8} : width b = 4 → second b b₁ = true → isTail b₂ = true → isTail b₃ = true →
      Encoded [b, b₁, b₂, b₃]

theorem encoded_utf8EncodeChar (c : Char) : Encoded (String.utf8EncodeChar c) := by
  have hval := c.valid
  have hlt := c.val.toNat_lt
  simp only [UInt32.isValidChar, Nat.isValidChar] at hval
  unfold String.utf8EncodeChar
  dsimp only
  split
  · refine .one ?_
    simp only [width, UInt8.toNat_ofNat']
    rw [if_pos (by omega)]
  · split
    · refine .two ?_ ?_
      · simp only [width, UInt8.toNat_ofNat']
        rw [if_neg (by omega), if_neg (by omega), if_pos (by omega)]
      · simp only [second, isTail, UInt8.toNat_ofNat', Bool.and_eq_true, Bool.or_eq_true, decide_eq_true_eq,
          bne_iff_ne]
        omega
    · split
      · refine .three ?_ ?_ ?_
        · simp only [width, UInt8.toNat_ofNat']
          rw [if_neg (by omega), if_neg (by omega), if_neg (by omega), if_pos (by omega)]
        · simp only [second, isTail, UInt8.toNat_ofNat', Bool.and_eq_true, Bool.or_eq_true, decide_eq_true_eq,
            bne_iff_ne]
          omega
        · simp only [isTail, UInt8.toNat_ofNat', Bool.and_eq_true, decide_eq_true_eq]
          omega
      · refine .four ?_ ?_ ?_ ?_
        · simp only [width, UInt8.toNat_ofNat']
          rw [if_neg (by omega), if_neg (by omega), if_neg (by omega), if_neg (by omega), if_pos (by omega)]
        · simp only [second, isTail, UInt8.toNat_ofNat', Bool.and_eq_true, Bool.or_eq_true, decide_eq_true_eq,
            bne_iff_ne]
          omega
        · simp only [isTail, UInt8.toNat_ofNat', Bool.and_eq_true, decide_eq_true_eq]
          omega
        · simp only [isTail, UInt8.toNat_ofNat', Bool.and_eq_true, decide_eq_true_eq]
          omega

theorem isTail_of_second {b b' : UInt8} (h : second b b' = true) : isTail b' = true := by
  simp only [second, Bool.and_eq_true] at h
  exact h.1.1.1.1

theorem width_of_isTail {b : UInt8} (h : isTail b = true) : width b = 0 := by
  simp only [isTail, Bool.and_eq_true, decide_eq_true_eq] at h
  rw [width, if_neg (by omega), if_pos (by omega)]

theorem not_isTail {b : UInt8} (h : width b ≠ 0) : isTail b = false := by
  cases hb : isTail b with
  | false => rfl
  | true => exact absurd (width_of_isTail hb) h

/-- A character's bytes are tails except for the first, and at most four. -/
theorem Encoded.bytes {u : List UInt8} (h : Encoded u) :
    ∃ b tails, u = b :: tails ∧ isTail b = false ∧ (∀ x ∈ tails, isTail x = true) ∧ tails.length ≤ 3 := by
  cases h with
  | one h => exact ⟨_, [], rfl, not_isTail (by omega), by simp, by simp⟩
  | two h h₁ => exact ⟨_, [_], rfl, not_isTail (by omega), by simp [isTail_of_second h₁], by simp⟩
  | three h h₁ h₂ => exact ⟨_, [_, _], rfl, not_isTail (by omega), by simp [isTail_of_second h₁, h₂], by simp⟩
  | four h h₁ h₂ h₃ =>
    exact ⟨_, [_, _, _], rfl, not_isTail (by omega), by simp [isTail_of_second h₁, h₂, h₃], by simp⟩

/-! ## Where characters begin -/

/-- `n` bytes of the text are some of its characters. -/
def Boundary (cs : List Char) (n : Nat) : Prop := ∃ p, p <+: cs ∧ (utf8 p).length = n

theorem Boundary.zero (cs : List Char) : Boundary cs 0 := ⟨[], List.nil_prefix, rfl⟩

theorem Boundary.all (cs : List Char) : Boundary cs (utf8 cs).length := ⟨cs, List.prefix_rfl, rfl⟩

theorem Boundary.le {cs : List Char} {n : Nat} (h : Boundary cs n) : n ≤ (utf8 cs).length := by
  obtain ⟨p, ⟨rest, rfl⟩, rfl⟩ := h
  simp

/-- Behind the first character. -/
theorem boundary_cons {c : Char} {cs : List Char} {n : Nat} (h : c.utf8Size ≤ n) :
    Boundary (c :: cs) n ↔ Boundary cs (n - c.utf8Size) := by
  constructor
  · rintro ⟨p, hp, rfl⟩
    cases p with
    | nil =>
      have := c.utf8Size_pos
      simp only [utf8_nil, List.length_nil] at h
      omega
    | cons d p =>
      obtain ⟨rfl, htail⟩ := List.cons_prefix_cons.mp hp
      exact ⟨p, htail, by simp [utf8_cons]⟩
  · rintro ⟨p, hp, hn⟩
    exact ⟨c :: p, List.cons_prefix_cons.mpr ⟨rfl, hp⟩, by
      rw [utf8_cons, List.length_append, String.length_utf8EncodeChar]
      omega⟩

theorem boundary_of_byte {cs : List Char} {n : Nat} (hle : n ≤ (utf8 cs).length)
    (hbyte : ∀ b, (utf8 cs)[n]? = some b → isTail b = false) : Boundary cs n := by
  induction cs generalizing n with
  | nil =>
    obtain rfl : n = 0 := Nat.le_zero.mp hle
    exact .zero []
  | cons c cs ih =>
    rw [utf8_cons, List.length_append, String.length_utf8EncodeChar] at hle
    by_cases hn : c.utf8Size ≤ n
    · refine (boundary_cons hn).mpr (ih (by omega) fun b hb => hbyte b ?_)
      rw [utf8_cons, List.getElem?_append_right (by simpa using hn), String.length_utf8EncodeChar, hb]
    · obtain ⟨b, tails, henc, -, htails, -⟩ := (encoded_utf8EncodeChar c).bytes
      cases n with
      | zero => exact .zero _
      | succ n =>
        have hlen : n < tails.length := by
          have := congrArg List.length henc
          simp only [String.length_utf8EncodeChar, List.length_cons] at this
          omega
        have htail := hbyte tails[n] (by
          rw [utf8_cons, henc, List.cons_append, List.getElem?_cons_succ, List.getElem?_append_left hlen,
            List.getElem?_eq_getElem hlen])
        rw [htails _ (List.getElem_mem hlen)] at htail
        cases htail

/-- A character begins wherever the byte is no tail, and at the end. -/
theorem boundary_iff {cs : List Char} {n : Nat} :
    Boundary cs n ↔ n ≤ (utf8 cs).length ∧ ∀ b, (utf8 cs)[n]? = some b → isTail b = false := by
  refine ⟨fun h => ⟨h.le, fun b hb => ?_⟩, fun h => boundary_of_byte h.1 h.2⟩
  obtain ⟨p, ⟨rest, rfl⟩, rfl⟩ := h
  rw [utf8_append, List.getElem?_append_right (Nat.le_refl _), Nat.sub_self] at hb
  cases rest with
  | nil => simp at hb
  | cons c rest =>
    obtain ⟨b', tails, henc, hfirst, -⟩ := (encoded_utf8EncodeChar c).bytes
    rw [utf8_cons, henc] at hb
    cases hb
    exact hfirst

/-- No more than three bytes lie before the next character. -/
theorem exists_boundary {cs : List Char} {m : Nat} (h : m ≤ (utf8 cs).length) :
    ∃ n, Boundary cs n ∧ m ≤ n ∧ n ≤ m + 3 := by
  induction cs generalizing m with
  | nil => exact ⟨0, .zero [], h, Nat.zero_le _⟩
  | cons c cs ih =>
    rw [utf8_cons, List.length_append, String.length_utf8EncodeChar] at h
    by_cases hm : c.utf8Size ≤ m
    · obtain ⟨n, hn, hmn, hnm⟩ := ih (m := m - c.utf8Size) (by omega)
      refine ⟨n + c.utf8Size, (boundary_cons (by omega)).mpr (by simpa using hn), by omega, by omega⟩
    · cases m with
      | zero => exact ⟨0, .zero _, Nat.le_refl 0, Nat.zero_le _⟩
      | succ m =>
        have hmax := c.utf8Size_le_four
        refine ⟨c.utf8Size, (boundary_cons (Nat.le_refl _)).mpr ?_, by omega, by omega⟩
        rw [Nat.sub_self]
        exact .zero cs

/-- Text found in the bytes of a text is found in the text, at the place where
those bytes are. -/
theorem infix_of_bytes {cs pat : List Char} (hpat : pat ≠ []) {before after : List UInt8}
    (h : utf8 cs = before ++ (utf8 pat ++ after)) :
    ∃ p rest, cs = p ++ (pat ++ rest) ∧ utf8 p = before := by
  have hbound : Boundary cs before.length := by
    refine boundary_iff.mpr ⟨by rw [h]; simp, fun b hb => ?_⟩
    cases pat with
    | nil => exact absurd rfl hpat
    | cons c pat =>
      obtain ⟨b', tails, henc, hfirst, -⟩ := (encoded_utf8EncodeChar c).bytes
      rw [h, utf8_cons, henc, List.getElem?_append_right (Nat.le_refl _), Nat.sub_self] at hb
      cases hb
      exact hfirst
  obtain ⟨p, ⟨rest, rfl⟩, hlen⟩ := hbound
  rw [utf8_append] at h
  obtain ⟨hp, hrest⟩ := List.append_inj h hlen
  have hprefix : utf8 pat <+: utf8 _ := ⟨after, hrest.symm⟩
  obtain ⟨rest, rfl⟩ := prefix_of_utf8_prefix hprefix
  exact ⟨p, rest, rfl, hp⟩

/-! ## Units -/

theorem unitLength_pos (b : UInt8) (bs : List UInt8) : 0 < unitLength (b :: bs) := by
  rw [unitLength]
  repeat' split
  all_goals omega

/-- The first unit of the beginning of some bytes is the beginning of their
first unit. -/
theorem unitLength_take (bs : List UInt8) (k : Nat) : unitLength (bs.take k) = min k (unitLength bs) := by
  have hzero : isTail 0 = false := by decide
  have hsecond : ∀ b, second b 0 = false := fun b => by simp [second, hzero]
  cases bs with
  | nil => simp [unitLength]
  | cons b bs =>
    match k with
    | 0 => simp [unitLength]
    | 1 =>
      have := unitLength_pos b bs
      rw [List.take_succ_cons, List.take_zero, unitLength, List.getD_nil, hsecond]
      simp only [Bool.not_false, Bool.or_true, if_true]
      omega
    | 2 =>
      cases bs with
      | nil => simp [unitLength, hsecond]
      | cons b₁ bs =>
        simp only [unitLength, List.take_succ_cons, List.take_zero, List.getD_cons_zero, List.getD_cons_succ,
          List.getD_nil, hzero, Bool.not_false, Bool.or_true, if_true]
        repeat' split
        all_goals simp
    | 3 =>
      match bs with
      | [] => simp [unitLength, hsecond]
      | [b₁] => simp [unitLength, hzero]; split <;> simp
      | b₁ :: b₂ :: bs =>
        simp only [unitLength, List.take_succ_cons, List.take_zero, List.getD_cons_zero, List.getD_cons_succ,
          List.getD_nil, hzero, Bool.not_false, Bool.or_true, if_true]
        repeat' split
        all_goals simp
    | k + 4 =>
      have hle : unitLength (b :: bs) ≤ 4 := by
        rw [unitLength]
        repeat' split
        all_goals omega
      rw [Nat.min_eq_right (by omega)]
      match bs with
      | [] => rfl
      | [b₁] => rfl
      | [b₁, b₂] => rfl
      | b₁ :: b₂ :: b₃ :: bs => rfl

theorem unitLength_le (bs : List UInt8) : unitLength bs ≤ bs.length := by
  have h := unitLength_take bs bs.length
  rw [List.take_length] at h
  omega

theorem Encoded.unitLength {u : List UInt8} (h : Encoded u) (rest : List UInt8) :
    unitLength (u ++ rest) = u.length := by
  cases h with
  | one h => simp [Utf8.unitLength, h]
  | two h h₁ => simp [Utf8.unitLength, h, h₁]
  | three h h₁ h₂ => simp [Utf8.unitLength, h, h₁, h₂]
  | four h h₁ h₂ h₃ => simp [Utf8.unitLength, h, h₁, h₂, h₃]

/-- All bytes of a unit but the first are tails. -/
theorem isTail_of_unit (b : UInt8) (bs : List UInt8) :
    ∀ x ∈ bs.take (unitLength (b :: bs) - 1), isTail x = true := by
  have hsecond : ∀ l : List UInt8, (second b (l.getD 0 0) = true) → ∀ x ∈ l.take 1, isTail x = true := by
    rintro (_ | ⟨y, l⟩) h x hx
    · simp at hx
    · obtain rfl : x = y := by simpa using hx
      exact isTail_of_second h
  have hnext : ∀ (l : List UInt8) (n : Nat), isTail (l.getD n 0) = true →
      (∀ x ∈ l.take n, isTail x = true) → ∀ x ∈ l.take (n + 1), isTail x = true := by
    intro l n h hl x hx
    rw [List.take_add_one] at hx
    rcases List.mem_append.mp hx with hx | hx
    · exact hl x hx
    · rw [Option.mem_toList] at hx
      rwa [List.getD_eq_getElem?_getD, hx] at h
  rw [unitLength]
  split
  · simp
  · next h₁ =>
    simp only [Bool.or_eq_true, not_or, Bool.not_eq_true', Bool.not_eq_false] at h₁
    have h₁ := hsecond bs h₁.2
    split
    · exact h₁
    · next h₂ =>
      simp only [Bool.or_eq_true, not_or, Bool.not_eq_true', Bool.not_eq_false] at h₂
      have h₂ := hnext bs 1 h₂.2 h₁
      split
      · exact h₂
      · next h₃ =>
        simp only [Bool.or_eq_true, not_or, Bool.not_eq_true', Bool.not_eq_false] at h₃
        exact hnext bs 2 h₃.2 h₂

/-- Bytes cut into units; `skip` bytes of the last unit are still to come. -/
def unitsFrom : Nat → List UInt8 → List (List UInt8)
  | _, [] => []
  | skip + 1, _ :: bs => unitsFrom skip bs
  | 0, b :: bs => (b :: bs).take (unitLength (b :: bs)) :: unitsFrom (unitLength (b :: bs) - 1) bs

def units (bs : List UInt8) : List (List UInt8) := unitsFrom 0 bs

theorem unitsFrom_skip (skip : Nat) (bs : List UInt8) : unitsFrom skip bs = units (bs.drop skip) := by
  induction bs generalizing skip with
  | nil => cases skip <;> rfl
  | cons b bs ih =>
    cases skip with
    | zero => rfl
    | succ skip => rw [unitsFrom, ih, List.drop_succ_cons]

@[simp] theorem units_nil : units [] = [] := rfl

theorem units_of_ne_nil {bs : List UInt8} (h : bs ≠ []) :
    units bs = bs.take (unitLength bs) :: units (bs.drop (unitLength bs)) := by
  cases bs with
  | nil => exact absurd rfl h
  | cons b bs =>
    obtain ⟨n, hn⟩ := Nat.exists_eq_add_of_lt (unitLength_pos b bs)
    rw [units, unitsFrom, unitsFrom_skip, show unitLength (b :: bs) = n + 1 by omega]
    rfl

/-- What is shown of the rest behind the first unit is shown of all bytes. -/
theorem unit_induction {motive : List UInt8 → Prop} (nil : motive [])
    (unit : ∀ bs, bs ≠ [] → motive (bs.drop (unitLength bs)) → motive bs) (bs : List UInt8) : motive bs := by
  induction hn : bs.length using Nat.strong_induction_on generalizing bs with
  | _ n ih =>
    cases bs with
    | nil => exact nil
    | cons b bs =>
      have hpos := unitLength_pos b bs
      refine unit _ (List.cons_ne_nil b bs) (ih _ ?_ _ rfl)
      rw [List.length_drop, ← hn, List.length_cons]
      omega

@[simp] theorem units_flatten (bs : List UInt8) : (units bs).flatten = bs := by
  induction bs using unit_induction with
  | nil => rfl
  | unit bs hbs ih => rw [units_of_ne_nil hbs, List.flatten_cons, ih, List.take_append_drop]

theorem units_tails {tails : List UInt8} (h : ∀ x ∈ tails, isTail x = true) (bs : List UInt8) :
    units (tails ++ bs) = tails.map (fun b => [b]) ++ units bs := by
  induction tails with
  | nil => rfl
  | cons b tails ih =>
    have hb := width_of_isTail (h b List.mem_cons_self)
    have hlen : unitLength (b :: (tails ++ bs)) = 1 := by simp [unitLength, hb]
    rw [List.cons_append, units_of_ne_nil (List.cons_ne_nil _ _), hlen]
    simp [ih fun x hx => h x (List.mem_cons_of_mem _ hx)]

theorem units_utf8_append (cs : List Char) (bs : List UInt8) :
    units (utf8 cs ++ bs) = cs.map String.utf8EncodeChar ++ units bs := by
  induction cs with
  | nil => rfl
  | cons c cs ih =>
    have hlen := (encoded_utf8EncodeChar c).unitLength (utf8 cs ++ bs)
    have hne : String.utf8EncodeChar c ++ (utf8 cs ++ bs) ≠ [] := by
      have := c.utf8Size_pos
      rw [ne_eq, ← List.length_eq_zero_iff, List.length_append, String.length_utf8EncodeChar]
      omega
    rw [utf8_cons, List.append_assoc, units_of_ne_nil hne, hlen, List.take_left, List.drop_left, ih]
    rfl

theorem units_utf8 (cs : List Char) : units (utf8 cs) = cs.map String.utf8EncodeChar := by
  simpa using units_utf8_append cs []

/-! ## Cutting -/

/-- Some bytes are cut between two units. -/
def CutsBetween (bs : List UInt8) (n : Nat) : Prop := units (bs.take n) ++ units (bs.drop n) = units bs

instance (bs : List UInt8) (n : Nat) : Decidable (CutsBetween bs n) := inferInstanceAs (Decidable (_ = _))

/-- A cut inside a unit leaves its beginning as one unit, and makes one of each
of its other bytes. -/
structure CutsInside (bs : List UInt8) (n : Nat) (left right : List (List UInt8)) (u tails : List UInt8) : Prop where
  whole : units bs = left ++ (u ++ tails) :: right
  before : units (bs.take n) = left ++ [u]
  behind : units (bs.drop n) = tails.map (fun b => [b]) ++ right
  cut : tails ≠ []
  tail : ∀ x ∈ tails, isTail x = true

theorem cut_cases (bs : List UInt8) (n : Nat) :
    CutsBetween bs n ∨ ∃ left right u tails, CutsInside bs n left right u tails := by
  induction bs using unit_induction generalizing n with
  | nil => simp [CutsBetween]
  | unit bs hbs ih =>
    by_cases hn : unitLength bs ≤ n
    · -- The first unit is before the cut.
      have htake : bs.take n ≠ [] := by
        cases bs with
        | nil => exact absurd rfl hbs
        | cons b bs =>
          have := unitLength_pos b bs
          rw [ne_eq, List.take_eq_nil_iff]
          simp only [List.cons_ne_nil, or_false]
          omega
      have hbefore : units (bs.take n) =
          bs.take (unitLength bs) :: units ((bs.drop (unitLength bs)).take (n - unitLength bs)) := by
        rw [units_of_ne_nil htake, unitLength_take, Nat.min_eq_right hn, List.take_take, Nat.min_eq_left hn,
          List.drop_take]
      have hbehind : bs.drop n = (bs.drop (unitLength bs)).drop (n - unitLength bs) := by
        rw [List.drop_drop, Nat.add_sub_cancel' hn]
      rcases ih (n - unitLength bs) with h | ⟨left, right, u, tails, h⟩
      · refine .inl ?_
        rw [CutsBetween, hbefore, hbehind, List.cons_append, h, units_of_ne_nil hbs]
      · refine .inr ⟨bs.take (unitLength bs) :: left, right, u, tails, ?_, ?_, ?_, h.cut, h.tail⟩
        · rw [units_of_ne_nil hbs, h.whole, List.cons_append]
        · rw [hbefore, h.before, List.cons_append]
        · rw [hbehind, h.behind]
    · cases n with
      | zero => exact .inl (by simp [CutsBetween])
      | succ n =>
        obtain ⟨b, bs, rfl⟩ := List.exists_cons_of_ne_nil hbs
        obtain ⟨m, hm⟩ : ∃ m, unitLength (b :: bs) = m + 1 :=
          ⟨_, (Nat.sub_add_cancel (unitLength_pos b bs)).symm⟩
        have hlen := unitLength_le (b :: bs)
        rw [hm] at hn hlen
        simp only [List.length_cons] at hlen
        obtain ⟨p, tails, rest, rfl, hp, ht⟩ :
            ∃ p tails rest, bs = p ++ (tails ++ rest) ∧ p.length = n ∧ tails.length = m - n :=
          ⟨bs.take n, (bs.drop n).take (m - n), (bs.drop n).drop (m - n),
            by rw [List.take_append_drop, List.take_append_drop],
            by rw [List.length_take]; omega, by rw [List.length_take, List.length_drop]; omega⟩
        have htake : (p ++ (tails ++ rest)).take m = p ++ tails := by
          rw [← List.append_assoc]
          exact List.take_left' (by rw [List.length_append]; omega)
        have hrest : (p ++ (tails ++ rest)).drop m = rest := by
          rw [← List.append_assoc]
          exact List.drop_left' (by rw [List.length_append]; omega)
        have htails : ∀ x ∈ tails, isTail x = true := fun x hx =>
          isTail_of_unit b _ x (by rw [hm, Nat.add_sub_cancel, htake]; exact List.mem_append_right p hx)
        have hbefore : unitLength (b :: p) = n + 1 := by
          have := unitLength_take (b :: (p ++ (tails ++ rest))) (n + 1)
          rwa [List.take_succ_cons, hm, Nat.min_eq_left (by omega), List.take_left' hp] at this
        refine .inr ⟨[], units rest, b :: p, tails, ?_, ?_, ?_, ?_, htails⟩
        · rw [units_of_ne_nil hbs, hm, List.take_succ_cons, List.drop_succ_cons, htake, hrest]
          rfl
        · rw [List.take_succ_cons, List.take_left' hp, units_of_ne_nil (List.cons_ne_nil _ _), hbefore,
            List.take_of_length_le (by simp [hp]), List.drop_eq_nil_of_le (by simp [hp])]
          rfl
        · rw [List.drop_succ_cons, List.drop_left' hp, units_tails htails]
        · rw [ne_eq, ← List.length_eq_zero_iff]
          omega

theorem mem_units {u bs : List UInt8} (h : u ∈ units bs) : u ≠ [] ∧ unitLength u = u.length := by
  induction bs using unit_induction with
  | nil => simp at h
  | unit bs hbs ih =>
    rw [units_of_ne_nil hbs] at h
    rcases List.mem_cons.mp h with rfl | h
    · obtain ⟨b, bs, rfl⟩ := List.exists_cons_of_ne_nil hbs
      have hpos := unitLength_pos b bs
      have hle := unitLength_le (b :: bs)
      refine ⟨fun hnil => ?_, ?_⟩
      · rcases List.take_eq_nil_iff.mp hnil with h0 | h0
        · omega
        · cases h0
      · rw [unitLength_take, List.length_take, Nat.min_self, Nat.min_eq_left hle]
    · exact ih h

/-- Text is cut between two units where a character begins. -/
theorem cutsBetween_utf8 {cs : List Char} {n : Nat} (hn : n ≤ (utf8 cs).length) :
    CutsBetween (utf8 cs) n ↔ Boundary cs n := by
  constructor
  · intro h
    rw [CutsBetween, units_utf8] at h
    obtain ⟨p, rest, rfl, hp, -⟩ := List.append_eq_map_iff.mp h
    refine ⟨p, List.prefix_append p rest, ?_⟩
    rw [← units_utf8] at hp
    have := congrArg List.flatten hp
    rw [units_flatten, units_flatten] at this
    rw [this, List.length_take, Nat.min_eq_left hn]
  · rintro ⟨p, ⟨rest, rfl⟩, rfl⟩
    rw [CutsBetween, utf8_append, List.take_left, List.drop_left, units_utf8_append, units_utf8]

/-! ## Decoding what may not be UTF-8 -/

def replacement : Char := '\uFFFD'

def decodeUnit (u : List UInt8) : List Char := (utf8? u).getD [replacement]

/-- Each unit that is no character is replaced. -/
def lossy (bs : List UInt8) : List Char := (units bs).flatMap decodeUnit

@[simp] theorem lossy_nil : lossy [] = [] := rfl

theorem decodeUnit_utf8EncodeChar (c : Char) : decodeUnit (String.utf8EncodeChar c) = [c] := by
  have : utf8? (String.utf8EncodeChar c) = some [c] := by
    rw [← utf8?_utf8 [c], utf8_cons, utf8_nil, List.append_nil]
  rw [decodeUnit, this]
  rfl

theorem lossy_utf8_append (cs : List Char) (bs : List UInt8) : lossy (utf8 cs ++ bs) = cs ++ lossy bs := by
  rw [lossy, units_utf8_append, List.flatMap_append, lossy]
  congr 1
  induction cs with
  | nil => rfl
  | cons c cs ih => rw [List.map_cons, List.flatMap_cons, ih, decodeUnit_utf8EncodeChar, List.singleton_append]

@[simp] theorem lossy_utf8 (cs : List Char) : lossy (utf8 cs) = cs := by simpa using lossy_utf8_append cs []

/-- A unit reads as one character, whether it is one or not. -/
theorem length_decodeUnit {u bs : List UInt8} (h : u ∈ units bs) : (decodeUnit u).length = 1 := by
  obtain ⟨hne, hlen⟩ := mem_units h
  rw [decodeUnit]
  cases hu : utf8? u with
  | none => rfl
  | some cs =>
    obtain rfl := utf8_of_utf8? hu
    cases cs with
    | nil => exact absurd rfl hne
    | cons c cs =>
      rw [utf8_cons, (encoded_utf8EncodeChar c).unitLength, List.length_append] at hlen
      have hrest : (utf8 cs).length = 0 := by omega
      rw [utf8_eq_nil.mp (List.length_eq_zero_iff.mp hrest)]
      rfl

theorem length_lossy (bs : List UInt8) : (lossy bs).length = (units bs).length := by
  rw [lossy, List.length_flatMap, List.map_congr_left fun u hu => length_decodeUnit hu]
  simp

/-- The two parts of a cut read as the whole does only if no unit is cut. -/
theorem lossy_cut_iff (bs : List UInt8) (n : Nat) :
    lossy (bs.take n) ++ lossy (bs.drop n) = lossy bs ↔ CutsBetween bs n := by
  constructor
  · intro h
    rcases cut_cases bs n with hcut | ⟨left, right, u, tails, hcut⟩
    · exact hcut
    · have hlen := congrArg List.length h
      have hpos := List.length_pos_of_ne_nil hcut.cut
      rw [List.length_append, length_lossy, length_lossy, length_lossy, hcut.before, hcut.behind, hcut.whole] at hlen
      simp only [List.length_append, List.length_cons, List.length_map, List.length_nil] at hlen
      omega
  · intro h
    rw [lossy, lossy, lossy, ← List.flatMap_append, h]

/-- Decoding makes three bytes of one at the most. -/
theorem length_utf8_lossy (bs : List UInt8) : (utf8 (lossy bs)).length ≤ 3 * bs.length := by
  have hunit : ∀ us : List (List UInt8), (∀ u ∈ us, u ≠ []) →
      (utf8 (us.flatMap decodeUnit)).length ≤ 3 * us.flatten.length := by
    intro us hus
    induction us with
    | nil => simp
    | cons u us ih =>
      have hrest := ih fun v hv => hus v (List.mem_cons_of_mem _ hv)
      have hpos := List.length_pos_of_ne_nil (hus u List.mem_cons_self)
      have hu : (utf8 (decodeUnit u)).length ≤ 3 * u.length := by
        rw [decodeUnit]
        cases hdec : utf8? u with
        | none =>
          have : (utf8 [replacement]).length = 3 := by decide
          simp only [Option.getD_none]
          omega
        | some cs =>
          simp only [Option.getD_some, utf8_of_utf8? hdec]
          omega
      rw [List.flatMap_cons, utf8_append, List.length_append, List.flatten_cons, List.length_append]
      omega
  have := hunit (units bs) fun u hu => (mem_units hu).1
  rwa [units_flatten] at this

end Utf8
