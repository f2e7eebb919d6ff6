import RemoteWorkspace.Lib.Text

/-!
# Base64

The standard alphabet with padding: three bytes are four digits of six bits,
and the last group is padded where it has fewer. Reading it back is strict:
padding stands only at the end, and the bits that are no part of a byte are
zero.
-/

namespace Base64

open Text

/-- The digit for six bits. -/
def digit (n : Nat) : Char :=
  if n < 26 then Char.ofNat (65 + n)
  else if n < 52 then Char.ofNat (97 + (n - 26))
  else if n < 62 then Char.ofNat (48 + (n - 52))
  else if n = 62 then '+'
  else '/'

def value? (c : Char) : Option Nat :=
  if 65 ≤ c.toNat ∧ c.toNat ≤ 90 then some (c.toNat - 65)
  else if 97 ≤ c.toNat ∧ c.toNat ≤ 122 then some (c.toNat - 97 + 26)
  else if 48 ≤ c.toNat ∧ c.toNat ≤ 57 then some (c.toNat - 48 + 52)
  else if c = '+' then some 62
  else if c = '/' then some 63
  else none

theorem value?_digit {n : Nat} (h : n < 64) : value? (digit n) = some n := by
  have : ∀ n : Fin 64, value? (digit n) = some n.val := by decide
  exact this ⟨n, h⟩

theorem digit_ne {n : Nat} (h : n < 64) {c : Char} (hc : value? c = none) : digit n ≠ c := by
  rintro rfl
  rw [value?_digit h] at hc
  cases hc

def encode : List UInt8 → List Char
  | [] => []
  | [a] => [digit (a.toNat / 4), digit (a.toNat % 4 * 16), '=', '=']
  | [a, b] => [digit (a.toNat / 4), digit (a.toNat % 4 * 16 + b.toNat / 16), digit (b.toNat % 16 * 4), '=']
  | a :: b :: c :: bytes =>
    digit (a.toNat / 4) :: digit (a.toNat % 4 * 16 + b.toNat / 16) ::
      digit (b.toNat % 16 * 4 + c.toNat / 64) :: digit (c.toNat % 64) :: encode bytes

/-- The bytes of four characters; of the last four, if `last`. -/
def quad (last : Bool) (w x y z : Char) : Option (List UInt8) := do
  let w ← value? w
  let x ← value? x
  if last ∧ y = '=' ∧ z = '=' then
    if x % 16 = 0 then some [UInt8.ofNat (w * 4 + x / 16)] else none
  else
    let y ← value? y
    if last ∧ z = '=' then
      if y % 4 = 0 then some [UInt8.ofNat (w * 4 + x / 16), UInt8.ofNat (x % 16 * 16 + y / 4)] else none
    else
      let z ← value? z
      some [UInt8.ofNat (w * 4 + x / 16), UInt8.ofNat (x % 16 * 16 + y / 4), UInt8.ofNat (y % 4 * 64 + z)]

def decode? : List Char → Option (List UInt8)
  | [] => some []
  | w :: x :: y :: z :: cs => do
    let bytes ← quad cs.isEmpty w x y z
    let more ← decode? cs
    some (bytes ++ more)
  | _ => none

theorem quad_one (a : UInt8) :
    quad true (digit (a.toNat / 4)) (digit (a.toNat % 4 * 16)) '=' '=' = some [a] := by
  have ha := a.toNat_lt
  rw [quad, value?_digit (by omega), value?_digit (by omega)]
  have hbyte : a.toNat / 4 * 4 + a.toNat % 4 * 16 / 16 = a.toNat := by omega
  have hpad : a.toNat % 4 * 16 % 16 = 0 := by omega
  simp only [Option.bind_eq_bind, Option.bind_some, and_self, if_true, hbyte, hpad, UInt8.ofNat_toNat]

theorem quad_two (a b : UInt8) :
    quad true (digit (a.toNat / 4)) (digit (a.toNat % 4 * 16 + b.toNat / 16)) (digit (b.toNat % 16 * 4)) '=' =
      some [a, b] := by
  have ha := a.toNat_lt
  have hb := b.toNat_lt
  have hy := digit_ne (n := b.toNat % 16 * 4) (by omega) (c := '=') (by decide)
  rw [quad, value?_digit (by omega), value?_digit (by omega), value?_digit (by omega)]
  have h₁ : a.toNat / 4 * 4 + (a.toNat % 4 * 16 + b.toNat / 16) / 16 = a.toNat := by omega
  have h₂ : (a.toNat % 4 * 16 + b.toNat / 16) % 16 * 16 + b.toNat % 16 * 4 / 4 = b.toNat := by omega
  have hpad : b.toNat % 16 * 4 % 4 = 0 := by omega
  simp only [Option.bind_eq_bind, Option.bind_some, hy, false_and, and_false, and_self, if_false, if_true, h₁,
    h₂, hpad, UInt8.ofNat_toNat]

theorem quad_three (last : Bool) (a b c : UInt8) :
    quad last (digit (a.toNat / 4)) (digit (a.toNat % 4 * 16 + b.toNat / 16))
      (digit (b.toNat % 16 * 4 + c.toNat / 64)) (digit (c.toNat % 64)) = some [a, b, c] := by
  have ha := a.toNat_lt
  have hb := b.toNat_lt
  have hc := c.toNat_lt
  have hy := digit_ne (n := b.toNat % 16 * 4 + c.toNat / 64) (by omega) (c := '=') (by decide)
  have hz := digit_ne (n := c.toNat % 64) (by omega) (c := '=') (by decide)
  rw [quad, value?_digit (by omega), value?_digit (by omega), value?_digit (by omega),
    value?_digit (by omega)]
  have h₁ : a.toNat / 4 * 4 + (a.toNat % 4 * 16 + b.toNat / 16) / 16 = a.toNat := by omega
  have h₂ : (a.toNat % 4 * 16 + b.toNat / 16) % 16 * 16 + (b.toNat % 16 * 4 + c.toNat / 64) / 4 =
      b.toNat := by omega
  have h₃ : (b.toNat % 16 * 4 + c.toNat / 64) % 4 * 64 + c.toNat % 64 = c.toNat := by omega
  simp only [Option.bind_eq_bind, Option.bind_some, hy, hz, and_false, if_false, h₁, h₂, h₃,
    UInt8.ofNat_toNat]

theorem decode?_encode (bytes : List UInt8) : decode? (encode bytes) = some bytes := by
  induction bytes using encode.induct with
  | case1 => rfl
  | case2 a =>
    rw [encode, decode?, List.isEmpty_nil, quad_one]
    rfl
  | case3 a b =>
    rw [encode, decode?, List.isEmpty_nil, quad_two]
    rfl
  | case4 a b c bytes ih =>
    rw [encode, decode?, quad_three, ih]
    rfl

theorem decode?_cases {cs : List Char} {xs : List UInt8} (h : decode? cs = some xs) :
    xs = [] ∨ ∃ w x y z ds bytes more, cs = w :: x :: y :: z :: ds ∧ quad ds.isEmpty w x y z = some bytes ∧
      decode? ds = some more ∧ xs = bytes ++ more := by
  rw [decode?.eq_def] at h
  split at h
  · cases h
    exact .inl rfl
  · rename_i w x y z ds
    obtain ⟨bytes, hquad, h⟩ := Option.bind_eq_some_iff.mp h
    obtain ⟨more, hmore, h⟩ := Option.bind_eq_some_iff.mp h
    exact .inr ⟨w, x, y, z, ds, bytes, more, rfl, hquad, hmore, (Option.some.inj h).symm⟩
  · cases h

/-- What can be read of a part of a text is a part of its bytes. -/
theorem decode?_torn {bytes : List UInt8} {cs : List Char} (h : cs <+: encode bytes) {xs : List UInt8}
    (hd : decode? cs = some xs) : xs <+: bytes := by
  obtain rfl | ⟨w, x, y, z, ds, bs, more, rfl, hquad, hmore, rfl⟩ := decode?_cases hd
  · exact List.nil_prefix
  induction bytes using encode.induct generalizing w x y z ds bs more with
  | case1 =>
    rw [encode, List.prefix_nil] at h
    cases h
  | case2 a =>
    simp only [encode, List.cons_prefix_cons, List.prefix_nil] at h
    obtain ⟨rfl, rfl, rfl, rfl, rfl⟩ := h
    rw [List.isEmpty_nil, quad_one] at hquad
    cases hquad
    cases hmore
    exact List.prefix_refl _
  | case3 a b =>
    simp only [encode, List.cons_prefix_cons, List.prefix_nil] at h
    obtain ⟨rfl, rfl, rfl, rfl, rfl⟩ := h
    rw [List.isEmpty_nil, quad_two] at hquad
    cases hquad
    cases hmore
    exact List.prefix_refl _
  | case4 a b c bytes ih =>
    simp only [encode, List.cons_prefix_cons] at h
    obtain ⟨rfl, rfl, rfl, rfl, hds⟩ := h
    rw [quad_three] at hquad
    cases hquad
    refine (List.prefix_append_right_inj [a, b, c]).mpr ?_
    obtain rfl | ⟨w', x', y', z', ds', bs', more', rfl, hquad', hmore', rfl⟩ := decode?_cases hmore
    · exact List.nil_prefix
    · exact ih w' x' y' z' ds' bs' more' hds hquad' hmore' hmore

/-- What the text of bytes is made of. -/
theorem mem_encode {c : Char} {bytes : List UInt8} (h : c ∈ encode bytes) : c = '=' ∨ (value? c).isSome := by
  have hdigit : ∀ n, n < 64 → (value? (digit n)).isSome := fun n hn => by rw [value?_digit hn]; rfl
  induction bytes using encode.induct with
  | case1 => cases h
  | case2 a =>
    have ha := a.toNat_lt
    rw [encode] at h
    simp only [List.mem_cons, List.not_mem_nil, or_false] at h
    rcases h with rfl | rfl | rfl | rfl
    · exact .inr (hdigit _ (by omega))
    · exact .inr (hdigit _ (by omega))
    · exact .inl rfl
    · exact .inl rfl
  | case3 a b =>
    have ha := a.toNat_lt
    have hb := b.toNat_lt
    rw [encode] at h
    simp only [List.mem_cons, List.not_mem_nil, or_false] at h
    rcases h with rfl | rfl | rfl | rfl
    · exact .inr (hdigit _ (by omega))
    · exact .inr (hdigit _ (by omega))
    · exact .inr (hdigit _ (by omega))
    · exact .inl rfl
  | case4 a b c bytes ih =>
    have ha := a.toNat_lt
    have hb := b.toNat_lt
    have hc := c.toNat_lt
    rw [encode] at h
    simp only [List.mem_cons] at h
    rcases h with rfl | rfl | rfl | rfl | h
    · exact .inr (hdigit _ (by omega))
    · exact .inr (hdigit _ (by omega))
    · exact .inr (hdigit _ (by omega))
    · exact .inr (hdigit _ (by omega))
    · exact ih h

/-- Base64 as a format. -/
def standard : ByteFormat where
  encode := encode
  decode cs :=
    match decode? cs with
    | some bytes => .ok bytes
    | none => .error "invalid Base64"
  decode_encode bytes := by rw [decode?_encode]
  newline_not_mem _ h := absurd (mem_encode h) (by decide)
  return_not_mem _ h := absurd (mem_encode h) (by decide)

example : encode [104, 105, 33, 33] = "aGkhIQ==".toList := by decide

end Base64
