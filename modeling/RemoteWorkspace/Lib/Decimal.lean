import Mathlib.Data.List.Basic
import RemoteWorkspace.Lib.Text

/-!
# Decimal text

Reading a natural number below a bound from decimal text, as `str::parse`
reads an unsigned machine integer, and that it reads back what `toString`
writes (`parse_repr`).
-/

namespace Decimal

/-- The number below `bound` that decimal text denotes; one `+` may come
first. -/
def parse (bound : Nat) (cs : List Char) : Option Nat :=
  let digits := if cs.head? = some '+' then cs.tail else cs
  if digits ≠ [] ∧ digits.all Char.isDigit ∧ Nat.ofDigitChars 10 digits 0 < bound then
    some (Nat.ofDigitChars 10 digits 0)
  else none

theorem lt_of_parse {bound n : Nat} {cs : List Char} (h : parse bound cs = some n) : n < bound := by
  simp only [parse, Option.ite_none_right_eq_some, Option.some.injEq] at h
  obtain ⟨⟨-, -, hlt⟩, rfl⟩ := h
  exact hlt

theorem isDigit_of_mem_repr {n : Nat} {c : Char} (h : c ∈ n.repr.toList) : c.isDigit = true := by
  rw [Nat.toList_repr] at h
  exact Nat.isDigit_of_mem_toDigits (by decide) (by decide) h

theorem repr_ne_nil (n : Nat) : n.repr.toList ≠ [] := by
  rw [Nat.toList_repr]
  exact Nat.toDigits_ne_nil

theorem not_isWhitespace_of_isDigit {c : Char} (h : c.isDigit = true) : Text.isWhitespace c = false := by
  have hrange : 48 ≤ c.toNat ∧ c.toNat ≤ 57 := by
    simpa [Char.isDigit, UInt32.le_iff_toNat_le] using h
  simp only [Text.isWhitespace, List.contains_eq_mem]
  simp
  omega

theorem parse_repr {bound n : Nat} (h : n < bound) : parse bound n.repr.toList = some n := by
  have hplus : n.repr.toList.head? ≠ some '+' := by
    intro hh
    have := isDigit_of_mem_repr (List.mem_of_mem_head? hh)
    exact absurd this (by decide)
  have hdigits : n.repr.toList.all Char.isDigit = true :=
    List.all_eq_true.mpr fun _ => isDigit_of_mem_repr
  have hvalue : Nat.ofDigitChars 10 n.repr.toList 0 = n := by
    rw [Nat.toList_repr, Nat.ofDigitChars_ten_toDigits]
  simp only [parse, if_neg hplus, hdigits, hvalue, repr_ne_nil, ne_eq, not_false_eq_true, h, and_self,
    if_true]

/-- Trimming takes the newline off a line that holds a number. -/
theorem trim_repr_newline (n : Nat) : Text.trim (n.repr.toList ++ ['\n']) = n.repr.toList := by
  have hplain : ∀ c ∈ n.repr.toList, Text.isWhitespace c = false := fun _ hc =>
    not_isWhitespace_of_isDigit (isDigit_of_mem_repr hc)
  rw [Text.trim_concat (by decide), Text.trim_eq_self hplain]

theorem repr_inj {m n : Nat} (h : m.repr = n.repr) : m = n := by
  have := congrArg (fun s => Nat.ofDigitChars 10 s.toList 0) h
  simpa only [Nat.toList_repr, Nat.ofDigitChars_ten_toDigits] using this

end Decimal
