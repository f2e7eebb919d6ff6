import Mathlib.Algebra.GroupWithZero.Nat
import Mathlib.Data.List.Infix
import Mathlib.Data.List.Basic
import Mathlib.Tactic.Common

/-!
# Cutting a list at the occurrences of a pattern

The occurrences of `pat` in a list, taken from the left and none overlapping
the one before, cut the list into pieces (`CutAt`): the pieces with `pat` between
them are the list (`CutAt.join`), and there is only one way to cut it
(`CutAt.unique`). With another list between the pieces the occurrences are
replaced, and the weight of the result follows from their number
(`CutAt.weight`).
-/

namespace Occurrences

variable {α : Type}

/-- `cs` is `before`, the leftmost occurrence of `pat`, and `after`. -/
def First (pat cs before after : List α) : Prop :=
  cs = before ++ (pat ++ after) ∧ ∀ b a, cs = b ++ (pat ++ a) → before.length ≤ b.length

inductive CutAt (pat : List α) : List α → List (List α) → Prop
  | last {cs : List α} : ¬ pat <:+: cs → CutAt pat cs [cs]
  | next {cs before after : List α} {pieces : List (List α)} :
      First pat cs before after → CutAt pat after pieces → CutAt pat cs (before :: pieces)

variable {pat cs : List α} {pieces pieces' : List (List α)}

theorem First.unique {b a b' a' : List α} (h : First pat cs b a) (h' : First pat cs b' a') : b = b' ∧ a = a' := by
  have hle := h.2 b' a' h'.1
  have hle' := h'.2 b a h.1
  obtain ⟨hb, hrest⟩ := List.append_inj (h.1.symm.trans h'.1) (by omega)
  exact ⟨hb, List.append_cancel_left hrest⟩

theorem CutAt.ne_nil (h : CutAt pat cs pieces) : pieces ≠ [] := by
  cases h <;> simp

theorem CutAt.unique (h : CutAt pat cs pieces) (h' : CutAt pat cs pieces') : pieces = pieces' := by
  induction h generalizing pieces' with
  | last hno =>
    cases h' with
    | last => rfl
    | next hfirst => exact absurd ⟨_, _, by rw [hfirst.1, List.append_assoc]⟩ hno
  | next hfirst _ ih =>
    cases h' with
    | last hno => exact absurd ⟨_, _, by rw [hfirst.1, List.append_assoc]⟩ hno
    | next hfirst' hcut =>
      obtain ⟨rfl, rfl⟩ := hfirst.unique hfirst'
      rw [ih hcut]

theorem CutAt.join (h : CutAt pat cs pieces) : pat.intercalate pieces = cs := by
  induction h with
  | last => simp
  | next hfirst hcut ih =>
    rw [List.intercalate_cons_of_ne_nil hcut.ne_nil, ih, hfirst.1, List.append_assoc]

theorem CutAt.length_eq_one_iff (h : CutAt pat cs pieces) : pieces.length = 1 ↔ ¬ pat <:+: cs := by
  cases h with
  | last hno => simp [hno]
  | next hfirst hcut =>
    have := List.length_pos_of_ne_nil hcut.ne_nil
    refine ⟨fun hlen => ?_, fun hno => absurd ⟨_, _, by rw [hfirst.1, List.append_assoc]⟩ hno⟩
    simp only [List.length_cons] at hlen
    omega

/-- There is more than one occurrence to cut at exactly if some two do not
overlap. -/
theorem CutAt.two_lt_length_iff (h : CutAt pat cs pieces) :
    2 < pieces.length ↔ ∃ a b c, cs = a ++ (pat ++ (b ++ (pat ++ c))) := by
  constructor
  · intro hlen
    cases h with
    | last => simp at hlen
    | @next _ before after rest hfirst hcut =>
      cases hcut with
      | last => simp at hlen
      | @next _ before' after' _ hfirst' _ => exact ⟨before, before', after', by rw [hfirst.1, hfirst'.1]⟩
  · rintro ⟨a, b, c, heq⟩
    cases h with
    | last hno => exact absurd ⟨a, b ++ (pat ++ c), by rw [heq, List.append_assoc]⟩ hno
    | @next _ before after rest hfirst hcut =>
      -- the first occurrence is not behind that at `a`, so the other one is behind it
      obtain ⟨hcs, hmin⟩ := hfirst
      have hle := hmin a _ heq
      have hbehind : (b ++ (pat ++ c)) <:+ after := by
        refine @List.suffix_of_suffix_length_le _ _ cs _ ⟨a ++ pat, ?_⟩ ⟨before ++ pat, ?_⟩ ?_
        · rw [heq, List.append_assoc]
        · rw [hcs, List.append_assoc]
        · have hlen := congrArg List.length (hcs.symm.trans heq)
          simp only [List.length_append] at hlen ⊢
          omega
      have hin : pat <:+: after := by
        obtain ⟨d, rfl⟩ := hbehind
        exact ⟨d ++ b, c, by simp⟩
      have hne : rest.length ≠ 1 := fun hone => hcut.length_eq_one_iff.mp hone hin
      have hpos := List.length_pos_of_ne_nil hcut.ne_nil
      rw [List.length_cons]
      omega

/-- A list that does not begin with the pattern is cut where its tail is. -/
theorem CutAt.cons {c : α} {p : List α} (hno : ¬ pat <+: c :: cs) (h : CutAt pat cs (p :: pieces)) :
    CutAt pat (c :: cs) ((c :: p) :: pieces) := by
  cases h with
  | last h =>
    refine .last fun hin => ?_
    rcases List.infix_cons_iff.mp hin with hin | hin
    · exact hno hin
    · exact h hin
  | @next _ _ after _ hfirst hcut =>
    refine .next ⟨by rw [hfirst.1]; rfl, fun b a heq => ?_⟩ hcut
    cases b with
    | nil => exact absurd ⟨a, heq.symm⟩ hno
    | cons d b =>
      have := hfirst.2 b a (List.cons.inj heq).2
      simpa using this

/-- A list that begins with the pattern. -/
theorem CutAt.here {after : List α} (h : CutAt pat after pieces) : CutAt pat (pat ++ after) ([] :: pieces) :=
  .next ⟨rfl, fun _ _ _ => Nat.zero_le _⟩ h

/-! ## Weights -/

def weight (w : α → Nat) (cs : List α) : Nat := (cs.map w).sum

theorem weight_append (w : α → Nat) (cs ds : List α) : weight w (cs ++ ds) = weight w cs + weight w ds := by
  simp [weight]

theorem weight_intercalate (w : α → Nat) (sep : List α) : ∀ {pieces : List (List α)}, pieces ≠ [] →
    weight w (sep.intercalate pieces) = (pieces.map (weight w)).sum + (pieces.length - 1) * weight w sep
  | [p], _ => by simp
  | p :: q :: pieces, _ => by
    have ih := weight_intercalate w sep (List.cons_ne_nil q pieces)
    rw [List.intercalate_cons_of_ne_nil (by simp), weight_append, weight_append, ih]
    simp only [List.map_cons, List.sum_cons, List.length_cons, Nat.add_sub_cancel, Nat.add_mul, Nat.one_mul]
    omega

/-- What the occurrences weigh, and what the list weighs once they are
replaced. -/
theorem CutAt.weight (h : CutAt pat cs pieces) (w : α → Nat) (new : List α) :
    (pieces.length - 1) * Occurrences.weight w pat ≤ Occurrences.weight w cs ∧
      Occurrences.weight w (new.intercalate pieces) =
        Occurrences.weight w cs - (pieces.length - 1) * Occurrences.weight w pat +
          (pieces.length - 1) * Occurrences.weight w new := by
  have hold := weight_intercalate w pat h.ne_nil
  have hnew := weight_intercalate w new h.ne_nil
  rw [h.join] at hold
  omega

end Occurrences
