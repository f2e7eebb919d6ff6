import Mathlib.Data.Finset.Card
import RemoteWorkspace.Lib.Utf8
import RemoteWorkspace.Server.EditLists

/-!
# Where a single replacement is made

An edit without `replace_all` is meant for a text that occurs once. The code
counts matches from the left that do not overlap; the places at which the text
occurs (`occurrences`) are positions in the bytes of the file. The two counts
agree on none and on one unless the occurrences overlap, all of them
(`single_edit_iff`).
-/

namespace RemoteWorkspace

open Occurrences Text Utf8

/-- The byte positions at which a text occurs in another, where it may overlap
itself. -/
def occurrences (old content : List Char) : Finset Nat :=
  (Finset.range ((utf8 content).length + 1)).filter fun n => (utf8 old).isPrefixOf ((utf8 content).drop n)

section

variable {old content : List Char} {n : Nat}

theorem mem_occurrences : n ∈ occurrences old content ↔
    ∃ before after, utf8 content = before ++ (utf8 old ++ after) ∧ before.length = n := by
  rw [occurrences, Finset.mem_filter, Finset.mem_range, List.isPrefixOf_iff_prefix]
  constructor
  · rintro ⟨hn, after, hafter⟩
    refine ⟨(utf8 content).take n, after, ?_, by rw [List.length_take]; omega⟩
    rw [hafter, List.take_append_drop]
  · rintro ⟨before, after, heq, rfl⟩
    rw [heq, List.drop_left, List.length_append]
    exact ⟨by omega, List.prefix_append _ _⟩

/-- A text occurs in the bytes where it occurs in the characters. -/
theorem occurrences_nonempty_iff (hold : old ≠ []) : (occurrences old content).Nonempty ↔ old <:+: content := by
  constructor
  · rintro ⟨n, hn⟩
    obtain ⟨before, after, heq, -⟩ := mem_occurrences.mp hn
    obtain ⟨p, rest, rfl, -⟩ := infix_of_bytes hold heq
    exact ⟨p, rest, by rw [List.append_assoc]⟩
  · rintro ⟨p, rest, rfl⟩
    exact ⟨(utf8 p).length, mem_occurrences.mpr ⟨utf8 p, utf8 rest, by simp, rfl⟩⟩

/-- Two places at which a text occurs that do not overlap. -/
def OccursApart (old content : List Char) : Prop :=
  ∃ m ∈ occurrences old content, ∃ n ∈ occurrences old content, m + (utf8 old).length ≤ n

theorem occursApart_iff (hold : old ≠ []) :
    OccursApart old content ↔ ∃ a b c, content = a ++ (old ++ (b ++ (old ++ c))) := by
  constructor
  · rintro ⟨m, hm, n, hn, hle⟩
    obtain ⟨before, after, heq, rfl⟩ := mem_occurrences.mp hm
    obtain ⟨before', after', heq', rfl⟩ := mem_occurrences.mp hn
    obtain ⟨p, rest, rfl, rfl⟩ := infix_of_bytes hold heq
    -- the second occurrence is in the text behind the first
    rw [utf8_append, utf8_append] at heq'
    have hpre : utf8 p ++ utf8 old <+: before' :=
      @List.prefix_of_prefix_length_le _ _ _ (utf8 p ++ (utf8 old ++ utf8 rest)) ⟨utf8 rest, by simp⟩
        ⟨utf8 old ++ after', heq'.symm⟩ (by rw [List.length_append]; omega)
    obtain ⟨between, rfl⟩ := hpre
    have hrest : utf8 rest = between ++ (utf8 old ++ after') := by simpa using heq'
    obtain ⟨q, rest, rfl, -⟩ := infix_of_bytes hold hrest
    exact ⟨p, q, rest, rfl⟩
  · rintro ⟨a, b, c, rfl⟩
    refine ⟨(utf8 a).length, mem_occurrences.mpr ⟨utf8 a, utf8 (b ++ (old ++ c)), by simp, rfl⟩,
      (utf8 (a ++ old ++ b)).length, mem_occurrences.mpr ⟨utf8 (a ++ old ++ b), utf8 c, by simp, rfl⟩, ?_⟩
    simp only [utf8_append, List.length_append]
    omega

/-- Occurrences that do not overlap are more than one. -/
theorem OccursApart.one_lt_card (hold : old ≠ []) (h : OccursApart old content) : 1 < (occurrences old content).card := by
  obtain ⟨m, hm, n, hn, hle⟩ := h
  have hpos : 0 < (utf8 old).length := List.length_pos_of_ne_nil fun hnil => hold (utf8_eq_nil.mp hnil)
  exact Finset.one_lt_card.mpr ⟨m, hm, n, hn, by omega⟩

theorem countMatches_eq_zero_iff (hold : old ≠ []) (content : List Char) : countMatches old content = 0 ↔ (occurrences old content).card = 0 := by
  have hcut := cut_splitText hold content
  have hpos := List.length_pos_of_ne_nil hcut.ne_nil
  rw [Finset.card_eq_zero, ← Finset.not_nonempty_iff_eq_empty, occurrences_nonempty_iff hold,
    ← hcut.length_eq_one_iff, countMatches]
  omega

theorem one_lt_countMatches_iff (hold : old ≠ []) (content : List Char) : 1 < countMatches old content ↔ OccursApart old content := by
  rw [occursApart_iff hold, ← (cut_splitText hold content).two_lt_length_iff, countMatches]
  omega

end

/-! ## Single edits -/

/-- The edit is refused with an error of this code. -/
def EditSpec.RefusedWith (e : EditSpec) (path place : String) (content : List Char) (code : ErrorCode) : Prop :=
  ∃ err, applyEdit path place e content = .error err ∧ err.code = code

/-- That an edit is applied only where its old text occurs at one place, and is
refused as not found or as ambiguous exactly where it occurs at none or at
several. -/
structure EditSpec.Unambiguous (e : EditSpec) (path place : String) (content : List Char) : Prop where
  applied : ∀ result, applyEdit path place e content = .ok result →
    (occurrences e.oldText.toList content).card = 1
  noMatch : e.RefusedWith path place content .noMatch ↔ (occurrences e.oldText.toList content).card = 0
  ambiguous : e.RefusedWith path place content .ambiguousMatch ↔ 1 < (occurrences e.oldText.toList content).card

section

variable {e : EditSpec} {path place : String} {content : List Char}

theorem EditSpec.RefusedWith.unique {code code' : ErrorCode} (h : e.RefusedWith path place content code)
    (h' : e.RefusedWith path place content code') : code = code' := by
  obtain ⟨err, herr, rfl⟩ := h
  obtain ⟨err', herr', rfl⟩ := h'
  rw [Except.error.inj (herr.symm.trans herr')]

theorem EditSpec.RefusedWith.not_applied {code : ErrorCode} (h : e.RefusedWith path place content code)
    (result : List Char) : applyEdit path place e content ≠ .ok result := by
  obtain ⟨err, herr, -⟩ := h
  rw [herr]
  simp

/-- What becomes of an edit that is to replace one match goes by the count of
matches. -/
theorem applyEdit_single (path place : String) (content : List Char) (hsingle : e.replaceAll = false) :
    (countMatches e.oldText.toList content = 0 ∧ e.RefusedWith path place content .noMatch) ∨
    (1 < countMatches e.oldText.toList content ∧ e.RefusedWith path place content .ambiguousMatch) ∨
    (countMatches e.oldText.toList content = 1 ∧
      (e.RefusedWith path place content .invalidRequest ∨ ∃ result, applyEdit path place e content = .ok result)) := by
  unfold EditSpec.RefusedWith applyEdit
  dsimp only
  split
  · next h => exact .inl ⟨h, _, rfl, rfl⟩
  split
  · next h => exact .inr (.inl ⟨h.1, _, rfl, rfl⟩)
  next hpos hone =>
    have hcount : countMatches e.oldText.toList content = 1 := by
      by_contra hne
      exact hone ⟨by omega, hsingle⟩
    refine .inr (.inr ⟨hcount, ?_⟩)
    simp only [hsingle, Bool.false_eq_true, if_false]
    split
    · exact .inl ⟨_, rfl, rfl⟩
    · exact .inr ⟨_, rfl⟩

theorem refusedWith_noMatch_iff (hsingle : e.replaceAll = false) :
    e.RefusedWith path place content .noMatch ↔ countMatches e.oldText.toList content = 0 := by
  rcases applyEdit_single path place content hsingle with ⟨h, hno⟩ | ⟨h, hmany⟩ | ⟨h, hbad | ⟨result, hok⟩⟩
  · exact iff_of_true hno h
  · exact iff_of_false (fun hno => nomatch hmany.unique hno) (by omega)
  · exact iff_of_false (fun hno => nomatch hbad.unique hno) (by omega)
  · exact iff_of_false (fun hno => hno.not_applied result hok) (by omega)

theorem refusedWith_ambiguous_iff (hsingle : e.replaceAll = false) :
    e.RefusedWith path place content .ambiguousMatch ↔ 1 < countMatches e.oldText.toList content := by
  rcases applyEdit_single path place content hsingle with ⟨h, hno⟩ | ⟨h, hmany⟩ | ⟨h, hbad | ⟨result, hok⟩⟩
  · exact iff_of_false (fun hmany => nomatch hno.unique hmany) (by omega)
  · exact iff_of_true hmany h
  · exact iff_of_false (fun hmany => nomatch hbad.unique hmany) (by omega)
  · exact iff_of_false (fun hmany => hmany.not_applied result hok) (by omega)

theorem countMatches_of_applied (hsingle : e.replaceAll = false) {result : List Char}
    (h : applyEdit path place e content = .ok result) : countMatches e.oldText.toList content = 1 := by
  rcases applyEdit_single path place content hsingle with ⟨-, hno⟩ | ⟨-, hmany⟩ | ⟨hone, -⟩
  · exact absurd h (hno.not_applied result)
  · exact absurd h (hmany.not_applied result)
  · exact hone

/-- A text that overlaps itself wherever it occurs again is one match. -/
theorem not_unambiguous_of_overlaps (hold : e.oldText.toList ≠ []) (hsingle : e.replaceAll = false)
    (hseveral : 1 < (occurrences e.oldText.toList content).card) (hapart : ¬ OccursApart e.oldText.toList content) :
    ¬ e.Unambiguous path place content := fun h =>
  hapart ((one_lt_countMatches_iff hold _).mp ((refusedWith_ambiguous_iff hsingle).mp (h.ambiguous.mpr hseveral)))

/-- A single edit is applied only where its old text occurs at one place, and
refused as the number of places says, exactly if the old text occurs at no more
than one place or at two that do not overlap. -/
theorem single_edit_iff (h : checkEdit place e = .ok ()) (hsingle : e.replaceAll = false) :
    e.Unambiguous path place content ↔
      (occurrences e.oldText.toList content).card ≤ 1 ∨ OccursApart e.oldText.toList content := by
  have hold := (checked_of_checkEdit h).old_ne
  have hzero := countMatches_eq_zero_iff hold content
  have hmany := one_lt_countMatches_iff hold content
  constructor
  · intro hclaim
    by_contra hnot
    rw [not_or] at hnot
    exact not_unambiguous_of_overlaps hold hsingle (by omega) hnot.2 hclaim
  · intro hcond
    have hcard : 1 < (occurrences e.oldText.toList content).card ↔ OccursApart e.oldText.toList content :=
      ⟨fun hlt => hcond.resolve_left (by omega), OccursApart.one_lt_card hold⟩
    refine ⟨fun result hresult => ?_, ?_, ?_⟩
    · have hone := countMatches_of_applied hsingle hresult
      have hfew : ¬ 1 < (occurrences e.oldText.toList content).card := fun hlt => by
        have := hmany.mpr (hcard.mp hlt)
        omega
      omega
    · rw [refusedWith_noMatch_iff hsingle, hzero]
    · rw [refusedWith_ambiguous_iff hsingle, hmany, hcard]

end

/-- Two blank lines, of which there are two in three line breaks. -/
def overlapping : EditSpec := { oldText := "\n\n", newText := "\n", replaceAll := false }

/-- The old text occurs at the bytes 1 and 2, and the edit is applied at the
first of them. -/
theorem overlapping_edit_is_applied : checkEdit "" overlapping = .ok () ∧
    ¬ overlapping.Unambiguous "f" "" "a\n\n\nb".toList ∧
    applyEdit "f" "" overlapping "a\n\n\nb".toList = .ok "a\n\nb".toList := by
  refine ⟨by decide, fun h => ?_, by decide⟩
  have := h.applied "a\n\nb".toList (by decide)
  revert this
  decide

/-- A text that does not occur twice. -/
theorem single_edit_of_one_place :
    ({ oldText := "b", newText := "c", replaceAll := false } : EditSpec).Unambiguous "f" "" "abd".toList :=
  (single_edit_iff (by decide) rfl).mpr (.inl (by decide))

end RemoteWorkspace
