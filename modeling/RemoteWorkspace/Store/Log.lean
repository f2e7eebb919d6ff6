import Mathlib.Data.List.Basic
import RemoteWorkspace.Protocol

/-!
# The log files

The files of the state directory that the store keeps (`store.rs`): two logs,
one record a line, and the id counter. A log is what its loader distinguishes:
lines ended by a newline, each a record or unreadable, and an unterminated
tail, a fragment or the whole text of a record. A record appended behind a
fragment makes an unreadable line of both, which the loader refuses
(`LogFile.read`); behind nothing it is a line of its own.
-/

namespace RemoteWorkspace

/-- What follows the last newline of a log: a part of a record's text, which
does not parse, or all of it. -/
inductive Tail (α : Type) where
  | none
  | fragment
  | whole (a : α)
  deriving DecidableEq, Repr

/-- A log file. A line that is not a record is `none`. -/
structure LogFile (α : Type) where
  lines : List (Option α)
  tail : Tail α
  deriving DecidableEq, Repr

/-- How much of a line was written: nothing, a part of the record's text, the
text without its newline, or all of the line. -/
inductive Cut where
  | nothing | part | text | line
  deriving DecidableEq, Repr

namespace Tail

variable {α : Type}

/-- The record that a loader takes from the tail. -/
def toList : Tail α → List α
  | whole a => [a]
  | none | fragment => []

@[simp] theorem toList_none : (none : Tail α).toList = [] := rfl
@[simp] theorem toList_fragment : (fragment : Tail α).toList = [] := rfl
@[simp] theorem toList_whole (a : α) : (whole a).toList = [a] := rfl

end Tail

namespace LogFile

variable {α : Type}

def empty : LogFile α := { lines := [], tail := .none }

/-- The file that holds these records, one a line. -/
def ofRecords (rs : List α) : LogFile α := { lines := rs.map some, tail := .none }

/-- `a` and a newline at the end of the file. -/
def writeLine (f : LogFile α) (a : α) : LogFile α :=
  match f.tail with
  | .none => { lines := f.lines ++ [some a], tail := .none }
  | .fragment | .whole _ => { lines := f.lines ++ [none], tail := .none }

/-- The file after a write of `a` and a newline that was cut short. -/
def writeCut (f : LogFile α) (a : α) : Cut → LogFile α
  | .nothing => f
  | .part => { f with tail := .fragment }
  | .text =>
    match f.tail with
    | .none => { f with tail := .whole a }
    | .fragment | .whole _ => { f with tail := .fragment }
  | .line => f.writeLine a

/-- The records of a file, a whole one in its tail included; `none` if a line
of it is no record. -/
def read (f : LogFile α) : Option (List α) :=
  if f.lines.all Option.isSome then some (f.lines.filterMap id ++ f.tail.toList) else none

/-- The number, from one, of the first line that is no record. -/
def damagedLine (f : LogFile α) : Nat := (f.lines.takeWhile Option.isSome).length + 1

/-- The file after the loader has cut a fragment off its end, or ended a whole
record there with the newline it lacks. -/
def repair (f : LogFile α) : LogFile α :=
  match f.tail with
  | .none => f
  | .fragment => { f with tail := .none }
  | .whole a => { lines := f.lines ++ [some a], tail := .none }

/-! ## Reading what was written -/

theorem read_eq_some {f : LogFile α} {rs : List α} :
    f.read = some rs ↔ f.lines.all Option.isSome = true ∧ f.lines.filterMap id ++ f.tail.toList = rs := by
  simp [read]

@[simp] theorem read_empty : (empty : LogFile α).read = some [] := rfl

@[simp] theorem read_ofRecords (rs : List α) : (ofRecords rs).read = some rs := by
  simp [ofRecords, read, List.filterMap_map]

/-- Nothing is left behind the last newline. -/
def Clean (f : LogFile α) : Prop := f.tail = .none

theorem read_writeLine {f : LogFile α} {rs : List α} (hc : f.Clean) (h : f.read = some rs) (a : α) :
    (f.writeLine a).read = some (rs ++ [a]) := by
  unfold Clean at hc
  obtain ⟨hl, rfl⟩ := read_eq_some.mp h
  exact read_eq_some.mpr (by simp_all [writeLine])

theorem clean_writeLine (f : LogFile α) (a : α) : (f.writeLine a).Clean := by
  unfold Clean writeLine
  split <;> rfl

/-- The records of a file after a cut write: those it held, and the new one
once its text is complete. -/
theorem read_writeCut {f : LogFile α} {rs : List α} (hc : f.Clean) (h : f.read = some rs) (a : α)
    (c : Cut) : (f.writeCut a c).read = some (rs ++ if c = .text ∨ c = .line then [a] else []) := by
  have hl := (read_eq_some.mp h).1
  have hr := (read_eq_some.mp h).2
  cases c with
  | nothing => simpa [writeCut] using h
  | part =>
    unfold Clean at hc
    exact read_eq_some.mpr (by simp_all [writeCut])
  | text =>
    unfold Clean at hc
    exact read_eq_some.mpr (by simp_all [writeCut])
  | line => simpa [writeCut] using read_writeLine hc h a

theorem read_repair {f : LogFile α} {rs : List α} (h : f.read = some rs) : f.repair.read = some rs := by
  obtain ⟨hl, hr⟩ := read_eq_some.mp h
  refine read_eq_some.mpr ?_
  unfold repair
  split <;> simp_all

theorem clean_repair (f : LogFile α) : f.repair.Clean := by
  unfold Clean repair
  split <;> simp_all

theorem clean_ofRecords (rs : List α) : (ofRecords rs).Clean := rfl

/-! ## Changing every record -/

/-- The file with `f` applied to each record in it. -/
def map {β : Type} (f : α → β) (file : LogFile α) : LogFile β where
  lines := file.lines.map (Option.map f)
  tail :=
    match file.tail with
    | .none => .none
    | .fragment => .fragment
    | .whole a => .whole (f a)

theorem read_map {β : Type} (f : α → β) (file : LogFile α) :
    (file.map f).read = file.read.map (List.map f) := by
  obtain ⟨lines, tail⟩ := file
  have hall : (lines.map (Option.map f)).all Option.isSome = lines.all Option.isSome := by
    simp [List.all_map, Function.comp_def]
  have hlines : (lines.map (Option.map f)).filterMap id = (lines.filterMap id).map f := by
    simp [List.filterMap_map, List.map_filterMap]
  cases tail <;> simp only [read, map, hall, hlines] <;> split <;> simp

theorem map_map {β γ : Type} (f : α → β) (g : β → γ) (file : LogFile α) :
    (file.map f).map g = file.map (g ∘ f) := by
  obtain ⟨lines, tail⟩ := file
  cases tail <;> simp [map, Function.comp_def]

/-! ## A property of every record -/

variable {P : α → Prop}

/-- Every record in the file, one in its tail included, is `P`. -/
def Every (P : α → Prop) (f : LogFile α) : Prop :=
  (∀ a, some a ∈ f.lines → P a) ∧ ∀ a, f.tail = .whole a → P a

theorem Every.read {f : LogFile α} (h : f.Every P) {rs : List α} (hr : f.read = some rs) : ∀ a ∈ rs, P a := by
  obtain ⟨-, rfl⟩ := read_eq_some.mp hr
  intro a ha
  rcases List.mem_append.mp ha with ha | ha
  · simp only [List.mem_filterMap, id_eq, exists_eq_right] at ha
    exact h.1 a ha
  · apply h.2
    cases ht : f.tail <;> simp_all

theorem every_empty : (empty : LogFile α).Every P := by
  constructor
  · intro a ha
    cases ha
  · rintro a ⟨⟩

theorem every_ofRecords {rs : List α} (h : ∀ a ∈ rs, P a) : (ofRecords rs).Every P := by
  constructor
  · intro a ha
    obtain ⟨b, hb, heq⟩ := List.mem_map.mp ha
    cases heq
    exact h a hb
  · rintro a ⟨⟩

theorem Every.writeLine {f : LogFile α} (h : f.Every P) {a : α} (ha : P a) : (f.writeLine a).Every P := by
  have hlines : ∀ x, ∀ b, some b ∈ f.lines ++ [x] → (x = some a ∨ x = none) → P b := by
    intro x b hb hx
    rcases List.mem_append.mp hb with hb | hb
    · exact h.1 b hb
    · rcases hx with rfl | rfl
      · cases List.mem_singleton.mp hb
        exact ha
      · cases List.mem_singleton.mp hb
  unfold LogFile.writeLine
  split
  · exact ⟨fun b hb => hlines _ b hb (.inl rfl), by rintro _ ⟨⟩⟩
  · exact ⟨fun b hb => hlines _ b hb (.inr rfl), by rintro _ ⟨⟩⟩
  · exact ⟨fun b hb => hlines _ b hb (.inr rfl), by rintro _ ⟨⟩⟩

theorem Every.writeCut {f : LogFile α} (h : f.Every P) {a : α} (ha : P a) (c : Cut) : (f.writeCut a c).Every P := by
  cases c with
  | nothing => exact h
  | part => exact ⟨h.1, by rintro _ ⟨⟩⟩
  | line => exact h.writeLine ha
  | text =>
    unfold LogFile.writeCut
    dsimp only
    split
    · refine ⟨h.1, ?_⟩
      rintro b ⟨⟩
      exact ha
    · exact ⟨h.1, by rintro _ ⟨⟩⟩
    · exact ⟨h.1, by rintro _ ⟨⟩⟩

theorem Every.repair {f : LogFile α} (h : f.Every P) : f.repair.Every P := by
  unfold LogFile.repair
  split
  · exact h
  · exact ⟨h.1, by rintro _ ⟨⟩⟩
  · rename_i a ht
    refine ⟨fun b hb => ?_, by rintro _ ⟨⟩⟩
    rcases List.mem_append.mp hb with hb | hb
    · exact h.1 b hb
    · cases List.mem_singleton.mp hb
      exact h.2 a ht

end LogFile

end RemoteWorkspace
