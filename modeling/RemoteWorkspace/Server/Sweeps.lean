import RemoteWorkspace.Server.Steps

/-!
# The staging sweeps, entry by entry

`sweep_stale_staging_dir` and `sweep_stale_staging_tree`. What a directory
lists and in which order, how old its entries are and which calls fail is the
environment's (`Sweep`).

Whatever the environment answers, a sweep takes entries away and changes
nothing else, and what it takes away is `Abandoned`: a file in a directory
that the walk reached through directories only (`removes_tree`).
-/

namespace RemoteWorkspace

open FileTree (Node Errno)
open FileTree.Tree

/-- `STALE_STAGING_MAX_AGE`, in nanoseconds. -/
def staleStagingMaxAge : Int := 24 * 60 * 60 * 1000000000

/-- What a sweep meets. A directory is listed once for its entries and once
for the directories in it; names that could not be read are left out. -/
structure Sweep where
  entries : Path → Option (List String) := fun _ => none
  nested : Path → Option (List String) := fun _ => none
  /-- Whether the bytes that a name stands for are UTF-8. -/
  text : String → Bool := fun _ => true
  /-- Looking at an entry fails with this. -/
  fault : Path → Option Errno := fun _ => none
  modified : Path → Option Int := fun _ => none
  /-- What the clock says when an entry is looked at. -/
  clock : Path → Int := fun _ => 0
  /-- Removing an entry fails with this. -/
  kept : Path → Option Errno := fun _ => none
  /-- No directory is deeper below the root of the walk. -/
  depth : Nat := 0

/-- `is_stale`: a time ahead of the clock has no age. -/
def isStale (now : Int) (modified : Option Int) (maxAge : Int) : Bool :=
  match modified with
  | some m => m ≤ now && maxAge ≤ now - m
  | none => false

namespace Sweep

variable (w : Sweep) (inFlight : List Path) (maxAge : Int)

def readDir (names : Option (List String)) (t : Tree) (dir : Path) : List String :=
  match t.stat dir, names with
  | .ok .dir, some names => names.filter fun name => (t.lstat (name :: dir)).isOk
  | _, _ => []

def symlinkMetadata (t : Tree) (p : Path) : Except Errno (Node String File) :=
  match w.fault p with
  | some e => .error e
  | none => t.lstat p

def removeFile (t : Tree) (p : Path) : Except Errno Tree :=
  match w.kept p with
  | some e => .error e
  | none => t.unlink p

/-- One turn of the loop of `sweep_stale_staging_dir`. -/
def sweepEntry (dir : Path) (r : Tree × Nat) (name : String) : Tree × Nat :=
  if w.text name = false then r
  else if isStagingName name = false then r
  else if inFlight.contains (name :: dir) then r
  else
    match w.symlinkMetadata r.1 (name :: dir) with
    | .ok (.file _) =>
      if isStale (w.clock (name :: dir)) (w.modified (name :: dir)) maxAge then
        match w.removeFile r.1 (name :: dir) with
        | .ok t => (t, r.2 + 1)
        | .error _ => r
      else r
    | _ => r

def sweepStaleStagingDir (dir : Path) (t : Tree) : Tree × Nat :=
  (readDir (w.entries dir) t dir).foldl (w.sweepEntry inFlight maxAge dir) (t, 0)

/-- One turn of the loop of `sweep_stale_staging_tree`, which sweeps the
directories that it finds. -/
def sweepBelow (sweep : Path → Tree → Tree × Nat) (root : Path) (r : Tree × Nat) (name : String) : Tree × Nat :=
  match w.symlinkMetadata r.1 (name :: root) with
  | .ok .dir =>
    let below := sweep (name :: root) r.1
    (below.1, r.2 + below.2)
  | _ => r

/-- `sweep_stale_staging_tree`, with directories so many levels deep. -/
def sweepStaleStagingTree : Nat → Path → Tree → Tree × Nat
  | 0, _, t => (t, 0)
  | depth + 1, root, t =>
    let swept := w.sweepStaleStagingDir inFlight maxAge root t
    (readDir (w.nested root) swept.1 root).foldl (w.sweepBelow (sweepStaleStagingTree depth) root) swept

/-! ## What a sweep removes -/

/-- An entry that a sweep may remove. -/
structure Abandoned (t : Tree) (name : String) (dir : Path) : Prop where
  file : ∃ f, t.node (name :: dir) = some (.file f)
  text : w.text name = true
  named : isStagingName name = true
  free : name :: dir ∉ inFlight
  stale : isStale (w.clock (name :: dir)) (w.modified (name :: dir)) maxAge = true

/-- `t'` is `t` without some abandoned entries of the directories `within`. -/
def Removes (within : Path → Prop) (t t' : Tree) : Prop :=
  ∀ p, t'.node p = t.node p ∨
    t'.node p = none ∧ ∃ name dir, p = name :: dir ∧ within dir ∧ w.Abandoned inFlight maxAge t name dir

variable {w inFlight maxAge} {within within' : Path → Prop} {t t' t'' : Tree}

theorem Removes.refl : w.Removes inFlight maxAge within t t := fun _ => .inl rfl

theorem Removes.trans (h : w.Removes inFlight maxAge within t t')
    (h' : w.Removes inFlight maxAge within t' t'') : w.Removes inFlight maxAge within t t'' := by
  intro p
  rcases h' p with heq | ⟨hnone, name, dir, rfl, hin, hab⟩
  · rw [heq]
    exact h p
  · rcases h (name :: dir) with heq | ⟨hgone, -⟩
    · exact .inr ⟨hnone, name, dir, rfl, hin, { hab with file := heq ▸ hab.file }⟩
    · obtain ⟨f, hf⟩ := hab.file
      rw [hgone] at hf
      cases hf

theorem Removes.mono (h : w.Removes inFlight maxAge within t t') (hin : ∀ d, within d → within' d) :
    w.Removes inFlight maxAge within' t t' := fun p =>
  (h p).imp_right fun ⟨hnone, name, dir, hp, hd, hab⟩ => ⟨hnone, name, dir, hp, hin dir hd, hab⟩

theorem Removes.narrows (h : w.Removes inFlight maxAge within t t') : Narrows t t' := by
  refine narrows_of_removed fun p => (h p).imp_right ?_
  rintro ⟨hnone, name, dir, rfl, -, hab⟩
  obtain ⟨f, hf⟩ := hab.file
  exact ⟨hnone, by simp [hf]⟩

/-- What is in flight is not removed. -/
theorem Removes.spares (h : w.Removes inFlight maxAge within t t') {p : Path} (hp : p ∈ inFlight) :
    t'.node p = t.node p := by
  rcases h p with heq | ⟨-, name, dir, rfl, -, hab⟩
  · exact heq
  · exact absurd hp hab.free

/-- A loop over the entries of a directory, each turn of which only removes. -/
theorem removes_foldl {f : Tree × Nat → String → Tree × Nat} {d : Path}
    (hf : ∀ r name, r.1.node d = some .dir → w.Removes inFlight maxAge within r.1 (f r name).1)
    (names : List String) (r : Tree × Nat) (hd : r.1.node d = some .dir) :
    w.Removes inFlight maxAge within r.1 (names.foldl f r).1 := by
  induction names generalizing r with
  | nil => exact .refl
  | cons name names ih =>
    have hstep := hf r name hd
    exact hstep.trans (ih (f r name) ((hstep.narrows.dir d).mpr hd))

theorem node_of_symlinkMetadata {name : String} {dir : Path} {x : Node String File} (hd : t.node dir = some .dir)
    (h : w.symlinkMetadata t (name :: dir) = .ok x) : t.node (name :: dir) = some x := by
  unfold symlinkMetadata at h
  split at h
  · cases h
  · simp only [lstat, slot_cons hd, ok_bind] at h
    split at h
    · cases h
    · next hx => rw [hx, Except.ok.inj h]

theorem unlink_of_removeFile {p : Path} (h : w.removeFile t p = .ok t') : t.unlink p = .ok t' := by
  unfold removeFile at h
  split at h
  · cases h
  · exact h

theorem removes_sweepEntry {dir : Path} (r : Tree × Nat) (name : String) (hd : r.1.node dir = some .dir) :
    w.Removes inFlight maxAge (· = dir) r.1 (w.sweepEntry inFlight maxAge dir r name).1 := by
  unfold sweepEntry
  split
  · exact .refl
  · next htext =>
    split
    · exact .refl
    · next hnamed =>
      split
      · exact .refl
      · next hfree =>
        split
        · next f hf =>
          split
          · next hstale =>
            split
            · next t hrm =>
              have hab : w.Abandoned inFlight maxAge r.1 name dir :=
                { file := ⟨f, node_of_symlinkMetadata hd hf⟩
                  text := by simpa using htext
                  named := by simpa using hnamed
                  free := by simpa using hfree
                  stale := hstale }
              intro p
              rw [unlink_cons hd (unlink_of_removeFile hrm) p]
              split
              · next hp => exact .inr ⟨rfl, name, dir, hp, rfl, hab⟩
              · exact .inl rfl
            · exact .refl
          · exact .refl
        · exact .refl

/-- The names of a directory that was listed. -/
theorem dir_of_readDir (names : Option (List String)) {dir : Path} (hp : t.Physical dir) :
    readDir names t dir = [] ∨ t.node dir = some .dir := by
  unfold readDir
  split
  · next hs => exact .inr (hp.node_of_stat hs)
  · exact .inl rfl

theorem removes_dir {dir : Path} (hp : t.Physical dir) :
    w.Removes inFlight maxAge (· = dir) t (w.sweepStaleStagingDir inFlight maxAge dir t).1 := by
  unfold sweepStaleStagingDir
  rcases dir_of_readDir (w.entries dir) hp with hnil | hd
  · rw [hnil]
    exact .refl
  · exact removes_foldl removes_sweepEntry _ (t, 0) hd

theorem removes_sweepBelow {sweep : Path → Tree → Tree × Nat} {root : Path}
    (hsweep : ∀ name t, t.Physical (name :: root) →
      w.Removes inFlight maxAge (name :: root <:+ ·) t (sweep (name :: root) t).1)
    (r : Tree × Nat) (name : String) (hd : r.1.node root = some .dir) :
    w.Removes inFlight maxAge (root <:+ ·) r.1 (w.sweepBelow sweep root r name).1 := by
  unfold sweepBelow
  split
  · next hdir =>
    have hnode := node_of_symlinkMetadata hd hdir
    refine (hsweep name r.1 (stands_dir hnode).physical).mono fun d hin => ?_
    exact (List.suffix_cons name root).trans hin
  · exact .refl

/-- A walk removes abandoned entries of the directories below its root. It
enters no directory but by a name that it saw to be one. -/
theorem removes_tree (depth : Nat) {root : Path} (hp : t.Physical root) :
    w.Removes inFlight maxAge (root <:+ ·) t (w.sweepStaleStagingTree inFlight maxAge depth root t).1 := by
  induction depth generalizing root t with
  | zero => exact .refl
  | succ depth ih =>
    have hswept : w.Removes inFlight maxAge (root <:+ ·) t (w.sweepStaleStagingDir inFlight maxAge root t).1 :=
      (removes_dir hp).mono fun d hd => hd ▸ List.suffix_refl _
    refine hswept.trans ?_
    rcases dir_of_readDir (w.nested root) (hswept.narrows.physical hp) with hnil | hd
    · simp only [sweepStaleStagingTree, hnil]
      exact .refl
    · exact removes_foldl (removes_sweepBelow fun name t hp => ih hp) _ _ hd

end Sweep

end RemoteWorkspace
