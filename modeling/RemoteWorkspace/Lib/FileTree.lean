import Mathlib.Data.List.Basic

/-!
# A tree of files, and how paths are looked up in it

A `Tree` says what stands at each path: a directory, a file, a symbolic link
or something else. A path is the list of its names, the last name first, so
`n :: p` is the entry `n` of the directory `p` and `[]` is the top.

What a program hands to the system is not a path but a list of components,
which `walk` follows from the top: every component is looked up in a
directory, a link is replaced by its target, and the links that may still be
followed are counted down. `walk_append` splits a lookup, and `walk_keep` says
which changes of the tree a lookup does not notice.
-/

namespace FileTree

variable {ν β : Type}

/-- A path from the top, last name first. -/
abbrev Path (ν : Type) := List ν

inductive Comp (ν : Type) where
  | cur
  | parent
  | name (n : ν)
  deriving DecidableEq, Repr

inductive Node (ν β : Type) where
  | dir
  | file (b : β)
  | link (absolute : Bool) (target : List (Comp ν))
  | special
  deriving Repr

/-- Why a system call on a path failed. -/
inductive Errno where
  | noEntry | notDirectory | exists | isDirectory | loop | denied
  deriving DecidableEq, Repr

structure Tree (ν β : Type) where
  node : Path ν → Option (Node ν β)
  top : node [] = some .dir
  parent : ∀ {n p}, node (n :: p) ≠ none → node p = some .dir

/-- The tree with nothing in it. -/
def Tree.bare : Tree ν β where
  node p := if p = [] then some .dir else none
  top := rfl
  parent := by simp

/-- The components of a path, from the top. -/
def comps (p : Path ν) : List (Comp ν) := p.reverse.map .name

@[simp] theorem comps_nil : comps ([] : Path ν) = [] := rfl

@[simp] theorem comps_cons (n : ν) (p : Path ν) : comps (n :: p) = comps p ++ [.name n] := by
  simp [comps]

namespace Tree

variable (t : Tree ν β)

/-- Follow components from the directory `d`; `follow` continues behind a
link. -/
def walkWith (k : Nat) (follow : Path ν → List (Comp ν) → Except Errno (Nat × Path ν)) :
    Path ν → List (Comp ν) → Except Errno (Nat × Path ν)
  | d, [] => .ok (k, d)
  | d, c :: cs =>
    match t.node d with
    | none => .error .noEntry
    | some .dir =>
      match c with
      | .cur => walkWith k follow d cs
      | .parent => walkWith k follow d.tail cs
      | .name n =>
        match t.node (n :: d) with
        | none => .error .noEntry
        | some (.link absolute target) => follow (if absolute then [] else d) (target ++ cs)
        | some _ => walkWith k follow (n :: d) cs
    | some _ => .error .notDirectory

/-- Follow components from the directory `d`, through at most `k` links.
Returns how many more could have been followed, and where the walk ended. -/
def walk : Nat → Path ν → List (Comp ν) → Except Errno (Nat × Path ν)
  | 0 => t.walkWith 0 fun _ _ => .error .loop
  | k + 1 => t.walkWith (k + 1) (walk k)

/-- How many links one lookup may follow. -/
def maxLinks : Nat := 40

/-- Follow components from the directory `d` as `walkWith` does, but make what
is missing; `follow` continues behind a link. -/
def reachWith (follow : Path ν → List (Comp ν) → List (Path ν)) :
    Path ν → List (Comp ν) → List (Path ν)
  | d, [] => [d]
  | d, .cur :: cs => reachWith follow d cs
  | d, .parent :: cs => reachWith follow d.tail cs
  | d, .name n :: cs =>
    match t.node (n :: d) with
    | none => (n :: d) :: reachWith follow (n :: d) cs
    | some .dir => reachWith follow (n :: d) cs
    | some (.link absolute target) => follow (if absolute then [] else d) (target ++ cs)
    | some _ => if cs = [] then [n :: d] else []

/-- Where components lead from the directory `d`, through at most `k` links, if
every name that is missing on the way is made a directory: all that is made,
and where the way ends. -/
def reach : Nat → Path ν → List (Comp ν) → List (Path ν)
  | 0 => t.reachWith fun _ _ => []
  | k + 1 => t.reachWith (reach k)

/-- The path that components lead to, with no link left in it. -/
def realpath (cs : List (Comp ν)) : Except Errno (Path ν) := (t.walk maxLinks [] cs).map (·.2)

/-- Where the entry that a path names stands, a link as its last name not
followed. -/
def slot : Path ν → Except Errno (Path ν)
  | [] => .ok []
  | n :: p => do
    let d ← t.realpath (comps p)
    match t.node d with
    | some .dir => .ok (n :: d)
    | _ => .error .notDirectory

/-- What a path names, a link as its last name not followed. -/
def lstat (p : Path ν) : Except Errno (Node ν β) := do
  let q ← t.slot p
  match t.node q with
  | none => .error .noEntry
  | some x => .ok x

/-- What a path leads to, every link followed. -/
def stat (p : Path ν) : Except Errno (Node ν β) := do
  let q ← t.realpath (comps p)
  match t.node q with
  | none => .error .noEntry
  | some x => .ok x

/-! ## Changes -/

variable [DecidableEq ν]

/-- Whether the entry at a path may be set or taken away: it stands in a
directory and is none itself. -/
def settable : Path ν → Bool
  | [] => false
  | n :: d =>
    (match t.node d with | some .dir => true | _ => false) &&
      (match t.node (n :: d) with | some .dir => false | _ => true)

omit [DecidableEq ν] in
theorem settable_cons {t : Tree ν β} {n : ν} {d : Path ν} (h : t.settable (n :: d) = true) :
    t.node d = some .dir ∧ t.node (n :: d) ≠ some .dir := by
  simp only [settable, Bool.and_eq_true] at h
  obtain ⟨hd, hn⟩ := h
  constructor
  · split at hd <;> simp_all
  · intro hc
    simp [hc] at hn

omit [DecidableEq ν] in
theorem settable_bare (n : ν) : (bare : Tree ν β).settable [n] = true := rfl

/-- The tree with the entry at `p` set to `x`, or taken away. -/
def set (p : Path ν) (x : Option (Node ν β)) (h : t.settable p = true) : Tree ν β where
  node q := if q = p then x else t.node q
  top := by
    cases p with
    | nil => cases h
    | cons n d => simpa using t.top
  parent := by
    intro n d hn
    cases p with
    | nil => cases h
    | cons m e =>
      obtain ⟨hdir, hnot⟩ := settable_cons h
      split
      · rename_i hd
        subst hd
        rw [if_neg (by simp)] at hn
        exact absurd (t.parent hn) hnot
      · split at hn
        · rename_i hnd
          cases hnd
          exact hdir
        · exact t.parent hn

/-- Put a new entry where none is. -/
def createNew (p : Path ν) (x : Node ν β) : Except Errno (Tree ν β) := do
  let q ← t.slot p
  match t.node q with
  | some _ => .error .exists
  | none => if h : t.settable q = true then .ok (t.set q (some x) h) else .error .notDirectory

/-- Put a file at a path, over anything there but a directory. -/
def replace (p : Path ν) (b : β) : Except Errno (Tree ν β) := do
  let q ← t.slot p
  if h : t.settable q = true then .ok (t.set q (some (.file b)) h) else .error .isDirectory

/-- Take away the entry at a path, a directory excepted. -/
def unlink (p : Path ν) : Except Errno (Tree ν β) := do
  let q ← t.slot p
  match t.node q with
  | none => .error .noEntry
  | some _ => if h : t.settable q = true then .ok (t.set q none h) else .error .isDirectory

/-- Move the entry at a path, a directory excepted, to another path; over what
is there, a directory excepted, if `overwrite`. -/
def move (overwrite : Bool) (src dst : Path ν) : Except Errno (Tree ν β) := do
  let q ← t.slot src
  let q' ← t.slot dst
  match t.node q with
  | none => .error .noEntry
  | some x =>
    if overwrite = false ∧ (t.node q').isSome then .error .exists
    else if h : t.settable q = true then
      if h' : (t.set q none h).settable q' = true then .ok ((t.set q none h).set q' (some x) h')
      else .error .isDirectory
    else .error .isDirectory

/-- A second name for the entry at a path, where none is. -/
def hardLink (src dst : Path ν) : Except Errno (Tree ν β) := do
  let q ← t.slot src
  match t.node q with
  | none => .error .noEntry
  | some .dir => .error .denied
  | some x => t.createNew dst x

omit [DecidableEq ν] in
/-- The tree without the files that `gone` says. -/
def removeFiles (gone : Path ν → Bool) : Tree ν β where
  node q :=
    match t.node q with
    | some (.file b) => if gone q then none else some (.file b)
    | x => x
  top := by rw [t.top]
  parent := by
    intro n p h
    have hne : t.node (n :: p) ≠ none := by
      intro hnone
      rw [hnone] at h
      exact h rfl
    rw [t.parent hne]

def isDir (p : Path ν) : Bool :=
  match t.stat p with
  | .ok .dir => true
  | _ => false

/-- Make a directory and those above it that are missing. -/
def mkdirAll (t : Tree ν β) (p : Path ν) : Except Errno (Tree ν β) :=
  match t.createNew p .dir, p with
  | .ok t', _ => .ok t'
  | .error .noEntry, _ :: d => do
    let t ← t.mkdirAll d
    match t.createNew p .dir with
    | .ok t' => .ok t'
    | .error e => if t.isDir p then .ok t else .error e
  | .error e, _ => if t.isDir p then .ok t else .error e

/-! ## Lookups -/

section

omit [DecidableEq ν]

variable {t : Tree ν β}

theorem ok_bind {ε α γ : Type} (a : α) (f : α → Except ε γ) : (Except.ok a >>= f) = f a := rfl

theorem error_bind {ε α γ : Type} (e : ε) (f : α → Except ε γ) :
    ((Except.error e : Except ε α) >>= f) = .error e := rfl

@[simp] theorem walk_nil (k : Nat) (d : Path ν) : t.walk k d [] = .ok (k, d) := by
  cases k <;> rfl

theorem walk_cons (k : Nat) (d : Path ν) (c : Comp ν) (cs : List (Comp ν)) :
    t.walk k d (c :: cs) =
      match t.node d with
      | none => .error .noEntry
      | some .dir =>
        match c with
        | .cur => t.walk k d cs
        | .parent => t.walk k d.tail cs
        | .name n =>
          match t.node (n :: d) with
          | none => .error .noEntry
          | some (.link absolute target) =>
            match k with
            | 0 => .error .loop
            | k + 1 => t.walk k (if absolute then [] else d) (target ++ cs)
          | some _ => t.walk k (n :: d) cs
      | some _ => .error .notDirectory := by
  cases k <;> rfl

theorem walk_name {d : Path ν} (hd : t.node d = some .dir) (k : Nat) (n : ν) (cs : List (Comp ν)) :
    t.walk k d (.name n :: cs) =
      match t.node (n :: d) with
      | none => .error .noEntry
      | some (.link absolute target) =>
        match k with
        | 0 => .error .loop
        | k + 1 => t.walk k (if absolute then [] else d) (target ++ cs)
      | some _ => t.walk k (n :: d) cs := by
  rw [walk_cons, hd]

/-- How a lookup goes, one constructor for each thing that can happen to the
next component. -/
inductive Goes (t : Tree ν β) :
    Nat → Path ν → List (Comp ν) → Except Errno (Nat × Path ν) → Prop where
  | stop {k d} : Goes t k d [] (.ok (k, d))
  | gone {k d c cs} (hd : t.node d = none) : Goes t k d (c :: cs) (.error .noEntry)
  | blocked {k d c cs x} (hd : t.node d = some x) (hx : x ≠ .dir) :
      Goes t k d (c :: cs) (.error .notDirectory)
  | cur {k d cs r} (hd : t.node d = some .dir) (h : Goes t k d cs r) : Goes t k d (.cur :: cs) r
  | parent {k d cs r} (hd : t.node d = some .dir) (h : Goes t k d.tail cs r) :
      Goes t k d (.parent :: cs) r
  | missing {k d n cs} (hd : t.node d = some .dir) (hn : t.node (n :: d) = none) :
      Goes t k d (.name n :: cs) (.error .noEntry)
  | loop {d n cs absolute target} (hd : t.node d = some .dir)
      (hn : t.node (n :: d) = some (.link absolute target)) :
      Goes t 0 d (.name n :: cs) (.error .loop)
  | link {k d n cs r absolute target} (hd : t.node d = some .dir)
      (hn : t.node (n :: d) = some (.link absolute target))
      (h : Goes t k (if absolute then [] else d) (target ++ cs) r) :
      Goes t (k + 1) d (.name n :: cs) r
  | entry {k d n cs r x} (hd : t.node d = some .dir) (hn : t.node (n :: d) = some x)
      (hx : ∀ absolute target, x ≠ .link absolute target) (h : Goes t k (n :: d) cs r) :
      Goes t k d (.name n :: cs) r

theorem Goes.walk {k : Nat} {d : Path ν} {cs : List (Comp ν)} {r : Except Errno (Nat × Path ν)}
    (h : Goes t k d cs r) : t.walk k d cs = r := by
  induction h with
  | stop => exact walk_nil _ _
  | gone hd => rw [walk_cons, hd]
  | @blocked k d c cs x hd hx =>
    rw [walk_cons, hd]
    cases x with
    | dir => exact absurd rfl hx
    | _ => rfl
  | cur hd _ ih => rw [walk_cons, hd]; exact ih
  | parent hd _ ih => rw [walk_cons, hd]; exact ih
  | missing hd hn => rw [walk_name hd, hn]
  | loop hd hn => rw [walk_name hd, hn]
  | link hd hn _ ih => rw [walk_name hd, hn]; exact ih
  | @entry k d n cs r x hd hn hx _ ih =>
    rw [walk_name hd, hn]
    cases x with
    | link a target => exact absurd rfl (hx a target)
    | _ => exact ih

theorem goes (t : Tree ν β) (k : Nat) (d : Path ν) (cs : List (Comp ν)) :
    Goes t k d cs (t.walk k d cs) := by
  induction k generalizing d cs with
  | zero =>
    induction cs generalizing d with
    | nil => exact walk_nil 0 d ▸ .stop
    | cons c cs ih =>
      rw [walk_cons]
      split
      · exact .gone ‹_›
      · split
        · exact .cur ‹_› (ih _)
        · exact .parent ‹_› (ih _)
        · split
          · exact .missing ‹_› ‹_›
          · exact .loop ‹_› ‹_›
          · rename_i x hx hn
            exact .entry ‹_› hn (fun a target h => hx a target h) (ih _)
      · rename_i x hx hn
        exact .blocked hn fun h => hx h
  | succ k ihk =>
    induction cs generalizing d with
    | nil => exact walk_nil (k + 1) d ▸ .stop
    | cons c cs ih =>
      rw [walk_cons]
      split
      · exact .gone ‹_›
      · split
        · exact .cur ‹_› (ih _)
        · exact .parent ‹_› (ih _)
        · split
          · exact .missing ‹_› ‹_›
          · exact .link ‹_› ‹_› (ihk _ _)
          · rename_i x hx hn
            exact .entry ‹_› hn (fun a target h => hx a target h) (ih _)
      · rename_i x hx hn
        exact .blocked hn fun h => hx h

theorem walk_eq_iff {k : Nat} {d : Path ν} {cs : List (Comp ν)} {r : Except Errno (Nat × Path ν)} :
    t.walk k d cs = r ↔ Goes t k d cs r :=
  ⟨fun h => h ▸ t.goes k d cs, Goes.walk⟩

/-- Behind what is no directory nothing can follow. -/
theorem Goes.behind {k k' : Nat} {d p : Path ν} {cs : List (Comp ν)} {r : Except Errno (Nat × Path ν)}
    {x : Node ν β} (h : Goes t k d cs r) (hd : t.node d = some x) (hx : x ≠ .dir) (hr : r = .ok (k', p)) :
    p = d := by
  have hne : t.node d ≠ some .dir := fun hdir => hx (Option.some.inj (hd.symm.trans hdir))
  cases h with
  | stop => cases hr; rfl
  | gone | blocked | missing | loop => cases hr
  | cur hdir _ | parent hdir _ | link hdir _ _ | entry hdir _ _ _ => exact absurd hdir hne

/-- A lookup in two parts. -/
theorem walk_append (k : Nat) (d : Path ν) (xs ys : List (Comp ν)) :
    t.walk k d (xs ++ ys) = (t.walk k d xs).bind fun r => t.walk r.1 r.2 ys := by
  generalize hr : t.walk k d xs = r
  induction walk_eq_iff.mp hr with
  | stop => rfl
  | gone hd => exact (Goes.gone hd).walk
  | blocked hd hx => exact (Goes.blocked hd hx).walk
  | cur hd h ih => rw [← ih h.walk]; exact (Goes.cur hd (t.goes _ _ _)).walk
  | parent hd h ih => rw [← ih h.walk]; exact (Goes.parent hd (t.goes _ _ _)).walk
  | missing hd hn => exact (Goes.missing hd hn).walk
  | loop hd hn => exact (Goes.loop hd hn).walk
  | link hd hn h ih =>
    rw [← ih h.walk, List.append_assoc]
    exact (Goes.link hd hn (t.goes _ _ _)).walk
  | entry hd hn hx h ih => rw [← ih h.walk]; exact (Goes.entry hd hn hx (t.goes _ _ _)).walk

/-- A lookup that does not run out of links goes the same way with more. -/
theorem walk_add {k : Nat} {d : Path ν} {cs : List (Comp ν)} {r : Except Errno (Nat × Path ν)}
    (h : t.walk k d cs = r) (hr : r ≠ .error .loop) (j : Nat) :
    t.walk (k + j) d cs = r.map fun r => (r.1 + j, r.2) := by
  replace h := walk_eq_iff.mp h
  induction h with
  | stop => exact walk_nil _ _
  | gone hd => exact (Goes.gone hd).walk
  | blocked hd hx => exact (Goes.blocked hd hx).walk
  | cur hd h ih => exact (Goes.cur hd (walk_eq_iff.mp (ih hr))).walk
  | parent hd h ih => exact (Goes.parent hd (walk_eq_iff.mp (ih hr))).walk
  | missing hd hn => exact (Goes.missing hd hn).walk
  | loop hd hn => exact absurd rfl hr
  | link hd hn h ih =>
    rw [Nat.add_right_comm]
    exact (Goes.link hd hn (walk_eq_iff.mp (ih hr))).walk
  | entry hd hn hx h ih => exact (Goes.entry hd hn hx (walk_eq_iff.mp (ih hr))).walk

theorem dir_of_node {n : ν} {d : Path ν} {x : Node ν β} (h : t.node (n :: d) = some x) :
    t.node d = some .dir :=
  t.parent (by rw [h]; simp)

/-- What is above something that is there is a directory. -/
theorem dir_of_suffix {p d : Path ν} (h : t.node p ≠ none) (hs : d <:+ p) (hne : d ≠ p) :
    t.node d = some .dir := by
  induction p with
  | nil => exact absurd (List.suffix_nil.mp hs) hne
  | cons n p ih =>
    have hp := t.parent h
    rcases List.suffix_cons_iff.mp hs with rfl | hs
    · exact absurd rfl hne
    · by_cases hd : d = p
      · exact hd ▸ hp
      · exact ih (by simp [hp]) hs hd

/-- Directories lead to themselves. -/
theorem walk_comps {p : Path ν} (h : t.node p = some .dir) (k : Nat) :
    t.walk k [] (comps p) = .ok (k, p) := by
  induction p with
  | nil => simp
  | cons n p ih =>
    have hp : t.node p = some .dir := dir_of_node h
    rw [comps_cons, walk_append, ih hp]
    show t.walk k p [.name n] = _
    rw [walk_name hp, h, walk_nil]

theorem walk_comps_cons {n : ν} {d : Path ν} (hd : t.node d = some .dir) (k : Nat) :
    t.walk k [] (comps (n :: d)) = t.walk k d [.name n] := by
  rw [comps_cons, walk_append, walk_comps hd]
  rfl

/-- What is there and is no link leads to itself. -/
theorem walk_comps_of_node {p : Path ν} {x : Node ν β} (h : t.node p = some x)
    (hx : ∀ a target, x ≠ .link a target) (k : Nat) : t.walk k [] (comps p) = .ok (k, p) := by
  cases p with
  | nil => simp
  | cons n p =>
    have hp : t.node p = some .dir := dir_of_node h
    rw [walk_comps_cons hp, walk_name hp, h]
    cases x with
    | link a target => exact absurd rfl (hx a target)
    | _ => rw [walk_nil]

/-- Something that is there and is no link. -/
def Stands (t : Tree ν β) (p : Path ν) : Prop :=
  ∃ x, t.node p = some x ∧ ∀ absolute target, x ≠ .link absolute target

theorem stands_dir {p : Path ν} (h : t.node p = some .dir) : t.Stands p := ⟨_, h, by simp⟩

/-- A lookup ends at something that is there and is no link. -/
theorem stands_of_walk {k k' : Nat} {d p : Path ν} {cs : List (Comp ν)}
    (h : t.walk k d cs = .ok (k', p)) (hd : t.Stands d) : t.Stands p := by
  generalize hr : (.ok (k', p) : Except Errno (Nat × Path ν)) = r at h
  replace h := walk_eq_iff.mp h
  induction h with
  | stop => cases hr; exact hd
  | gone | blocked | missing | loop => cases hr
  | cur _ h ih => exact ih hd hr
  | @parent k d cs r hdir h ih =>
    refine ih (stands_dir ?_) hr
    cases d with
    | nil => exact hdir
    | cons n d => exact dir_of_node hdir
  | @link k d n cs r absolute target hdir hn h ih =>
    refine ih (stands_dir ?_) hr
    split
    · exact t.top
    · exact hdir
  | entry hdir hn hx h ih => exact ih ⟨_, hn, hx⟩ hr

/-! ## Lookups in a changed tree -/

/-- All that is in `t` is in `t'`. -/
def Grows (t t' : Tree ν β) : Prop := ∀ p x, t.node p = some x → t'.node p = some x

theorem Grows.walk {t t' : Tree ν β} (hg : Grows t t') {k : Nat} {d : Path ν} {cs : List (Comp ν)}
    {r : Nat × Path ν} (h : t.walk k d cs = .ok r) : t'.walk k d cs = .ok r := by
  generalize hr : (.ok r : Except Errno (Nat × Path ν)) = r' at h ⊢
  replace h := walk_eq_iff.mp h
  induction h with
  | stop => exact walk_nil _ _
  | gone | blocked | missing | loop => cases hr
  | cur hd h ih => exact (Goes.cur (hg _ _ hd) (walk_eq_iff.mp (ih hr))).walk
  | parent hd h ih => exact (Goes.parent (hg _ _ hd) (walk_eq_iff.mp (ih hr))).walk
  | link hd hn h ih => exact (Goes.link (hg _ _ hd) (hg _ _ hn) (walk_eq_iff.mp (ih hr))).walk
  | entry hd hn hx h ih =>
    exact (Goes.entry (hg _ _ hd) (hg _ _ hn) hx (walk_eq_iff.mp (ih hr))).walk

/-- Which contents a file has makes no difference to lookups. -/
theorem walk_of_file_file {t t' : Tree ν β} {q : Path ν} {b b' : β}
    (hsame : ∀ p, p ≠ q → t.node p = t'.node p) (hq : t.node q = some (.file b))
    (hq' : t'.node q = some (.file b')) (k : Nat) (d : Path ν) (cs : List (Comp ν)) :
    t'.walk k d cs = t.walk k d cs := by
  have hnode : ∀ {p x}, t.node p = x → (∀ b, x ≠ some (.file b)) → t'.node p = x := by
    intro p x h hx
    by_cases hp : p = q
    · exact absurd (h.symm.trans (hp ▸ hq)) (hx b)
    · rw [← hsame p hp, h]
  have h := t.goes k d cs
  generalize t.walk k d cs = r at h ⊢
  induction h with
  | stop => exact walk_nil _ _
  | gone hd => exact (Goes.gone (hnode hd (by simp))).walk
  | @blocked k d c cs x hd hx =>
    by_cases hdq : d = q
    · exact (Goes.blocked (hdq ▸ hq') (by simp)).walk
    · exact (Goes.blocked ((hsame d hdq).symm.trans hd) hx).walk
  | cur hd _ ih => exact (Goes.cur (hnode hd (by simp)) (walk_eq_iff.mp ih)).walk
  | parent hd _ ih => exact (Goes.parent (hnode hd (by simp)) (walk_eq_iff.mp ih)).walk
  | missing hd hn => exact (Goes.missing (hnode hd (by simp)) (hnode hn (by simp))).walk
  | loop hd hn => exact (Goes.loop (hnode hd (by simp)) (hnode hn (by simp))).walk
  | link hd hn _ ih =>
    exact (Goes.link (hnode hd (by simp)) (hnode hn (by simp)) (walk_eq_iff.mp ih)).walk
  | @entry k d n cs r x hd hn hx _ ih =>
    have hd' := hnode hd (by simp)
    by_cases hnq : n :: d = q
    · exact (Goes.entry hd' (hnq ▸ hq') (by simp) (walk_eq_iff.mp ih)).walk
    · exact (Goes.entry hd' ((hsame _ hnq).symm.trans hn) hx (walk_eq_iff.mp ih)).walk

/-- Without a file that was there, a lookup that led to it finds no entry, and
any other goes its way. -/
theorem walk_of_file_none {t t' : Tree ν β} {q : Path ν} {b : β}
    (hsame : ∀ p, p ≠ q → t.node p = t'.node p) (hq : t.node q = some (.file b))
    (hq' : t'.node q = none) {k k' : Nat} {d p : Path ν} {cs : List (Comp ν)}
    (h : t.walk k d cs = .ok (k', p)) (hdq : d ≠ q) :
    (p = q → t'.walk k d cs = .error .noEntry) ∧ (p ≠ q → t'.walk k d cs = .ok (k', p)) := by
  have hnode : ∀ {p x}, t.node p = some x → (∀ b, x ≠ .file b) → t'.node p = some x := by
    intro p x h hx
    by_cases hp : p = q
    · exact absurd (Option.some.inj (h.symm.trans (hp ▸ hq))) (hx b)
    · rw [← hsame p hp, h]
  have hne : ∀ {p}, t.node p = some .dir → p ≠ q := by
    rintro p h rfl
    rw [hq] at h
    cases h
  generalize hr : (.ok (k', p) : Except Errno (Nat × Path ν)) = r at h
  replace h := walk_eq_iff.mp h
  induction h with
  | stop => cases hr; exact ⟨fun h => absurd h hdq, fun _ => walk_nil _ _⟩
  | gone | blocked | missing | loop => cases hr
  | cur hd h ih =>
    have := ih hdq hr
    exact ⟨fun hp => (Goes.cur (hnode hd (by simp)) (walk_eq_iff.mp (this.1 hp))).walk,
      fun hp => (Goes.cur (hnode hd (by simp)) (walk_eq_iff.mp (this.2 hp))).walk⟩
  | @parent k d cs r hd h ih =>
    have hup : d.tail ≠ q := by
      cases d with
      | nil => exact hne hd
      | cons n d => exact hne (dir_of_node hd)
    have := ih hup hr
    exact ⟨fun hp => (Goes.parent (hnode hd (by simp)) (walk_eq_iff.mp (this.1 hp))).walk,
      fun hp => (Goes.parent (hnode hd (by simp)) (walk_eq_iff.mp (this.2 hp))).walk⟩
  | @link k d n cs r absolute target hd hn h ih =>
    have hto : (if absolute then [] else d) ≠ q := by
      split
      · exact hne t.top
      · exact hne hd
    have := ih hto hr
    exact ⟨fun hp => (Goes.link (hnode hd (by simp)) (hnode hn (by simp))
        (walk_eq_iff.mp (this.1 hp))).walk,
      fun hp => (Goes.link (hnode hd (by simp)) (hnode hn (by simp)) (walk_eq_iff.mp (this.2 hp))).walk⟩
  | @entry k d n cs r x hd hn hx h ih =>
    by_cases hnq : n :: d = q
    · refine ⟨fun _ => (Goes.missing (hnode hd (by simp)) (hnq ▸ hq')).walk, fun hp => ?_⟩
      -- behind a file nothing can follow
      rw [hnq] at h
      exact absurd (h.behind hq (by simp) hr.symm) hp
    · have := ih hnq hr
      exact ⟨fun hp => (Goes.entry (hnode hd (by simp)) ((hsame _ hnq).symm.trans hn) hx
          (walk_eq_iff.mp (this.1 hp))).walk,
        fun hp => (Goes.entry (hnode hd (by simp)) ((hsame _ hnq).symm.trans hn) hx
          (walk_eq_iff.mp (this.2 hp))).walk⟩

/-! ## Names behind one another -/

theorem walk_le {k k' : Nat} {d p : Path ν} {cs : List (Comp ν)}
    (h : t.walk k d cs = .ok (k', p)) : k' ≤ k := by
  generalize hr : (.ok (k', p) : Except Errno (Nat × Path ν)) = r at h
  replace h := walk_eq_iff.mp h
  induction h with
  | stop => cases hr; exact Nat.le_refl _
  | gone | blocked | missing | loop => cases hr
  | cur _ _ ih => exact ih hr
  | parent _ _ ih => exact ih hr
  | link _ _ _ ih => exact Nat.le_succ_of_le (ih hr)
  | entry _ _ _ _ ih => exact ih hr

/-- Below the directory `d`, nothing but directories stands at the names
`ns`, the last of them excepted, which is no link. -/
structure Clear (t : Tree ν β) (d : Path ν) (ns : Path ν) : Prop where
  inner : ∀ s, s <:+ ns → s ≠ ns → ∀ x, t.node (s ++ d) = some x → x = .dir
  last : ∀ absolute target, t.node (ns ++ d) ≠ some (.link absolute target)

theorem Clear.tail {d ns : Path ν} {n : ν} (h : t.Clear d (n :: ns)) : t.Clear d ns where
  inner s hs hne x hx := by
    refine h.inner s (hs.trans (List.suffix_cons n ns)) ?_ x hx
    rintro rfl
    exact absurd hs.length_le (by simp)
  last absolute target hl := by
    have := h.inner ns (List.suffix_cons n ns) (by simp) _ hl
    cases this

/-- A lookup of clear names finds the last of them if anything is there. -/
theorem Clear.walk {d ns : Path ν} (h : t.Clear d ns) (hd : t.node d = some .dir) (k : Nat) :
    t.walk k d (comps ns) =
      if (t.node (ns ++ d)).isSome then .ok (k, ns ++ d) else .error .noEntry := by
  induction ns with
  | nil => simp [hd]
  | cons n ns ih =>
    rw [comps_cons, walk_append, ih h.tail]
    cases hn : t.node (ns ++ d) with
    | none =>
      have hnone : t.node (n :: (ns ++ d)) = none := by
        by_contra hne
        rw [t.parent hne] at hn
        cases hn
      simp [Except.bind, hnone]
    | some x =>
      have hx := h.inner ns (List.suffix_cons n ns) (by simp) x hn
      subst hx
      simp only [Option.isSome_some, if_true, Except.bind, List.cons_append]
      rw [walk_name hn]
      cases hl : t.node (n :: (ns ++ d)) with
      | none => rfl
      | some y =>
        cases y with
        | link absolute target => exact absurd hl (h.last absolute target)
        | _ => simp

theorem comps_append (p q : Path ν) : comps (p ++ q) = comps q ++ comps p := by
  simp [comps]

theorem slot_cons {n : ν} {d : Path ν} (hd : t.node d = some .dir) : t.slot (n :: d) = .ok (n :: d) := by
  have hreal : t.realpath (comps d) = .ok d := by rw [realpath, walk_comps hd]; rfl
  simp only [slot, hreal, ok_bind, hd]

/-- From the directory `d`, the name `z` leads to nothing, and `ys` are names
behind it. -/
theorem realpath_missing {d ys : Path ν} {z : ν} (hd : t.node d = some .dir)
    (hz : t.walk maxLinks d [.name z] = .error .noEntry) :
    t.realpath (comps (ys ++ z :: d)) = .error .noEntry := by
  rw [realpath, comps_append, comps_cons, List.append_assoc, walk_append, walk_comps hd]
  show (t.walk maxLinks d ([.name z] ++ comps ys)).map _ = _
  rw [walk_append, hz]
  rfl

theorem stat_missing {d : Path ν} {z : ν} (ys : Path ν) (hd : t.node d = some .dir)
    (hz : t.walk maxLinks d [.name z] = .error .noEntry) : t.stat (ys ++ z :: d) = .error .noEntry := by
  rw [stat, realpath_missing hd hz]
  rfl

theorem stat_of_node {p : Path ν} {x : Node ν β} (h : t.node p = some x)
    (hx : ∀ absolute target, x ≠ .link absolute target) : t.stat p = .ok x := by
  have hreal : t.realpath (comps p) = .ok p := by rw [realpath, walk_comps_of_node h hx]; rfl
  simp only [stat, hreal, ok_bind, h]

theorem stat_of_none {n : ν} {d : Path ν} (hd : t.node d = some .dir) (h : t.node (n :: d) = none) :
    t.stat (n :: d) = .error .noEntry := by
  refine stat_missing [] hd ?_
  rw [walk_name hd, h]

end

/-! ## What making a path reaches -/

section

omit [DecidableEq ν]

variable {t : Tree ν β}

theorem reach_nil (k : Nat) (d : Path ν) : t.reach k d [] = [d] := by
  cases k <;> rfl

theorem reach_name (k : Nat) (d : Path ν) (n : ν) (cs : List (Comp ν)) :
    t.reach k d (.name n :: cs) =
      match t.node (n :: d) with
      | none => (n :: d) :: t.reach k (n :: d) cs
      | some .dir => t.reach k (n :: d) cs
      | some (.link absolute target) =>
        match k with
        | 0 => []
        | k + 1 => t.reach k (if absolute then [] else d) (target ++ cs)
      | some _ => if cs = [] then [n :: d] else [] := by
  cases k <;> rfl

theorem reach_comps {d : Path ν} (hd : t.node d = some .dir) (k : Nat) (cs : List (Comp ν)) :
    t.reach k [] (comps d ++ cs) = t.reach k d cs := by
  induction d generalizing cs with
  | nil => rfl
  | cons n d ih =>
    rw [comps_cons, List.append_assoc, ih (dir_of_node hd), List.singleton_append, reach_name, hd]

/-- What is there and is no link is reached alone. -/
theorem reach_of_stands {p : Path ν} (h : t.Stands p) (k : Nat) : t.reach k [] (comps p) = [p] := by
  obtain ⟨x, hx, hl⟩ := h
  cases p with
  | nil => exact reach_nil k []
  | cons n d =>
    rw [comps_cons, reach_comps (dir_of_node hx), reach_name, hx]
    cases x with
    | dir => exact reach_nil k _
    | link absolute target => exact absurd rfl (hl absolute target)
    | _ => rfl

/-- Below what is missing, names are made one behind the other. -/
theorem reach_of_none {d : Path ν} (hd : t.node d = none) (k : Nat) (ns : Path ν) :
    ∀ q ∈ t.reach k d (comps ns), d <:+ q := by
  rw [show comps ns = (ns.reverse.map .name : List (Comp ν)) from rfl]
  generalize ns.reverse = ms
  induction ms generalizing d with
  | nil => simp [reach_nil]
  | cons m ms ih =>
    have hm : t.node (m :: d) = none := by
      by_contra hne
      rw [t.parent hne] at hd
      cases hd
    rw [List.map_cons, reach_name, hm]
    rintro q (_ | ⟨_, hq⟩)
    · exact List.suffix_cons m d
    · exact (List.suffix_cons m d).trans (ih hm q hq)

end

/-! ## What the changes do -/

section

variable {t t' : Tree ν β}

theorem createNew_cons {n : ν} {d : Path ν} {x : Node ν β} (hd : t.node d = some .dir)
    (h : t.createNew (n :: d) x = .ok t') :
    t.node (n :: d) = none ∧ ∀ p, t'.node p = if p = n :: d then some x else t.node p := by
  simp only [createNew, slot_cons hd, ok_bind] at h
  split at h
  · cases h
  · split at h
    · cases h
      exact ⟨‹_›, fun p => rfl⟩
    · cases h

theorem createNew_not_noEntry {n : ν} {d : Path ν} {x : Node ν β} (hd : t.node d = some .dir) :
    t.createNew (n :: d) x ≠ .error .noEntry := by
  intro h
  simp only [createNew, slot_cons hd, ok_bind] at h
  split at h
  · cases h
  · split at h <;> cases h

theorem replace_cons {n : ν} {d : Path ν} {b : β} (hd : t.node d = some .dir)
    (h : t.replace (n :: d) b = .ok t') :
    ∀ p, t'.node p = if p = n :: d then some (.file b) else t.node p := by
  simp only [replace, slot_cons hd, ok_bind] at h
  split at h
  · cases h
    exact fun p => rfl
  · cases h

theorem unlink_cons {n : ν} {d : Path ν} (hd : t.node d = some .dir)
    (h : t.unlink (n :: d) = .ok t') : ∀ p, t'.node p = if p = n :: d then none else t.node p := by
  simp only [unlink, slot_cons hd, ok_bind] at h
  split at h
  · cases h
  · split at h
    · cases h
      exact fun p => rfl
    · cases h

theorem move_cons {m n : ν} {d : Path ν} {overwrite : Bool} (hd : t.node d = some .dir)
    (h : t.move overwrite (m :: d) (n :: d) = .ok t') :
    ∃ x, t.node (m :: d) = some x ∧ (overwrite = false → t.node (n :: d) = none) ∧
      ∀ p, t'.node p = if p = n :: d then some x else if p = m :: d then none else t.node p := by
  simp only [move, slot_cons hd, ok_bind] at h
  split at h
  · cases h
  · rename_i x hx
    split at h
    · cases h
    · rename_i hno
      split at h
      · split at h
        · cases h
          refine ⟨x, hx, fun ho => ?_, fun p => rfl⟩
          simpa [ho] using hno
        · cases h
      · cases h

theorem hardLink_cons {m n : ν} {d : Path ν} (hd : t.node d = some .dir)
    (h : t.hardLink (m :: d) (n :: d) = .ok t') :
    ∃ x, t.node (m :: d) = some x ∧ t.node (n :: d) = none ∧
      ∀ p, t'.node p = if p = n :: d then some x else t.node p := by
  simp only [hardLink, slot_cons hd, ok_bind] at h
  split at h
  · cases h
  · cases h
  · rename_i x _ hx
    obtain ⟨hnone, hnode⟩ := createNew_cons hd h
    exact ⟨x, hx, hnone, hnode⟩

/-- A directory that is there is not made again. -/
theorem mkdirAll_dir {d : Path ν} (hd : t.node d = some .dir) (h : t.mkdirAll d = .ok t') : t' = t := by
  have hdir : t.isDir d = true := by rw [isDir, stat_of_node hd (by simp)]
  have hexists : t.createNew d .dir = .error .exists := by
    cases d with
    | nil => simp only [createNew, slot, ok_bind, hd]
    | cons n e => simp only [createNew, slot_cons (dir_of_node hd), ok_bind, hd]
  unfold mkdirAll at h
  rw [hexists] at h
  simpa [hdir] using h.symm

omit [DecidableEq ν] in
theorem Grows.slot (hg : Grows t t') {p q : Path ν} (h : t.slot p = .ok q) : t'.slot p = .ok q := by
  cases p with
  | nil => exact h
  | cons n d =>
    simp only [Tree.slot, realpath] at h ⊢
    cases hw : t.walk maxLinks [] (comps d) with
    | error e =>
      rw [hw] at h
      cases h
    | ok r =>
      rw [hw] at h
      rw [hg.walk hw]
      simp only [Except.map, ok_bind] at h ⊢
      split at h
      · next hdir =>
        rw [hg _ _ hdir]
        exact h
      · cases h

omit [DecidableEq ν] in
theorem grows_removeFiles (gone : Path ν → Bool) : Grows (t.removeFiles gone) t := by
  intro p x hp
  cases hn : t.node p with
  | none =>
    simp only [removeFiles, hn] at hp
    cases hp
  | some y =>
    cases y <;> simp only [removeFiles, hn] at hp
    · exact hp
    · split at hp
      · cases hp
      · exact hp
    · exact hp
    · exact hp

/-- A new entry, wherever its path leads. -/
theorem createNew_slot {p : Path ν} {x : Node ν β} (h : t.createNew p x = .ok t') :
    ∃ q, t.slot p = .ok q ∧ t.node q = none ∧ t.settable q = true ∧
      ∀ r, t'.node r = if r = q then some x else t.node r := by
  simp only [createNew] at h
  cases hq : t.slot p with
  | error e =>
    rw [hq] at h
    cases h
  | ok q =>
    rw [hq] at h
    simp only [ok_bind] at h
    split at h
    · cases h
    · next hnone =>
      split at h
      · next hset =>
        cases h
        exact ⟨q, rfl, hnone, hset, fun r => rfl⟩
      · cases h

/-- An entry taken away, wherever its path leads. -/
theorem unlink_slot {p : Path ν} (h : t.unlink p = .ok t') :
    ∃ q, t.slot p = .ok q ∧ ∀ r, t'.node r = if r = q then none else t.node r := by
  simp only [unlink] at h
  cases hq : t.slot p with
  | error e =>
    rw [hq] at h
    cases h
  | ok q =>
    rw [hq] at h
    simp only [ok_bind] at h
    split at h
    · cases h
    · split at h
      · cases h
        exact ⟨q, rfl, fun r => rfl⟩
      · cases h

/-- A new file can be taken away again, and nothing else changes. -/
theorem unlink_createNew {p : Path ν} {b : β} (h : t.createNew p (.file b) = .ok t') :
    ∃ t'', t'.unlink p = .ok t'' ∧ t''.node = t.node := by
  obtain ⟨q, hq, hnone, hset, hnode⟩ := createNew_slot h
  have hgrows : Grows t t' := fun r x hr => by
    rw [hnode, if_neg fun heq => by rw [heq, hnone] at hr; cases hr]
    exact hr
  have hset' : t'.settable q = true := by
    cases q with
    | nil => cases hset
    | cons n d => simp [settable, hnode, (settable_cons hset).1]
  refine ⟨t'.set q none hset', ?_, ?_⟩
  · simp only [unlink, hgrows.slot hq, ok_bind, hnode, if_pos, dif_pos hset']
  · funext r
    by_cases hr : r = q
    · subst hr
      simp [set, hnone]
    · simp [set, hr, hnode]

theorem lstat_createNew {p : Path ν} {x : Node ν β} (h : t.createNew p x = .ok t') : t'.lstat p = .ok x := by
  obtain ⟨q, hq, hnone, -, hnode⟩ := createNew_slot h
  have hgrows : Grows t t' := fun r y hr => by
    rw [hnode, if_neg fun heq => by rw [heq, hnone] at hr; cases hr]
    exact hr
  simp only [lstat, hgrows.slot hq, ok_bind, hnode, if_pos]

theorem lstat_unlink {p : Path ν} (h : t.unlink p = .ok t') (x : Node ν β) : t'.lstat p ≠ .ok x := by
  obtain ⟨q, hq, hnode⟩ := unlink_slot h
  have hgrows : Grows t' t := fun r y hr => by
    rw [hnode] at hr
    split at hr
    · cases hr
    · exact hr
  intro hx
  simp only [lstat] at hx
  cases hq' : t'.slot p with
  | error e =>
    rw [hq'] at hx
    cases hx
  | ok q' =>
    obtain rfl := Except.ok.inj ((hgrows.slot hq').symm.trans hq)
    rw [hq'] at hx
    simp only [ok_bind, hnode, if_pos] at hx
    cases hx

theorem lstat_of_unlink {p : Path ν} (h : t.unlink p = .error .noEntry) (x : Node ν β) : t.lstat p ≠ .ok x := by
  intro hx
  simp only [unlink] at h
  simp only [lstat] at hx
  cases hq : t.slot p with
  | error e =>
    rw [hq] at hx
    cases hx
  | ok q =>
    rw [hq] at h hx
    simp only [ok_bind] at h hx
    split at h
    · next hnone =>
      rw [hnone] at hx
      cases hx
    · split at h <;> cases h

theorem lstat_of_move {src dst : Path ν} {overwrite : Bool} (h : t.move overwrite src dst = .ok t') :
    ∃ x, t.lstat src = .ok x := by
  simp only [move] at h
  simp only [lstat]
  cases hq : t.slot src with
  | error e =>
    rw [hq] at h
    cases h
  | ok q =>
    rw [hq] at h
    cases hx : t.node q with
    | some x => exact ⟨x, by rw [ok_bind, hx]⟩
    | none =>
      simp only [ok_bind, hx] at h
      cases hq' : t.slot dst <;> rw [hq'] at h <;> cases h

theorem lstat_of_hardLink {src dst : Path ν} (h : t.hardLink src dst = .ok t') : ∃ x, t.lstat src = .ok x := by
  simp only [hardLink] at h
  simp only [lstat]
  cases hq : t.slot src with
  | error e =>
    rw [hq] at h
    cases h
  | ok q =>
    rw [hq] at h
    cases hx : t.node q with
    | some x => exact ⟨x, by rw [ok_bind, hx]⟩
    | none =>
      simp only [ok_bind, hx] at h
      cases h

theorem createNew_missing {d ys : Path ν} {y z : ν} {x : Node ν β} (hd : t.node d = some .dir)
    (hz : t.walk maxLinks d [.name z] = .error .noEntry) :
    t.createNew (y :: (ys ++ z :: d)) x = .error .noEntry := by
  simp only [createNew, slot, realpath_missing hd hz, error_bind]

omit [DecidableEq ν] in
theorem isDir_missing {d : Path ν} {z : ν} (ys : Path ν) (hd : t.node d = some .dir)
    (hz : t.walk maxLinks d [.name z] = .error .noEntry) : t.isDir (ys ++ z :: d) = false := by
  rw [isDir, stat_missing ys hd hz]

/-- Making all directories down to a path none of whose names exists below
`d`: nothing is there before, and nothing else changes. -/
theorem mkdirAll_missing {d : Path ν} {z : ν} (hd : t.node d = some .dir)
    (hz : t.walk maxLinks d [.name z] = .error .noEntry) :
    ∀ {ys : Path ν} {t' : Tree ν β}, t.mkdirAll (ys ++ z :: d) = .ok t' →
      t.node (z :: d) = none ∧ (∀ s, s <:+ ys → t'.node (s ++ z :: d) = some .dir) ∧
        ∀ p, (∀ s, s <:+ ys → p ≠ s ++ z :: d) → t'.node p = t.node p
  | [], t', h => by
    have hnot : t.isDir (z :: d) = false := isDir_missing [] hd hz
    rw [List.nil_append] at h
    unfold mkdirAll at h
    split at h
    · rename_i h₁
      cases h
      obtain ⟨hnone, hnode⟩ := createNew_cons hd h₁
      refine ⟨hnone, fun s hs => ?_, fun p hp => ?_⟩
      · rw [List.suffix_nil.mp hs, List.nil_append, hnode, if_pos rfl]
      · rw [hnode, if_neg (by simpa using hp [] (List.suffix_refl _))]
    · rename_i h₁ _
      exact absurd h₁ (createNew_not_noEntry hd)
    · rw [if_neg (by simp [hnot])] at h
      cases h
  | y :: ys, t', h => by
    rw [List.cons_append] at h
    unfold mkdirAll at h
    rw [createNew_missing hd hz] at h
    cases hm : t.mkdirAll (ys ++ z :: d) with
    | error e => simp only [hm, error_bind] at h; cases h
    | ok t₁ =>
      simp only [hm, ok_bind] at h
      obtain ⟨hnone, hdirs, hrest⟩ := mkdirAll_missing hd hz hm
      have hdir : t₁.node (ys ++ z :: d) = some .dir := hdirs ys (List.suffix_refl _)
      have hnew : t₁.node (y :: (ys ++ z :: d)) = none := by
        have hlen : ∀ s, s <:+ ys → y :: (ys ++ z :: d) ≠ s ++ z :: d := fun s hs heq => by
          have := congrArg List.length heq
          have := hs.length_le
          simp at *
          omega
        rw [hrest _ hlen]
        by_contra hne
        have hgone := t.parent hne
        cases ys with
        | nil => rw [List.nil_append, hnone] at hgone; cases hgone
        | cons y' ys =>
          have := stat_of_node hgone (by simp)
          rw [stat_missing _ hd hz] at this
          cases this
      split at h
      · rename_i h₁
        cases h
        obtain ⟨-, hnode⟩ := createNew_cons hdir h₁
        refine ⟨hnone, fun s hs => ?_, fun p hp => ?_⟩
        · rcases List.suffix_cons_iff.mp hs with rfl | hs
          · rw [hnode, if_pos (by simp)]
          · rw [hnode]
            split
            · rfl
            · exact hdirs s hs
        · rw [hnode, if_neg fun heq => hp (y :: ys) (List.suffix_refl _) (by simpa using heq)]
          exact hrest p fun s hs => hp s (hs.trans (List.suffix_cons y ys))
      · exfalso
        rename_i h₁
        have : t₁.isDir (y :: (ys ++ z :: d)) = false := by
          rw [isDir, stat_of_none hdir hnew]
        simp [this] at h

end

/-! ## Paths with no link on them -/

section

variable {t t' t'' : Tree ν β}

/-- A path that leads through directories to its last name, which is no link. -/
structure Physical (t : Tree ν β) (p : Path ν) : Prop where
  above : t.node p.tail = some .dir
  unlinked : ∀ absolute target, t.node p ≠ some (.link absolute target)

/-- The directories are the same, and no link is new. -/
structure Narrows (t t' : Tree ν β) : Prop where
  dir : ∀ p, t'.node p = some .dir ↔ t.node p = some .dir
  link : ∀ {p absolute target}, t'.node p = some (.link absolute target) → t.node p = some (.link absolute target)

omit [DecidableEq ν]

theorem Stands.physical {p : Path ν} (h : t.Stands p) : t.Physical p := by
  obtain ⟨x, hx, hl⟩ := h
  constructor
  · cases p with
    | nil => exact t.top
    | cons n d => exact dir_of_node hx
  · rintro absolute target hlink
    rw [hx] at hlink
    exact hl absolute target (Option.some.inj hlink)

theorem Physical.slot {p : Path ν} (h : t.Physical p) : t.slot p = .ok p := by
  cases p with
  | nil => rfl
  | cons n d => exact slot_cons h.above

theorem Physical.node_of_stat {p : Path ν} (h : t.Physical p) (hs : t.stat p = .ok .dir) :
    t.node p = some .dir := by
  cases hp : t.node p with
  | none =>
    cases p with
    | nil =>
      rw [t.top] at hp
      cases hp
    | cons n d =>
      rw [stat_of_none (show t.node d = _ from h.above) hp] at hs
      cases hs
  | some x =>
    rw [stat_of_node hp fun absolute target hx => h.unlinked absolute target (hx ▸ hp)] at hs
    rw [Except.ok.inj hs]

theorem Physical.lstat_eq {p : Path ν} (h : t.Physical p) (h' : t'.Physical p) (hn : t'.node p = t.node p) :
    t'.lstat p = t.lstat p := by
  simp only [lstat, h.slot, h'.slot, ok_bind, hn]

namespace Narrows

theorem refl (t : Tree ν β) : Narrows t t := ⟨fun _ => Iff.rfl, id⟩

theorem trans (h : Narrows t t') (h' : Narrows t' t'') : Narrows t t'' :=
  ⟨fun p => (h'.dir p).trans (h.dir p), fun hl => h.link (h'.link hl)⟩

theorem physical (h : Narrows t t') {p : Path ν} (hp : t.Physical p) : t'.Physical p :=
  ⟨(h.dir _).mpr hp.above, fun absolute target hl => hp.unlinked absolute target (h.link hl)⟩

/-- What leads to a directory led there before. -/
theorem walk_dir (h : Narrows t t') {k k' : Nat} {d p : Path ν} {cs : List (Comp ν)}
    (hw : t'.walk k d cs = .ok (k', p)) (hp : t'.node p = some .dir) : t.walk k d cs = .ok (k', p) := by
  generalize hr : (.ok (k', p) : Except Errno (Nat × Path ν)) = r at hw
  rw [walk_eq_iff]
  replace hw := walk_eq_iff.mp hw
  induction hw with
  | stop => exact .stop
  | gone | blocked | missing | loop => cases hr
  | cur hd _ ih => exact .cur ((h.dir _).mp hd) (ih hr)
  | parent hd _ ih => exact .parent ((h.dir _).mp hd) (ih hr)
  | link hd hn _ ih => exact .link ((h.dir _).mp hd) (h.link hn) (ih hr)
  | @entry k d n cs r x hd hn hx hgo ih =>
    cases x with
    | dir => exact .entry ((h.dir _).mp hd) ((h.dir _).mp hn) (by simp) (ih hr)
    | link absolute target => exact absurd rfl (hx absolute target)
    | file b | special =>
      cases hgo.behind hn (by simp) hr.symm
      rw [hn] at hp
      cases hp

theorem stat_dir (h : Narrows t t') {p : Path ν} (hs : t'.stat p = .ok .dir) : t.stat p = .ok .dir := by
  simp only [stat, realpath] at hs ⊢
  cases hw : t'.walk maxLinks [] (comps p) with
  | error e =>
    rw [hw] at hs
    cases hs
  | ok r =>
    obtain ⟨k, q⟩ := r
    rw [hw] at hs
    simp only [Except.map, ok_bind] at hs
    split at hs
    · cases hs
    · next x hx =>
      cases hs
      rw [h.walk_dir hw hx]
      simp only [Except.map, ok_bind, (h.dir q).mp hx]

end Narrows

/-- A tree with some entries taken away, none of them a directory. -/
theorem narrows_of_removed (h : ∀ p, t'.node p = t.node p ∨ t'.node p = none ∧ t.node p ≠ some .dir) :
    Narrows t t' := by
  constructor
  · intro p
    rcases h p with heq | ⟨hnone, hne⟩
    · rw [heq]
    · rw [hnone]
      exact ⟨nofun, fun hd => absurd hd hne⟩
  · intro p absolute target hl
    rcases h p with heq | ⟨hnone, -⟩
    · exact heq ▸ hl
    · rw [hnone] at hl
      cases hl

theorem narrows_removeFiles (gone : Path ν → Bool) : Narrows t (t.removeFiles gone) := by
  refine narrows_of_removed fun p => ?_
  cases hn : t.node p with
  | none => exact .inl (by simp only [removeFiles, hn])
  | some x =>
    cases x with
    | file b =>
      by_cases hg : gone p = true
      · exact .inr ⟨by simp only [removeFiles, hn, hg, if_true], by simp⟩
      · exact .inl (by simp only [removeFiles, hn, if_neg hg])
    | dir | link | special => exact .inl (by simp only [removeFiles, hn])

variable [DecidableEq ν]

/-- An entry set, or taken away; neither a directory nor a link is new. -/
theorem narrows_of_changed {q : Path ν} {x : Option (Node ν β)} (hq : t.settable q = true)
    (hdir : x ≠ some .dir) (hlink : ∀ absolute target, x ≠ some (.link absolute target))
    (h : ∀ p, t'.node p = if p = q then x else t.node p) : Narrows t t' := by
  have hne : t.node q ≠ some .dir := by
    cases q with
    | nil => cases hq
    | cons n d => exact (settable_cons hq).2
  constructor
  · intro p
    rw [h]
    split
    · next heq =>
      subst heq
      exact ⟨fun hd => absurd hd hdir, fun hd => absurd hd hne⟩
    · exact Iff.rfl
  · intro p absolute target hl
    rw [h] at hl
    split at hl
    · exact absurd hl (hlink absolute target)
    · exact hl

theorem narrows_createNew {p : Path ν} {x : Node ν β} (hdir : x ≠ .dir)
    (hlink : ∀ absolute target, x ≠ .link absolute target) (h : t.createNew p x = .ok t') : Narrows t t' := by
  obtain ⟨q, -, -, hset, hnode⟩ := createNew_slot h
  exact narrows_of_changed hset (by simpa using hdir) (by simpa using hlink) hnode

theorem narrows_replace {p : Path ν} {b : β} (h : t.replace p b = .ok t') : Narrows t t' := by
  simp only [replace] at h
  cases hq : t.slot p with
  | error e =>
    rw [hq] at h
    cases h
  | ok q =>
    rw [hq] at h
    simp only [ok_bind] at h
    split at h
    · next hset =>
      cases h
      exact narrows_of_changed hset (by simp) (by simp) fun _ => rfl
    · cases h

theorem narrows_unlink {p : Path ν} (h : t.unlink p = .ok t') : Narrows t t' := by
  simp only [unlink] at h
  cases hq : t.slot p with
  | error e =>
    rw [hq] at h
    cases h
  | ok q =>
    rw [hq] at h
    simp only [ok_bind] at h
    split at h
    · cases h
    · split at h
      · next hset =>
        cases h
        exact narrows_of_changed hset (by simp) (by simp) fun _ => rfl
      · cases h

theorem narrows_move {overwrite : Bool} {src dst : Path ν} (hsrc : t.Physical src)
    (h : t.move overwrite src dst = .ok t') : Narrows t t' := by
  simp only [move, hsrc.slot, ok_bind] at h
  cases hq : t.slot dst with
  | error e =>
    rw [hq] at h
    cases h
  | ok q =>
    rw [hq] at h
    simp only [ok_bind] at h
    split at h
    · cases h
    · next x hx =>
      split at h
      · cases h
      · split at h
        · next hset =>
          split at h
          · next hset' =>
            cases h
            have hdir : some x ≠ some .dir := by
              cases src with
              | nil => cases hset
              | cons n d => exact hx ▸ (settable_cons hset).2
            have hgone : Narrows t (t.set src none hset) :=
              narrows_of_changed hset (by simp) (by simp) fun _ => rfl
            exact hgone.trans (narrows_of_changed hset' hdir
              (fun absolute target hl => hsrc.unlinked absolute target (hx.trans hl)) fun _ => rfl)
          · cases h
        · cases h

theorem narrows_hardLink {src dst : Path ν} (hsrc : t.Physical src) (h : t.hardLink src dst = .ok t') :
    Narrows t t' := by
  simp only [hardLink, hsrc.slot, ok_bind] at h
  split at h
  · cases h
  · cases h
  · next x hx hnode =>
    refine narrows_createNew hx (fun absolute target hl => ?_) h
    exact hsrc.unlinked absolute target (hl ▸ hnode)

end

end Tree

end FileTree
