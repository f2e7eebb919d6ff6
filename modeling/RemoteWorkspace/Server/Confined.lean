import RemoteWorkspace.Lib.Alone
import RemoteWorkspace.Resolution
import RemoteWorkspace.Server.Handlers

/-!
# Mutations stay inside the root they address

`create`, `edit`, `delete` and the two halves of an upload check a resolved
path once more before they change anything: a file to be created must be
missing and its directories are made one by one, a file to be edited or deleted
must be there, and the directory of an upload must exist. After that they change
entries of one directory only (`FsCmd.WorksIn`), and that directory is the
addressed root or below it.

The runs are of one handler on a tree that no one else changes (`TreeStep`):
what others do to the store and to the registry shows in the results of the
other commands, which may be any.
-/

namespace RemoteWorkspace

open FileTree (Comp Node Errno comps)
open FileTree.Tree
open Interleave

/-! ## Changed entries -/

def Below (base p : Path) : Prop := base <:+ p ∧ p ≠ base

/-- What has changed lies below the root that the client path addresses. -/
def Confined (ws : Workspace) (rel : String) (t t' : Tree) : Prop :=
  ∀ p, t'.node p ≠ t.node p → ∃ j, ws.join rel = .ok j ∧ Below j.base p

/-- What has changed are entries of the directory `d`. -/
def OnlyIn (d : Path) (t t' : Tree) : Prop := ∀ p, t'.node p ≠ t.node p → ∃ n, p = n :: d

section

variable {ws : Workspace} {rel : String} {t t' t'' : Tree} {d : Path}

theorem Confined.refl : Confined ws rel t t := fun _ h => absurd rfl h

theorem Confined.trans (h : Confined ws rel t t') (h' : Confined ws rel t' t'') : Confined ws rel t t'' := by
  intro p hp
  by_cases hne : t'.node p = t.node p
  · exact h' p (by rwa [hne])
  · exact h p hne

theorem OnlyIn.refl : OnlyIn d t t := fun _ h => absurd rfl h

theorem OnlyIn.trans (h : OnlyIn d t t') (h' : OnlyIn d t' t'') : OnlyIn d t t'' := by
  intro p hp
  by_cases hne : t'.node p = t.node p
  · exact h' p (by rwa [hne])
  · exact h p hne

theorem cons_ne_self {α : Type} (n : α) (d : List α) : n :: d ≠ d := fun h => by
  have := congrArg List.length h
  simp at this

/-- The directory itself stays. -/
theorem OnlyIn.dir (h : OnlyIn d t t') (hd : t.node d = some .dir) : t'.node d = some .dir := by
  by_contra hne
  obtain ⟨n, hn⟩ := h d (by rwa [hd])
  exact cons_ne_self n d hn.symm

theorem below_cons {base : Path} (n : String) (hb : base <:+ d) : Below base (n :: d) := by
  refine ⟨hb.trans (List.suffix_cons n d), fun heq => ?_⟩
  have := hb.length_le
  have := congrArg List.length heq
  simp at this
  omega

theorem OnlyIn.confined (h : OnlyIn d t t') {j : Joined} (hj : ws.join rel = .ok j) (hb : j.base <:+ d) :
    Confined ws rel t t' := by
  intro p hp
  obtain ⟨n, rfl⟩ := h p hp
  exact ⟨j, hj, below_cons n hb⟩

theorem onlyIn_of_node {n : String} {x : Option (Node String File)}
    (h : ∀ p, t'.node p = if p = n :: d then x else t.node p) : OnlyIn d t t' := by
  intro p hp
  by_contra hno
  rw [h p, if_neg fun heq => hno ⟨n, heq⟩] at hp
  exact hp rfl

end

/-! ## Calls that change one directory -/

/-- A call that changes entries of the directory `d` at most. -/
def FsCmd.WorksIn (d : Path) : FsCmd → Prop
  | .createDirAll p => p = d
  | .createTemp dir _ _ => dir = d
  | .write p _ => ∃ n, p = n :: d
  | .rename _ src dst => (∃ m, src = m :: d) ∧ ∃ n, dst = n :: d
  | .hardLink src dst => (∃ m, src = m :: d) ∧ ∃ n, dst = n :: d
  | .removeFile p => ∃ n, p = n :: d
  | .sweepStagingDir dir _ => dir = d
  | .sweepStagingTree _ _ => False
  | .sweepScratch => False
  | _ => True

section

variable {ws : Workspace} {sha256 : Sha256} {ch : FsChoice} {t : Tree} {d : Path}

theorem FsChoice.onlyIn_changes {r : Except Errno Tree} (h : ∀ t', r = .ok t' → OnlyIn d t t') :
    OnlyIn d t (ch.changes t r).2 := by
  rcases ch.changes_cases t r with ⟨e, ht⟩ | ⟨t', hr, ht⟩
  · rw [ht]
    exact .refl
  · rw [ht]
    exact h t' hr

theorem onlyIn_removeFiles {gone : Path → Bool} (h : ∀ p, gone p = true → ∃ n, p = n :: d) :
    OnlyIn d t (t.removeFiles gone) := by
  intro p hp
  refine h p ?_
  by_contra hno
  refine hp ?_
  simp only [removeFiles]
  split
  · rw [if_neg hno]
    exact Eq.symm ‹_›
  · rfl

theorem FsCmd.onlyIn_exec {c : FsCmd} (hc : c.WorksIn d) (hd : t.node d = some .dir) :
    OnlyIn d t (c.exec ws sha256 ch t).2 := by
  cases c with
  | createDirAll p =>
    cases hc
    simp only [FsCmd.exec]
    split
    · refine ch.onlyIn_changes fun t' h => ?_
      rw [mkdirAll_dir hd h]
      exact .refl
    · dsimp only
      split
      · rename_i t' h
        have hup : t.node (d.drop (ch.unmade + 1)) = some .dir := by
          by_cases hne : d.drop (ch.unmade + 1) = d
          · rwa [hne]
          · exact dir_of_suffix (by simp [hd]) (List.drop_suffix _ d) hne
        rw [mkdirAll_dir hup h]
        exact .refl
      · exact .refl
  | createTemp dir before after =>
    cases hc
    have hmade : OnlyIn d t (ch.changes t (t.createNew ((before ++ ch.name ++ after) :: d)
        (.file { content := [], readable := true }))).2 :=
      ch.onlyIn_changes fun t' h => onlyIn_of_node (createNew_cons hd h).2
    simp only [FsCmd.exec]
    split <;> (rename_i heq; rwa [heq] at hmade)
  | write p content =>
    obtain ⟨n, rfl⟩ := hc
    exact ch.onlyIn_changes fun t' h => onlyIn_of_node (replace_cons hd h)
  | rename overwrite src dst =>
    obtain ⟨⟨m, rfl⟩, n, rfl⟩ := hc
    refine ch.onlyIn_changes fun t' h p hp => ?_
    obtain ⟨x, -, -, hnode⟩ := move_cons hd h
    by_contra hno
    rw [hnode p, if_neg fun heq => hno ⟨n, heq⟩, if_neg fun heq => hno ⟨m, heq⟩] at hp
    exact hp rfl
  | hardLink src dst =>
    obtain ⟨⟨m, rfl⟩, n, rfl⟩ := hc
    refine ch.onlyIn_changes fun t' h => ?_
    obtain ⟨x, -, -, hnode⟩ := hardLink_cons hd h
    exact onlyIn_of_node hnode
  | removeFile p =>
    obtain ⟨n, rfl⟩ := hc
    exact ch.onlyIn_changes fun t' h => onlyIn_of_node (unlink_cons hd h)
  | sweepStagingDir dir inFlight =>
    cases hc
    have hreal : t.realpath (comps d) = .ok d := by
      rw [realpath, walk_comps hd]
      rfl
    simp only [FsCmd.exec, hreal]
    refine onlyIn_removeFiles fun p hp => ?_
    cases p with
    | nil => cases hp
    | cons n p =>
      simp only [Bool.and_eq_true, decide_eq_true_eq] at hp
      exact ⟨n, by rw [hp.1.1.1]⟩
  | sweepStagingTree root inFlight => exact hc.elim
  | sweepScratch => exact hc.elim
  | _ => exact .refl

end

/-! ## Where resolved paths lie -/

/-- What `Workspace::new` has seen to. -/
structure Workspace.Opened (ws : Workspace) (t : Tree) : Prop where
  root : t.node ws.root ≠ none
  scratchRoot : t.node ws.scratchRoot ≠ none

section

variable {ws : Workspace} {rel : String} {t t' : Tree} {j : Joined} {q d : Path}

theorem join_cases (h : ws.join rel = .ok j) :
    (j.base = ws.root ∨ j.base = ws.scratchRoot) ∧ (j.names = [] → j.dirOnly = true) := by
  unfold Workspace.join at h
  split at h
  · cases h
  · generalize ha : ws.addressed rel = a at h
    obtain ⟨base, relative⟩ := a
    dsimp only at h
    split at h
    · cases h
    · split at h
      · cases h
      · cases h
        constructor
        · unfold Workspace.addressed at ha
          dsimp only at ha
          split at ha
          · exact .inr (Prod.mk.inj ha).1.symm
          · split at ha
            · exact .inr (Prod.mk.inj ha).1.symm
            · exact .inl (Prod.mk.inj ha).1.symm
        · intro hnone
          dsimp only at hnone ⊢
          have hlast : ∀ cs : List String, cs.filter isNormal = [] → isNormal (cs.getLastD "") = false := by
            intro cs hcs
            cases hlast : cs.getLast? with
            | none => rw [List.getLastD_eq_getLast?, hlast]; rfl
            | some c =>
              rw [List.getLastD_eq_getLast?, hlast]
              exact Bool.eq_false_iff.mpr (List.filter_eq_nil_iff.mp hcs c (List.mem_of_getLast? hlast))
          rw [hlast _ hnone]
          rfl

theorem Workspace.Opened.base (h : ws.Opened t) (hj : ws.join rel = .ok j) : t.node j.base ≠ none := by
  rcases (join_cases hj).1 with hb | hb
  · exact hb ▸ h.root
  · exact hb ▸ h.scratchRoot

/-- A path that leads to a file leads to one below the root. -/
theorem base_ne_file {f : File} (hj : ws.join rel = .ok j) (hr : t.realpath j.comps = .ok q)
    (hq : t.node q = some (.file f)) : j.base ≠ q := by
  rintro rfl
  obtain ⟨hslash, hr⟩ := dirOnly_of_realpath hr hq
  have hnames : j.names.reverse ≠ [] := by
    intro hnil
    rw [(join_cases hj).2 (List.reverse_eq_nil_iff.mp hnil)] at hslash
    cases hslash
  obtain ⟨k, hk⟩ := realpath_eq_ok.mp hr
  rw [Joined.path, comps_append, walk_append, walk_comps_of_node hq (by simp)] at hk
  change t.walk maxLinks j.base (comps j.names.reverse) = _ at hk
  cases hns : j.names.reverse with
  | nil => exact hnames hns
  | cons n ns =>
    have hcons : ∃ c cs, comps (n :: ns) = c :: cs := by
      cases h : comps (n :: ns) with
      | nil => simp at h
      | cons c cs => exact ⟨c, cs, rfl⟩
    obtain ⟨c, cs, hcs⟩ := hcons
    rw [hns, hcs, walk_cons, hq] at hk
    cases hk

theorem suffix_of_ne {base : Path} {n : String} (h : base <:+ n :: d) (hne : base ≠ n :: d) : base <:+ d := by
  rcases List.suffix_cons_iff.mp h with heq | h
  · exact absurd heq hne
  · exact h

/-- A file that is there is an entry of a directory of the addressed root. -/
theorem placed_of_file {f : File} (hr : ws.resolve t rel = .ok q) (hs : t.stat q = .ok (.file f)) :
    ∃ n d j, q = n :: d ∧ t.node (n :: d) = some (.file f) ∧ t.node d = some .dir ∧
      ws.join rel = .ok j ∧ j.base <:+ d ∧ t.realpath j.comps = .ok (n :: d) := by
  obtain ⟨hq, j, hj, hreal⟩ := node_of_stat hr hs
  obtain ⟨j', hj', hb, -⟩ := resolve_cases hr
  rw [hj] at hj'
  cases hj'
  cases q with
  | nil => exact absurd rfl (mutation_ne_nil hq)
  | cons n d =>
    exact ⟨n, d, j, rfl, hq, dir_of_node hq, hj, suffix_of_ne hb (base_ne_file hj hreal hq), hreal⟩

/-- The directory above a name that leads to nothing is in the addressed root
if there is no such entry at all. -/
theorem base_suffix_of_none {base : Path} {z : String} (ys : Path) (hbase : t.node base ≠ none)
    (hz : t.node (z :: d) = none) (h : base <:+ ys ++ z :: d) : base <:+ d := by
  have hup : base <:+ z :: d := by
    rcases List.suffix_or_suffix_of_suffix h (List.suffix_append ys (z :: d)) with h | h
    · exact h
    · by_cases heq : z :: d = base
      · exact heq ▸ List.suffix_refl _
      · rw [dir_of_suffix hbase h heq] at hz
        cases hz
  refine suffix_of_ne hup ?_
  rintro rfl
  exact hbase hz

theorem lstat_cons {n : String} (hd : t.node d = some .dir) :
    t.lstat (n :: d) = match t.node (n :: d) with
      | none => .error .noEntry
      | some x => .ok x := by
  rw [lstat, slot_cons hd, ok_bind]
  cases t.node (n :: d) <;> rfl

/-- The directory of an upload, when its target is a file or missing. -/
theorem placed_of_parent {n : String} (hws : ws.Opened t) (hr : ws.resolve t rel = .ok (n :: d))
    (hp : t.stat d = .ok .dir)
    (hl : t.lstat (n :: d) = .error .noEntry ∨ ∃ f, t.lstat (n :: d) = .ok (.file f)) :
    ∃ j, ws.join rel = .ok j ∧ j.base <:+ d ∧ t.node d = some .dir := by
  obtain ⟨j, hj, hb, hreal | ⟨-, ys, z, p₀, q₀, k, -, heq, hw, hz⟩⟩ := resolve_cases hr
  · obtain ⟨k, hk⟩ := realpath_eq_ok.mp hreal
    obtain ⟨x, hx, -⟩ := stands_of_realpath hk
    have hd := dir_of_node hx
    refine ⟨j, hj, suffix_of_ne hb ?_, hd⟩
    rw [lstat_cons hd, hx] at hl
    rcases hl with hl | ⟨f, hl⟩ <;> cases hl
    exact base_ne_file hj hreal hx
  · have hq₀ := dir_of_misses (stands_of_realpath hw) hz
    have hz' := walk_maxLinks_of_misses hw hz
    cases ys with
    | cons y ys =>
      have hd : d = ys ++ z :: q₀ := (List.cons.inj heq).2
      rw [hd, stat_missing ys hq₀ hz'] at hp
      cases hp
    | nil =>
      cases heq
      rw [lstat_cons hq₀] at hl
      rw [walk_name hq₀] at hz'
      refine ⟨j, hj, ?_, hq₀⟩
      cases hn : t.node (n :: d) with
      | none => exact base_suffix_of_none [] (hws.base hj) hn hb
      | some x =>
        rw [hn] at hl hz'
        rcases hl with hl | ⟨f, hl⟩ <;> cases hl
        simp at hz'

/-- The directories above a missing file are made below the addressed root,
however many of them are. -/
theorem confined_mkdirAll {p : Path} (hws : ws.Opened t) (hr : ws.resolve t rel = .ok q)
    (hl : t.lstat q = .error .noEntry) (hp : p <:+ q.tail) (h : t.mkdirAll p = .ok t') :
    Confined ws rel t t' ∧ (p = q.tail → t'.node p = some .dir ∧ q ≠ [] ∧
      ∃ j, ws.join rel = .ok j ∧ j.base <:+ p) := by
  obtain ⟨j, hj, hb, hreal | ⟨-, ys, z, p₀, d, k, -, rfl, hw, hz⟩⟩ := resolve_cases hr
  · obtain ⟨k, hk⟩ := realpath_eq_ok.mp hreal
    exact absurd hl (lstat_of_stands (stands_of_realpath hk))
  have hd := dir_of_misses (stands_of_realpath hw) hz
  have hz' := walk_maxLinks_of_misses hw hz
  have hexists : p <:+ d → t' = t := by
    intro hpd
    by_cases hne : p = d
    · exact mkdirAll_dir (hne ▸ hd) h
    · exact mkdirAll_dir (dir_of_suffix (by simp [hd]) hpd hne) h
  cases ys with
  | nil =>
    have heq := hexists hp
    subst heq
    refine ⟨.refl, fun hpd => ?_⟩
    change p = d at hpd
    subst hpd
    refine ⟨hd, by simp, j, hj, ?_⟩
    rw [List.nil_append, lstat_cons hd] at hl
    cases hn : t'.node (z :: p) with
    | none => exact base_suffix_of_none [] (hws.base hj) hn hb
    | some x =>
      rw [hn] at hl
      cases hl
  | cons y ys =>
    change p <:+ ys ++ z :: d at hp
    by_cases hpd : p <:+ d
    · have heq := hexists hpd
      subst heq
      refine ⟨.refl, ?_⟩
      rintro rfl
      have := hpd.length_le
      simp at this
      omega
    · have hsplit : ∃ ys', ys' <:+ ys ∧ p = ys' ++ z :: d := by
        rcases List.suffix_or_suffix_of_suffix hp (List.suffix_append ys (z :: d)) with hs | ⟨ys', rfl⟩
        · rcases List.suffix_cons_iff.mp hs with rfl | hs
          · exact ⟨[], List.nil_suffix, rfl⟩
          · exact absurd hs hpd
        · obtain ⟨w, hw⟩ := hp
          exact ⟨ys', ⟨w, List.append_cancel_right (by rwa [List.append_assoc])⟩, rfl⟩
      obtain ⟨ys', hys', rfl⟩ := hsplit
      obtain ⟨hnone, hdirs, hrest⟩ := mkdirAll_missing hd hz' h
      have hbd := base_suffix_of_none _ (hws.base hj) hnone hb
      refine ⟨fun p hne => ?_, ?_⟩
      · by_contra hno
        refine hne (hrest p ?_)
        rintro s - rfl
        refine hno ⟨j, hj, hbd.trans ⟨s ++ [z], by simp⟩, fun heq => ?_⟩
        have := hbd.length_le
        have := congrArg List.length heq
        simp at this
        omega
      · intro _
        exact ⟨hdirs ys' (List.suffix_refl _), by simp, j, hj, hbd.trans ⟨ys' ++ [z], by simp⟩⟩

end

/-! ## Runs on a tree that no one else changes -/

/-- The call says that there is no entry only where there is none. -/
def FsChoice.Truthful (ch : FsChoice) : Prop := ch.fault ≠ some .noEntry

/-- What a command can return, and what it then makes of the tree. -/
def TreeStep (server : Server) : (c : ServerCmd) → c.Result → Tree → Tree → Prop
  | .fs c, r, t, t' => ∃ ch : FsChoice, ch.Truthful ∧ c.exec server.workspace server.sha256 ch t = (r, t')
  | _, _, t, t' => t' = t

/-- A call that leaves the tree as it is. -/
def FsCmd.Reads (c : FsCmd) : Prop :=
  ∀ (ws : Workspace) (sha256 : Sha256) (ch : FsChoice) (t : Tree), (c.exec ws sha256 ch t).2 = t

def ServerCmd.LeavesTree : ServerCmd → Prop
  | .fs c => c.Reads
  | _ => True

/-- The files of the upload are entries of the directory `d`. -/
def PendingUpload.In (d : Path) (entry : PendingUpload) : Prop :=
  (∃ m, entry.staging = m :: d) ∧ ∃ n, entry.target = n :: d

/-- A command that changes entries of the directory `d` at most, and registers
no uploads to elsewhere. -/
def ServerCmd.WorksIn (d : Path) : ServerCmd → Prop
  | .fs c => c.WorksIn d
  | .uploads (.put _ entry) => entry.In d
  | _ => True

section

variable {server : Server} {rel : String} {t t' : Tree} {d : Path} {α ε : Type}
  {I : ServerCmd → Tree → Prop}

theorem treeStep_of_exec {c : ServerCmd} {ch : ServerChoice} {s s' : ServerState} {r : c.Result}
    (hch : ch.fs.Truthful) (h : c.exec server.workspace server.sha256 ch s = some (r, s')) :
    TreeStep server c r s.tree s'.tree := by
  cases c with
  | store c =>
    obtain ⟨x, -, heq⟩ := Option.map_eq_some_iff.mp h
    cases heq
    rfl
  | fs c =>
    cases h
    exact ⟨ch.fs, hch, rfl⟩
  | uploads c => cases h; rfl
  | acquire =>
    simp only [ServerCmd.exec] at h
    split at h <;> cases h
    rfl
  | release => cases h; rfl
  | run _ _ _ _ => cases h; rfl
  | reply _ => cases h; rfl

theorem reads_ok {ch : FsChoice} {x : Except Errno α} {a : α} (h : ch.reads x = .ok a) : x = .ok a := by
  unfold FsChoice.reads at h
  split at h
  · cases h
  · exact h

theorem reads_noEntry {ch : FsChoice} {x : Except Errno α} (hch : ch.Truthful)
    (h : ch.reads x = .error .noEntry) : x = .error .noEntry := by
  unfold FsChoice.reads at h
  split at h
  · rename_i e he
    cases h
    exact absurd he hch
  · exact h

theorem treeStep_resolve {r : Except ProtocolError Path} (h : TreeStep server (.fs (.resolve rel)) r t t') :
    t' = t ∧ ∀ q, r = .ok q → server.workspace.resolve t rel = .ok q := by
  obtain ⟨ch, -, h⟩ := h
  cases h
  refine ⟨rfl, fun q hq => ?_⟩
  split at hq
  · cases hq
  · exact hq

theorem treeStep_isSymlink {r : Except ProtocolError Bool} (h : TreeStep server (.fs (.isSymlink rel)) r t t') :
    t' = t ∧ ∀ b, r = .ok b → server.workspace.isSymlink t rel = .ok b := by
  obtain ⟨ch, -, h⟩ := h
  cases h
  refine ⟨rfl, fun b hb => ?_⟩
  split at hb
  · cases hb
  · exact hb

theorem treeStep_metadata {p : Path} {r : Except Errno (Node String File)}
    (h : TreeStep server (.fs (.metadata p)) r t t') :
    t' = t ∧ ∀ x, r = .ok x → t.stat p = .ok x := by
  obtain ⟨ch, -, h⟩ := h
  cases h
  exact ⟨rfl, fun x hx => reads_ok hx⟩

theorem treeStep_symlinkMetadata {p : Path} {r : Except Errno (Node String File)}
    (h : TreeStep server (.fs (.symlinkMetadata p)) r t t') :
    t' = t ∧ (∀ x, r = .ok x → t.lstat p = .ok x) ∧ (r = .error .noEntry → t.lstat p = .error .noEntry) := by
  obtain ⟨ch, hch, h⟩ := h
  cases h
  exact ⟨rfl, fun x hx => reads_ok hx, fun hx => reads_noEntry hch hx⟩

theorem treeStep_reads {c : FsCmd} (hc : c.Reads) {r : c.Result} (h : TreeStep server (.fs c) r t t') :
    t' = t := by
  obtain ⟨ch, -, h⟩ := h
  rw [← hc server.workspace server.sha256 ch t, h]

theorem treeStep_createTemp {before after : String} {r : Except Errno Path}
    (h : TreeStep server (.fs (.createTemp d before after)) r t t') : ∀ p, r = .ok p → ∃ n, p = n :: d := by
  obtain ⟨ch, -, h⟩ := h
  rintro p rfl
  simp only [FsCmd.exec] at h
  split at h <;> cases h
  exact ⟨_, rfl⟩

/-- However far the directories above a missing file are made. -/
theorem treeStep_createDirAll {q : Path} {r : Except Errno Unit} (hws : server.workspace.Opened t)
    (hr : server.workspace.resolve t rel = .ok q) (hl : t.lstat q = .error .noEntry)
    (h : TreeStep server (.fs (.createDirAll q.tail)) r t t') :
    Confined server.workspace rel t t' ∧ (r = .ok () → t'.node q.tail = some .dir ∧
      ∃ j, server.workspace.join rel = .ok j ∧ j.base <:+ q.tail) := by
  obtain ⟨ch, -, h⟩ := h
  simp only [FsCmd.exec] at h
  split at h
  · rcases ch.changes_cases t (t.mkdirAll q.tail) with ⟨e, ht⟩ | ⟨t₁, hm, ht⟩
    · rw [ht] at h
      cases h
      exact ⟨.refl, nofun⟩
    · rw [ht] at h
      cases h
      obtain ⟨hc, hall⟩ := confined_mkdirAll hws hr hl (List.suffix_refl _) hm
      obtain ⟨hd, -, hj⟩ := hall rfl
      exact ⟨hc, fun _ => ⟨hd, hj⟩⟩
  · cases h
    refine ⟨?_, fun hr => by cases hr⟩
    split
    · rename_i t₁ hm
      exact (confined_mkdirAll hws hr hl (List.drop_suffix _ _) hm).1
    · exact .refl

theorem onlyIn_step {c : ServerCmd} {r : c.Result} (hc : c.WorksIn d) (h : TreeStep server c r t t')
    (hd : t.node d = some .dir) : OnlyIn d t t' := by
  cases c with
  | fs c =>
    obtain ⟨ch, -, h⟩ := h
    have hex : OnlyIn d t (c.exec server.workspace server.sha256 ch t).2 := FsCmd.onlyIn_exec hc hd
    rwa [h] at hex
  | _ =>
    cases h
    exact .refl

/-! ## Programs that change one directory -/

theorem keeps_leavesTree {Q : α → Tree → Prop} {p : ServerProg α} (hp : p.Issues ServerCmd.LeavesTree)
    (hI : ∀ c, ServerCmd.LeavesTree c → I c t) (hQ : ∀ a, Q a t) : p.Keeps (TreeStep server) I Q t := by
  refine Prog.keeps_of_issues (J := fun t' => t' = t) ?_ ?_ ?_ hp rfl
  · rintro c _ hc rfl
    exact hI c hc
  · rintro c r _ t' hc rfl hs
    cases c with
    | fs c => exact treeStep_reads hc hs
    | _ => exact hs
  · rintro a _ rfl
    exact hQ a

theorem keeps_worksIn {Q : α → Tree → Prop} {p : ServerProg α} (hp : p.Issues (ServerCmd.WorksIn d))
    (hd : t.node d = some .dir) (hI : ∀ c t', ServerCmd.WorksIn d c → OnlyIn d t t' → I c t')
    (hQ : ∀ a t', OnlyIn d t t' → Q a t') : p.Keeps (TreeStep server) I Q t :=
  Prog.keeps_of_issues hI
    (fun _ _ _ _ hc h hs => h.trans (onlyIn_step hc hs (h.dir hd))) hQ hp .refl

theorem ends_const {P : Tree → Prop} {o : Except ε α} {t : Tree} :
    Prog.Ends (fun _ => P) (fun _ => P) o t ↔ P t := by
  cases o <;> exact Iff.rfl

/-- A check: it leaves the tree alone, and where it succeeds, `P` holds of its
result. -/
def Learns (server : Server) (t : Tree) (P : α → Prop) (x : ExceptT ε ServerProg α) : Prop :=
  x.run.Keeps (TreeStep server) (fun c t' => t' = t ∧ ∃ c', c = .fs c')
    (Prog.Ends (fun a t' => t' = t ∧ P a) fun _ t' => t' = t) t

theorem Learns.keeps {P : α → Prop} {x : ExceptT ε ServerProg α} {Q : α → Tree → Prop} {E : ε → Tree → Prop}
    (h : Learns server t P x) (hI : ∀ c, I (.fs c) t) (hQ : ∀ a, P a → Q a t) (hE : ∀ e, E e t) :
    x.run.Keeps (TreeStep server) I (Prog.Ends Q E) t := by
  refine Prog.Keeps.mono ?_ ?_ h
  · rintro c _ ⟨rfl, c', rfl⟩
    exact hI c'
  · intro o t' ho
    cases o with
    | ok a => exact ho.1 ▸ hQ a ho.2
    | error e =>
      obtain rfl := ho
      exact hE e

theorem Learns.keeps_bind {β : Type} {P : α → Prop} {x : ExceptT ε ServerProg α} {f : α → ExceptT ε ServerProg β}
    {Q : β → Tree → Prop} {E : ε → Tree → Prop} (hx : Learns server t P x) (hI : ∀ c, I (.fs c) t) (hE : ∀ e, E e t)
    (hf : ∀ a, P a → (f a).run.Keeps (TreeStep server) I (Prog.Ends Q E) t) :
    (x >>= f).run.Keeps (TreeStep server) I (Prog.Ends Q E) t := by
  refine Prog.Keeps.bindE (Q := fun a t' => t' = t ∧ P a) (hx.keeps hI (fun a ha => ⟨rfl, ha⟩) hE) ?_
  rintro a _ ⟨rfl, ha⟩
  exact hf a ha

theorem Learns.bind {β : Type} {P : α → Prop} {P' : β → Prop} {x : ExceptT ε ServerProg α}
    {f : α → ExceptT ε ServerProg β} (hx : Learns server t P x) (hf : ∀ a, P a → Learns server t P' (f a)) :
    Learns server t P' (x >>= f) :=
  hx.keeps_bind (fun c => ⟨rfl, c, rfl⟩) (fun _ => rfl) hf

theorem learns_pure {P : α → Prop} {a : α} (h : P a) : Learns server t P (pure a : ExceptT ε ServerProg α) :=
  ⟨rfl, h⟩

theorem learns_throw {P : α → Prop} (e : ε) : Learns server t P (throw e : ExceptT ε ServerProg α) := rfl

theorem learns_fs {c : FsCmd} (hc : c.Reads) :
    Learns server t (fun r => TreeStep server (.fs c) r t t) (Handler.fs c) := by
  refine ⟨⟨rfl, c, rfl⟩, fun r t' h => ?_⟩
  obtain rfl := treeStep_reads hc h
  exact ⟨rfl, h⟩

theorem learns_orThrow {P : α → Prop} {f : ε → ProtocolError} {h : Handler (Except ε α)}
    (hh : Learns server t (fun r => ∀ a, r = .ok a → P a) h) : Learns server t P (Prog.orThrow f h) := by
  refine hh.bind fun r hr => ?_
  cases r with
  | ok a => exact learns_pure (hr a rfl)
  | error e => exact learns_throw _

theorem Learns.mono {P P' : α → Prop} {x : ExceptT ε ServerProg α} (h : Learns server t P x)
    (hP : ∀ a, P a → P' a) : Learns server t P' x :=
  h.keeps (fun c => ⟨rfl, c, rfl⟩) (fun a ha => ⟨rfl, hP a ha⟩) fun _ => rfl

end

/-! ## The mutations -/

section

variable {server : Server} {requestId rel : String} {t : Tree} {α ε : Type}

/-- Whatever `x` does from `t`, `P` holds of the tree. -/
def Stays (server : Server) (P : Tree → Prop) (x : ExceptT ε ServerProg α) (t : Tree) : Prop :=
  x.run.Keeps (TreeStep server) (fun _ => P) (Prog.Ends (fun _ => P) fun _ => P) t

theorem stays_leavesTree {P : Tree → Prop} {x : ExceptT ε ServerProg α} (hx : x.run.Issues ServerCmd.LeavesTree)
    (h : P t) : Stays server P x t :=
  keeps_leavesTree hx (fun _ _ => h) fun _ => ends_const.mpr h

theorem stays_leavesTree_bind {β : Type} {P : Tree → Prop} {x : ExceptT ε ServerProg α}
    {f : α → ExceptT ε ServerProg β} (hx : x.run.Issues ServerCmd.LeavesTree) (h : P t)
    (hf : ∀ a, Stays server P (f a) t) : Stays server P (x >>= f) t := by
  refine Prog.Keeps.bindE (Q := fun _ t' => t' = t) (keeps_leavesTree hx (fun _ _ => h) fun o => ?_) ?_
  · cases o with
    | ok a => exact rfl
    | error e => exact h
  · rintro a _ rfl
    exact hf a

theorem leavesTree_stored (p : StoreProg (Except ProtocolError α)) : (Handler.stored p).run.Issues ServerCmd.LeavesTree :=
  Handler.issues_stored (fun _ => trivial) p

theorem worksIn_stored (d : Path) (p : StoreProg (Except ProtocolError α)) :
    (Handler.stored p).run.Issues (ServerCmd.WorksIn d) := Handler.issues_stored (fun _ => trivial) p

theorem worksIn_fs {d : Path} {c : FsCmd} (h : c.WorksIn d) : (Handler.fs c).run.Issues (ServerCmd.WorksIn d) :=
  Handler.issues_fs h

theorem stays_worksIn {P : Tree → Prop} {d : Path} {x : ExceptT ε ServerProg α}
    (hx : x.run.Issues (ServerCmd.WorksIn d)) (hd : t.node d = some .dir) (h : ∀ {t'}, OnlyIn d t t' → P t') :
    Stays server P x t :=
  keeps_worksIn hx hd (fun _ _ _ h' => h h') fun _ _ h' => ends_const.mpr (h h')

theorem Learns.stays {β : Type} {K : α → Prop} {P : Tree → Prop} {x : ExceptT ε ServerProg α}
    {f : α → ExceptT ε ServerProg β} (hx : Learns server t K x) (h : P t)
    (hf : ∀ a, K a → Stays server P (f a) t) : Stays server P (x >>= f) t :=
  hx.keeps_bind (fun _ => h) (fun _ => h) hf

/-! ### Checks -/

theorem learns_resolve (rel : String) :
    Learns server t (fun q => server.workspace.resolve t rel = .ok q) (resolve rel) :=
  learns_orThrow ((learns_fs fun _ _ _ _ => rfl).mono fun _ h => (treeStep_resolve h).2)

theorem learns_checkAbsent (path : String) (abs : Path) :
    Learns server t (fun _ => t.lstat abs = .error .noEntry) (checkAbsent path abs) := by
  refine (learns_fs fun _ _ _ _ => rfl).bind fun r hr => ?_
  split
  · exact learns_throw _
  · exact learns_pure ((treeStep_symlinkMetadata hr).2.2 rfl)
  · exact learns_throw _

theorem learns_checkEditable (path : String) (abs : Path) :
    Learns server t (fun _ => ∃ f, t.stat abs = .ok (.file f)) (checkEditable path abs) := by
  refine (learns_fs fun _ _ _ _ => rfl).bind fun r hr => ?_
  split
  · rename_i f
    split
    · exact learns_throw _
    · exact learns_pure ⟨f, (treeStep_metadata hr).2 _ rfl⟩
  · exact learns_throw _
  · exact learns_throw _
  · exact learns_throw _

theorem learns_checkDeletable (path : String) (abs : Path) :
    Learns server t
      (fun _ => server.workspace.isSymlink t path = .ok false ∧ ∃ f, t.stat abs = .ok (.file f))
      (checkDeletable path abs) := by
  have hlink : Learns server t (fun b => server.workspace.isSymlink t path = .ok b)
      (Prog.orThrow id (Handler.fs (.isSymlink path))) :=
    learns_orThrow ((learns_fs fun _ _ _ _ => rfl).mono fun _ h => (treeStep_isSymlink h).2)
  refine hlink.bind fun link hl => ?_
  split
  · exact learns_throw _
  · rename_i hno
    rw [Bool.eq_false_iff.mpr hno] at hl
    refine (learns_fs fun _ _ _ _ => rfl).bind fun r hr => ?_
    split
    · rename_i f
      exact learns_pure ⟨hl, f, (treeStep_metadata hr).2 _ rfl⟩
    all_goals exact learns_throw _

theorem learns_checkParent (path : String) (parent : Path) :
    Learns server t (fun _ => t.stat parent = .ok .dir) (checkParent path parent) := by
  refine (learns_fs fun _ _ _ _ => rfl).bind fun r hr => ?_
  split
  · exact learns_pure ((treeStep_metadata hr).2 _ rfl)
  all_goals exact learns_throw _

theorem learns_checkTarget (path : String) (abs : Path) (overwrite : Bool) :
    Learns server t (fun _ => t.lstat abs = .error .noEntry ∨ ∃ f, t.lstat abs = .ok (.file f))
      (checkTarget path abs overwrite) := by
  refine (learns_fs fun _ _ _ _ => rfl).bind fun r hr => ?_
  obtain ⟨-, hok, hnone⟩ := treeStep_symlinkMetadata hr
  split
  · exact learns_throw _
  · rename_i f
    split
    · exact learns_throw _
    · exact learns_pure (.inr ⟨f, hok _ rfl⟩)
  · exact learns_throw _
  · exact learns_pure (.inl (hnone rfl))
  · exact learns_throw _

theorem learns_editedText (path current : String) (edits : List EditSpec) (original : List UInt8) :
    Learns server t (fun _ => True) (editedText server.sha256 path current edits original) := by
  unfold editedText
  split
  · exact learns_throw _
  · refine (learns_orThrow (learns_pure fun _ _ => trivial)).bind fun newContent _ => ?_
    split
    · exact learns_throw _
    · exact learns_pure trivial

/-! ### Files -/

/-- The steps of a `create` after its checks. -/
theorem keeps_atomicCreate {abs : Path} (content : List UInt8) (path : String)
    (hws : server.workspace.Opened t) (hr : server.workspace.resolve t rel = .ok abs)
    (hl : t.lstat abs = .error .noEntry) :
    Stays server (Confined server.workspace rel t) (atomicCreateBytes abs content path) t := by
  cases abs with
  | nil => exact .refl
  | cons n d =>
    refine Prog.Keeps.bindE (Q := fun _ t₁ => Confined server.workspace rel t t₁ ∧ t₁.node d = some .dir ∧
      ∃ j, server.workspace.join rel = .ok j ∧ j.base <:+ d) ?_ ?_
    · refine keeps_installStep ⟨.refl, fun made t₁ h => ?_⟩
      obtain ⟨hc, hok⟩ := treeStep_createDirAll hws hr hl h
      cases made with
      | error e => exact hc
      | ok u => exact ⟨hc, hok rfl⟩
    · rintro - t₁ ⟨hc, hd, j, hj, hb⟩
      have hin : ∀ {t'}, OnlyIn d t₁ t' → Confined server.workspace rel t t' :=
        fun h => hc.trans (h.confined hj hb)
      refine Prog.Keeps.bindE (Q := fun tmp t₂ => OnlyIn d t₁ t₂ ∧ ∃ m, tmp = m :: d) ?_ ?_
      · refine keeps_installStep ⟨hc, fun tmp t₂ h => ?_⟩
        have hd₂ : OnlyIn d t₁ t₂ := onlyIn_step (c := .fs (writeTemp d)) rfl h hd
        cases tmp with
        | error e => exact hin hd₂
        | ok tmp => exact ⟨hd₂, treeStep_createTemp h tmp rfl⟩
      · rintro tmp t₂ ⟨hd₂, m, rfl⟩
        refine keeps_worksIn (d := d) ?_ (hd₂.dir hd) (fun _ _ _ h => hin (hd₂.trans h))
          fun _ _ h => ends_const.mpr (hin (hd₂.trans h))
        refine Prog.Issues.bindE (issues_dropping ⟨m, rfl⟩ ?_) fun _ => Install.issues_step ⟨trivial, fun _ => trivial⟩
        refine Prog.Issues.bindE (Install.issues_step ⟨⟨m, rfl⟩, fun _ => trivial⟩) fun _ => ?_
        refine Prog.Issues.bindE (Install.issues_step ⟨trivial, fun _ => trivial⟩) fun _ => ?_
        exact Install.issues_step ⟨⟨⟨m, rfl⟩, n, rfl⟩, fun _ => trivial⟩

theorem confined_writeAheadCreate {abs : Path} (content : List UInt8) (path : String)
    (hws : server.workspace.Opened t) (hr : server.workspace.resolve t rel = .ok abs)
    (hl : t.lstat abs = .error .noEntry) :
    Stays server (Confined server.workspace rel t) (writeAheadCreate server.sha256 requestId path abs content) t := by
  refine stays_leavesTree_bind (leavesTree_stored _) .refl fun opId => ?_
  refine Prog.Keeps.bindE (Prog.Keeps.lift ((keeps_atomicCreate content path hws hr hl).mono (fun _ _ h => h)
    fun _ _ h => ends_const.mp h)) fun o t' hc => ?_
  cases o with
  | error f =>
    refine stays_leavesTree ?_ hc
    dsimp only
    split
    · exact (leavesTree_stored _).bindE fun _ => trivial
    · trivial
  | ok u => exact stays_leavesTree ((leavesTree_stored _).bindE fun _ => trivial) hc

theorem confined_create (hws : server.workspace.Opened t) (content : String) :
    Stays server (Confined server.workspace rel t) (create server.sha256 requestId rel content) t := by
  unfold create
  split
  · exact .refl
  · refine (learns_resolve rel).stays .refl fun abs hr => (learns_checkAbsent rel abs).stays .refl fun _ hl => ?_
    exact (confined_writeAheadCreate _ rel hws hr hl).bindE fun _ _ hc => hc

theorem worksIn_writeAheadInstall {d : Path} {m n : String} (before newHash : String) :
    (writeAheadInstall requestId rel (n :: d) before { tmp := m :: d, newHash }).run.Issues
      (ServerCmd.WorksIn d) := by
  have hstaged : ServerCmd.WorksIn d (.fs (.removeFile (m :: d))) := ⟨m, rfl⟩
  refine (issues_dropping hstaged (worksIn_stored d _)).bindE fun opId => ?_
  have hverify : (verifyUnchanged (n :: d) before rel).run.Issues (ServerCmd.WorksIn d) := by
    refine Prog.Issues.bindE (Prog.Issues.orThrow (worksIn_fs trivial)) fun now => ?_
    split <;> trivial
  refine (issues_lift hverify).bindE fun o => ?_
  cases o with
  | error e => exact issues_dropping hstaged ((worksIn_stored d _).bindE fun _ => trivial)
  | ok u =>
    have hinstall : (StagedWrite.install { tmp := m :: d, newHash } (n :: d)).run.Issues (ServerCmd.WorksIn d) := by
      refine Prog.Issues.bindE (issues_dropping hstaged (Install.issues_step ⟨⟨⟨m, rfl⟩, n, rfl⟩, fun _ => trivial⟩))
        fun _ => ?_
      exact Prog.Issues.bindE (Install.issues_step ⟨trivial, fun _ => trivial⟩) fun _ => trivial
    refine (issues_lift hinstall).bindE fun o => ?_
    cases o with
    | error f =>
      dsimp only
      split
      · exact (worksIn_stored d _).bindE fun _ => trivial
      · trivial
    | ok h => exact (worksIn_stored d _).bindE fun _ => trivial

/-- The temp file of a replacement is an entry of its target's directory. -/
theorem keeps_stageWrite {d : Path} {n : String} (content : List UInt8) (hd : t.node d = some .dir)
    {j : Joined} (hj : server.workspace.join rel = .ok j) (hb : j.base <:+ d) :
    (stageWrite server.sha256 (n :: d) content).run.Keeps (TreeStep server)
      (fun _ => Confined server.workspace rel t)
      (Prog.Ends (fun staged t' => OnlyIn d t t' ∧ ∃ m, staged.tmp = m :: d)
        fun _ => Confined server.workspace rel t) t := by
  have hin : ∀ {t'}, OnlyIn d t t' → Confined server.workspace rel t t' := fun h => h.confined hj hb
  refine Prog.Keeps.bindE (Q := fun _ => OnlyIn d t) ?_ fun _ t₁ h₁ => ?_
  · refine keeps_worksIn (d := d) (Prog.Issues.orThrow (worksIn_fs rfl)) hd (fun _ _ _ h => hin h) fun o _ h => ?_
    cases o with
    | ok a => exact h
    | error e => exact hin h
  · refine Prog.Keeps.bindE (Q := fun tmp t₂ => OnlyIn d t t₂ ∧ ∃ m, tmp = m :: d) ?_ ?_
    · refine ⟨hin h₁, fun tmp t₂ htmp => ?_⟩
      have h₂ : OnlyIn d t₁ t₂ := onlyIn_step (c := .fs (writeTemp d)) rfl htmp (h₁.dir hd)
      cases tmp with
      | error e => exact hin (h₁.trans h₂)
      | ok tmp => exact ⟨h₁.trans h₂, treeStep_createTemp htmp tmp rfl⟩
    · rintro tmp t₂ ⟨h₂, m, rfl⟩
      have hrest : (dropping (m :: d) do
          Handler.failed "temp write failed: " (Handler.fs (.write (m :: d) content))
          let _ ← Handler.failed "stat failed: " (Handler.fs (.metadata (n :: d)))
          Handler.failed "chmod temp failed: " (Handler.fs (.setPermissions (m :: d))) : Handler Unit).run.Issues
            (ServerCmd.WorksIn d) := by
        refine issues_dropping ⟨m, rfl⟩ ?_
        refine Prog.Issues.bindE (Prog.Issues.orThrow (worksIn_fs ⟨m, rfl⟩)) fun _ => ?_
        refine Prog.Issues.bindE (Prog.Issues.orThrow (worksIn_fs trivial)) fun _ => ?_
        exact Prog.Issues.orThrow (worksIn_fs trivial)
      refine Prog.Keeps.bindE (Q := fun _ => OnlyIn d t) ?_ fun _ t₃ h₃ => ⟨h₃, m, rfl⟩
      refine keeps_worksIn hrest (h₂.dir hd) (fun _ _ _ h => hin (h₂.trans h)) fun o _ h => ?_
      cases o with
      | ok a => exact h₂.trans h
      | error e => exact hin (h₂.trans h)

theorem confined_edit (baseHash : String) (edits : List EditSpec) :
    Stays server (Confined server.workspace rel t) (edit server.sha256 requestId rel baseHash edits) t := by
  refine (learns_orThrow (P := fun _ => True) (learns_pure fun _ _ => trivial)).stays .refl fun _ _ => ?_
  refine (learns_resolve rel).stays .refl fun abs hr => (learns_checkEditable rel abs).stays .refl fun _ hf => ?_
  obtain ⟨f, hf⟩ := hf
  obtain ⟨n, d, j, rfl, -, hd, hj, hb, -⟩ := placed_of_file hr hf
  split
  · exact .refl
  · refine (learns_orThrow (P := fun _ => True) ((learns_fs fun _ _ _ _ => rfl).mono fun _ _ _ _ => trivial)).stays .refl
      fun original _ => ?_
    dsimp only
    split
    · exact .refl
    · refine (learns_editedText rel _ edits original).stays .refl fun newContent _ => ?_
      refine (keeps_stageWrite _ hd hj hb).bindE ?_
      rintro ⟨_, newHash⟩ t₁ ⟨h₁, m, rfl⟩
      refine stays_worksIn (d := d) ?_ (h₁.dir hd) fun h => (h₁.trans h).confined hj hb
      exact (worksIn_writeAheadInstall _ newHash).bindE fun _ => trivial

/-! ### Deletion -/

/-- The client path itself, a link as its last name not followed, names the
file at `q`. -/
def NamesFile (ws : Workspace) (t : Tree) (rel : String) (q : Path) : Prop :=
  ∃ j f, ws.join rel = .ok j ∧ t.slot j.path = .ok q ∧ t.node q = some (.file f)

/-- A path that is no link and leads to a file names it. -/
theorem slot_of_isSymlink {ws : Workspace} {j : Joined} {q : Path} {f : File} (hj : ws.join rel = .ok j)
    (hlink : ws.isSymlink t rel = .ok false) (hreal : t.realpath j.comps = .ok q)
    (hq : t.node q = some (.file f)) : t.slot j.path = .ok q := by
  obtain ⟨hslash, hr⟩ := dirOnly_of_realpath hreal hq
  have hunlinked : ∀ absolute target, t.lstat j.path ≠ .ok (.link absolute target) := by
    intro absolute target hl
    rw [Workspace.isSymlink, hj, ok_bind] at hlink
    simp only [hslash, Bool.false_eq_true, if_false,
      show t.lstat (j.names.reverse ++ j.base) = _ from hl] at hlink
    cases hlink
  obtain ⟨k, hk⟩ := realpath_eq_ok.mp hr
  cases hp : j.path with
  | nil =>
    rw [hp] at hk
    cases hk
    rw [t.top] at hq
    cases hq
  | cons n p =>
    rw [hp] at hk hunlinked
    rw [FileTree.comps_cons, walk_append] at hk
    cases hw : t.walk maxLinks [] (comps p) with
    | error e => rw [hw] at hk; cases hk
    | ok r =>
      obtain ⟨k', d⟩ := r
      rw [hw] at hk
      change t.walk k' d [.name n] = _ at hk
      have hd : t.node d = some .dir := by
        obtain ⟨x, hx, -⟩ := stands_of_realpath hw
        rw [walk_cons, hx] at hk
        cases x with
        | dir => exact hx
        | _ => cases hk
      have hslot : t.slot (n :: p) = .ok (n :: d) := by
        have hreal : t.realpath (comps p) = .ok d := realpath_eq_ok.mpr ⟨k', hw⟩
        simp only [FileTree.Tree.slot, hreal, ok_bind, hd]
      rw [hslot]
      rw [walk_name hd] at hk
      cases hn : t.node (n :: d) with
      | none => rw [hn] at hk; cases hk
      | some x =>
        rw [hn] at hk
        cases x with
        | link absolute target =>
          refine absurd ?_ (hunlinked absolute target)
          simp only [lstat, hslot, ok_bind, hn]
        | _ =>
          simp only [walk_nil, Except.ok.injEq, Prod.mk.injEq] at hk
          rw [hk.2]

/-- What has changed is the file that the client path names. -/
def OnlyNamed (ws : Workspace) (rel : String) (t t' : Tree) : Prop :=
  ∀ p, t'.node p ≠ t.node p → NamesFile ws t rel p ∧ ∃ j, ws.join rel = .ok j ∧ Below j.base p

theorem onlyNamed_delete : Stays server (OnlyNamed server.workspace rel t) (delete requestId rel) t := by
  have hrefl : OnlyNamed server.workspace rel t t := fun _ h => absurd rfl h
  refine (learns_resolve rel).stays hrefl fun abs hr => (learns_checkDeletable rel abs).stays hrefl fun _ hc => ?_
  obtain ⟨hlink, f, hf⟩ := hc
  obtain ⟨n, d, j, rfl, hq, hd, hj, hb, hreal⟩ := placed_of_file hr hf
  have hslot := slot_of_isSymlink hj hlink hreal hq
  refine stays_leavesTree_bind (Prog.Issues.orThrow (Handler.issues_fs fun _ _ _ _ => rfl)) hrefl fun before => ?_
  refine Prog.Keeps.bindE (Q := fun _ => OnlyNamed server.workspace rel t) ?_ fun _ _ h => h
  refine stays_leavesTree_bind (leavesTree_stored _) hrefl fun opId => ?_
  refine ⟨hrefl, fun r t' h => ?_⟩
  have hstep : OnlyNamed server.workspace rel t t' := by
    obtain ⟨ch, -, h⟩ := h
    have ht : t' = (ch.changes t (t.unlink (n :: d))).2 := by
      rw [show (ch.changes t (t.unlink (n :: d))).2 = _ from congrArg Prod.snd h]
    rcases ch.changes_cases t (t.unlink (n :: d)) with ⟨e, heq⟩ | ⟨t₁, hu, heq⟩
    · rw [ht, heq]
      exact hrefl
    · rw [ht, heq]
      intro p hp
      have hpq : p = n :: d := by
        by_contra hne
        exact hp (by rw [unlink_cons hd hu p, if_neg hne])
      exact hpq ▸ ⟨⟨j, f, hj, hslot, hq⟩, j, hj, below_cons n hb⟩
  cases r with
  | error e => exact stays_leavesTree ((leavesTree_stored _).bindE fun _ => trivial) hstep
  | ok u =>
    refine stays_leavesTree ?_ hstep
    refine Prog.Issues.bindE (Prog.Issues.orThrow (Handler.issues_fs fun _ _ _ _ => rfl)) fun _ => ?_
    exact (leavesTree_stored _).bindE fun _ => trivial

/-! ### Uploads -/

/-- A directory of the root that the client path addresses. -/
def InRoot (ws : Workspace) (rel : String) (t : Tree) (d : Path) : Prop :=
  t.node d = some .dir ∧ ∃ j, ws.join rel = .ok j ∧ j.base <:+ d

theorem OnlyIn.inRoot {ws : Workspace} {d : Path} {t' : Tree} (h : OnlyIn d t t') (hd : InRoot ws rel t d) :
    InRoot ws rel t' d := ⟨h.dir hd.1, hd.2⟩

theorem OnlyIn.confined_of_inRoot {ws : Workspace} {d : Path} {t' : Tree} (h : OnlyIn d t t')
    (hd : InRoot ws rel t d) : Confined ws rel t t' := by
  obtain ⟨-, j, hj, hb⟩ := hd
  exact h.confined hj hb

/-- What an `upload_prepare` makes of `t`, where `d` is the directory of its
target. -/
def PreparedIn (ws : Workspace) (rel : String) (t : Tree) (d : Path) (t' : Tree) : Prop :=
  t' = t ∨ OnlyIn d t t' ∧ InRoot ws rel t d

structure Prepares (ws : Workspace) (rel : String) (t : Tree) (d : Path) (c : ServerCmd) (t' : Tree) : Prop where
  tree : PreparedIn ws rel t d t'
  puts : ∀ id entry, c = .uploads (.put id entry) → entry.In d ∧ InRoot ws rel t d

def StaysPrepared (server : Server) (rel : String) (t : Tree) (d : Path) (x : Handler α) (t' : Tree) : Prop :=
  x.run.Keeps (TreeStep server) (Prepares server.workspace rel t d)
    (Prog.Ends (fun _ => PreparedIn server.workspace rel t d) fun _ => PreparedIn server.workspace rel t d) t'

theorem prepares_of_worksIn {ws : Workspace} {d : Path} {c : ServerCmd} {t' : Tree} (hd : InRoot ws rel t d)
    (hc : ServerCmd.WorksIn d c) (h : OnlyIn d t t') : Prepares ws rel t d c t' := by
  refine ⟨.inr ⟨h, hd⟩, ?_⟩
  rintro id entry rfl
  exact ⟨hc, hd⟩

theorem prepared_bind {β : Type} {d : Path} {x : Handler α} {f : α → Handler β} {t' : Tree}
    (hd : InRoot server.workspace rel t d) (hx : x.run.Issues (ServerCmd.WorksIn d)) (h : OnlyIn d t t')
    (hf : ∀ a t', OnlyIn d t t' → StaysPrepared server rel t d (f a) t') :
    StaysPrepared server rel t d (x >>= f) t' := by
  refine Prog.Keeps.bindE (Q := fun _ => OnlyIn d t) ?_ hf
  refine keeps_worksIn hx (h.dir hd.1) (fun c t'' hc h' => prepares_of_worksIn hd hc (h.trans h')) fun o t'' h' => ?_
  cases o with
  | ok a => exact h.trans h'
  | error e => exact .inr ⟨h.trans h', hd⟩

theorem worksIn_registryInsert {d : Path} {id : String} {entry : PendingUpload} (h : entry.In d) :
    (registryInsert id entry).run.Issues (ServerCmd.WorksIn d) := by
  refine Prog.Issues.bindE (Handler.issues_uploads h) fun _ => ?_
  refine Prog.Issues.bindE (Handler.issues_uploads trivial) fun r => ?_
  cases r with
  | ok u => trivial
  | error e => exact Prog.Issues.bindE (Handler.issues_uploads trivial) fun _ => trivial

theorem prepared_uploadPrepare (hws : server.workspace.Opened t) (overwrite : Bool) {d : Path}
    (htail : ∀ q, server.workspace.resolve t rel = .ok q → q.tail = d) :
    StaysPrepared server rel t d (uploadPrepare rel overwrite) t := by
  have hI : ∀ c : FsCmd, Prepares server.workspace rel t d (.fs c) t := fun c => ⟨.inl rfl, fun _ _ h => by cases h⟩
  refine (learns_resolve rel).keeps_bind hI (fun _ => .inl rfl) fun abs hr => ?_
  have habs := htail abs hr
  cases abs with
  | nil => exact .inl rfl
  | cons n d' =>
    obtain rfl : d' = d := habs
    refine (learns_checkParent rel d').keeps_bind hI (fun _ => .inl rfl) fun _ hp => ?_
    refine (learns_checkTarget rel (n :: d') overwrite).keeps_bind hI (fun _ => .inl rfl) fun _ hl => ?_
    obtain ⟨j, hj, hb, hdir⟩ := placed_of_parent hws hr hp hl
    have hd : InRoot server.workspace rel t d' := ⟨hdir, j, hj, hb⟩
    refine prepared_bind hd (Handler.issues_uploads trivial) .refl fun inFlight t₁ h₁ => ?_
    refine prepared_bind hd (worksIn_fs rfl) h₁ fun _ t₂ h₂ => ?_
    refine ⟨prepares_of_worksIn hd rfl h₂, fun tmp t₃ htmp => ?_⟩
    have h₃ : OnlyIn d' t t₃ := h₂.trans (onlyIn_step (c := .fs (.createTemp d' _ _)) rfl htmp (h₂.dir hdir))
    cases tmp with
    | error e => exact .inr ⟨h₃, hd⟩
    | ok staging =>
      obtain ⟨m, rfl⟩ := treeStep_createTemp htmp staging rfl
      refine prepared_bind hd (Handler.issues_uploads trivial) h₃ fun transferId t₄ h₄ => ?_
      have hinsert : (dropping (m :: d') (registryInsert transferId
          { staging := m :: d', target := n :: d', logicalPath := rel, overwrite })).run.Issues
            (ServerCmd.WorksIn d') :=
        issues_dropping ⟨m, rfl⟩ (worksIn_registryInsert ⟨⟨m, rfl⟩, n, rfl⟩)
      exact prepared_bind hd hinsert h₄ fun _ t₅ h₅ => .inr ⟨h₅, hd⟩

/-- An `upload_prepare` changes the target's directory only, and so will the
commit of the entry that it registers. -/
theorem run_uploadPrepare (hws : server.workspace.Opened t) {overwrite : Bool}
    {es : List (Event ServerCmd ServerCmd.Result)} {p : ServerProg (Except ProtocolError UploadPrepareResult)}
    {t' : Tree} (h : Prog.Run (TreeStep server) (uploadPrepare rel overwrite).run t es p t') :
    Confined server.workspace rel t t' ∧ ∀ id entry, ⟨.uploads (.put id entry), ()⟩ ∈ es →
      ∃ d, entry.In d ∧ InRoot server.workspace rel t' d := by
  have hd : ∃ d, ∀ q, server.workspace.resolve t rel = .ok q → q.tail = d := by
    cases server.workspace.resolve t rel with
    | error e => exact ⟨[], fun q h => by cases h⟩
    | ok q => exact ⟨q.tail, fun q' h => by cases h; rfl⟩
  obtain ⟨d, hd⟩ := hd
  have hkeeps := prepared_uploadPrepare hws overwrite hd
  have htree : PreparedIn server.workspace rel t d t' :=
    hkeeps.reached (fun _ _ h => h.tree) (fun _ _ h => ends_const.mp h) h
  have honly : OnlyIn d t t' ∧ Confined server.workspace rel t t' := by
    rcases htree with rfl | ⟨honly, hin⟩
    · exact ⟨.refl, .refl⟩
    · exact ⟨honly, honly.confined_of_inRoot hin⟩
  refine ⟨honly.2, fun id entry he => ?_⟩
  obtain ⟨t₁, ht₁⟩ := hkeeps.event h _ he
  obtain ⟨hin, hroot⟩ := ht₁.puts id entry rfl
  exact ⟨d, hin, honly.1.inRoot hroot⟩

theorem worksIn_uploadCommit {d : Path} {entry : PendingUpload} (h : entry.In d)
    (requestId id sha256 : String) (size durationMs : Nat) : (do
      checkStaging entry size
      setInstalledMode entry
      installUpload entry
      recordUpload requestId id size sha256 durationMs entry : Handler ResultBody).run.Issues
        (ServerCmd.WorksIn d) := by
  obtain ⟨⟨m, hm⟩, n, hn⟩ := h
  refine Prog.Issues.bindE ?_ fun _ => Prog.Issues.bindE ?_ fun _ => Prog.Issues.bindE ?_ fun _ => ?_
  · refine Prog.Issues.bindE (Prog.Issues.orThrow (worksIn_fs trivial)) fun node => ?_
    split
    · split <;> trivial
    · trivial
  · refine Prog.Issues.bindE (worksIn_fs trivial) fun r => ?_
    split
    · exact Prog.Issues.orThrow (worksIn_fs trivial)
    · exact Prog.Issues.orThrow (worksIn_fs trivial)
    · trivial
  · unfold installUpload
    split
    · exact Prog.Issues.orThrow (worksIn_fs ⟨⟨m, hm⟩, n, hn⟩)
    · refine Prog.Issues.bindE (Prog.Issues.orThrow (worksIn_fs ⟨⟨m, hm⟩, n, hn⟩)) fun _ => ?_
      exact Prog.Issues.orThrow (worksIn_fs ⟨m, hm⟩)
  · refine Prog.Issues.bindE (Prog.Issues.orThrow (worksIn_fs trivial)) fun _ => ?_
    refine Prog.Issues.bindE (Handler.issues_store (fun _ => trivial) _) fun _ => ?_
    refine Prog.Issues.bindE (Handler.issues_store (fun _ => trivial) _) fun _ => ?_
    refine Prog.Issues.bindE (worksIn_stored d _) fun _ => ?_
    refine Prog.Issues.bindE (Prog.Issues.bindE (Handler.issues_uploads trivial) fun o => ?_) fun _ => trivial
    exact Prog.Issues.bindE (Prog.Issues.orThrow (Handler.issues_uploads trivial)) fun _ => trivial

/-- A commit that finds only entries whose files are in `d`. -/
theorem run_uploadCommit {d : Path} (hd : t.node d = some .dir) {id sha256 : String} {size durationMs : Nat}
    {es : List (Event ServerCmd ServerCmd.Result)} {p : ServerProg (Except ProtocolError ResultBody)} {t' : Tree}
    (h : Prog.Run (TreeStep server) (uploadCommit requestId id size sha256 durationMs).run t es p t')
    (hget : ∀ entry, ⟨.uploads (.get id), some entry⟩ ∈ es → entry.In d) : OnlyIn d t t' := by
  cases h with
  | nil => exact .refl
  | @cons _ _ r _ t₁ _ es' _ hs h =>
    obtain rfl : t₁ = t := hs
    cases r with
    | none =>
      cases h
      exact .refl
    | some entry =>
      have hkeeps : Stays server (OnlyIn d t₁) _ t₁ :=
        stays_worksIn (worksIn_uploadCommit (hget entry (.head _)) requestId id sha256 size durationMs) hd fun h => h
      exact hkeeps.reached (fun _ _ h => h) (fun _ _ h => ends_const.mp h) h

end

/-! ## All of them -/

/-- The path of a request that changes a file by its path. -/
def RequestBody.filePath? : RequestBody → Option String
  | .create path _ => some path
  | .edit path _ _ => some path
  | .delete path => some path
  | _ => none

/-- A handler that runs on a server whose tree no one else changes. -/
theorem run_tree {server : Server} {α : Type} {p p' : ServerProg α} {s s' : ServerState}
    {es : List (Event ServerCmd ServerCmd.Result)}
    (h : Prog.Run (fun c r s s' => ∃ ch : ServerChoice, ch.fs.Truthful ∧
      c.exec server.workspace server.sha256 ch s = some (r, s')) p s es p' s') :
    Prog.Run (TreeStep server) p s.tree es p' s'.tree := by
  refine h.map ServerState.tree ?_
  rintro c r s s' ⟨ch, hch, h⟩
  exact treeStep_of_exec hch h

/-- On a tree that no one else changes, with whatever links in it, and whether
they succeed or fail: `create`, `edit` and `delete` change entries below the
addressed root only, `delete` no other than the file that the client path itself
names, and the same holds of `upload_prepare` and then of the commit that finds
its entry, the staging file being written in between. -/
theorem mutations_stay_inside {server : Server} {t : Tree} (hws : server.workspace.Opened t) :
    (∀ requestId body rel h es p t', body.filePath? = some rel → server.mutation requestId body = some h →
      Prog.Run (TreeStep server) h.run t es p t' → Confined server.workspace rel t t') ∧
    (∀ requestId rel es p t', Prog.Run (TreeStep server) (delete requestId rel).run t es p t' →
      ∀ q, t'.node q ≠ t.node q → NamesFile server.workspace t rel q) ∧
    ∀ rel overwrite es p t₁, Prog.Run (TreeStep server) (uploadPrepare rel overwrite).run t es p t₁ →
      Confined server.workspace rel t t₁ ∧
        ∀ id entry t₂ requestId size sha256 durationMs es' p' t₃,
          ⟨.uploads (.put id entry), ()⟩ ∈ es → (∀ q, t₂.node q ≠ t₁.node q → q = entry.staging) →
          Prog.Run (TreeStep server) (uploadCommit requestId id size sha256 durationMs).run t₂ es' p' t₃ →
          (∀ found, ⟨.uploads (.get id), some found⟩ ∈ es' → found = entry) →
            Confined server.workspace rel t t₃ := by
  have hdelete : ∀ {requestId rel es p t'}, Prog.Run (TreeStep server) (delete requestId rel).run t es p t' →
      OnlyNamed server.workspace rel t t' := fun h =>
    onlyNamed_delete.reached (fun _ _ h => h) (fun _ _ h => ends_const.mp h) h
  have hstays : ∀ {α ε : Type} {rel : String} {x : ExceptT ε ServerProg α} {es p t'},
      Stays server (Confined server.workspace rel t) x t → Prog.Run (TreeStep server) x.run t es p t' →
      Confined server.workspace rel t t' := fun hx h =>
    hx.reached (fun _ _ h => h) (fun _ _ h => ends_const.mp h) h
  refine ⟨?_, fun requestId rel es p t' h q hq => (hdelete h q hq).1, ?_⟩
  · intro requestId body rel h es p t' hbody hmut hrun
    cases body <;> cases hbody <;> cases hmut
    · exact hstays (confined_create hws _) hrun
    · exact hstays (confined_edit _ _) hrun
    · exact fun q hq => (hdelete hrun q hq).2
  · intro rel overwrite es p t₁ hprep
    obtain ⟨hconf, hputs⟩ := run_uploadPrepare hws hprep
    refine ⟨hconf, ?_⟩
    intro id entry t₂ requestId size sha256 durationMs es' p' t₃ hput hwritten hcommit hfound
    obtain ⟨d, ⟨⟨m, hm⟩, n, hn⟩, hroot⟩ := hputs id entry hput
    have hstaged : OnlyIn d t₁ t₂ := fun q hq => ⟨m, (hwritten q hq).trans hm⟩
    have hdone : OnlyIn d t₂ t₃ := run_uploadCommit (hstaged.dir hroot.1) hcommit fun found hf =>
      hfound found hf ▸ ⟨⟨m, hm⟩, n, hn⟩
    exact hconf.trans ((hstaged.trans hdone).confined_of_inRoot hroot)

/-! A file created beside a link to nothing outside. -/

def walledTree : Tree := homeTree.set ["link", "ws"] (some (.link true [.name "new"])) rfl

theorem walledTree_opened : homeWorkspace.Opened walledTree := by
  constructor <;> simp [homeWorkspace, walledTree, homeTree, FileTree.Tree.set]

theorem mutations_stay_inside_create :
    ∃ es p t', Prog.Run (TreeStep homeServer) (create zeroDigest "r" "sub/f" "hi").run walledTree es p t' ∧
      (t'.node ["f", "sub", "ws"]).isSome = true ∧ Confined homeWorkspace "sub/f" walledTree t' := by
  have h : ((Prog.drive (ServerCmd.exec homeWorkspace zeroDigest) (List.replicate 11 steady)
      (create zeroDigest "r" "sub/f" "hi").run (homeState walledTree)).map
        fun y => (y.2.2.tree.node ["f", "sub", "ws"]).isSome) = some true := by decide +kernel
  obtain ⟨⟨es, p, s'⟩, hdrive, hmade⟩ := Option.map_eq_some_iff.mp h
  have hsteady : ∀ ch ∈ List.replicate 11 steady, ch.fs.Truthful := by
    intro ch hch
    rw [List.eq_of_mem_replicate hch]
    simp [FsChoice.Truthful, steady]
  have hrun : Prog.Run (TreeStep homeServer) (create zeroDigest "r" "sub/f" "hi").run walledTree es p s'.tree :=
    run_tree (Prog.run_of_drive (fun c ch r s s' hch he => ⟨ch, hch, he⟩) hsteady hdrive)
  exact ⟨es, p, s'.tree, hrun, hmade,
    (mutations_stay_inside walledTree_opened).1 "r" (.create "sub/f" "hi") _ _ _ _ _ rfl rfl hrun⟩

end RemoteWorkspace
