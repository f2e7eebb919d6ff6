import RemoteWorkspace.Workspace

/-!
# What a client path still resolves to after the server's own changes

A mutation resolves its path once, before it changes the tree, and recovery
resolves the same text again, after it. `resolve_cases` says in which two ways
a path can have resolved. `hashFile_of_leadsTo` says what recovery sees through a
path that a mutation used: the file the mutation changed, as it stands now,
provided that the path resolves at all.
-/

namespace RemoteWorkspace

open FileTree (Comp Node Errno comps)
open FileTree.Tree

variable {t t' : Tree}

/-- The path of a joined client path, a final slash left out. -/
def Joined.path (j : Joined) : Path := j.names.reverse ++ j.base

/-- `p` does not exist, and canonicalizing its deepest ancestor makes `q` of
it: `p₀` leads to the directory `q₀`, in which `z` leads to nothing. -/
def Misses (t : Tree) (p q : Path) : Prop :=
  ∃ ys z p₀ q₀ k, p = ys ++ z :: p₀ ∧ q = ys ++ z :: q₀ ∧
    t.walk maxLinks [] (comps p₀) = .ok (k, q₀) ∧ t.walk k q₀ [.name z] = .error .noEntry

theorem dir_of_misses {q : Path} {k : Nat} {z : String} (hs : t.Stands q)
    (h : t.walk k q [.name z] = .error .noEntry) : t.node q = some .dir := by
  obtain ⟨x, hx, -⟩ := hs
  rw [walk_cons, hx] at h
  cases x with
  | dir => exact hx
  | _ => cases h

theorem stands_of_realpath {k : Nat} {p : Path} {cs : List (Comp String)}
    (h : t.walk maxLinks [] cs = .ok (k, p)) : t.Stands p := stands_of_walk h (stands_dir t.top)

/-- What a missing name misses with some links left it misses with all. -/
theorem walk_maxLinks_of_misses {k : Nat} {q : Path} {z : String} {cs : List (Comp String)}
    (h : t.walk maxLinks [] cs = .ok (k, q)) (hz : t.walk k q [.name z] = .error .noEntry) :
    t.walk maxLinks q [.name z] = .error .noEntry := by
  have := walk_add hz (by simp) (maxLinks - k)
  rwa [Nat.add_sub_cancel' (walk_le h)] at this

theorem realpath_eq_ok {cs : List (Comp String)} {q : Path} :
    t.realpath cs = .ok q ↔ ∃ k, t.walk maxLinks [] cs = .ok (k, q) := by
  rw [realpath]
  cases t.walk maxLinks [] cs with
  | error e => simp [Except.map]
  | ok r => simp [Except.map, Prod.ext_iff]

theorem realpath_eq_error {cs : List (Comp String)} {e : Errno} :
    t.realpath cs = .error e ↔ t.walk maxLinks [] cs = .error e := by
  rw [realpath]
  cases t.walk maxLinks [] cs <;> simp [Except.map]

theorem existingAncestor_cases {p q : Path} (h : existingAncestor t p = .ok q) :
    t.realpath (comps p) = .ok q ∨ Misses t p q := by
  induction p generalizing q with
  | nil => exact .inl h
  | cons n p ih =>
    rw [existingAncestor] at h
    split at h
    · cases h
      exact .inl ‹_›
    · rename_i hmiss
      right
      cases ha : existingAncestor t p with
      | error e => rw [ha] at h; cases h
      | ok q' =>
        rw [ha] at h
        cases h
        rcases ih ha with hreal | ⟨ys, z, p₀, q₀, k, rfl, rfl, hw, hz⟩
        · obtain ⟨k, hk⟩ := realpath_eq_ok.mp hreal
          refine ⟨[], n, p, q', k, rfl, rfl, hk, ?_⟩
          rw [realpath_eq_error, FileTree.comps_cons, walk_append, hk] at hmiss
          exact hmiss
        · exact ⟨n :: ys, z, p₀, q₀, k, rfl, rfl, hw, hz⟩
    · cases h

/-- A final slash does not make anything missing that is there. -/
theorem realpath_comps_missing {j : Joined} (h : t.realpath j.comps = .error .noEntry) :
    t.realpath (comps j.path) = .error .noEntry := by
  rw [realpath_eq_error, Joined.comps, walk_append] at h
  rw [realpath_eq_error]
  change (t.walk maxLinks [] (comps j.path)).bind _ = _ at h
  cases hw : t.walk maxLinks [] (comps j.path) with
  | error e => rw [hw] at h; exact h
  | ok r =>
    obtain ⟨k, q⟩ := r
    exfalso
    obtain ⟨x, hx, -⟩ := stands_of_realpath hw
    rw [hw] at h
    change t.walk k q (if j.dirOnly then [.cur] else []) = _ at h
    split at h
    · rw [walk_cons, hx] at h
      cases x with
      | dir => rw [walk_nil] at h; cases h
      | _ => cases h
    · rw [walk_nil] at h
      cases h

theorem canonicalizeAncestor_cases {j : Joined} {q : Path} (h : canonicalizeAncestor t j = .ok q) :
    t.realpath j.comps = .ok q ∨ t.realpath j.comps = .error .noEntry ∧ Misses t j.path q := by
  rw [canonicalizeAncestor] at h
  split at h
  · cases h
    exact .inl ‹_›
  · rename_i hmiss
    refine .inr ⟨hmiss, ?_⟩
    have hmiss' := realpath_comps_missing hmiss
    cases hp : j.path with
    | nil =>
      rw [show j.names.reverse ++ j.base = [] from hp] at h
      cases h
    | cons n p =>
      rw [show j.names.reverse ++ j.base = n :: p from hp] at h
      rw [hp] at hmiss'
      have ha : existingAncestor t (n :: p) = .ok q := by
        rw [existingAncestor, hmiss']
        exact h
      rcases existingAncestor_cases ha with hreal | hm
      · rw [hmiss'] at hreal
        cases hreal
      · exact hm
  · cases h

/-! ## Resolving -/

variable {ws : Workspace} {rel : String} {j : Joined} {q : Path}

theorem resolve_eq_ok : ws.resolve t rel = .ok q ↔
    ∃ j, ws.join rel = .ok j ∧ canonicalizeAncestor t j = .ok q ∧ j.base <:+ q := by
  rw [Workspace.resolve]
  cases ws.join rel with
  | error e => simp [FileTree.Tree.error_bind]
  | ok j =>
    simp only [FileTree.Tree.ok_bind, Except.ok.injEq, exists_eq_left']
    cases canonicalizeAncestor t j with
    | error e => simp
    | ok q' =>
      simp only [List.isSuffixOf_iff_suffix, Except.ok.injEq]
      split
      · rename_i h
        simp only [Except.ok.injEq]
        exact ⟨fun hq => ⟨hq, hq ▸ h⟩, fun hq => hq.1⟩
      · rename_i h
        simp only [reduceCtorEq, false_iff, not_and]
        rintro rfl
        exact h

/-- A path resolves to what is there, or to a place where nothing is yet. -/
theorem resolve_cases (h : ws.resolve t rel = .ok q) : ∃ j, ws.join rel = .ok j ∧ j.base <:+ q ∧
    (t.realpath j.comps = .ok q ∨ t.realpath j.comps = .error .noEntry ∧ Misses t j.path q) := by
  obtain ⟨j, hj, hc, hb⟩ := resolve_eq_ok.mp h
  exact ⟨j, hj, hb, canonicalizeAncestor_cases hc⟩

theorem Misses.stat {p : Path} (h : Misses t p q) : t.stat q = .error .noEntry := by
  obtain ⟨ys, z, p₀, q₀, k, -, rfl, hw, hz⟩ := h
  exact stat_missing _ (dir_of_misses (stands_of_realpath hw) hz) (walk_maxLinks_of_misses hw hz)

theorem hashFile_of_noEntry {sha256 : Sha256} (h : t.stat q = .error .noEntry) :
    hashFile sha256 t q = .ok none := by rw [hashFile, h]

/-- The names of a path that leads to the directory `d`, and clear names
behind it. -/
theorem existingAncestor_of_clear {p d : Path} {k : Nat} (hw : t.walk maxLinks [] (comps p) = .ok (k, d))
    (hd : t.node d = some .dir) {ns : Path} (h : t.Clear d ns) :
    existingAncestor t (ns ++ p) = .ok (ns ++ d) ∧
      t.realpath (comps (ns ++ p)) =
        if (t.node (ns ++ d)).isSome then .ok (ns ++ d) else .error .noEntry := by
  have hreal : ∀ {ns : Path}, t.Clear d ns → t.realpath (comps (ns ++ p)) =
      if (t.node (ns ++ d)).isSome then .ok (ns ++ d) else .error .noEntry := by
    intro ns h
    rw [realpath, comps_append, walk_append, hw]
    change (t.walk k d (comps ns)).map _ = _
    rw [h.walk hd]
    split <;> rfl
  refine ⟨?_, hreal h⟩
  induction ns with
  | nil =>
    have h₀ := hreal h
    simp only [List.nil_append, hd, Option.isSome_some, if_true] at h₀ ⊢
    cases p with
    | nil => exact h₀
    | cons n p => rw [existingAncestor, h₀]
  | cons n ns ih =>
    rw [List.cons_append, existingAncestor]
    have h₀ := hreal h
    rw [List.cons_append] at h₀
    rw [h₀]
    split at h₀
    · rw [if_pos ‹_›]
    · rw [if_neg ‹_›]
      exact congrArg (Except.map (n :: ·)) (ih h.tail)

/-! ## The mutations -/

/-- What a `create` does to the tree: the directories above the file, then the
file where nothing is. -/
def createFile (t : Tree) (abs : Path) (f : File) : Except Errno Tree := do
  let t ← t.mkdirAll abs.tail
  t.createNew abs (.file f)

/-- Two trees that agree except on what stands at `q`, in a directory. -/
structure SameBut (q : Path) (t t' : Tree) : Prop where
  node : ∀ p, p ≠ q → t.node p = t'.node p
  dir : t.node q.tail = some .dir

theorem SameBut.refl (h : t.node q.tail = some .dir) : SameBut q t t := ⟨fun _ _ => rfl, h⟩

theorem SameBut.dir' (h : SameBut q t t') (hq : q ≠ []) : t'.node q.tail = some .dir := by
  rw [← h.node _ ?_]
  · exact h.dir
  · cases q with
    | nil => exact absurd rfl hq
    | cons n d => exact fun heq => absurd (congrArg List.length heq) (by simp)

theorem SameBut.trans {t'' : Tree} (h : SameBut q t t') (h' : SameBut q t' t'') : SameBut q t t'' :=
  ⟨fun p hp => (h.node p hp).trans (h'.node p hp), h.dir⟩

/-- A client path that leads to `q` as long as a file is there, and to nothing
while none is, whatever else becomes of the entry `q`. -/
def LeadsTo (t : Tree) (j : Joined) (q : Path) : Prop :=
  ∀ t', SameBut q t t' →
    (∀ f, t'.node q = some (.file f) → t'.realpath (comps j.path) = .ok q) ∧
      (t'.node q = none → t'.realpath j.comps = .error .noEntry)

theorem LeadsTo.mono (h : LeadsTo t j q) (hs : SameBut q t t') : LeadsTo t' j q :=
  fun _ ht => h _ (hs.trans ht)

theorem realpath_comps_of_missing (h : t.realpath (comps j.path) = .error .noEntry) :
    t.realpath j.comps = .error .noEntry := by
  rw [realpath_eq_error] at h ⊢
  rw [Joined.comps, walk_append]
  change (t.walk maxLinks [] (comps j.path)).bind _ = _
  rw [h]
  rfl

/-- A path that leads to a file names none that is a directory only. -/
theorem dirOnly_of_realpath {f : File} (h : t.realpath j.comps = .ok q) (hq : t.node q = some (.file f)) :
    j.dirOnly = false ∧ t.realpath (comps j.path) = .ok q := by
  cases hd : j.dirOnly with
  | false =>
    refine ⟨rfl, ?_⟩
    rw [Joined.comps, hd] at h
    simpa [Joined.path] using h
  | true =>
    exfalso
    obtain ⟨k, h⟩ := realpath_eq_ok.mp h
    rw [Joined.comps, hd, walk_append] at h
    cases hw : t.walk maxLinks [] (comps (j.names.reverse ++ j.base)) with
    | error e => rw [hw] at h; cases h
    | ok r =>
      obtain ⟨k', q'⟩ := r
      rw [hw] at h
      change t.walk k' q' [.cur] = _ at h
      rw [walk_cons] at h
      split at h
      · cases h
      · rw [walk_nil] at h
        cases h
        simp_all
      · cases h

/-- A path that leads to a file goes on doing so. -/
theorem leadsTo_of_realpath {f : File} (hq : t.node q = some (.file f)) (h : t.realpath j.comps = .ok q) :
    LeadsTo t j q := by
  intro t' hs
  obtain ⟨-, hp⟩ := dirOnly_of_realpath h hq
  obtain ⟨k, hk⟩ := realpath_eq_ok.mp hp
  have hne : ([] : Path) ≠ q := by
    rintro rfl
    rw [t.top] at hq
    cases hq
  refine ⟨fun f' hq' => ?_, fun hq' => ?_⟩
  · rw [realpath_eq_ok]
    exact ⟨k, (walk_of_file_file hs.node hq hq' _ _ _).trans hk⟩
  · apply realpath_comps_of_missing
    rw [realpath_eq_error]
    exact (walk_of_file_none hs.node hq hq' hk hne).1 rfl

/-- A path to clear names behind a directory goes on leading there. -/
theorem leadsTo_of_clear {p d ns : Path} (hp : j.path = ns ++ p) {k : Nat}
    (hw : t.walk maxLinks [] (comps p) = .ok (k, d)) (hd : t.node d = some .dir) (h : t.Clear d ns)
    {f : File} (hq : t.node (ns ++ d) = some (.file f)) : LeadsTo t j (ns ++ d) := by
  intro t' hs
  have hdq : ∀ {x}, t.node x = some .dir → x ≠ ns ++ d := by
    rintro x hx rfl
    rw [hq] at hx
    cases hx
  have hstill : ∀ f' : Option File, t'.node (ns ++ d) = f'.map .file →
      t'.realpath (comps j.path) = if f'.isSome then .ok (ns ++ d) else .error .noEntry := by
    intro f' hx
    have hw' : t'.walk maxLinks [] (comps p) = .ok (k, d) := by
      cases f' with
      | none => exact (walk_of_file_none hs.node hq hx hw (hdq t.top)).2 (hdq hd)
      | some f' => exact (walk_of_file_file hs.node hq hx _ _ _).trans hw
    have hc : t'.Clear d ns := by
      refine ⟨fun s hsuf hne y hy => h.inner s hsuf hne y ?_, fun a target hl => ?_⟩
      · rw [hs.node _ fun heq => hne (List.append_cancel_right heq)]
        exact hy
      · cases f' <;> simp [hx] at hl
    have := (existingAncestor_of_clear hw' ((hs.node d (hdq hd)).symm.trans hd) hc).2
    rw [hp, this, hx]
    cases f' <;> rfl
  exact ⟨fun f' hq' => hstill (some f') hq',
    fun hq' => realpath_comps_of_missing (hstill none hq')⟩

/-- What recovery finds through a path that leads to `q`: the hash of the file
that is there now. -/
theorem hashFile_of_leadsTo (h : LeadsTo t j q) (hj : ws.join rel = .ok j) (hs : SameBut q t t')
    {f : Option File} (hq : t'.node q = f.map .file) (hread : ∀ g, f = some g → g.readable = true)
    (sha256 : Sha256) {abs : Path} (habs : ws.resolve t' rel = .ok abs) :
    hashFile sha256 t' abs = .ok (f.map fun g => hashBytes sha256 g.content) := by
  obtain ⟨j', hj', -, hcases⟩ := resolve_cases habs
  rw [hj] at hj'
  cases hj'
  obtain ⟨hfile, hnone⟩ := h t' hs
  cases f with
  | none =>
    have hmiss := hnone hq
    rcases hcases with hreal | ⟨-, hm⟩
    · rw [hmiss] at hreal
      cases hreal
    · exact hashFile_of_noEntry hm.stat
  | some f =>
    have hreal := hfile f hq
    rcases hcases with hreal' | ⟨-, hm⟩
    · have hqa : abs = q := by
        obtain ⟨k, hk⟩ := realpath_eq_ok.mp hreal
        rw [Joined.comps, realpath_eq_ok] at hreal'
        obtain ⟨k', hk'⟩ := hreal'
        rw [walk_append] at hk'
        change (t'.walk maxLinks [] (comps j.path)).bind _ = _ at hk'
        rw [hk] at hk'
        change t'.walk k q (if j.dirOnly then [.cur] else []) = _ at hk'
        split at hk'
        · rw [walk_cons, hq] at hk'
          cases hk'
        · rw [walk_nil] at hk'
          cases hk'
          rfl
      subst hqa
      rw [hashFile, stat_of_node hq (by simp)]
      simp [hread f rfl]
    · obtain ⟨ys, z, p₀, q₀, k, hp, -, hw, hz⟩ := hm
      obtain ⟨k', hk'⟩ := realpath_eq_ok.mp hreal
      rw [hp, comps_append, FileTree.comps_cons, walk_append, walk_append, hw] at hk'
      change ((t'.walk k q₀ [.name z]).bind _) = _ at hk'
      rw [hz] at hk'
      cases hk'

theorem lstat_of_stands (h : t.Stands q) : t.lstat q ≠ .error .noEntry := by
  obtain ⟨x, hx, -⟩ := h
  have hslot : t.slot q = .ok q := by
    cases q with
    | nil => rfl
    | cons n d => exact slot_cons (dir_of_node hx)
  rw [lstat, hslot, ok_bind, hx]
  simp

theorem mutation_ne_nil {f : File} (h : t.node q = some (.file f)) : q ≠ [] := by
  rintro rfl
  rw [t.top] at h
  cases h

theorem dir_of_file {f : File} (h : t.node q = some (.file f)) : t.node q.tail = some .dir := by
  cases q with
  | nil => exact absurd rfl (mutation_ne_nil h)
  | cons n d => exact dir_of_node h

/-- The file that a resolved path shows stands where the path resolves to. -/
theorem node_of_stat {f : File} (hr : ws.resolve t rel = .ok q) (hs : t.stat q = .ok (.file f)) :
    t.node q = some (.file f) ∧ ∃ j, ws.join rel = .ok j ∧ t.realpath j.comps = .ok q := by
  obtain ⟨j, hj, -, hreal | ⟨-, hm⟩⟩ := resolve_cases hr
  · obtain ⟨k, hk⟩ := realpath_eq_ok.mp hreal
    obtain ⟨x, hx, hl⟩ := stands_of_realpath hk
    rw [stat_of_node hx hl] at hs
    cases hs
    exact ⟨hx, j, hj, hreal⟩
  · rw [hm.stat] at hs
    cases hs

theorem createFile_in_dir {f : File} (hq : q ≠ []) (hd : t.node q.tail = some .dir)
    (h : createFile t q f = .ok t') :
    t.node q = none ∧ ∀ p, t'.node p = if p = q then some (.file f) else t.node p := by
  rw [createFile] at h
  cases hm : t.mkdirAll q.tail with
  | error e => rw [hm] at h; cases h
  | ok t₁ =>
    rw [hm, ok_bind, mkdirAll_dir hd hm] at h
    cases q with
    | nil => exact absurd rfl hq
    | cons n d => exact createNew_cons hd h

/-- A `create` and its path: names behind a directory, none of which existed,
and which are all directories but the last once the file is there. -/
structure Created (ws : Workspace) (t : Tree) (rel : String) (q : Path) (f : File) (t' : Tree) :
    Prop where
  grows : Grows t t'
  old : t.node q = none
  new : t'.node q = some (.file f)
  leads : ∃ j, ws.join rel = .ok j ∧ j.base <:+ q ∧ ∃ ns p d k, j.path = ns ++ p ∧ q = ns ++ d ∧
    ns ≠ [] ∧ t.walk maxLinks [] (comps p) = .ok (k, d) ∧ t.node d = some .dir ∧ t'.Clear d ns

theorem created {f : File} (hr : ws.resolve t rel = .ok q) (hl : t.lstat q = .error .noEntry)
    (h : createFile t q f = .ok t') : Created ws t rel q f t' := by
  obtain ⟨j, hj, hb, hreal | ⟨-, ys, z, p, d, k, hp, rfl, hw, hz⟩⟩ := resolve_cases hr
  · obtain ⟨k, hk⟩ := realpath_eq_ok.mp hreal
    exact absurd hl (lstat_of_stands (stands_of_realpath hk))
  have hd := dir_of_misses (stands_of_realpath hw) hz
  have hz' := walk_maxLinks_of_misses hw hz
  have hleads : t'.Clear d (ys ++ [z]) → ∃ j, ws.join rel = .ok j ∧ j.base <:+ ys ++ z :: d ∧
      ∃ ns p d' k, j.path = ns ++ p ∧ ys ++ z :: d = ns ++ d' ∧ ns ≠ [] ∧
        t.walk maxLinks [] (comps p) = .ok (k, d') ∧ t.node d' = some .dir ∧ t'.Clear d' ns :=
    fun hc => ⟨j, hj, hb, ys ++ [z], p, d, k, by simpa using hp, by simp, by simp, hw, hd, hc⟩
  cases ys with
  | nil =>
    simp only [List.nil_append] at *
    obtain ⟨hold, hnode⟩ := createFile_in_dir (by simp) hd h
    have hnew : t'.node (z :: d) = some (.file f) := by rw [hnode, if_pos rfl]
    refine ⟨fun p x hx => ?_, hold, hnew, hleads ⟨fun s hs hne x hx => ?_, by simp [hnew]⟩⟩
    · rw [hnode, if_neg fun heq => ?_]
      · exact hx
      · rw [heq] at hx
        exact absurd (hold.symm.trans hx) (by simp)
    · rcases List.suffix_cons_iff.mp hs with rfl | hs
      · exact absurd rfl hne
      · rw [List.suffix_nil.mp hs, List.nil_append, hnode, if_neg (by simp), hd] at hx
        exact (Option.some.inj hx).symm
  | cons y ys =>
    rw [createFile] at h
    change t.mkdirAll (ys ++ z :: d) >>= _ = _ at h
    cases hm : t.mkdirAll (ys ++ z :: d) with
    | error e => rw [hm] at h; cases h
    | ok t₁ =>
      rw [hm, ok_bind] at h
      obtain ⟨hnone, hdirs, hrest⟩ := mkdirAll_missing hd hz' hm
      obtain ⟨hfree, hnode⟩ := createNew_cons (hdirs ys (List.suffix_refl _)) h
      have hgone : ∀ s, s <:+ ys → t.node (s ++ z :: d) = none := fun s _ => by
        cases hx : t.node (s ++ z :: d) with
        | none => rfl
        | some x =>
          exfalso
          cases s with
          | nil => rw [List.nil_append, hnone] at hx; cases hx
          | cons m s =>
            rw [List.cons_append] at hx
            have := stat_of_node (dir_of_node hx) (by simp)
            rw [stat_missing _ hd hz'] at this
            cases this
      have hlen : ∀ s, s <:+ ys → y :: (ys ++ z :: d) ≠ s ++ z :: d := fun s hs heq => by
        have := congrArg List.length heq
        have := hs.length_le
        simp at *
        omega
      have hnew : t'.node (y :: (ys ++ z :: d)) = some (.file f) := by rw [hnode, if_pos rfl]
      refine ⟨fun p x hx => ?_, ?_, hnew, hleads ⟨fun s hs hne x hx => ?_, by simp [hnew]⟩⟩
      · have hp₁ : ∀ s, s <:+ ys → p ≠ s ++ z :: d := by
          rintro s hs rfl
          rw [hgone s hs] at hx
          cases hx
        rw [hnode, if_neg fun heq => ?_, hrest p hp₁]
        · exact hx
        · subst heq
          rw [hrest _ hp₁, hx] at hfree
          cases hfree
      · exact (hrest _ hlen).symm.trans hfree
      · rcases List.suffix_cons_iff.mp hs with rfl | hs
        · exact absurd rfl hne
        rcases List.suffix_concat_iff.mp hs with rfl | ⟨s', rfl, hs'⟩
        · have hdk : ∀ s, s <:+ ys → d ≠ s ++ z :: d := fun s _ heq => by
            have := congrArg List.length heq
            simp at this
            omega
          rw [List.nil_append, hnode, if_neg fun heq => ?_, hrest d hdk, hd] at hx
          · exact (Option.some.inj hx).symm
          · have := congrArg List.length heq
            simp at this
            omega
        · rw [List.append_assoc, List.singleton_append, hnode,
            if_neg fun heq => hlen s' hs' heq.symm, hdirs s' hs'] at hx
          exact (Option.some.inj hx).symm

end RemoteWorkspace
