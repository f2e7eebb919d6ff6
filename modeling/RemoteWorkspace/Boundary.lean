import RemoteWorkspace.Resolution

/-!
# Where a resolved path leads

`resolve` says that what it returns stays inside the root it addresses. It
canonicalizes the deepest ancestor that does, and puts the names behind it back
as they are. The first of these names leads to nothing, for one of two reasons:
there is no such entry, or the entry is a link to nothing. In the second case
the path goes on at the link's target, which nothing checks.

`resolve_stays_iff` is the exact condition: the path stays inside unless that
name is a link whose target, with the names behind it, leads out.
-/

namespace RemoteWorkspace

open FileTree (Comp Node Errno comps)
open FileTree.Tree

variable {t : Tree}

/-- Looking up `p`, or making it and what is missing on the way, reaches only
places under `base`. -/
def StaysUnder (t : Tree) (base p : Path) : Prop :=
  (∀ q, t.realpath (comps p) = .ok q → base <:+ q) ∧ ∀ q ∈ t.reach maxLinks [] (comps p), base <:+ q

/-- The first name of `p` that leads to nothing is `z`; the names before it
lead to the directory `d`, and the names `ys` come behind it. -/
structure FirstMissing (t : Tree) (p : Path) (ys : Path) (z : String) (d : Path) : Prop where
  dir : t.node d = some .dir
  split : ∃ p₀, p = ys ++ z :: p₀ ∧ t.realpath (comps p₀) = .ok d ∧
    t.realpath (comps (z :: p₀)) = .error .noEntry

/-- What is missing stays missing with more names behind it. -/
theorem realpath_append_missing {p : Path} (ys : Path) (h : t.realpath (comps p) = .error .noEntry) :
    t.realpath (comps (ys ++ p)) = .error .noEntry := by
  rw [realpath_eq_error] at h ⊢
  rw [comps_append, walk_append, h]
  rfl

/-- A path has one first missing name. -/
theorem FirstMissing.unique {p ys ys' d d' : Path} {z z' : String} (h : FirstMissing t p ys z d)
    (h' : FirstMissing t p ys' z' d') : ys' = ys ∧ z' = z ∧ d' = d := by
  obtain ⟨p₀, rfl, hd, hz⟩ := h.split
  obtain ⟨p₁, heq, hd', hz'⟩ := h'.split
  have hlen : ∀ {a b : Path} {m n : String} {u v e : Path}, a ++ m :: u = b ++ n :: v →
      t.realpath (comps (m :: u)) = .error .noEntry → t.realpath (comps v) = .ok e →
      ¬ u.length < v.length := by
    intro a b m n u v e heq hmiss hv hlt
    have hsuf : m :: u <:+ v := by
      refine List.suffix_of_suffix_length_le (List.suffix_append a _) ?_ (by simp; omega)
      rw [heq]
      exact (List.suffix_cons n v).trans (List.suffix_append b _)
    obtain ⟨w, rfl⟩ := hsuf
    rw [realpath_append_missing w hmiss] at hv
    cases hv
  have h₁ := hlen heq hz hd'
  have h₂ := hlen heq.symm hz' hd
  have hsame : ys.length = ys'.length := by
    have := congrArg List.length heq
    simp at this
    omega
  obtain ⟨rfl, hrest⟩ := List.append_inj heq hsame
  cases hrest
  rw [hd] at hd'
  cases hd'
  exact ⟨rfl, rfl, rfl⟩

theorem Misses.firstMissing {p q : Path} (h : Misses t p q) :
    ∃ ys z d, q = ys ++ z :: d ∧ FirstMissing t p ys z d := by
  obtain ⟨ys, z, p₀, d, k, rfl, rfl, hw, hz⟩ := h
  refine ⟨ys, z, d, rfl, dir_of_misses (stands_of_realpath hw) hz, p₀, rfl,
    realpath_eq_ok.mpr ⟨k, hw⟩, ?_⟩
  rw [realpath_eq_error, FileTree.comps_cons, walk_append, hw]
  exact hz

/-- What such a path resolves to leads nowhere. -/
theorem Misses.realpath {p q : Path} (h : Misses t p q) : t.realpath (comps q) = .error .noEntry := by
  obtain ⟨ys, z, p₀, d, k, -, rfl, hw, hz⟩ := h
  exact realpath_missing (dir_of_misses (stands_of_realpath hw) hz) (walk_maxLinks_of_misses hw hz)

/-- A path with a missing name leads nowhere. -/
theorem FirstMissing.realpath {p ys d : Path} {z : String} (h : FirstMissing t p ys z d) :
    t.realpath (comps p) = .error .noEntry := by
  obtain ⟨p₀, rfl, -, hz⟩ := h.split
  exact realpath_append_missing ys hz

/-- The first missing name is no entry, or a link. -/
theorem FirstMissing.node {p ys d : Path} {z : String} (h : FirstMissing t p ys z d) :
    t.node (z :: d) = none ∨ ∃ absolute target, t.node (z :: d) = some (.link absolute target) := by
  obtain ⟨p₀, -, hd, hz⟩ := h.split
  obtain ⟨k, hk⟩ := realpath_eq_ok.mp hd
  rw [realpath_eq_error, FileTree.comps_cons, walk_append, hk] at hz
  change t.walk k d [.name z] = _ at hz
  rw [walk_name h.dir] at hz
  cases hx : t.node (z :: d) with
  | none => exact .inl rfl
  | some x =>
    cases x with
    | link absolute target => exact .inr ⟨absolute, target, rfl⟩
    | _ => rw [hx] at hz; simp at hz

/-- Making a path whose first missing name is no entry stays behind it. -/
theorem reach_of_noEntry {ys d : Path} {z : String} (hd : t.node d = some .dir)
    (hz : t.node (z :: d) = none) (base : Path) :
    (∀ q ∈ t.reach maxLinks [] (comps (ys ++ z :: d)), base <:+ q) ↔ base <:+ z :: d := by
  rw [comps_append, FileTree.comps_cons, List.append_assoc, reach_comps hd, List.singleton_append,
    reach_name, hz]
  constructor
  · intro h
    exact h _ (List.mem_cons_self ..)
  · rintro h q (_ | ⟨_, hq⟩)
    · exact h
    · exact h.trans (reach_of_none hz _ _ q hq)

/-- Making a path whose first missing name is a link goes on at its target. -/
theorem reach_of_link {ys d : Path} {z : String} {absolute : Bool} {target : List (Comp String)}
    (hd : t.node d = some .dir) (hz : t.node (z :: d) = some (.link absolute target)) :
    t.reach maxLinks [] (comps (ys ++ z :: d)) =
      t.reach (maxLinks - 1) (if absolute then [] else d) (target ++ comps ys) := by
  rw [comps_append, FileTree.comps_cons, List.append_assoc, reach_comps hd, List.singleton_append,
    reach_name, hz]
  rfl

theorem realpath_comps_of_stands {p : Path} (h : t.Stands p) : t.realpath (comps p) = .ok p := by
  obtain ⟨x, hx, hl⟩ := h
  rw [realpath, walk_comps_of_node hx hl]
  rfl

/-- A path that canonicalized stays where it is. -/
theorem staysUnder_of_stands {base p : Path} (h : t.Stands p) (hb : base <:+ p) :
    StaysUnder t base p := by
  refine ⟨fun q hq => ?_, fun q hq => ?_⟩
  · rw [realpath_comps_of_stands h] at hq
    cases hq
    exact hb
  · rw [reach_of_stands h, List.mem_singleton] at hq
    exact hq ▸ hb

variable {ws : Workspace} {rel : String} {j : Joined} {p : Path}

/-- A resolved path stays inside exactly when its first missing name, if it has
one, is an entry yet to be made inside, or a link from whose target everything
is inside. -/
theorem resolve_stays_iff (hj : ws.join rel = .ok j) (h : ws.resolve t rel = .ok p) :
    StaysUnder t j.base p ↔ ∀ ys z d, FirstMissing t j.path ys z d →
      (t.node (z :: d) = none → j.base <:+ z :: d) ∧
        ∀ absolute target, t.node (z :: d) = some (.link absolute target) →
          ∀ q ∈ t.reach (maxLinks - 1) (if absolute then [] else d) (target ++ comps ys),
            j.base <:+ q := by
  obtain ⟨j', hj', hb, hreal | ⟨-, hm⟩⟩ := resolve_cases h
  · rw [hj] at hj'
    cases hj'
    obtain ⟨k, hk⟩ := realpath_eq_ok.mp hreal
    refine ⟨fun _ ys z d hf => ?_, fun _ => staysUnder_of_stands (stands_of_realpath hk) hb⟩
    rw [realpath_comps_of_missing hf.realpath] at hreal
    cases hreal
  · rw [hj] at hj'
    cases hj'
    obtain ⟨ys, z, d, rfl, hf⟩ := hm.firstMissing
    have hlook : StaysUnder t j.base (ys ++ z :: d) ↔
        ∀ q ∈ t.reach maxLinks [] (comps (ys ++ z :: d)), j.base <:+ q := by
      rw [StaysUnder, hm.realpath]
      simp
    rw [hlook]
    constructor
    · intro hreach ys' z' d' hf'
      obtain ⟨rfl, rfl, rfl⟩ := hf.unique hf'
      refine ⟨fun hn => (reach_of_noEntry hf.dir hn j.base).mp hreach, fun absolute target hl => ?_⟩
      rwa [reach_of_link hf.dir hl] at hreach
    · intro hall
      obtain ⟨hnone, hlink⟩ := hall ys z d hf
      rcases hf.node with hn | ⟨absolute, target, hl⟩
      · exact (reach_of_noEntry hf.dir hn j.base).mpr (hnone hn)
      · rw [reach_of_link hf.dir hl]
        exact hlink absolute target hl

/-! A workspace with a link to a place outside where nothing is, and with a
link to a place inside. -/

def linkOut : Tree :=
  (FileTree.Tree.bare.set ["ws"] (some .dir) (FileTree.Tree.settable_bare "ws")).set ["link", "ws"] (some (.link true [.name "new"])) rfl

def linkIn : Tree :=
  (FileTree.Tree.bare.set ["ws"] (some .dir) (FileTree.Tree.settable_bare "ws")).set ["link", "ws"] (some (.link false [.name "new"])) rfl

theorem resolve_stays_iff_linkIn :
    StaysUnder linkIn ["ws"] ["f", "link", "ws"] ↔
      ∀ ys z d, FirstMissing linkIn ["f", "link", "ws"] ys z d →
        (linkIn.node (z :: d) = none → ["ws"] <:+ z :: d) ∧
          ∀ absolute target, linkIn.node (z :: d) = some (.link absolute target) →
            ∀ q ∈ linkIn.reach (maxLinks - 1) (if absolute then [] else d) (target ++ comps ys),
              ["ws"] <:+ q := by
  have hj : homeWorkspace.join "link/f" = .ok ⟨["ws"], ["link", "f"], false⟩ := rfl
  have h : homeWorkspace.resolve linkIn "link/f" = .ok ["f", "link", "ws"] := rfl
  exact resolve_stays_iff hj h

/-- A link to nothing outside is resolved to itself, and what is made there is
made outside. -/
theorem resolve_link_to_nothing_leads_out :
    homeWorkspace.join "link" = .ok ⟨["ws"], ["link"], false⟩ ∧
      homeWorkspace.resolve linkOut "link" = .ok ["link", "ws"] ∧
      ¬ StaysUnder linkOut ["ws"] ["link", "ws"] := by
  refine ⟨rfl, rfl, fun h => ?_⟩
  have hnew : (["new"] : Path) ∈ linkOut.reach maxLinks [] (comps ["link", "ws"]) :=
    List.mem_cons_self ..
  exact absurd (h.2 _ hnew) (by decide)

end RemoteWorkspace
