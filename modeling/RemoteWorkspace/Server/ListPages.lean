import Mathlib.Data.List.Sort
import Mathlib.Data.String.Basic
import RemoteWorkspace.Server.Handlers
import RemoteWorkspace.Server.OutputCapture
import RemoteWorkspace.Wire.Messages

/-!
# Listing a directory page by page

`list` of `fs_ops.rs`: every page reads the directory anew, in whatever order
the system yields its entries, sorts them by name and cuts a window out
(`list`). While the directory stays as it is, the pages that `next_offset` leads
through are the directory in order, each entry once (`list_pages`). The state
directory of the server is not shown where the root is its home.

The names in a directory are bytes, and what is not UTF-8 in them is shown as U+FFFD.
Entries that show as one name stay in the order in which the system yields them,
which may be another one for the next page; so the names are to show apart, as
those that are UTF-8 always do (`apart_of_utf8`).
-/

namespace RemoteWorkspace

open FileTree (Node Errno)
open Text (utf8)
open Wire (ListEntry ListKind ListResult)

/-! ## The code -/

def listDefaultLimit : Nat := 1000

def listMaxLimit : Nat := 1000

/-- The server's own state directory. -/
def stateDirName : String := ".remote-workspace"

def listKind : Node String File → ListKind
  | .link _ _ => .symlink
  | .dir => .dir
  | _ => .file

/-- How a directory is read: what `read_dir` yields and in which order, and what
the metadata of an entry is, which is not followed through a link. -/
structure Listing where
  opened : Except Errno Unit := .ok ()
  names : List (Except Errno (List UInt8))
  metadata : List UInt8 → Except Errno (Node String File × Nat)

def listFailed (e : Errno) : ProtocolError := ioFailed "list failed: " e

/-- `to_string_lossy`. -/
def shownName (name : List UInt8) : String := String.ofList (Utf8.lossy name)

/-- The entries of a directory. One that was removed since the directory was
read is left out. -/
def listEntries (hidden : String → Bool) (metadata : List UInt8 → Except Errno (Node String File × Nat)) :
    List (Except Errno (List UInt8)) → Except Errno (List ListEntry)
  | [] => .ok []
  | .error e :: _ => .error e
  | .ok fileName :: rest =>
    let name := shownName fileName
    if hidden name then listEntries hidden metadata rest
    else
      match metadata fileName with
      | .ok (node, size) =>
        (listEntries hidden metadata rest).map ({ name, kind := listKind node, size := some size } :: ·)
      | .error .noEntry => listEntries hidden metadata rest
      | .error e => .error e

/-- The page of sorted entries. -/
def listPage (entries : List ListEntry) (offset limit : Nat) : Except ProtocolError ListResult :=
  if offset > 0 ∧ offset ≥ entries.length then
    .error (.new .invalidRequest ("offset " ++ offset.repr ++ " is past the last entry (" ++
      entries.length.repr ++ " entries)"))
  else
    let stop := min (saturatingAddU64 offset limit) entries.length
    .ok { entries := (entries.take stop).drop offset
          nextOffset := if stop < entries.length then some stop else none }

/-- `sort_by`, which is stable. -/
def sortEntries (entries : List ListEntry) : List ListEntry :=
  entries.insertionSort fun a b => a.name ≤ b.name

def list (ws : Workspace) (t : Tree) (listing : Listing) (path : String) (offset limit : Option Nat) :
    Except ProtocolError ListResult := do
  let offset := offset.getD 0
  let limit := limit.getD listDefaultLimit
  if limit = 0 ∨ limit > listMaxLimit then
    .error (.new .invalidRequest ("list limit must be between 1 and " ++ listMaxLimit.repr ++ " entries"))
  else
    let abs ← ws.resolve t path
    match t.lstat abs with
    | .error .noEntry => .error (.new .notFound ("not found: " ++ path))
    | .error e => .error (listFailed e)
    | .ok .dir =>
      match listing.opened with
      | .error e => .error (listFailed e)
      | .ok _ =>
        match listEntries (fun name => abs = ws.root && name = stateDirName) listing.metadata listing.names with
        | .error e => .error (listFailed e)
        | .ok entries => listPage (sortEntries entries) offset limit
    | .ok _ => .error (.new .notADirectory ("not a directory: " ++ path))

inductive ListingEnd where
  | ended
  /-- There are more pages, from here. -/
  | goesOn (offset : Nat)
  | refused (e : ProtocolError)
  deriving DecidableEq

/-- Follow `next_offset` from an offset, with the directory as it is read for
each page and a limit for it: the entries of the pages, one behind the other,
and how it ends. -/
def followList (page : Listing → Nat → Nat → Except ProtocolError ListResult) :
    List (Listing × Nat) → Nat → List ListEntry × ListingEnd
  | [], offset => ([], .goesOn offset)
  | (listing, limit) :: rest, offset =>
    match page listing offset limit with
    | .error e => ([], .refused e)
    | .ok r =>
      match r.nextOffset with
      | none => (r.entries, .ended)
      | some next => (r.entries ++ (followList page rest next).1, (followList page rest next).2)

/-! ## A directory that stays -/

/-- What is in a directory, by the bytes of the names. -/
abbrev Dir := List UInt8 → Option (Node String File × Nat)

/-- The directory is read as it is: each of its entries once, in some order. -/
structure Listing.Faithful (listing : Listing) (dir : Dir) : Prop where
  opened : listing.opened = .ok ()
  names : ∃ xs : List (List UInt8), listing.names = xs.map .ok ∧ xs.Nodup ∧ ∀ n, n ∈ xs ↔ dir n ≠ none
  metadata : ∀ n x, dir n = some x → listing.metadata n = .ok x

/-- No two entries show as one name. -/
def Dir.Apart (dir : Dir) : Prop := ∀ n n', dir n ≠ none → dir n' ≠ none → shownName n = shownName n' → n = n'

theorem apart_of_utf8 {dir : Dir} (h : ∀ n, dir n ≠ none → ∃ cs, n = utf8 cs) : dir.Apart := by
  intro n n' hn hn' hshown
  obtain ⟨cs, rfl⟩ := h n hn
  obtain ⟨cs', rfl⟩ := h n' hn'
  rw [shownName, shownName, Utf8.lossy_utf8, Utf8.lossy_utf8, String.ofList_inj] at hshown
  rw [hshown]

/-- The entry is shown for what has this name. -/
structure ShowsAs (ws : Workspace) (abs : Path) (dir : Dir) (n : List UInt8) (e : ListEntry) : Prop where
  name : e.name = shownName n
  visible : ¬ (abs = ws.root ∧ e.name = stateDirName)
  held : ∃ node size, dir n = some (node, size) ∧ e.kind = listKind node ∧ e.size = some size

/-- The entry is shown. -/
def Shows (ws : Workspace) (abs : Path) (dir : Dir) (e : ListEntry) : Prop := ∃ n, ShowsAs ws abs dir n e

section

variable {ws : Workspace} {t : Tree} {abs : Path} {dir : Dir} {listing : Listing}

theorem ShowsAs.eq {n : List UInt8} {e e' : ListEntry} (h : ShowsAs ws abs dir n e) (h' : ShowsAs ws abs dir n e') :
    e = e' := by
  obtain ⟨hname, -, node, size, hheld, hkind, hsize⟩ := h
  obtain ⟨hname', -, node', size', hheld', hkind', hsize'⟩ := h'
  cases hheld.symm.trans hheld'
  obtain ⟨name, kind, sz⟩ := e
  obtain ⟨name', kind', sz'⟩ := e'
  simp_all

/-- Reading a directory as it is. -/
theorem listEntries_faithful {hidden : String → Bool} {xs : List (List UInt8)}
    (hnames : ∀ n ∈ xs, ∃ x, dir n = some x ∧ listing.metadata n = .ok x) (hnodup : xs.Nodup) (hapart : dir.Apart)
    (hhidden : ∀ n, hidden n = true ↔ abs = ws.root ∧ n = stateDirName) :
    ∃ es, listEntries hidden listing.metadata (xs.map .ok) = .ok es ∧ (es.map ListEntry.name).Nodup ∧
      (∀ e ∈ es, ∃ n ∈ xs, ShowsAs ws abs dir n e) ∧
      ∀ n ∈ xs, hidden (shownName n) = false → ∃ e ∈ es, ShowsAs ws abs dir n e := by
  induction xs with
  | nil => exact ⟨[], rfl, List.nodup_nil, by simp, by simp⟩
  | cons n xs ih =>
    obtain ⟨hn, hnodup⟩ := List.nodup_cons.mp hnodup
    obtain ⟨es, hes, hdistinct, hshows, hall⟩ := ih (fun m hm => hnames m (List.mem_cons_of_mem _ hm)) hnodup
    have hmore : ∀ e ∈ es, ∃ m ∈ n :: xs, ShowsAs ws abs dir m e := fun e he => by
      obtain ⟨m, hm, hshow⟩ := hshows e he
      exact ⟨m, List.mem_cons_of_mem _ hm, hshow⟩
    rw [List.map_cons, listEntries]
    by_cases hhid : hidden (shownName n) = true
    · rw [if_pos hhid]
      refine ⟨es, hes, hdistinct, hmore, fun m hm hv => ?_⟩
      rcases List.mem_cons.mp hm with rfl | hm
      · rw [hhid] at hv
        cases hv
      · exact hall m hm hv
    · obtain ⟨⟨node, size⟩, hnode, hmeta⟩ := hnames n (.head _)
      have hshow : ShowsAs ws abs dir n { name := shownName n, kind := listKind node, size := some size } :=
        ⟨rfl, fun hh => hhid ((hhidden _).mpr hh), node, size, hnode, rfl, rfl⟩
      rw [if_neg hhid, hmeta, hes]
      refine ⟨_, rfl, ?_, fun e he => ?_, fun m hm hv => ?_⟩
      · rw [List.map_cons, List.nodup_cons]
        refine ⟨fun hmem => ?_, hdistinct⟩
        obtain ⟨e, he, heq⟩ := List.mem_map.mp hmem
        obtain ⟨m, hm, hshow'⟩ := hshows e he
        obtain ⟨y, hy, -⟩ := hnames m (List.mem_cons_of_mem _ hm)
        rw [← hapart m n (by simp [hy]) (by simp [hnode]) (hshow'.name.symm.trans heq)] at hn
        exact hn hm
      · rcases List.mem_cons.mp he with rfl | he
        · exact ⟨n, .head _, hshow⟩
        · exact hmore e he
      · rcases List.mem_cons.mp hm with rfl | hm
        · exact ⟨_, .head _, hshow⟩
        · obtain ⟨e, he, hshow'⟩ := hall m hm hv
          exact ⟨e, List.mem_cons_of_mem _ he, hshow'⟩

/-- No more entries than names. -/
theorem length_listEntries {hidden : String → Bool} {metadata : List UInt8 → Except Errno (Node String File × Nat)}
    {names : List (Except Errno (List UInt8))} {es : List ListEntry} (h : listEntries hidden metadata names = .ok es) :
    es.length ≤ names.length := by
  induction names generalizing es with
  | nil =>
    cases h
    exact Nat.le_refl 0
  | cons x names ih =>
    rw [List.length_cons]
    cases x with
    | error e => cases h
    | ok name =>
      rw [listEntries] at h
      split at h
      · have := ih h
        omega
      · split at h
        · cases hes : listEntries hidden metadata names with
          | error e =>
            rw [hes] at h
            cases h
          | ok es' =>
            rw [hes] at h
            cases h
            have := ih hes
            rw [List.length_cons]
            omega
        · have := ih h
          omega
        · cases h

/-- The entries of a directory in the order of their names. -/
structure Listed (ws : Workspace) (abs : Path) (dir : Dir) (all : List ListEntry) : Prop where
  sorted : all.Pairwise fun a b => a.name < b.name
  mem : ∀ e, e ∈ all ↔ Shows ws abs dir e

/-- Whatever the order in which the system yields them, the sorted entries are
the same. -/
theorem Listed.eq {all all' : List ListEntry} (h : Listed ws abs dir all) (h' : Listed ws abs dir all') :
    all = all' := by
  have hnodup : ∀ {es : List ListEntry}, es.Pairwise (fun a b => a.name < b.name) → es.Nodup := by
    intro es hs
    apply hs.imp
    rintro a b hlt rfl
    exact lt_irrefl _ hlt
  have hperm : all.Perm all' := by
    rw [List.perm_ext_iff_of_nodup (hnodup h.sorted) (hnodup h'.sorted)]
    exact fun e => (h.mem e).trans (h'.mem e).symm
  refine hperm.eq_of_pairwise (fun a b _ _ hab hba => ?_) h.sorted h'.sorted
  exact absurd hab (lt_asymm hba)

theorem listed_sortEntries (h : listing.Faithful dir) (hapart : dir.Apart) :
    ∃ es, listEntries (fun name => abs = ws.root && name = stateDirName) listing.metadata listing.names = .ok es ∧
      Listed ws abs dir (sortEntries es) := by
  obtain ⟨xs, hxs, hnodup, hmem⟩ := h.names
  have hnames : ∀ n ∈ xs, ∃ x, dir n = some x ∧ listing.metadata n = .ok x := by
    intro n hn
    obtain ⟨x, hx⟩ := Option.ne_none_iff_exists'.mp ((hmem n).mp hn)
    exact ⟨x, hx, h.metadata n x hx⟩
  obtain ⟨es, hes, hdistinct, hshows, hall⟩ :=
    @listEntries_faithful ws abs dir listing (fun name => abs = ws.root && name = stateDirName) xs hnames hnodup hapart
      (by simp)
  refine ⟨es, hxs ▸ hes, ?_, fun e => ?_⟩
  · have hle := List.pairwise_insertionSort (fun a b : ListEntry => a.name ≤ b.name) es
    have hne : (sortEntries es).Pairwise fun a b => a.name ≠ b.name := by
      rw [← List.pairwise_map]
      exact ((List.perm_insertionSort _ es).map _).nodup_iff.mpr hdistinct
    exact hle.imp₂ (fun a b hab hn => lt_of_le_of_ne hab hn) hne
  · rw [sortEntries, List.mem_insertionSort]
    constructor
    · intro he
      obtain ⟨n, -, hshow⟩ := hshows e he
      exact ⟨n, hshow⟩
    · rintro ⟨n, hshow⟩
      obtain ⟨node, size, hheld, -⟩ := hshow.held
      have hvisible := hshow.visible
      rw [hshow.name] at hvisible
      obtain ⟨e', he', hshow'⟩ := hall n ((hmem n).mpr (by simp [hheld])) (by simpa using hvisible)
      rw [hshow.eq hshow']
      exact he'

end

/-! ## Its pages -/

/-- The limits that `list` accepts. -/
def ListLimit (limit : Nat) : Prop := 1 ≤ limit ∧ limit ≤ listMaxLimit

section

variable {ws : Workspace} {t : Tree} {abs : Path} {dir : Dir} {listing : Listing} {path : String}
  {all : List ListEntry} {offset limit : Nat}

theorem list_faithful (hp : ws.resolve t path = .ok abs) (hd : t.lstat abs = .ok .dir)
    (hl : listing.Faithful dir) (hapart : dir.Apart) (hall : Listed ws abs dir all) (hlimit : ListLimit limit) :
    list ws t listing path (some offset) (some limit) = listPage all offset limit := by
  obtain ⟨es, hes, hlisted⟩ := @listed_sortEntries ws abs dir listing hl hapart
  have hok : ¬ (limit = 0 ∨ limit > listMaxLimit) := by
    rw [ListLimit] at hlimit
    omega
  simp only [list, Option.getD_some, if_neg hok, hp, FileTree.Tree.ok_bind, hd, hl.opened, hes]
  rw [hlisted.eq hall]

/-- A page inside the directory. -/
theorem listPage_eq (hlen : all.length < u64Bound) (ho : offset = 0 ∨ offset < all.length) :
    listPage all offset limit = .ok
      { entries := (all.drop offset).take limit
        nextOffset := if offset + limit < all.length then some (offset + limit) else none } := by
  have hok : ¬ (offset > 0 ∧ offset ≥ all.length) := by omega
  have hstop : min (saturatingAddU64 offset limit) all.length = min (offset + limit) all.length := by
    rw [saturatingAddU64]
    omega
  rw [listPage, if_neg hok, hstop]
  apply congrArg Except.ok
  by_cases hmore : offset + limit < all.length
  · rw [Nat.min_eq_left (by omega), if_pos hmore, List.drop_take, Nat.add_sub_cancel_left]
  · rw [Nat.min_eq_right (by omega), if_neg (Nat.lt_irrefl _), if_neg hmore, List.take_length,
      List.take_of_length_le (by rw [List.length_drop]; omega)]

/-- Following the pages from an offset inside the directory. -/
theorem followList_faithful (hp : ws.resolve t path = .ok abs) (hd : t.lstat abs = .ok .dir)
    (hapart : dir.Apart) (hall : Listed ws abs dir all) (hlen : all.length < u64Bound) (steps : List (Listing × Nat))
    (hsteps : ∀ x ∈ steps, x.1.Faithful dir ∧ ListLimit x.2) :
    ∀ offset, offset = 0 ∨ offset < all.length →
      let r := followList (fun l o k => list ws t l path (some o) (some k)) steps offset
      r.2 = .ended ∧ r.1 = all.drop offset ∨
        ∃ o, r.2 = .goesOn o ∧ r.1 = (all.drop offset).take (o - offset) ∧ offset + steps.length ≤ o ∧
          (o = offset ∨ o < all.length) := by
  induction steps with
  | nil =>
    intro offset _
    refine .inr ⟨offset, rfl, ?_, by simp, .inl rfl⟩
    rw [Nat.sub_self, List.take_zero]
    rfl
  | cons x steps ih =>
    intro offset ho
    obtain ⟨listing, limit⟩ := x
    obtain ⟨hl, hlimit⟩ := hsteps _ (.head _)
    have hone := hlimit.1
    rw [followList, list_faithful hp hd hl hapart hall hlimit, listPage_eq hlen ho]
    dsimp only
    by_cases hmore : offset + limit < all.length
    · rw [if_pos hmore]
      dsimp only
      have hjoin : ∀ n, (all.drop offset).take limit ++ ((all.drop (offset + limit)).take n) =
          (all.drop offset).take (limit + n) := by
        intro n
        rw [← List.drop_drop, List.take_add]
      rcases ih (fun y hy => hsteps y (List.mem_cons_of_mem _ hy)) (offset + limit) (.inr hmore) with
        ⟨hend, hes⟩ | ⟨o, hend, hes, hle, hlt⟩
      · refine .inl ⟨hend, ?_⟩
        rw [hes, ← List.drop_drop, List.take_append_drop]
      · rw [List.length_cons]
        refine .inr ⟨o, hend, ?_, by omega, by omega⟩
        rw [hes, hjoin]
        congr 1
        omega
    · rw [if_neg hmore]
      dsimp only
      refine .inl ⟨rfl, ?_⟩
      rw [List.take_of_length_le]
      rw [List.length_drop]
      omega

/-- Paging through a directory that stays as it is and whose entries show as
different names: whatever the order in which the system yields them, anew for each
page, and whatever the limits, the pages are the directory in the order of the
names shown, each entry once, without the state directory of the root; no page is
refused, and there are no more pages than entries, or one. -/
theorem list_pages (hp : ws.resolve t path = .ok abs) (hd : t.lstat abs = .ok .dir) (hl : listing.Faithful dir)
    (hapart : dir.Apart) (hn : listing.names.length < u64Bound) :
    ∃ all, Listed ws abs dir all ∧ ∀ steps : List (Listing × Nat),
      (∀ x ∈ steps, x.1.Faithful dir ∧ ListLimit x.2) →
        let r := followList (fun l o k => list ws t l path (some o) (some k)) steps 0
        (r.2 = .ended → r.1 = all) ∧ (∀ e, r.2 ≠ .refused e) ∧
          (∀ o, r.2 = .goesOn o → r.1 = all.take o ∧ (o = 0 ∨ o < all.length)) ∧
          (steps ≠ [] → all.length ≤ steps.length → r.2 = .ended) := by
  obtain ⟨es, hes, hall⟩ := @listed_sortEntries ws abs dir listing hl hapart
  have hlen : (sortEntries es).length < u64Bound := by
    rw [sortEntries, List.length_insertionSort]
    exact Nat.lt_of_le_of_lt (length_listEntries hes) hn
  refine ⟨sortEntries es, hall, fun steps hsteps => ?_⟩
  have hfollow := followList_faithful hp hd hapart hall hlen steps hsteps 0 (.inl rfl)
  dsimp only at hfollow ⊢
  generalize followList (fun l o k => list ws t l path (some o) (some k)) steps 0 = r at hfollow ⊢
  obtain ⟨got, stop⟩ := r
  rcases hfollow with ⟨rfl, hgot⟩ | ⟨o, rfl, hgot, hle, hlt⟩
  · refine ⟨fun _ => hgot, by simp, by simp, fun _ _ => rfl⟩
  · refine ⟨by simp, by simp, ?_, fun hne hcount => ?_⟩
    · rintro _ ⟨⟩
      exact ⟨hgot, hlt⟩
    · have := List.length_pos_iff.mpr hne
      omega

end

/-! The home of a server as its workspace: its state, a file, and one whose name is
Latin-1. -/

def latin1Name : List UInt8 := [0x63, 0x61, 0x66, 0xE9]

def sharedDir : Dir := fun n =>
  if n = utf8 "memo".toList ∨ n = latin1Name then some (.file { content := [], readable := true }, 7)
  else if n = utf8 stateDirName.toList then some (.dir, 4096)
  else none

def sharedListing : Listing where
  names := [.ok (utf8 "memo".toList), .ok (utf8 stateDirName.toList), .ok latin1Name]
  metadata n := (sharedDir n).elim (.error .noEntry) .ok

theorem sharedDir_ne_none (n : List UInt8) :
    sharedDir n ≠ none ↔ n ∈ [utf8 "memo".toList, utf8 stateDirName.toList, latin1Name] := by
  simp only [sharedDir, List.mem_cons, List.not_mem_nil, or_false]
  split
  · simp_all
    tauto
  · split <;> simp_all

theorem faithful_sharedListing : sharedListing.Faithful sharedDir where
  opened := rfl
  names := ⟨_, rfl, by decide, fun n => (sharedDir_ne_none n).symm⟩
  metadata n x hx := by simp [sharedListing, hx]

theorem apart_sharedDir : sharedDir.Apart := by
  have hall : ∀ n ∈ [utf8 "memo".toList, utf8 stateDirName.toList, latin1Name],
      ∀ n' ∈ [utf8 "memo".toList, utf8 stateDirName.toList, latin1Name], shownName n = shownName n' → n = n' := by
    decide +kernel
  exact fun n n' hn hn' => hall n ((sharedDir_ne_none n).mp hn) n' ((sharedDir_ne_none n').mp hn')

/-- The state directory is not among its pages. -/
theorem list_pages_shared :
    ∃ all, Listed homeWorkspace ["ws"] sharedDir all ∧
      (followList (fun l o k => list homeWorkspace homeTree l "." (some o) (some k))
        [(sharedListing, 1), (sharedListing, 1)] 0).1 = all ∧
        all.map ListEntry.name = ["caf\uFFFD", "memo"] := by
  obtain ⟨all, hall, hpages⟩ :=
    @list_pages homeWorkspace homeTree _ _ _ "." rfl rfl faithful_sharedListing apart_sharedDir (by decide)
  obtain ⟨hended, -⟩ := hpages [(sharedListing, 1), (sharedListing, 1)] (by
    intro x hx
    have hx : x = (sharedListing, 1) := by simpa using hx
    rw [hx]
    exact ⟨faithful_sharedListing, by decide, by decide⟩)
  have hend : (followList (fun l o k => list homeWorkspace homeTree l "." (some o) (some k))
      [(sharedListing, 1), (sharedListing, 1)] 0).2 = .ended := by decide +kernel
  have hnames : ((followList (fun l o k => list homeWorkspace homeTree l "." (some o) (some k))
      [(sharedListing, 1), (sharedListing, 1)] 0).1.map ListEntry.name) = ["caf\uFFFD", "memo"] := by decide +kernel
  exact ⟨all, hall, hended hend, hended hend ▸ hnames⟩

end RemoteWorkspace
