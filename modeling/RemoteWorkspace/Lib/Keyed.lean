import Mathlib.Data.List.Sort
import Mathlib.Data.List.Induction
import Mathlib.Data.List.Nodup
import Mathlib.Order.Defs.LinearOrder

/-!
# Lists keyed by a field

A table kept as a list whose elements are found by a key: `get` finds the
first element with a key, `put` replaces it in place or appends, `remove`
drops it. An append-only log is the same list read the other way round: what
it says about a key is the `latest` element with it. `collapse` reads a log
into a table ordered by key, one element for each key, and `get_collapse` says
that the table holds the latest element for each.
-/

namespace Keyed

variable {α κ : Type} [DecidableEq κ] (key : α → κ)

/-- The first element with key `k`. -/
def get (k : κ) (xs : List α) : Option α := xs.find? fun x => key x = k

/-- Put `x` in the place of the first element with its key, or at the end. -/
def put (x : α) : List α → List α
  | [] => [x]
  | y :: ys => if key y = key x then x :: ys else y :: put x ys

def remove (k : κ) (xs : List α) : List α := xs.filter fun x => key x ≠ k

/-- No two elements have the same key. -/
def Distinct (xs : List α) : Prop := (xs.map key).Nodup

variable {key}

@[simp] theorem get_nil (k : κ) : get key k [] = none := rfl

theorem get_cons (k : κ) (x : α) (xs : List α) :
    get key k (x :: xs) = if key x = k then some x else get key k xs := by
  by_cases h : key x = k <;> simp [get, h]

theorem get_append (k : κ) (xs ys : List α) :
    get key k (xs ++ ys) = (get key k xs).or (get key k ys) := List.find?_append

theorem key_of_get {k : κ} {x : α} {xs : List α} (h : get key k xs = some x) : key x = k := by
  simpa using List.find?_some h

theorem mem_of_get {k : κ} {x : α} {xs : List α} (h : get key k xs = some x) : x ∈ xs :=
  List.mem_of_find?_eq_some h

theorem get_eq_none {k : κ} {xs : List α} : get key k xs = none ↔ ∀ x ∈ xs, key x ≠ k := by
  simp [get]

/-! ## Distinct keys -/

omit [DecidableEq κ] in
@[simp] theorem distinct_nil : Distinct key [] := List.nodup_nil

omit [DecidableEq κ] in
theorem distinct_cons {x : α} {xs : List α} :
    Distinct key (x :: xs) ↔ (∀ y ∈ xs, key y ≠ key x) ∧ Distinct key xs := by
  simp [Distinct, List.nodup_cons]

theorem get_of_mem {x : α} {xs : List α} (hd : Distinct key xs) (hx : x ∈ xs) :
    get key (key x) xs = some x := by
  induction xs with
  | nil => cases hx
  | cons y ys ih =>
    obtain ⟨hy, hd⟩ := distinct_cons.mp hd
    rw [get_cons]
    rcases List.mem_cons.mp hx with rfl | hx
    · simp
    · rw [if_neg (Ne.symm (hy x hx))]
      exact ih hd hx

theorem get_eq_some_iff {k : κ} {x : α} {xs : List α} (hd : Distinct key xs) :
    get key k xs = some x ↔ x ∈ xs ∧ key x = k :=
  ⟨fun h => ⟨mem_of_get h, key_of_get h⟩, fun ⟨hx, hk⟩ => hk ▸ get_of_mem hd hx⟩

theorem eq_of_key_eq {x y : α} {xs : List α} (hd : Distinct key xs) (hx : x ∈ xs) (hy : y ∈ xs)
    (h : key x = key y) : x = y := by
  have hx' := get_of_mem hd hx
  rw [h, get_of_mem hd hy] at hx'
  exact (Option.some.inj hx').symm

omit [DecidableEq κ] in
theorem Distinct.filter {xs : List α} (hd : Distinct key xs) (p : α → Bool) :
    Distinct key (xs.filter p) :=
  (List.filter_sublist.map key).nodup hd

omit [DecidableEq κ] in
theorem Distinct.perm {xs ys : List α} (hd : Distinct key xs) (h : xs.Perm ys) : Distinct key ys :=
  (h.map key).nodup_iff.mp hd

theorem get_perm {xs ys : List α} (hd : Distinct key xs) (h : xs.Perm ys) (k : κ) :
    get key k xs = get key k ys := by
  apply Option.ext
  intro x
  rw [get_eq_some_iff hd, get_eq_some_iff (hd.perm h), h.mem_iff]

/-- Two tables that answer alike hold the same elements. -/
theorem perm_of_get_eq {xs ys : List α} (hx : Distinct key xs) (hy : Distinct key ys)
    (h : ∀ k, get key k xs = get key k ys) : xs.Perm ys := by
  refine (List.perm_ext_iff_of_nodup (List.Nodup.of_map key hx) (List.Nodup.of_map key hy)).mpr ?_
  intro x
  have hmem : ∀ {zs : List α}, Distinct key zs → (x ∈ zs ↔ get key (key x) zs = some x) := fun hz => by
    rw [get_eq_some_iff hz]
    simp
  rw [hmem hx, hmem hy, h]

theorem get_filter {xs : List α} (hd : Distinct key xs) (p : α → Bool) (k : κ) :
    get key k (xs.filter p) = (get key k xs).filter p := by
  apply Option.ext
  intro x
  rw [get_eq_some_iff (hd.filter p), Option.filter_eq_some_iff, get_eq_some_iff hd, List.mem_filter]
  tauto

theorem get_remove (k k' : κ) (xs : List α) :
    get key k' (remove key k xs) = if k' = k then none else get key k' xs := by
  induction xs with
  | nil => simp [remove]
  | cons x xs ih =>
    simp only [remove, List.filter_cons] at ih ⊢
    by_cases hx : key x = k
    · simp only [hx, ne_eq, not_true_eq_false, decide_false, Bool.false_eq_true, if_false, ih, get_cons]
      split
      · rfl
      · rename_i h
        rw [if_neg (Ne.symm h)]
    · simp only [ne_eq, hx, not_false_eq_true, decide_true, if_true, get_cons, ih]
      by_cases hk : k' = k
      · subst hk
        simp [hx]
      · simp [hk]

/-! ## Putting -/

theorem get_put (x : α) (k : κ) (xs : List α) :
    get key k (put key x xs) = if k = key x then some x else get key k xs := by
  induction xs with
  | nil => simp [put, get_cons, eq_comm]
  | cons y ys ih =>
    simp only [put]
    by_cases hy : key y = key x
    · rw [if_pos hy, get_cons, get_cons, hy]
      by_cases hk : k = key x
      · simp [hk]
      · simp [hk, Ne.symm hk]
    · rw [if_neg hy, get_cons, get_cons, ih]
      by_cases hk : k = key x
      · subst hk
        simp [hy]
      · simp [hk]

theorem mem_put {x y : α} {xs : List α} (h : y ∈ put key x xs) : y = x ∨ y ∈ xs := by
  induction xs with
  | nil => exact .inl (by simpa [put] using h)
  | cons z zs ih =>
    simp only [put] at h
    split at h
    · rcases List.mem_cons.mp h with h | h
      · exact .inl h
      · exact .inr (List.mem_cons_of_mem _ h)
    · rcases List.mem_cons.mp h with h | h
      · exact .inr (h ▸ List.mem_cons_self)
      · exact (ih h).imp id (List.mem_cons_of_mem _)

theorem Distinct.put {xs : List α} (hd : Distinct key xs) (x : α) : Distinct key (put key x xs) := by
  induction xs with
  | nil => simp [Keyed.put, Distinct]
  | cons y ys ih =>
    obtain ⟨hy, hd⟩ := distinct_cons.mp hd
    simp only [Keyed.put]
    split
    · rename_i h
      exact distinct_cons.mpr ⟨fun z hz => h ▸ hy z hz, hd⟩
    · rename_i h
      refine distinct_cons.mpr ⟨fun z hz => ?_, ih hd⟩
      rcases mem_put hz with rfl | hz
      · exact Ne.symm h
      · exact hy z hz

theorem put_of_get_none {x : α} {xs : List α} (h : get key (key x) xs = none) :
    put key x xs = xs ++ [x] := by
  induction xs with
  | nil => rfl
  | cons y ys ih =>
    rw [get_cons] at h
    split at h
    · cases h
    · rename_i hy
      simp [put, hy, ih h]

/-! ## Logs -/

variable (key)

/-- What a log says about a key: the last element with it. -/
def latest (xs : List α) (k : κ) : Option α := get key k xs.reverse

variable {key}

@[simp] theorem latest_nil (k : κ) : latest key [] k = none := rfl

theorem latest_append (xs ys : List α) (k : κ) :
    latest key (xs ++ ys) k = (latest key ys k).or (latest key xs k) := by
  rw [latest, List.reverse_append, get_append, latest, latest]

theorem latest_concat (xs : List α) (x : α) (k : κ) :
    latest key (xs ++ [x]) k = if key x = k then some x else latest key xs k := by
  rw [latest_append, latest, List.reverse_singleton, get_cons, get_nil]
  split <;> rfl

theorem mem_of_latest {k : κ} {x : α} {xs : List α} (h : latest key xs k = some x) : x ∈ xs :=
  List.mem_reverse.mp (mem_of_get h)

theorem latest_eq_none {k : κ} {xs : List α} : latest key xs k = none ↔ ∀ x ∈ xs, key x ≠ k := by
  simp [latest, get_eq_none]

/-- A list with distinct keys, read as a log, says what it holds. -/
theorem latest_of_distinct {xs : List α} (hd : Distinct key xs) (k : κ) :
    latest key xs k = get key k xs :=
  (get_perm hd (List.reverse_perm xs).symm k).symm

/-! ## Reading a log into a table -/

variable (key) [LinearOrder κ]

/-- `put` into a table ordered by key. -/
def putSorted (x : α) : List α → List α
  | [] => [x]
  | y :: ys =>
    if key x < key y then x :: y :: ys else if key y = key x then x :: ys else y :: putSorted x ys

/-- Every element of a log in order, later ones superseding earlier ones. -/
def collapse (xs : List α) : List α := xs.foldl (fun t x => putSorted key x t) []

variable {key}

/-- Ordered by key, strictly. -/
def Ordered (key : α → κ) (xs : List α) : Prop := xs.Pairwise fun x y => key x < key y

omit [DecidableEq κ] in
theorem Ordered.distinct {xs : List α} (h : Ordered key xs) : Distinct key xs := by
  rw [Distinct, List.Nodup, List.pairwise_map]
  exact h.imp fun h => h.ne

theorem mem_putSorted {x y : α} {xs : List α} (h : y ∈ putSorted key x xs) : y = x ∨ y ∈ xs := by
  induction xs with
  | nil => exact .inl (by simpa [putSorted] using h)
  | cons z zs ih =>
    simp only [putSorted] at h
    split at h
    · exact List.mem_cons.mp h
    split at h
    · rcases List.mem_cons.mp h with h | h
      · exact .inl h
      · exact .inr (List.mem_cons_of_mem _ h)
    · rcases List.mem_cons.mp h with h | h
      · exact .inr (h ▸ List.mem_cons_self)
      · exact (ih h).imp id (List.mem_cons_of_mem _)

theorem Ordered.putSorted {xs : List α} (h : Ordered key xs) (x : α) :
    Ordered key (putSorted key x xs) := by
  induction xs with
  | nil => simp [Keyed.putSorted, Ordered]
  | cons y ys ih =>
    obtain ⟨hy, hs⟩ := List.pairwise_cons.mp h
    simp only [Keyed.putSorted]
    split
    · rename_i hlt
      refine List.pairwise_cons.mpr ⟨fun z hz => ?_, h⟩
      rcases List.mem_cons.mp hz with rfl | hz
      · exact hlt
      · exact hlt.trans (hy z hz)
    split
    · rename_i heq
      exact List.pairwise_cons.mpr ⟨fun z hz => heq ▸ hy z hz, hs⟩
    · rename_i hlt hne
      refine List.pairwise_cons.mpr ⟨fun z hz => ?_, ih hs⟩
      rcases mem_putSorted hz with rfl | hz
      · exact lt_of_le_of_ne (not_lt.mp hlt) hne
      · exact hy z hz

theorem get_putSorted (x : α) (k : κ) {xs : List α} (h : Ordered key xs) :
    get key k (putSorted key x xs) = if k = key x then some x else get key k xs := by
  induction xs with
  | nil => simp [putSorted, get_cons, eq_comm]
  | cons y ys ih =>
    obtain ⟨hy, hs⟩ := List.pairwise_cons.mp h
    simp only [putSorted]
    split
    · rw [get_cons]
      simp only [eq_comm]
    split
    · rename_i heq
      rw [get_cons, get_cons, heq]
      by_cases hk : k = key x
      · simp [hk]
      · simp [hk, Ne.symm hk]
    · rename_i hne
      rw [get_cons, get_cons, ih hs]
      by_cases hk : k = key x
      · subst hk
        simp [hne]
      · simp [hk]

theorem ordered_foldl (xs : List α) {t : List α} (h : Ordered key t) :
    Ordered key (xs.foldl (fun t x => putSorted key x t) t) := by
  induction xs generalizing t with
  | nil => exact h
  | cons x xs ih => exact ih (h.putSorted x)

theorem ordered_collapse (xs : List α) : Ordered key (collapse key xs) :=
  ordered_foldl xs List.Pairwise.nil

/-- The table read from a log holds what the log says about each key. -/
theorem get_collapse (xs : List α) (k : κ) : get key k (collapse key xs) = latest key xs k := by
  induction xs using List.reverseRecOn with
  | nil => rfl
  | append_singleton xs x ih =>
    rw [collapse, List.foldl_concat, ← collapse, get_putSorted x k (ordered_collapse xs), ih,
      latest_concat]
    simp only [eq_comm]

theorem mem_collapse {x : α} {xs : List α} : x ∈ collapse key xs ↔ latest key xs (key x) = some x := by
  rw [← get_collapse, get_eq_some_iff (ordered_collapse xs).distinct]
  simp

/-! ## Sorting a table by another field -/

/-- By `f`, and by key where `f` agrees. -/
def Older (key : α → κ) (f : α → Nat) (x y : α) : Prop := f x < f y ∨ f x = f y ∧ key x < key y

omit [DecidableEq κ] in
theorem Older.trans {f : α → Nat} {x y z : α} (h : Older key f x y) (h' : Older key f y z) :
    Older key f x z := by
  rcases h with h | ⟨h, hk⟩ <;> rcases h' with h' | ⟨h', hk'⟩
  · exact .inl (h.trans h')
  · exact .inl (h' ▸ h)
  · exact .inl (h ▸ h')
  · exact .inr ⟨h.trans h', hk.trans hk'⟩

omit [DecidableEq κ] in
theorem Older.irrefl {f : α → Nat} {x : α} : ¬ Older key f x x := by
  rintro (h | ⟨-, h⟩)
  · exact lt_irrefl _ h
  · exact lt_irrefl _ h

omit [DecidableEq κ] in
theorem pairwise_orderedInsert {f : α → Nat} {x : α} {xs : List α} (h : xs.Pairwise (Older key f))
    (hx : ∀ y ∈ xs, key x < key y) :
    (xs.orderedInsert (fun a b => f a ≤ f b) x).Pairwise (Older key f) := by
  induction xs with
  | nil => simp
  | cons y ys ih =>
    obtain ⟨hy, hs⟩ := List.pairwise_cons.mp h
    have hlt := hx y List.mem_cons_self
    rw [List.orderedInsert_cons]
    split
    · rename_i hle
      have hxy : Older key f x y := hle.lt_or_eq.imp id fun h => ⟨h, hlt⟩
      refine List.pairwise_cons.mpr ⟨fun z hz => ?_, h⟩
      rcases List.mem_cons.mp hz with rfl | hz
      · exact hxy
      · exact hxy.trans (hy z hz)
    · rename_i hle
      refine List.pairwise_cons.mpr ⟨fun z hz => ?_, ih hs fun z hz => hx z (List.mem_cons_of_mem _ hz)⟩
      rcases List.mem_orderedInsert _ |>.mp hz with rfl | hz
      · exact .inl (not_le.mp hle)
      · exact hy z hz

omit [DecidableEq κ] in
/-- A stable sort of a table ordered by key leaves elements that the sort does
not tell apart in the order of their keys. -/
theorem pairwise_insertionSort {xs : List α} (h : Ordered key xs) (f : α → Nat) :
    (xs.insertionSort fun a b => f a ≤ f b).Pairwise (Older key f) := by
  induction xs with
  | nil => simp
  | cons x xs ih =>
    obtain ⟨hx, hs⟩ := List.pairwise_cons.mp h
    rw [List.insertionSort_cons]
    exact pairwise_orderedInsert (ih hs) fun y hy => hx y ((List.mem_insertionSort _).mp hy)

omit [DecidableEq κ] in
/-- What is older than everything else comes first. -/
theorem eq_cons_of_older {f : α → Nat} {x : α} {xs : List α} (h : xs.Pairwise (Older key f)) (hx : x ∈ xs)
    (hmin : ∀ y ∈ xs, y ≠ x → f x < f y) : ∃ ys, xs = x :: ys := by
  obtain ⟨as, ys, rfl⟩ := List.append_of_mem hx
  cases as with
  | nil => exact ⟨ys, rfl⟩
  | cons a as =>
    have hax : Older key f a x := (List.pairwise_append.mp h).2.2 a List.mem_cons_self x List.mem_cons_self
    have hlt := hmin a (by simp) (by rintro rfl; exact Older.irrefl hax)
    rcases hax with hax | ⟨hax, -⟩ <;> omega

omit [DecidableEq κ] in
/-- What is younger than everything else comes last. -/
theorem eq_concat_of_younger {f : α → Nat} {x : α} {xs : List α} (h : xs.Pairwise (Older key f))
    (hx : x ∈ xs) (hmax : ∀ y ∈ xs, y ≠ x → f y < f x) : ∃ ys, xs = ys ++ [x] := by
  obtain ⟨ys, bs, rfl⟩ := List.append_of_mem hx
  cases bs with
  | nil => exact ⟨ys, rfl⟩
  | cons b bs =>
    have hxb : Older key f x b :=
      (List.pairwise_cons.mp (List.pairwise_append.mp h).2.1).1 b List.mem_cons_self
    have hlt := hmax b (by simp) (by rintro rfl; exact Older.irrefl hxb)
    rcases hxb with hxb | ⟨hxb, -⟩ <;> omega

omit [DecidableEq κ] in
/-- Two lists of the same elements, both sorted so, are equal. -/
theorem eq_of_pairwise_older {f : α → Nat} {xs ys : List α} (hx : xs.Pairwise (Older key f))
    (hy : ys.Pairwise (Older key f)) (h : ∀ a, a ∈ xs ↔ a ∈ ys) : xs = ys := by
  have hnodup : ∀ {zs : List α}, zs.Pairwise (Older key f) → zs.Nodup := fun hz =>
    hz.imp fun h => by rintro rfl; exact Older.irrefl h
  have hperm : xs.Perm ys := (List.perm_ext_iff_of_nodup (hnodup hx) (hnodup hy)).mpr h
  exact hperm.eq_of_pairwise (fun a b _ _ hab hba => absurd (hab.trans hba) Older.irrefl) hx hy

end Keyed
