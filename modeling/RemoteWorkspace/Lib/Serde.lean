import Mathlib.Algebra.Group.Int.Defs
import Mathlib.Algebra.Group.Nat.Defs
import Mathlib.Data.List.Basic
import Mathlib.Data.List.Nodup
import Mathlib.Tactic.Common

/-!
# Derived encodings

What a derived encoder makes of a value, and how a derived decoder reads it:
structs whose fields are found by name, fields that are skipped or have a
default, enums that are told apart by a tag among the fields or by what decodes
first, one struct's fields flattened into another's. A format carries the proof
that what it writes reads back, and that no object repeats a key. Reading looks
only at the format's own keys, so formats with other keys can share an object.
-/

namespace Serde

/-- A decoded text, with the entries of an object as they come. -/
inductive Content
  | unit
  | bool (b : Bool)
  | int (n : Int)
  | str (s : String)
  | seq (cs : List Content)
  | map (es : List (String × Content))

abbrev Entries := List (String × Content)

/-- No object inside repeats a key. -/
inductive Content.Clean : Content → Prop
  | unit : Clean .unit
  | bool (b : Bool) : Clean (.bool b)
  | int (n : Int) : Clean (.int n)
  | str (s : String) : Clean (.str s)
  | seq (cs : List Content) : (∀ c ∈ cs, Clean c) → Clean (.seq cs)
  | map (es : Entries) : (es.map Prod.fst).Nodup → (∀ e ∈ es, Clean e.2) → Clean (.map es)

/-- A value's encoding, never null. `InRange` says that its integers fit their
types. -/
structure Codec (α : Type) where
  ser : α → Content
  de : Content → Option α
  InRange : α → Prop
  ser_ne_unit : ∀ a, ser a ≠ .unit
  clean : ∀ a, (ser a).Clean
  de_ser : ∀ a, InRange a → de (ser a) = some a

/-- The entries of an object that stand for a value. -/
structure Fields (α : Type) where
  keys : List String
  ser : α → Entries
  de : Entries → Option α
  InRange : α → Prop
  mem_keys : ∀ a, ∀ e ∈ ser a, e.1 ∈ keys
  nodup : ∀ a, ((ser a).map Prod.fst).Nodup
  clean : ∀ a, ∀ e ∈ ser a, e.2.Clean
  de_of_filter : ∀ a es, InRange a → es.filter (fun e => e.1 ∈ keys) = ser a → de es = some a

variable {α β : Type}

/-! ## Values -/

def string : Codec String where
  ser := .str
  de
    | .str s => some s
    | _ => none
  InRange _ := True
  ser_ne_unit _ := nofun
  clean := .str
  de_ser _ _ := rfl

def bool : Codec Bool where
  ser := .bool
  de
    | .bool b => some b
    | _ => none
  InRange _ := True
  ser_ne_unit _ := nofun
  clean := .bool
  de_ser _ _ := rfl

/-- The unsigned integers of `width` bits. -/
def unsigned (width : Nat) : Codec Nat where
  ser n := .int n
  de
    | .int n => if 0 ≤ n ∧ n < 2 ^ width then some n.toNat else none
    | _ => none
  InRange n := n < 2 ^ width
  ser_ne_unit _ := nofun
  clean _ := .int _
  de_ser n hn := by
    have hfits : (0 : Int) ≤ n ∧ (n : Int) < 2 ^ width := ⟨by omega, by exact_mod_cast hn⟩
    simp only [if_pos hfits, Int.toNat_natCast]

/-- The signed integers of `width + 1` bits. -/
def signed (width : Nat) : Codec Int where
  ser := .int
  de
    | .int n => if -2 ^ width ≤ n ∧ n < 2 ^ width then some n else none
    | _ => none
  InRange n := -2 ^ width ≤ n ∧ n < 2 ^ width
  ser_ne_unit _ := nofun
  clean := .int
  de_ser _ hn := if_pos hn

/-- The elements of a list, all or none. -/
def readAll (de : Content → Option α) : List Content → Option (List α)
  | [] => some []
  | c :: cs => (de c).bind fun a => (readAll de cs).map (a :: ·)

theorem readAll_map (C : Codec α) (as : List α) (h : ∀ a ∈ as, C.InRange a) :
    readAll C.de (as.map C.ser) = some as := by
  induction as with
  | nil => rfl
  | cons a as ih =>
    rw [List.map_cons, readAll, C.de_ser a (h a (by simp)), ih fun b hb => h b (by simp [hb])]
    rfl

def list (C : Codec α) : Codec (List α) where
  ser as := .seq (as.map C.ser)
  de
    | .seq cs => readAll C.de cs
    | _ => none
  InRange as := ∀ a ∈ as, C.InRange a
  ser_ne_unit _ := nofun
  clean as := .seq _ fun c hc => by
    obtain ⟨a, -, rfl⟩ := List.mem_map.mp hc
    exact C.clean a
  de_ser as h := readAll_map C as h

/-- An enum of units, each written as its name. -/
def enumeration (name : α → String) (all : List α)
    (h : ∀ a, all.find? (fun b => name b = name a) = some a := by intro a; cases a <;> rfl) : Codec α where
  ser a := .str (name a)
  de
    | .str s => all.find? fun b => name b = s
    | _ => none
  InRange _ := True
  ser_ne_unit _ := nofun
  clean _ := .str _
  de_ser a _ := h a

def object (F : Fields α) : Codec α where
  ser a := .map (F.ser a)
  de
    | .map es => F.de es
    | _ => none
  InRange := F.InRange
  ser_ne_unit _ := nofun
  clean a := .map _ (F.nodup a) (F.clean a)
  de_ser a h := F.de_of_filter a _ h (List.filter_eq_self.mpr fun e he => by simpa using F.mem_keys a e he)

/-! ## Fields -/

/-- The value at a key: `missing` where there is none, and nothing where there
are two. -/
def valueAt (k : String) (missing : Option α) (read : Content → Option α) (es : Entries) : Option α :=
  match es.filter fun e => e.1 = k with
  | [] => missing
  | [e] => read e.2
  | _ => none

theorem valueAt_of_not_mem {k : String} {missing : Option α} {read : Content → Option α} {es : Entries}
    (h : ∀ e ∈ es, e.1 ≠ k) : valueAt k missing read es = missing := by
  rw [valueAt, List.filter_eq_nil_iff.mpr fun e he => by simpa using h e he]

/-- One field. `present` gives what is written, if it is written. -/
def field (k : String) (present : α → Option Content) (missing : Option α) (read : Content → Option α)
    (InRange : α → Prop) (hclean : ∀ a c, present a = some c → c.Clean)
    (hmissing : ∀ a, present a = none → missing = some a)
    (hread : ∀ a c, InRange a → present a = some c → read c = some a) : Fields α where
  keys := [k]
  ser a := ((present a).map (k, ·)).toList
  de := valueAt k missing read
  InRange := InRange
  mem_keys a e he := by
    obtain ⟨c, -, rfl⟩ := Option.map_eq_some_iff.mp (Option.mem_toList.mp he)
    exact List.mem_singleton_self k
  nodup a := by cases present a <;> simp
  clean a e he := by
    obtain ⟨c, hc, rfl⟩ := Option.map_eq_some_iff.mp (Option.mem_toList.mp he)
    exact hclean a c hc
  de_of_filter a es h hes := by
    simp only [List.mem_singleton] at hes
    rw [valueAt, hes]
    cases hc : present a with
    | none => exact hmissing a hc
    | some c => exact hread a c h hc

def required (k : String) (C : Codec α) : Fields α :=
  field k (fun a => some (C.ser a)) none C.de C.InRange (fun a _ h => Option.some.inj h ▸ C.clean a) nofun
    fun a _ hr h => Option.some.inj h ▸ C.de_ser a hr

/-- A field that is always written and may be missing. -/
def withDefault (k : String) (C : Codec α) (d : α) : Fields α :=
  field k (fun a => some (C.ser a)) (some d) C.de C.InRange (fun a _ h => Option.some.inj h ▸ C.clean a) nofun
    fun a _ hr h => Option.some.inj h ▸ C.de_ser a hr

/-- Null reads as nothing. -/
def readOption (C : Codec α) : Content → Option (Option α)
  | .unit => some none
  | c => (C.de c).map some

theorem readOption_ser (C : Codec α) {a : α} (h : C.InRange a) : readOption C (C.ser a) = some (some a) := by
  rw [readOption, C.de_ser a h, Option.map_some]
  exact C.ser_ne_unit a

/-- An `Option` that is written as null where it is empty. -/
def optional (k : String) (C : Codec α) : Fields (Option α) :=
  field k (fun a => some ((a.map C.ser).getD .unit)) (some none) (readOption C) (fun a => ∀ x ∈ a, C.InRange x)
    (fun a c h => by
      cases a with
      | none => exact Option.some.inj h ▸ .unit
      | some a => exact Option.some.inj h ▸ C.clean a)
    nofun
    fun a c hr h => by
      cases a with
      | none => exact Option.some.inj h ▸ rfl
      | some a => exact Option.some.inj h ▸ readOption_ser C (hr a rfl)

/-- An `Option` that is left out where it is empty. -/
def skipped (k : String) (C : Codec α) : Fields (Option α) :=
  field k (fun a => a.map C.ser) (some none) (readOption C) (fun a => ∀ x ∈ a, C.InRange x)
    (fun a c h => by
      obtain ⟨a, -, rfl⟩ := Option.map_eq_some_iff.mp h
      exact C.clean a)
    (fun a h => by rw [Option.map_eq_none_iff.mp h])
    fun a c hr h => by
      obtain ⟨a, rfl, rfl⟩ := Option.map_eq_some_iff.mp h
      exact readOption_ser C (hr a rfl)

/-! ## Structs -/

theorem filter_filter_keys {ks ks' : List String} (h : ∀ k ∈ ks', k ∈ ks) (es : Entries) :
    (es.filter fun e => e.1 ∈ ks).filter (fun e => e.1 ∈ ks') = es.filter fun e => e.1 ∈ ks' := by
  rw [List.filter_filter]
  refine List.filter_congr fun e _ => ?_
  by_cases he : e.1 ∈ ks'
  · simp [he, h _ he]
  · simp [he]

namespace Fields

theorem filter_ser (F : Fields α) (a : α) : (F.ser a).filter (fun e => e.1 ∈ F.keys) = F.ser a :=
  List.filter_eq_self.mpr fun e he => by simpa using F.mem_keys a e he

theorem filter_ser_of_disjoint (F : Fields α) (a : α) {ks : List String} (h : ∀ k ∈ F.keys, k ∉ ks) :
    (F.ser a).filter (fun e => e.1 ∈ ks) = [] :=
  List.filter_eq_nil_iff.mpr fun e he => by simpa using h _ (F.mem_keys a e he)

def empty : Fields Unit where
  keys := []
  ser _ := []
  de _ := some ()
  InRange _ := True
  mem_keys _ _ h := absurd h List.not_mem_nil
  nodup _ := List.nodup_nil
  clean _ _ h := absurd h List.not_mem_nil
  de_of_filter _ _ _ _ := rfl

/-- Each of two structs finds its own entries among those of both. -/
theorem filter_of_append {F : Fields α} {G : Fields β} (h : ∀ k ∈ F.keys, k ∉ G.keys) {a : α} {b : β} {es : Entries}
    (hes : es.filter (fun e => e.1 ∈ F.keys ++ G.keys) = F.ser a ++ G.ser b) :
    es.filter (fun e => e.1 ∈ F.keys) = F.ser a ∧ es.filter (fun e => e.1 ∈ G.keys) = G.ser b := by
  constructor
  · rw [← filter_filter_keys (fun k hk => List.mem_append_left G.keys hk), hes, List.filter_append, F.filter_ser,
      G.filter_ser_of_disjoint _ fun k hk hk' => h k hk' hk, List.append_nil]
  · rw [← filter_filter_keys (fun k hk => List.mem_append_right F.keys hk), hes, List.filter_append,
      F.filter_ser_of_disjoint _ h, G.filter_ser, List.nil_append]

theorem mem_keys_append (F : Fields α) (G : Fields β) (a : α) (b : β) :
    ∀ e ∈ F.ser a ++ G.ser b, e.1 ∈ F.keys ++ G.keys := fun e he =>
  (List.mem_append.mp he).elim (fun he => List.mem_append_left _ (F.mem_keys a e he))
    fun he => List.mem_append_right _ (G.mem_keys b e he)

theorem nodup_append {F : Fields α} {G : Fields β} (h : ∀ k ∈ F.keys, k ∉ G.keys) (a : α) (b : β) :
    ((F.ser a ++ G.ser b).map Prod.fst).Nodup := by
  rw [List.map_append]
  refine (F.nodup a).append (G.nodup b) fun k hk hk' => ?_
  obtain ⟨e, he, rfl⟩ := List.mem_map.mp hk
  obtain ⟨e', he', heq⟩ := List.mem_map.mp hk'
  exact h _ (F.mem_keys a e he) (heq ▸ G.mem_keys b e' he')

/-- A struct's first fields and the others. -/
def both (F : Fields α) (G : Fields β) (h : ∀ k ∈ F.keys, k ∉ G.keys := by decide) : Fields (α × β) where
  keys := F.keys ++ G.keys
  ser p := F.ser p.1 ++ G.ser p.2
  de es := (F.de es).bind fun a => (G.de es).map (a, ·)
  InRange p := F.InRange p.1 ∧ G.InRange p.2
  mem_keys p := mem_keys_append F G p.1 p.2
  nodup p := nodup_append h p.1 p.2
  clean p e he := (List.mem_append.mp he).elim (F.clean _ e) (G.clean _ e)
  de_of_filter p es hp hes := by
    obtain ⟨hF, hG⟩ := filter_of_append h hes
    rw [F.de_of_filter _ es hp.1 hF, Option.bind_some, G.de_of_filter _ es hp.2 hG, Option.map_some]

/-- A struct's own fields and another struct's flattened among them, which is
read from what its own fields leave over. -/
def flatten (F : Fields α) (G : Fields β) (h : ∀ k ∈ F.keys, k ∉ G.keys := by decide) : Fields (α × β) where
  keys := F.keys ++ G.keys
  ser p := F.ser p.1 ++ G.ser p.2
  de es := (F.de es).bind fun a => (G.de (es.filter fun e => e.1 ∉ F.keys)).map (a, ·)
  InRange p := F.InRange p.1 ∧ G.InRange p.2
  mem_keys p := mem_keys_append F G p.1 p.2
  nodup p := nodup_append h p.1 p.2
  clean p e he := (List.mem_append.mp he).elim (F.clean _ e) (G.clean _ e)
  de_of_filter p es hp hes := by
    obtain ⟨hF, hG⟩ := filter_of_append h hes
    have hrest : (es.filter fun e => e.1 ∉ F.keys).filter (fun e => e.1 ∈ G.keys) = G.ser p.2 := by
      rw [← hG, List.filter_filter]
      refine List.filter_congr fun e _ => ?_
      by_cases he : e.1 ∈ G.keys
      · have hnot : e.1 ∉ F.keys := fun hk => h _ hk he
        simp [he, hnot]
      · simp [he]
    rw [F.de_of_filter _ es hp.1 hF, Option.bind_some, G.de_of_filter _ _ hp.2 hrest, Option.map_some]

/-- Fields that stand for a value of another type. -/
def as (F : Fields α) (mk : α → β) (of : β → α) (h : ∀ b, mk (of b) = b := by intro b; rfl) : Fields β where
  keys := F.keys
  ser b := F.ser (of b)
  de es := (F.de es).map mk
  InRange b := F.InRange (of b)
  mem_keys b := F.mem_keys (of b)
  nodup b := F.nodup (of b)
  clean b := F.clean (of b)
  de_of_filter b es hb hes := by rw [F.de_of_filter (of b) es hb hes, Option.map_some, h]

/-! ## Keys that have to be there -/

/-- Entries without the key do not read. -/
def Needs (F : Fields α) (k : String) : Prop := ∀ es : Entries, (∀ e ∈ es, e.1 ≠ k) → F.de es = none

theorem needs_required (k : String) (C : Codec α) : (required k C).Needs k := fun _ h => valueAt_of_not_mem h

theorem Needs.both_left {F : Fields α} {k : String} (hF : F.Needs k) (G : Fields β) (h : ∀ k ∈ F.keys, k ∉ G.keys) :
    (F.both G h).Needs k := fun es hes => by
  simp [both, hF es hes]

theorem Needs.flatten_right {G : Fields β} {k : String} (hG : G.Needs k) (F : Fields α)
    (h : ∀ k ∈ F.keys, k ∉ G.keys) : (F.flatten G h).Needs k := fun es hes => by
  simp [flatten, hG _ fun e he => hes e (List.mem_filter.mp he).1]

theorem Needs.as {F : Fields α} {k : String} (hF : F.Needs k) (mk : α → β) (of : β → α) (h : ∀ b, mk (of b) = b) :
    (F.as mk of h).Needs k := fun es hes => by
  simp [Fields.as, hF es hes]

/-- What lacks a key that another struct needs does not read as that struct. -/
theorem Needs.not_read {F : Fields α} {k : String} (hF : F.Needs k) (G : Fields β) (hk : k ∉ G.keys) (b : β) :
    F.de (G.ser b) = none :=
  hF _ fun e he heq => hk (heq ▸ G.mem_keys b e he)

/-- What reads as the first, or else as the second; the first needs a key that
the second does not have. -/
def orElse (F : Fields α) (G : Fields β) (k : String) (hF : F.Needs k) (hmem : k ∈ F.keys := by decide)
    (hnot : k ∉ G.keys := by decide) : Fields (α ⊕ β) where
  keys := F.keys ++ G.keys
  ser := Sum.elim F.ser G.ser
  de es := ((F.de es).map Sum.inl).or ((G.de es).map Sum.inr)
  InRange := Sum.elim F.InRange G.InRange
  mem_keys
    | .inl a, e, he => List.mem_append_left _ (F.mem_keys a e he)
    | .inr b, e, he => List.mem_append_right _ (G.mem_keys b e he)
  nodup
    | .inl a => F.nodup a
    | .inr b => G.nodup b
  clean
    | .inl a => F.clean a
    | .inr b => G.clean b
  de_of_filter
    | .inl a, es, ha, hes => by
      have hes' : es.filter (fun e => e.1 ∈ F.keys) = F.ser a := by
        rw [← filter_filter_keys (fun k hk => List.mem_append_left G.keys hk), hes]
        exact F.filter_ser a
      rw [F.de_of_filter a es ha hes']
      rfl
    | .inr b, es, hb, hes => by
      have hes' : es.filter (fun e => e.1 ∈ G.keys) = G.ser b := by
        rw [← filter_filter_keys (fun k hk => List.mem_append_right F.keys hk), hes]
        exact G.filter_ser b
      have hnone : F.de es = none := hF es fun e he heq => by
        have hmem' : e ∈ es.filter fun e => e.1 ∈ F.keys ++ G.keys :=
          List.mem_filter.mpr ⟨he, by simp [heq, hmem]⟩
        rw [hes] at hmem'
        exact hnot (heq ▸ G.mem_keys b e hmem')
      rw [hnone, G.de_of_filter b es hb hes']
      rfl

end Fields

/-! ## Tagged enums -/

/-- One variant of an enum. -/
structure Variant (β : Type) where
  name : String
  α : Type
  fields : Fields α
  build : α → β
  parts : β → Option α
  build_parts : ∀ b a, parts b = some a → build a = b

def variant (name : String) (F : Fields α) (build : α → β) (parts : β → Option α)
    (h : ∀ b a, parts b = some a → build a = b := by intro b a h; cases b <;> cases h; rfl) : Variant β where
  name := name
  α := α
  fields := F
  build := build
  parts := parts
  build_parts := h

/-- The name of a value's variant, and its fields. -/
def variantOf (vs : List (Variant β)) (b : β) : Option (String × Entries) :=
  vs.findSome? fun v => (v.parts b).map fun a => (v.name, v.fields.ser a)

theorem variantOf_eq {vs : List (Variant β)} (hcover : ∀ b, (vs.any fun v => (v.parts b).isSome) = true) (b : β) :
    ∃ v ∈ vs, ∃ a, v.parts b = some a ∧ variantOf vs b = some (v.name, v.fields.ser a) := by
  obtain ⟨v, hv, hsome⟩ := List.any_eq_true.mp (hcover b)
  obtain ⟨p, hp⟩ : ∃ p, variantOf vs b = some p := by
    refine Option.isSome_iff_exists.mp (List.findSome?_isSome_iff.mpr ⟨v, hv, ?_⟩)
    rwa [Option.isSome_map]
  obtain ⟨v, hv, heq⟩ := List.exists_of_findSome?_eq_some hp
  obtain ⟨a, ha, rfl⟩ := Option.map_eq_some_iff.mp heq
  exact ⟨v, hv, a, ha, hp⟩

theorem find?_name {vs : List (Variant β)} (hnames : (vs.map Variant.name).Nodup) {v : Variant β} (hv : v ∈ vs) :
    vs.find? (fun w => w.name = v.name) = some v := by
  induction vs with
  | nil => cases hv
  | cons w vs ih =>
    rw [List.map_cons, List.nodup_cons] at hnames
    rcases List.mem_cons.mp hv with rfl | hv
    · simp
    · have hne : w.name ≠ v.name := fun heq => hnames.1 (heq ▸ List.mem_map_of_mem hv)
      rw [List.find?_cons_of_neg (by simpa using hne)]
      exact ih hnames.2 hv

/-- A variant's name at the key `tag`, before its fields. -/
def tagged (tag : String) (vs : List (Variant β)) (hnames : (vs.map Variant.name).Nodup := by decide)
    (hcover : ∀ b, (vs.any fun v => (v.parts b).isSome) = true := by intro b; cases b <;> rfl)
    (htag : tag ∉ vs.flatMap fun v => v.fields.keys := by decide) : Fields β where
  keys := tag :: vs.flatMap fun v => v.fields.keys
  ser b := ((variantOf vs b).map fun p => (tag, .str p.1) :: p.2).getD []
  de es :=
    (valueAt tag none string.de es).bind fun name =>
      (vs.find? fun v => v.name = name).bind fun v => (v.fields.de (es.filter fun e => e.1 ≠ tag)).map v.build
  InRange b := ∀ v ∈ vs, ∀ a ∈ v.parts b, v.fields.InRange a
  mem_keys b e he := by
    obtain ⟨v, hv, a, -, heq⟩ := variantOf_eq hcover b
    rw [heq] at he
    rcases List.mem_cons.mp he with rfl | he
    · exact List.mem_cons_self ..
    · exact List.mem_cons_of_mem _ (List.mem_flatMap.mpr ⟨v, hv, v.fields.mem_keys a e he⟩)
  nodup b := by
    obtain ⟨v, hv, a, -, heq⟩ := variantOf_eq hcover b
    rw [heq]
    refine List.nodup_cons.mpr ⟨fun hmem => htag ?_, v.fields.nodup a⟩
    obtain ⟨e, he, hkey⟩ := List.mem_map.mp hmem
    have hkey' : e.1 = tag := hkey
    exact List.mem_flatMap.mpr ⟨v, hv, hkey' ▸ v.fields.mem_keys a e he⟩
  clean b e he := by
    obtain ⟨v, hv, a, -, heq⟩ := variantOf_eq hcover b
    rw [heq] at he
    rcases List.mem_cons.mp he with rfl | he
    · exact .str _
    · exact v.fields.clean a e he
  de_of_filter b es hb hes := by
    obtain ⟨v, hv, a, ha, heq⟩ := variantOf_eq hcover b
    have hkeys : ∀ k ∈ v.fields.keys, k ∈ vs.flatMap fun v => v.fields.keys := fun k hk =>
      List.mem_flatMap.mpr ⟨v, hv, hk⟩
    have hne : ∀ e ∈ v.fields.ser a, e.1 ≠ tag := fun e he hkey => htag (hkey ▸ hkeys _ (v.fields.mem_keys a e he))
    rw [heq] at hes
    have htagged : es.filter (fun e => e.1 = tag) = [(tag, .str v.name)] := by
      have hmem : ∀ k ∈ [tag], k ∈ tag :: vs.flatMap fun v => v.fields.keys := by simp
      have hsplit := filter_filter_keys hmem es
      simp only [List.mem_singleton] at hsplit
      rw [← hsplit, hes, Option.map_some, Option.getD_some, List.filter_cons_of_pos (by simp),
        List.filter_eq_nil_iff.mpr fun e he => by simpa using hne e he]
    have hfields : (es.filter fun e => e.1 ≠ tag).filter (fun e => e.1 ∈ v.fields.keys) = v.fields.ser a := by
      have hswap : (es.filter fun e => e.1 ≠ tag).filter (fun e => e.1 ∈ v.fields.keys) =
          es.filter fun e => e.1 ∈ v.fields.keys := by
        rw [List.filter_filter]
        refine List.filter_congr fun e _ => ?_
        by_cases he : e.1 ∈ v.fields.keys
        · have hne' : e.1 ≠ tag := fun hkey => htag (hkey ▸ hkeys _ he)
          simp [he, hne']
        · simp [he]
      rw [hswap, ← filter_filter_keys (fun k hk => List.mem_cons_of_mem tag (hkeys k hk)), hes, Option.map_some,
        Option.getD_some, List.filter_cons_of_neg (by simpa using fun hk => htag (hkeys _ hk)), v.fields.filter_ser]
    rw [valueAt, htagged, string, Option.bind_some, find?_name hnames hv, Option.bind_some,
      v.fields.de_of_filter a _ (hb v hv a ha) hfields, Option.map_some, v.build_parts b a ha]

theorem needs_tagged (tag : String) (vs : List (Variant β)) (hnames : (vs.map Variant.name).Nodup)
    (hcover : ∀ b, (vs.any fun v => (v.parts b).isSome) = true) (htag : tag ∉ vs.flatMap fun v => v.fields.keys) :
    (tagged tag vs hnames hcover htag).Needs tag := fun es hes => by
  simp [tagged, valueAt_of_not_mem hes]

end Serde
