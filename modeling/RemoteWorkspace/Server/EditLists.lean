import RemoteWorkspace.Lib.Occurrences
import RemoteWorkspace.Server.Confined

/-!
# What a list of edits does

A replacement as a relation between texts (`StepsTo`), in terms of the pieces
that the occurrences of the old text leave, and a list of them one after the
other (`EditsTo`). The computation of `edit` is that relation, its sizes are
exact, and what `edit` installs is what the list makes of the file.
-/

namespace RemoteWorkspace

open FileTree (Node Errno)
open Interleave
open Occurrences

/-! ## The computation cuts at the occurrences -/

section

variable {pat : List Char}

theorem splitText_skip (skip : Nat) (cs : List Char) : splitText pat skip cs = splitText pat 0 (cs.drop skip) := by
  induction cs generalizing skip with
  | nil => cases skip <;> rfl
  | cons c cs ih =>
    cases skip with
    | zero => rfl
    | succ skip => rw [splitText, ih, List.drop_succ_cons]

theorem cut_splitText (hpat : pat ≠ []) (cs : List Char) : CutAt pat cs (splitText pat 0 cs) := by
  -- The rest behind an occurrence is no tail, so the induction is on the length.
  induction hn : cs.length using Nat.strong_induction_on generalizing cs with
  | _ n ih =>
    cases cs with
    | nil => exact .last (by simpa using hpat)
    | cons c cs =>
      rw [splitText]
      split
      · next hprefix =>
        obtain ⟨after, heq⟩ := List.isPrefixOf_iff_prefix.mp hprefix
        have hlen := congrArg List.length heq
        have hpos := List.length_pos_of_ne_nil hpat
        simp only [List.length_append, List.length_cons] at hlen hn
        have hrest : cs.drop (pat.length - 1) = after := by
          have := congrArg (List.drop pat.length) heq
          rw [List.drop_left] at this
          rw [this, show pat.length = pat.length - 1 + 1 by omega, List.drop_succ_cons]
          simp
        rw [splitText_skip, hrest, ← heq]
        exact (ih after.length (by omega) after rfl).here
      · next hno =>
        have htail := ih cs.length (by simp [← hn]) cs rfl
        split
        · next hnil => exact absurd hnil htail.ne_nil
        · next piece pieces hpieces =>
          rw [hpieces] at htail
          exact htail.cons fun h => hno (List.isPrefixOf_iff_prefix.mpr h)

theorem replaceFirst_of_first (hpat : pat ≠ []) {new before after cs : List Char} (h : First pat cs before after) :
    replaceFirst pat new cs = before ++ (new ++ after) := by
  induction before generalizing cs with
  | nil =>
    have heq : cs = pat ++ after := h.1
    cases cs with
    | nil => exact absurd (List.append_eq_nil_iff.mp heq.symm).1 hpat
    | cons c cs =>
      rw [replaceFirst, if_pos (List.isPrefixOf_iff_prefix.mpr ⟨after, heq.symm⟩), heq]
      simp
  | cons b before ih =>
    obtain ⟨rfl, hmin⟩ := h
    have hno : ¬ pat.isPrefixOf (b :: (before ++ (pat ++ after))) = true := by
      intro hprefix
      obtain ⟨a, heq⟩ := List.isPrefixOf_iff_prefix.mp hprefix
      have := hmin [] a heq.symm
      simp at this
    rw [List.cons_append, replaceFirst, if_neg hno, ih ⟨rfl, fun b' a heq => ?_⟩]
    · rfl
    · have := hmin (b :: b') a (congrArg (b :: ·) heq)
      simpa using this

/-- Where the pattern occurs once, the first occurrence is all of them. -/
theorem replaceFirst_of_cut (hpat : pat ≠ []) {new cs : List Char} {pieces : List (List Char)}
    (h : CutAt pat cs pieces) (hlen : pieces.length = 2) : replaceFirst pat new cs = new.intercalate pieces := by
  cases h with
  | last => cases hlen
  | @next _ before after rest hfirst hcut =>
    obtain ⟨last, rfl⟩ := List.length_eq_one_iff.mp (Nat.succ.inj hlen)
    have hjoin : last = after := by simpa using hcut.join
    rw [replaceFirst_of_first hpat hfirst, List.intercalate_cons_of_ne_nil (by simp), hjoin]
    simp

end

/-! ## Steps -/

/-- The edit may be made in a text with these pieces: it has an occurrence, and
only one unless all are replaced. -/
def EditSpec.Fits (e : EditSpec) (pieces : List (List Char)) : Prop :=
  1 < pieces.length ∧ (e.replaceAll = true ∨ pieces.length = 2)

/-- One replacement: all the occurrences, or the only one. -/
def StepsTo (e : EditSpec) (content result : List Char) : Prop :=
  ∃ pieces, CutAt e.oldText.toList content pieces ∧ e.Fits pieces ∧
    result = e.newText.toList.intercalate pieces ∧ textSize result ≤ maxTextBytes

/-- The replacement cannot be made, and why. -/
inductive StepFails (path place : String) (e : EditSpec) (content : List Char) : ProtocolError → Prop
  | noMatch : ¬ e.oldText.toList <:+: content →
      StepFails path place e content (.new .noMatch (place ++ "old_text not found in " ++ path ++
        "; re-read the file and copy the current text exactly"))
  | ambiguous {pieces : List (List Char)} : CutAt e.oldText.toList content pieces → 2 < pieces.length →
      e.replaceAll = false →
      StepFails path place e content (.new .ambiguousMatch (place ++ "old_text occurs " ++
        (pieces.length - 1).repr ++ " times in " ++ path ++
        "; extend it with surrounding context to make it unique, or pass replace_all=true"))
  | tooLarge {pieces : List (List Char)} : CutAt e.oldText.toList content pieces → e.Fits pieces →
      maxTextBytes < textSize (e.newText.toList.intercalate pieces) →
      StepFails path place e content (.new .invalidRequest (place ++ "resulting file would exceed " ++
        maxTextBytes.repr ++ " bytes"))

/-- The replacements one after the other, each in what the one before left. -/
inductive EditsTo : List EditSpec → List Char → List Char → Prop
  | nil (content : List Char) : EditsTo [] content content
  | cons {e : EditSpec} {es : List EditSpec} {content next result : List Char} :
      StepsTo e content next → EditsTo es next result → EditsTo (e :: es) content result

/-- What the argument checks say of an edit. -/
structure EditSpec.Checked (e : EditSpec) : Prop where
  old_ne : e.oldText.toList ≠ []
  old_size : textSize e.oldText.toList ≤ maxTextBytes
  new_size : textSize e.newText.toList ≤ maxTextBytes

theorem forM_ok {α ε : Type} {f : α → Except ε Unit} : ∀ {l : List α}, l.forM f = .ok () → ∀ a ∈ l, f a = .ok ()
  | a :: l, h, b, hb => by
    cases ha : f a with
    | error e => simp [List.forM_cons, ha, bind, Except.bind] at h
    | ok u =>
      rcases List.mem_cons.mp hb with rfl | hb
      · exact ha
      · refine forM_ok (l := l) ?_ b hb
        simpa [List.forM_cons, ha, bind, Except.bind] using h

theorem checked_of_checkEdit {place : String} {e : EditSpec} (h : checkEdit place e = .ok ()) : e.Checked := by
  unfold checkEdit at h
  split at h
  · cases h
  · next hold =>
    split at h
    · cases h
    · split at h
      · cases h
      · next hsize =>
        rw [not_or, not_lt, not_lt] at hsize
        exact ⟨by simpa using hold, hsize.1, hsize.2⟩

theorem checked_of_checkEdits {edits : List EditSpec} (h : checkEdits edits = .ok ()) : ∀ e ∈ edits, e.Checked := by
  intro e he
  unfold checkEdits at h
  split at h
  · cases h
  · split at h
    · cases h
    · obtain ⟨i, hi⟩ := List.mem_iff_getElem?.mp he
      exact checked_of_checkEdit (forM_ok h (e, i) (List.mk_mem_zipIdx_iff_getElem?.mpr hi))

/-! ## Sizes -/

theorem length_le_textSize (cs : List Char) : cs.length ≤ textSize cs := by
  induction cs with
  | nil => exact Nat.zero_le _
  | cons c cs ih =>
    have := c.utf8Size_pos
    simp only [textSize, List.map_cons, List.sum_cons, List.length_cons] at ih ⊢
    omega

/-- The number of replacements that `edit` counts on. -/
def replacedCount (e : EditSpec) (pieces : List (List Char)) : Nat := if e.replaceAll then pieces.length - 1 else 1

theorem replacedCount_of_fits {e : EditSpec} {pieces : List (List Char)} (h : e.Fits pieces) :
    replacedCount e pieces = pieces.length - 1 := by
  unfold replacedCount
  split
  · rfl
  · next hno =>
    rcases h.2 with hall | hlen
    · exact absurd hall hno
    · omega

/-- What the operations on sizes are worth where none of them saturates. -/
structure SizesExact (size replaced oldSize newSize result : Nat) : Prop where
  removed_le : replaced * oldSize ≤ size
  removed_eq : saturatingMul replaced oldSize = replaced * oldSize
  added_eq : saturatingMul replaced newSize = replaced * newSize
  sum_eq : saturatingAdd (size - replaced * oldSize) (replaced * newSize) = size - replaced * oldSize + replaced * newSize
  projected_eq : projectedSize size replaced oldSize newSize = result

theorem sizesExact {size replaced oldSize newSize result : Nat} (hsize : size ≤ maxTextBytes)
    (hnew : newSize ≤ maxTextBytes) (hold : 0 < oldSize) (hle : replaced * oldSize ≤ size)
    (hresult : result = size - replaced * oldSize + replaced * newSize) :
    SizesExact size replaced oldSize newSize result := by
  have hreplaced : replaced ≤ size := le_trans (Nat.le_mul_of_pos_right _ hold) hle
  have hadded : replaced * newSize ≤ maxTextBytes * maxTextBytes := Nat.mul_le_mul (hreplaced.trans hsize) hnew
  have hbound : maxTextBytes + maxTextBytes * maxTextBytes ≤ usizeMax := by decide
  have hremoved : saturatingMul replaced oldSize = replaced * oldSize := Nat.min_eq_left (by omega)
  have hmul : saturatingMul replaced newSize = replaced * newSize := Nat.min_eq_left (by omega)
  have hadd : saturatingAdd (size - replaced * oldSize) (replaced * newSize) =
      size - replaced * oldSize + replaced * newSize := Nat.min_eq_left (by omega)
  refine ⟨hle, hremoved, hmul, hadd, ?_⟩
  rw [projectedSize, hremoved, hmul, hadd, hresult]

/-- The size that is computed before a replacement is the size it produces. -/
theorem sizesExact_of_cut {e : EditSpec} (he : e.Checked) {content : List Char} (hsize : textSize content ≤ maxTextBytes)
    {pieces : List (List Char)} (hcut : CutAt e.oldText.toList content pieces) (hfits : e.Fits pieces) :
    SizesExact (textSize content) (replacedCount e pieces) (textSize e.oldText.toList) (textSize e.newText.toList)
      (textSize (e.newText.toList.intercalate pieces)) := by
  have hold : 0 < textSize e.oldText.toList :=
    lt_of_lt_of_le (List.length_pos_of_ne_nil he.old_ne) (length_le_textSize _)
  obtain ⟨hle, hresult⟩ := hcut.weight Char.utf8Size e.newText.toList
  rw [replacedCount_of_fits hfits]
  exact sizesExact hsize he.new_size hold hle hresult

/-! ## `applyEdit` -/

section

variable {path place : String} {e : EditSpec} {content result : List Char}

theorem countMatches_eq (he : e.Checked) {pieces : List (List Char)} (hcut : CutAt e.oldText.toList content pieces) :
    countMatches e.oldText.toList content = pieces.length - 1 := by
  rw [countMatches, (cut_splitText he.old_ne content).unique hcut]

/-- What is computed where the edit may be made: the size, before the text. -/
theorem applyEdit_fits (he : e.Checked) (hsize : textSize content ≤ maxTextBytes) {pieces : List (List Char)}
    (hcut : CutAt e.oldText.toList content pieces) (hfits : e.Fits pieces) :
    applyEdit path place e content =
      if textSize (e.newText.toList.intercalate pieces) > maxTextBytes then
        .error (.new .invalidRequest (place ++ "resulting file would exceed " ++ maxTextBytes.repr ++ " bytes"))
      else .ok (e.newText.toList.intercalate pieces) := by
  have hcount := countMatches_eq he hcut
  have hpos := hfits.1
  have hnot : ¬ (pieces.length - 1 > 1 ∧ e.replaceAll = false) := by
    rintro ⟨hlen, hall⟩
    rcases hfits.2 with h | h
    · rw [hall] at h
      cases h
    · omega
  have hsizes := sizesExact_of_cut he hsize hcut hfits
  have hprojected := hsizes.projected_eq
  unfold replacedCount at hprojected
  unfold applyEdit
  simp only [hcount, if_neg hnot, if_neg (show ¬ pieces.length - 1 = 0 by omega), hprojected]
  split
  · rfl
  · split
    · rw [replaceAll, (cut_splitText he.old_ne content).unique hcut]
    · next hno =>
      have hlen : pieces.length = 2 := hfits.2.resolve_left hno
      rw [replaceFirst_of_cut he.old_ne hcut hlen]

theorem applyEdit_of_stepsTo (he : e.Checked) (hsize : textSize content ≤ maxTextBytes) (h : StepsTo e content result) :
    applyEdit path place e content = .ok result := by
  obtain ⟨pieces, hcut, hfits, rfl, hle⟩ := h
  rw [applyEdit_fits he hsize hcut hfits, if_neg (by omega)]

theorem applyEdit_of_fails (he : e.Checked) (hsize : textSize content ≤ maxTextBytes) {err : ProtocolError}
    (h : StepFails path place e content err) : applyEdit path place e content = .error err := by
  cases h with
  | noMatch hno =>
    have hcount := countMatches_eq he (.last hno)
    unfold applyEdit
    simp [hcount]
  | @ambiguous pieces hcut hlen hall =>
    have hcount := countMatches_eq he hcut
    unfold applyEdit
    simp only [hcount, if_neg (show ¬ pieces.length - 1 = 0 by omega), hall]
    rw [if_pos ⟨by omega, trivial⟩]
  | tooLarge hcut hfits hlarge => rw [applyEdit_fits he hsize hcut hfits, if_pos hlarge]

/-- An edit can be made or not, and not both. -/
theorem stepsTo_or_fails (path place : String) (he : e.Checked) (content : List Char) :
    (∃ result, StepsTo e content result) ∨ ∃ err, StepFails path place e content err := by
  have hcut := cut_splitText he.old_ne content
  by_cases hone : (splitText e.oldText.toList 0 content).length = 1
  · exact .inr ⟨_, .noMatch (hcut.length_eq_one_iff.mp hone)⟩
  have hpos := List.length_pos_of_ne_nil hcut.ne_nil
  by_cases hfits : e.Fits (splitText e.oldText.toList 0 content)
  · by_cases hlarge : textSize (e.newText.toList.intercalate (splitText e.oldText.toList 0 content)) ≤ maxTextBytes
    · exact .inl ⟨_, _, hcut, hfits, rfl, hlarge⟩
    · exact .inr ⟨_, .tooLarge hcut hfits (by omega)⟩
  · have hnot : ¬ e.replaceAll = true ∧ ¬ (splitText e.oldText.toList 0 content).length = 2 := by
      rw [← not_or]
      exact fun h => hfits ⟨by omega, h⟩
    exact .inr ⟨_, .ambiguous hcut (by omega) (by simpa using hnot.1)⟩

/-! ## `applyEdits` -/

theorem EditsTo.append {done rest : List EditSpec} {content next result : List Char} (h : EditsTo done content next)
    (h' : EditsTo rest next result) : EditsTo (done ++ rest) content result := by
  induction h with
  | nil => exact h'
  | cons hstep _ ih => exact .cons hstep (ih h')

/-- No text on the way is larger than the limit. -/
theorem EditsTo.size {es : List EditSpec} {content result : List Char} (h : EditsTo es content result)
    (hsize : textSize content ≤ maxTextBytes) : textSize result ≤ maxTextBytes := by
  induction h with
  | nil => exact hsize
  | cons hstep _ ih =>
    obtain ⟨_, _, _, _, hle⟩ := hstep
    exact ih hle

/-- The edits from the `k`-th on. -/
def applyFrom (path : String) (total k : Nat) (es : List EditSpec) (content : List Char) :
    Except ProtocolError (List Char) :=
  (es.zipIdx k).foldlM (fun content (e, i) => applyEdit path (editPrefix i total) e content) content

theorem applyEdits_eq (path : String) (edits : List EditSpec) (content : List Char) :
    applyEdits path edits content = applyFrom path edits.length 0 edits content := rfl

theorem applyFrom_cons (path : String) (total k : Nat) (e : EditSpec) (es : List EditSpec) (content : List Char) :
    applyFrom path total k (e :: es) content =
      applyEdit path (editPrefix k total) e content >>= applyFrom path total (k + 1) es := by
  simp only [applyFrom, List.zipIdx_cons, List.foldlM_cons]
  rfl

theorem applyFrom_of_editsTo (path : String) (total k : Nat) {es : List EditSpec} (rest : List EditSpec)
    {content result : List Char} (hchecked : ∀ e ∈ es, e.Checked) (hsize : textSize content ≤ maxTextBytes) (h : EditsTo es content result) :
    applyFrom path total k (es ++ rest) content = applyFrom path total (k + es.length) rest result := by
  induction h generalizing k with
  | nil => rfl
  | @cons e es content next result hstep _ ih =>
    have hle := (EditsTo.cons hstep (.nil next)).size hsize
    rw [List.cons_append, applyFrom_cons, applyEdit_of_stepsTo (hchecked e (by simp)) hsize hstep]
    show applyFrom path total (k + 1) (es ++ rest) next = _
    rw [ih (k + 1) (fun e' he' => hchecked e' (by simp [he'])) hle, List.length_cons,
      show k + 1 + es.length = k + (es.length + 1) by omega]

theorem applyEdits_of_editsTo {path : String} {edits : List EditSpec} {content result : List Char}
    (hchecked : ∀ e ∈ edits, e.Checked) (hsize : textSize content ≤ maxTextBytes) (h : EditsTo edits content result) :
    applyEdits path edits content = .ok result := by
  have := applyFrom_of_editsTo path edits.length 0 [] hchecked hsize h
  rw [List.append_nil] at this
  rw [applyEdits_eq, this]
  rfl

/-- The `i`-th edit is the first that cannot be made, in a text that the ones
before it leave. -/
structure FailsAt (path : String) (edits done rest : List EditSpec) (e : EditSpec) (content next : List Char)
    (err : ProtocolError) : Prop where
  edits_eq : edits = done ++ e :: rest
  before : EditsTo done content next
  fails : StepFails path (editPrefix done.length edits.length) e next err

theorem applyEdits_of_failsAt {path : String} {edits done rest : List EditSpec} {e : EditSpec}
    {content next : List Char} {err : ProtocolError} (hchecked : ∀ e ∈ edits, e.Checked)
    (hsize : textSize content ≤ maxTextBytes) (h : FailsAt path edits done rest e content next err) :
    applyEdits path edits content = .error err := by
  have hdone : ∀ e ∈ done, e.Checked := fun e' he' => hchecked e' (by simp [h.edits_eq, he'])
  have happly := applyFrom_of_editsTo path edits.length 0 (e :: rest) hdone hsize h.before
  rw [← h.edits_eq, Nat.zero_add, applyFrom_cons,
    applyEdit_of_fails (hchecked e (by simp [h.edits_eq])) (h.before.size hsize) h.fails] at happly
  exact happly

/-- All the edits can be made, or there is a first one that cannot. -/
theorem editsTo_or_failsAt (path : String) {edits : List EditSpec} (hchecked : ∀ e ∈ edits, e.Checked)
    (content : List Char) :
    (∃ result, EditsTo edits content result) ∨
      ∃ done rest e next err, FailsAt path edits done rest e content next err := by
  suffices h : ∀ done es next, edits = done ++ es → EditsTo done content next →
      (∃ result, EditsTo edits content result) ∨
        ∃ done rest e next err, FailsAt path edits done rest e content next err from
    h [] edits content rfl (.nil content)
  intro done es
  induction es generalizing done with
  | nil =>
    intro next hedits hdone
    rw [List.append_nil] at hedits
    exact .inl ⟨next, hedits ▸ hdone⟩
  | cons e es ih =>
    intro next hedits hdone
    have he : e.Checked := hchecked e (by simp [hedits])
    rcases stepsTo_or_fails path (editPrefix done.length edits.length) he next with ⟨result, hstep⟩ | ⟨err, hfails⟩
    · exact ih (done ++ [e]) result (by simp [hedits]) (hdone.append (.cons hstep (.nil result)))
    · exact .inr ⟨done, es, e, next, err, hedits, hdone, hfails⟩

theorem editsTo_of_applyEdits {path : String} {edits : List EditSpec} {content result : List Char}
    (hchecked : ∀ e ∈ edits, e.Checked) (hsize : textSize content ≤ maxTextBytes)
    (h : applyEdits path edits content = .ok result) : EditsTo edits content result := by
  rcases editsTo_or_failsAt path hchecked content with ⟨result', hto⟩ | ⟨done, rest, e, next, err, hfails⟩
  · obtain rfl := Except.ok.inj ((applyEdits_of_editsTo hchecked hsize hto).symm.trans h)
    exact hto
  · cases (applyEdits_of_failsAt hchecked hsize hfails).symm.trans h

end

/-! ## What `edit` installs -/

section

variable {server : Server} {requestId rel : String} {t t' : Tree} {α ε : Type} {d : Path} {n : String}

/-- If `x` succeeds from `t`, then `P` holds of its result and the tree. -/
def Ensures (server : Server) (P : α → Tree → Prop) (x : ExceptT ε ServerProg α) (t : Tree) : Prop :=
  x.run.Keeps (TreeStep server) (fun _ _ => True) (Prog.Ends P fun _ _ => True) t

theorem Ensures.bind {β : Type} {P : α → Tree → Prop} {P' : β → Tree → Prop} {x : ExceptT ε ServerProg α}
    {f : α → ExceptT ε ServerProg β} (hx : Ensures server P x t) (hf : ∀ a t', P a t' → Ensures server P' (f a) t') :
    Ensures server P' (x >>= f) t :=
  Prog.Keeps.bindE hx hf

theorem Learns.ensures {β : Type} {K : α → Prop} {P : β → Tree → Prop} {x : ExceptT ε ServerProg α}
    {f : α → ExceptT ε ServerProg β} (hx : Learns server t K x) (hf : ∀ a, K a → Ensures server P (f a) t) :
    Ensures server P (x >>= f) t :=
  hx.keeps_bind (fun _ => trivial) (fun _ => trivial) hf

theorem ensures_leavesTree {P : α → Tree → Prop} {x : ExceptT ε ServerProg α} (hx : x.run.Issues ServerCmd.LeavesTree)
    (h : ∀ a, P a t) : Ensures server P x t := by
  refine keeps_leavesTree hx (fun _ _ => trivial) fun o => ?_
  cases o with
  | ok a => exact h a
  | error e => trivial

theorem ensures_dropping {P : α → Tree → Prop} {x : ExceptT ε ServerProg α} {tmp : Path} (hx : Ensures server P x t) :
    Ensures server P (dropping tmp x) t := by
  refine Prog.Keeps.bind (fun o t' ho => ?_) hx
  cases o with
  | ok a => exact ho
  | error e => exact ⟨trivial, fun _ _ _ => trivial⟩

theorem changes_ok {ch : FsChoice} {r : Except Errno Tree} (h : ch.changes t r = (.ok (), t')) : r = .ok t' := by
  rcases ch.changes_cases t r with ⟨e, heq⟩ | ⟨t₁, hr, heq⟩ <;> rw [heq] at h <;> cases h
  exact hr

theorem treeStep_write {p : Path} {content : List UInt8} (h : TreeStep server (.fs (.write p content)) (.ok ()) t t') :
    t.replace p { content, readable := true } = .ok t' := by
  obtain ⟨ch, -, h⟩ := h
  exact changes_ok h

theorem treeStep_rename {overwrite : Bool} {src dst : Path}
    (h : TreeStep server (.fs (.rename overwrite src dst)) (.ok ()) t t') : t.move overwrite src dst = .ok t' := by
  obtain ⟨ch, -, h⟩ := h
  exact changes_ok h

/-- The new text is in a file of its own, beside the target. -/
def StagedAs (sha256 : Sha256) (d : Path) (content : List UInt8) (staged : StagedWrite) (t : Tree) : Prop :=
  t.node d = some .dir ∧ staged.newHash = hashBytes sha256 content ∧
    ∃ m, staged.tmp = m :: d ∧ t.node (m :: d) = some (.file { content, readable := true })

theorem ensures_stageWrite (content : List UInt8) (hd : t.node d = some .dir) :
    Ensures server (StagedAs server.sha256 d content) (stageWrite server.sha256 (n :: d) content) t := by
  have hmade : Ensures server (fun _ t₁ => t₁.node d = some .dir)
      (Handler.failed "mkdir failed: " (Handler.fs (.createDirAll d))) t := by
    refine ⟨trivial, fun r t₁ h => ?_⟩
    have honly : OnlyIn d t t₁ := onlyIn_step (c := .fs (.createDirAll d)) rfl h hd
    cases r with
    | ok u => exact honly.dir hd
    | error e => trivial
  refine hmade.bind fun _ t₁ hd₁ => ?_
  have htemp : Ensures server (fun tmp t₂ => t₂.node d = some .dir ∧ ∃ m, tmp = m :: d)
      (Handler.failed "temp file create failed: " (Handler.fs (writeTemp d))) t₁ := by
    refine ⟨trivial, fun r t₂ h => ?_⟩
    have honly : OnlyIn d t₁ t₂ := onlyIn_step (c := .fs (writeTemp d)) rfl h hd₁
    cases r with
    | ok tmp => exact ⟨honly.dir hd₁, treeStep_createTemp h tmp rfl⟩
    | error e => trivial
  refine htemp.bind ?_
  rintro _ t₂ ⟨hd₂, m, rfl⟩
  have hfilled : Ensures server (fun _ t₃ => t₃.node d = some .dir ∧
      t₃.node (m :: d) = some (.file { content, readable := true }))
      (Handler.failed "temp write failed: " (Handler.fs (.write (m :: d) content))) t₂ := by
    refine ⟨trivial, fun r t₃ h => ?_⟩
    cases r with
    | ok u =>
      have hnode := FileTree.Tree.replace_cons hd₂ (treeStep_write h)
      exact ⟨by rw [hnode, if_neg (cons_ne_self m d).symm, hd₂], by rw [hnode, if_pos rfl]⟩
    | error e => trivial
  have hready : Ensures server (fun _ t₃ => t₃.node d = some .dir ∧
      t₃.node (m :: d) = some (.file { content, readable := true }))
      (dropping (m :: d) do
        Handler.failed "temp write failed: " (Handler.fs (.write (m :: d) content))
        let _ ← Handler.failed "stat failed: " (Handler.fs (.metadata (n :: d)))
        Handler.failed "chmod temp failed: " (Handler.fs (.setPermissions (m :: d)))) t₂ := by
    refine ensures_dropping (hfilled.bind fun _ t₃ h₃ => ensures_leavesTree ?_ fun _ => h₃)
    refine Prog.Issues.bindE (Prog.Issues.orThrow (Handler.issues_fs fun _ _ _ _ => rfl)) fun _ => ?_
    exact Prog.Issues.orThrow (Handler.issues_fs fun _ _ _ _ => rfl)
  exact hready.bind fun _ t₃ h₃ => ⟨h₃.1, rfl, m, rfl, h₃.2⟩

theorem ensures_lift {P : Except ε α → Tree → Prop} {p : ExceptT ε ServerProg α}
    (hp : p.run.Keeps (TreeStep server) (fun _ _ => True) P t) :
    Ensures server P (ExceptT.lift p.run : Handler (Except ε α)) t :=
  hp.lift

theorem leavesTree_verifyUnchanged (abs : Path) (expected path : String) :
    (verifyUnchanged abs expected path).run.Issues ServerCmd.LeavesTree := by
  refine Prog.Issues.bindE (Prog.Issues.orThrow (Handler.issues_fs fun _ _ _ _ => rfl)) fun now => ?_
  split <;> trivial

theorem ensures_install {content : List UInt8} {staged : StagedWrite} (h : StagedAs server.sha256 d content staged t) :
    Ensures server (fun _ t' => t'.node (n :: d) = some (.file { content, readable := true }))
      (staged.install (n :: d)) t := by
  obtain ⟨hd, -, m, htmp, hnode⟩ := h
  have hmoved : Ensures server (fun _ t₁ => t₁.node (n :: d) = some (.file { content, readable := true }))
      (Install.step false (ioFailed "atomic persist failed: failed to persist temporary file: ")
        (Install.fs (.rename true staged.tmp (n :: d)))) t := by
    refine keeps_installStep ⟨trivial, fun r t₁ h => ?_⟩
    cases r with
    | ok u =>
      rw [htmp] at h
      obtain ⟨x, hx, -, hnode'⟩ := FileTree.Tree.move_cons hd (treeStep_rename h)
      show t₁.node (n :: d) = _
      rw [hnode', if_pos rfl, ← hx, hnode]
    | error e => trivial
  refine (ensures_dropping hmoved).bind fun _ t₁ h₁ => ensures_leavesTree ?_ fun _ => h₁
  exact Prog.Issues.bindE (Install.issues_step ⟨fun _ _ _ _ => rfl, fun _ => trivial⟩) fun _ => trivial

/-- What is installed is what was staged. -/
theorem ensures_writeAheadInstall {content : List UInt8} {before : String} {staged : StagedWrite}
    (h : StagedAs server.sha256 d content staged t) :
    Ensures server (fun r t' => r.2 = hashBytes server.sha256 content ∧
        t'.node (n :: d) = some (.file { content, readable := true }))
      (writeAheadInstall requestId rel (n :: d) before staged) t := by
  have hstored : ∀ {t₁ : Tree} {β : Type} (p : StoreProg (Except ProtocolError β)),
      Ensures server (fun _ t₂ => t₁ = t₂) (Handler.stored p) t₁ := fun p =>
    ensures_leavesTree (leavesTree_stored p) fun _ => rfl
  refine (ensures_dropping (hstored _)).bind ?_
  rintro opId _ rfl
  refine (ensures_lift (P := fun _ t₁ => t = t₁) ?_).bind ?_
  · exact keeps_leavesTree (leavesTree_verifyUnchanged _ _ _) (fun _ _ => trivial) fun _ => rfl
  rintro o _ rfl
  cases o with
  | error e => exact ensures_dropping ((hstored _).bind fun _ _ _ => trivial)
  | ok u =>
    refine (ensures_lift (ensures_install (n := n) h)).bind fun o t₁ h₁ => ?_
    cases o with
    | error f =>
      dsimp only
      split
      · exact (hstored _).bind fun _ _ _ => trivial
      · trivial
    | ok newHash =>
      refine (hstored _).bind ?_
      rintro _ _ rfl
      exact ⟨h.2.1, h₁⟩

/-! ## `edit` -/

/-- What the file must be like for its text to be read: small, and readable. -/
def HoldsText (t : Tree) (abs : Path) (original : List Char) : Prop :=
  t.stat abs = .ok (.file { content := Text.utf8 original, readable := true }) ∧ textSize original ≤ maxTextBytes

theorem length_utf8 (cs : List Char) : (Text.utf8 cs).length = textSize cs := by
  induction cs with
  | nil => rfl
  | cons c cs ih =>
    rw [Text.utf8_cons, List.length_append, ih, String.length_utf8EncodeChar]
    rfl

theorem learns_checkEditable_size (path : String) (abs : Path) :
    Learns server t (fun _ => ∃ f, t.stat abs = .ok (.file f) ∧ f.content.length ≤ maxTextBytes)
      (checkEditable path abs) := by
  refine (learns_fs fun _ _ _ _ => rfl).bind fun r hr => ?_
  split
  · next f =>
    split
    · exact learns_throw _
    · next hsize => exact learns_pure ⟨f, (treeStep_metadata hr).2 _ rfl, Nat.le_of_not_gt hsize⟩
  · exact learns_throw _
  · exact learns_throw _
  · exact learns_throw _

theorem learns_read {abs : Path} {f : File} (hstat : t.stat abs = .ok (.file f)) (step : String) :
    Learns server t (fun bytes => bytes = f.content) (Handler.failed step (Handler.fs (.read abs))) := by
  refine learns_orThrow ((learns_fs fun _ _ _ _ => rfl).mono fun r hr bytes hbytes => ?_)
  obtain ⟨ch, -, h⟩ := hr
  subst hbytes
  have hread := reads_ok (Prod.ext_iff.mp h).1
  rw [hstat] at hread
  simp only [FileTree.Tree.ok_bind] at hread
  split at hread
  · exact (Except.ok.inj hread).symm
  · cases hread

/-- What the edits make of the file: the text they leave, with another hash. -/
def Edited (sha256 : Sha256) (path : String) (edits : List EditSpec) (f : File) (new : List Char) : Prop :=
  ∃ text, Text.utf8? f.content = some text ∧ textSize text ≤ maxTextBytes ∧ applyEdits path edits text = .ok new ∧
    hashBytes sha256 (Text.utf8 new) ≠ hashBytes sha256 f.content

theorem learns_edited {path : String} {edits : List EditSpec} {f : File} (hsize : f.content.length ≤ maxTextBytes) :
    Learns server t (Edited server.sha256 path edits f)
      (editedText server.sha256 path (hashBytes server.sha256 f.content) edits f.content) := by
  unfold editedText
  split
  · exact learns_throw _
  · next text htext =>
    rw [← Text.utf8_of_utf8? htext, length_utf8] at hsize
    have happlied : Learns server t (fun new => applyEdits path edits text = .ok new)
        (Prog.orThrow id (pure (applyEdits path edits text))) :=
      learns_orThrow (learns_pure fun new hnew => hnew)
    refine happlied.bind fun new hnew => ?_
    split
    · exact learns_throw _
    · next hhash => exact learns_pure ⟨text, htext, hsize, hnew, hhash⟩

/-- The part of `edit` that only reads: the target, and the text to install. -/
theorem edit_reads {baseHash : String} {edits : List EditSpec} {J : Handler ResultBody → Prop} (hthrow : ∀ e, J (throw e))
    (hlearn : ∀ {γ : Type} {K : γ → Prop} {x : Handler γ} {f : γ → Handler ResultBody}, Learns server t K x →
      (∀ a, K a → J (f a)) → J (x >>= f))
    (hedited : ∀ abs f new, server.workspace.resolve t rel = .ok abs → t.stat abs = .ok (.file f) →
      hashBytes server.sha256 f.content = baseHash → Edited server.sha256 rel edits f new →
      J (do
        let staged ← stageWrite server.sha256 abs (Text.utf8 new)
        let (operationId, newHash) ← writeAheadInstall requestId rel abs baseHash staged
        return .mutation { operationId, oldHash := some baseHash, newHash })) :
    J (edit server.sha256 requestId rel baseHash edits) := by
  refine hlearn (K := fun _ => True) (learns_orThrow (learns_pure fun _ _ => trivial)) fun _ _ => ?_
  refine hlearn (learns_resolve rel) fun abs hresolve => ?_
  refine hlearn (learns_checkEditable_size rel abs) fun _ hf => ?_
  obtain ⟨f, hstat, hsize⟩ := hf
  split
  · exact hthrow _
  · refine hlearn (learns_read hstat _) fun bytes hbytes => ?_
    subst hbytes
    dsimp only
    split
    · exact hthrow _
    · next hbase =>
      rw [not_not] at hbase
      refine hlearn (learns_edited hsize) fun new hnew => ?_
      have := hedited abs f new hresolve hstat hbase hnew
      rwa [← hbase] at this

/-- An edit that has nothing to install fails, and has only read. -/
theorem learns_edit_refused {baseHash : String} {edits : List EditSpec}
    (h : ∀ abs f new, server.workspace.resolve t rel = .ok abs → t.stat abs = .ok (.file f) →
      ¬ Edited server.sha256 rel edits f new) :
    Learns server t (fun _ => False) (edit server.sha256 requestId rel baseHash edits) :=
  edit_reads (J := Learns server t fun _ => False) learns_throw (fun hx hf => hx.bind hf)
    fun abs f new hresolve hstat _ hnew => absurd hnew (h abs f new hresolve hstat)

/-- What is in the file once `edit` has succeeded. -/
structure Installed (server : Server) (rel baseHash : String) (edits : List EditSpec) (t t' : Tree) : Prop where
  done : ∃ abs f text new, server.workspace.resolve t rel = .ok abs ∧ t.node abs = some (.file f) ∧
    hashBytes server.sha256 f.content = baseHash ∧ Text.utf8? f.content = some text ∧
    textSize text ≤ maxTextBytes ∧ applyEdits rel edits text = .ok new ∧
    t'.node abs = some (.file { content := Text.utf8 new, readable := true })

theorem ensures_edit {baseHash : String} {edits : List EditSpec} :
    Ensures server (fun _ t' => Installed server rel baseHash edits t t')
      (edit server.sha256 requestId rel baseHash edits) t := by
  refine edit_reads (J := fun x => Ensures server (fun _ t' => Installed server rel baseHash edits t t') x t)
    (fun _ => trivial) (fun hx hf => hx.ensures hf) fun abs f new hresolve hstat hbase hnew => ?_
  obtain ⟨text, htext, hsize, happly, -⟩ := hnew
  obtain ⟨n, d, -, rfl, hnode, hd, -⟩ := placed_of_file hresolve hstat
  refine (ensures_stageWrite (Text.utf8 new) hd).bind fun staged t₁ hstaged => ?_
  refine (ensures_writeAheadInstall hstaged).bind ?_
  rintro ⟨operationId, newHash⟩ t₂ ⟨-, hinstalled⟩
  exact ⟨n :: d, f, text, new, hresolve, hnode, hbase, htext, hsize, happly, hinstalled⟩

end

/-! ## The error of the first edit that cannot be made -/

/-- What a command returns where no call on files fails for a reason of its
own. -/
def SureStep (server : Server) : (c : ServerCmd) → c.Result → Tree → Tree → Prop
  | .fs c, r, t, t' => ∃ ch : FsChoice, ch.fault = none ∧ c.exec server.workspace server.sha256 ch t = (r, t')
  | _, _, t, t' => t' = t

section

variable {server : Server} {requestId rel : String} {t : Tree} {α ε : Type}

/-- All that `x` does is to return `r`. -/
def Gives (server : Server) (t : Tree) (r : Except ε α) (x : ExceptT ε ServerProg α) : Prop :=
  x.run.Keeps (SureStep server) (fun _ _ => True) (fun o t' => o = r ∧ t' = t) t

theorem gives_pure (a : α) : Gives server t (.ok a) (pure a : ExceptT ε ServerProg α) := ⟨rfl, rfl⟩

theorem gives_throw (e : ε) : Gives server t (.error e) (throw e : ExceptT ε ServerProg α) := ⟨rfl, rfl⟩

theorem Gives.bind {β : Type} {a : α} {r : Except ε β} {x : ExceptT ε ServerProg α} {f : α → ExceptT ε ServerProg β}
    (hx : Gives server t (.ok a) x) (hf : Gives server t r (f a)) : Gives server t r (x >>= f) := by
  refine Prog.Keeps.bind (fun o t' ho => ?_) hx
  obtain ⟨rfl, rfl⟩ := ho
  exact hf

theorem Gives.bind_error {β : Type} {e : ε} {x : ExceptT ε ServerProg α} {f : α → ExceptT ε ServerProg β}
    (hx : Gives server t (.error e) x) : Gives server t (.error e) (x >>= f) := by
  refine Prog.Keeps.bind (fun o t' ho => ?_) hx
  obtain ⟨rfl, rfl⟩ := ho
  exact ⟨rfl, rfl⟩

theorem gives_fs {c : FsCmd} {r : c.Result} (h : ∀ ch : FsChoice, ch.fault = none →
    c.exec server.workspace server.sha256 ch t = (r, t)) : Gives server t (.ok r) (Handler.fs c) := by
  refine ⟨trivial, fun r' t' ⟨ch, hch, hexec⟩ => ?_⟩
  obtain ⟨rfl, rfl⟩ := Prod.ext_iff.mp ((h ch hch).symm.trans hexec)
  exact ⟨rfl, rfl⟩

theorem gives_resolve {abs : Path} (h : server.workspace.resolve t rel = .ok abs) :
    Gives server t (.ok abs) (resolve rel) := by
  have hcall : Gives server t (.ok (.ok abs)) (Handler.fs (.resolve rel)) :=
    gives_fs fun ch hch => by simp only [FsCmd.exec, hch, h]
  exact hcall.bind (gives_pure abs)

theorem gives_checkEditable {abs : Path} {original : List Char} (h : HoldsText t abs original) :
    Gives server t (.ok ()) (checkEditable rel abs) := by
  have hcall : Gives server t (.ok (.ok (.file { content := Text.utf8 original, readable := true })))
      (Handler.fs (.metadata abs)) :=
    gives_fs fun ch hch => by simp only [FsCmd.exec, FsChoice.reads, hch, h.1]
  refine hcall.bind ?_
  dsimp only
  rw [if_neg (by rw [length_utf8]; exact Nat.not_lt.mpr h.2)]
  exact gives_pure ()

theorem gives_read {abs : Path} {original : List Char} (h : HoldsText t abs original) (step : String) :
    Gives server t (.ok (Text.utf8 original)) (Handler.failed step (Handler.fs (.read abs))) := by
  have hcall : Gives server t (.ok (.ok (Text.utf8 original))) (Handler.fs (.read abs)) :=
    gives_fs fun ch hch => by
      simp only [FsCmd.exec, FsChoice.reads, hch, h.1, FileTree.Tree.ok_bind, if_true]
  exact hcall.bind (gives_pure _)

theorem isHexDigit_hexDigit : ∀ n < 16, isHexDigit (hexDigit n) = true := by decide

theorem isWellFormedHash_hashBytes (sha256 : Sha256) (bytes : List UInt8) :
    isWellFormedHash (hashBytes sha256 bytes) = true := by
  have hlist : (hashBytes sha256 bytes).toList = "sha256:".toList ++ hexEncode (sha256 bytes) := by
    simp only [hashBytes, String.toList_append, String.toList_ofList]
  have hlength : (hexEncode (sha256 bytes)).length = 64 := by
    simp [hexEncode, List.ofFn_succ]
  have hdigits : (hexEncode (sha256 bytes)).all isHexDigit = true := by
    simp only [hexEncode, List.all_eq_true, List.mem_flatMap]
    rintro c ⟨b, -, hc⟩
    have hb := b.toNat_lt
    simp only [List.mem_cons, List.not_mem_nil, or_false] at hc
    rcases hc with rfl | rfl
    · exact isHexDigit_hexDigit _ (by omega)
    · exact isHexDigit_hexDigit _ (by omega)
  simp only [isWellFormedHash, hlist, List.drop_left, hlength, hdigits, decide_true, Bool.and_true]
  exact List.isPrefixOf_iff_prefix.mpr (List.prefix_append _ _)

/-- The error of `edit` is that of the edits, if nothing else fails. -/
theorem gives_edit_error {abs : Path} {original : List Char} {edits : List EditSpec} {err : ProtocolError}
    (hchecks : checkEdits edits = .ok ()) (hresolve : server.workspace.resolve t rel = .ok abs)
    (htext : HoldsText t abs original) (hfails : applyEdits rel edits original = .error err) :
    Gives server t (.error err)
      (edit server.sha256 requestId rel (hashBytes server.sha256 (Text.utf8 original)) edits) := by
  have hpassed : Gives server t (.ok ()) (Prog.orThrow id (pure (checkEdits edits))) := by
    rw [hchecks]
    exact gives_pure ()
  refine hpassed.bind ((gives_resolve hresolve).bind ((gives_checkEditable htext).bind ?_))
  rw [if_neg (by rw [isWellFormedHash_hashBytes]; decide)]
  refine (gives_read htext _).bind ?_
  dsimp only
  rw [if_neg (not_not.mpr rfl)]
  refine Gives.bind_error ?_
  rw [editedText, Text.utf8?_utf8]
  dsimp only
  rw [hfails]
  exact gives_throw err

/-! ## The edit list -/

theorem run_learns_false {x : Handler α} (h : Learns server t (fun _ => False) x)
    {es : List (Event ServerCmd ServerCmd.Result)} {p : ServerProg (Except ProtocolError α)} {t' : Tree}
    (hrun : Prog.Run (TreeStep server) x.run t es p t') :
    t' = t ∧ (∀ ev ∈ es, ∃ c, ev.cmd = .fs c) ∧ ∀ o, p = .pure o → ∃ err, o = .error err := by
  refine ⟨h.reached (J := fun t' => t' = t) (fun _ _ hI => hI.1) (fun o _ ho => ?_) hrun, fun ev hev => ?_, ?_⟩
  · cases o with
    | ok a => exact ho.1
    | error e => exact ho
  · obtain ⟨-, -, hc⟩ := h.event hrun ev hev
    exact hc
  · rintro o rfl
    have ho := h.run hrun
    cases o with
    | ok a => exact ho.2.elim
    | error e => exact ⟨e, rfl⟩

theorem applyEdits_of_edited {abs abs' : Path} {text new : List Char} {edits : List EditSpec} {f : File}
    (hresolve : server.workspace.resolve t rel = .ok abs) (htext : HoldsText t abs text)
    (hresolve' : server.workspace.resolve t rel = .ok abs') (hstat : t.stat abs' = .ok (.file f))
    (hnew : Edited server.sha256 rel edits f new) :
    applyEdits rel edits text = .ok new ∧
      hashBytes server.sha256 (Text.utf8 new) ≠ hashBytes server.sha256 (Text.utf8 text) := by
  obtain rfl := Except.ok.inj (hresolve.symm.trans hresolve')
  obtain rfl := Node.file.inj (Except.ok.inj (htext.1.symm.trans hstat))
  obtain ⟨text', htext', -, happly, hhash⟩ := hnew
  obtain rfl := Option.some.inj ((Text.utf8?_utf8 text).symm.trans htext')
  exact ⟨happly, hhash⟩

/-- An edit list that passes the checks of its arguments, on a tree that no one
else changes:

* where `edit` succeeds, the file that the hash pins held a text, and holds
  what the replacements, each in what the one before left, make of it;
* on the way to any of them no text is too large, and where it can be made the
  size computed before it is the size it produces, no operation saturating, and
  it is refused for its size if that is larger than the limit and only then;
* where one of them cannot be made, `edit` fails without changing a file or
  issuing a command to the store, and with the error of the first such one
  if no call on files fails;
* where all of them together give the text back, it fails in the same way. -/
theorem edit_means_its_replacements {edits : List EditSpec} (hchecks : checkEdits edits = .ok ())
    (server : Server) (t : Tree) (requestId rel baseHash : String) :
    (∀ es result t', Prog.Run (TreeStep server) (edit server.sha256 requestId rel baseHash edits).run t es
        (.pure (.ok result)) t' →
      ∃ abs f text new, server.workspace.resolve t rel = .ok abs ∧ t.node abs = some (.file f) ∧
        hashBytes server.sha256 f.content = baseHash ∧ Text.utf8? f.content = some text ∧
        EditsTo edits text new ∧ t'.node abs = some (.file { content := Text.utf8 new, readable := true })) ∧
    (∀ text done e rest next, textSize text ≤ maxTextBytes → edits = done ++ e :: rest → EditsTo done text next →
      textSize next ≤ maxTextBytes ∧
      ∀ pieces, CutAt e.oldText.toList next pieces → e.Fits pieces →
        SizesExact (textSize next) (replacedCount e pieces) (textSize e.oldText.toList) (textSize e.newText.toList)
          (textSize (e.newText.toList.intercalate pieces)) ∧
        ∀ place, applyEdit rel place e next = .error (.new .invalidRequest (place ++ "resulting file would exceed " ++
          maxTextBytes.repr ++ " bytes")) ↔ maxTextBytes < textSize (e.newText.toList.intercalate pieces)) ∧
    (∀ abs text, server.workspace.resolve t rel = .ok abs → HoldsText t abs text →
      (∀ done rest e next err, FailsAt rel edits done rest e text next err →
        (∀ es p t', Prog.Run (TreeStep server) (edit server.sha256 requestId rel baseHash edits).run t es p t' →
          t' = t ∧ (∀ ev ∈ es, ∃ c, ev.cmd = .fs c) ∧ ∀ o, p = .pure o → ∃ err', o = .error err') ∧
        (baseHash = hashBytes server.sha256 (Text.utf8 text) → ∀ es o t',
          Prog.Run (SureStep server) (edit server.sha256 requestId rel baseHash edits).run t es (.pure o) t' →
            o = .error err)) ∧
      (EditsTo edits text text →
        ∀ es p t', Prog.Run (TreeStep server) (edit server.sha256 requestId rel baseHash edits).run t es p t' →
          t' = t ∧ (∀ ev ∈ es, ∃ c, ev.cmd = .fs c) ∧ ∀ o, p = .pure o → ∃ err', o = .error err')) := by
  have hchecked := checked_of_checkEdits hchecks
  refine ⟨fun es result t' hrun => ?_, fun text done e rest next hsize hedits hdone => ⟨hdone.size hsize, ?_⟩,
    fun abs text hresolve htext => ⟨fun done rest e next err hfails => ⟨fun es p t' hrun => ?_, ?_⟩,
      fun hto es p t' hrun => ?_⟩⟩
  · obtain ⟨abs, f, text, new, hresolve, hnode, hbase, htext, hsize, happly, hnew⟩ := (ensures_edit.run hrun).done
    exact ⟨abs, f, text, new, hresolve, hnode, hbase, htext, editsTo_of_applyEdits hchecked hsize happly, hnew⟩
  · intro pieces hcut hfits
    have he : e.Checked := hchecked e (by simp [hedits])
    refine ⟨sizesExact_of_cut he (hdone.size hsize) hcut hfits, fun place => ?_⟩
    rw [applyEdit_fits he (hdone.size hsize) hcut hfits]
    split
    · next hlarge => simpa using hlarge
    · next hsmall => simpa using hsmall
  · refine run_learns_false (learns_edit_refused fun abs' f new hresolve' hstat hnew => ?_) hrun
    have happly := (applyEdits_of_edited hresolve htext hresolve' hstat hnew).1
    cases (applyEdits_of_failsAt hchecked htext.2 hfails).symm.trans happly
  · rintro rfl es o t' hrun
    exact ((gives_edit_error hchecks hresolve htext (applyEdits_of_failsAt hchecked htext.2 hfails)).run hrun).1
  · refine run_learns_false (learns_edit_refused fun abs' f new hresolve' hstat hnew => ?_) hrun
    obtain ⟨happly, hhash⟩ := applyEdits_of_edited hresolve htext hresolve' hstat hnew
    obtain rfl := Except.ok.inj ((applyEdits_of_editsTo hchecked htext.2 hto).symm.trans happly)
    exact hhash rfl

end

/-! Two edits, the second of which also replaces what the first has put in. -/

/-- A digest that tells the lengths of files. -/
def lengthDigest : Sha256 := fun bytes _ => UInt8.ofNat bytes.length

def lengthServer : Server := { homeServer with sha256 := lengthDigest }

def noteTree : Tree :=
  homeTree.set ["note", "ws"] (some (.file { content := Text.utf8 "ab".toList, readable := true })) rfl

def noteEdits : List EditSpec := [⟨"a", "bb", false⟩, ⟨"b", "c", true⟩]

theorem noteEdits_pass : checkEdits noteEdits = .ok () := by decide +kernel

theorem edit_means_its_replacements_note :
    ∃ es result t', Prog.Run (TreeStep lengthServer)
        (edit lengthDigest "r" "note" (hashBytes lengthDigest (Text.utf8 "ab".toList)) noteEdits).run noteTree es
        (.pure (.ok result)) t' ∧
      ∃ abs f text new, lengthServer.workspace.resolve noteTree "note" = .ok abs ∧ noteTree.node abs = some (.file f) ∧
        hashBytes lengthDigest f.content = hashBytes lengthDigest (Text.utf8 "ab".toList) ∧
        Text.utf8? f.content = some text ∧ EditsTo noteEdits text new ∧
        t'.node abs = some (.file { content := Text.utf8 new, readable := true }) := by
  have h : ((Prog.drive (ServerCmd.exec homeWorkspace lengthDigest) (List.replicate 16 steady)
      (edit lengthDigest "r" "note" (hashBytes lengthDigest (Text.utf8 "ab".toList)) noteEdits).run
      (homeState noteTree)).map fun y => (y.2.1.result?.bind Except.toOption).isSome) = some true := by decide +kernel
  obtain ⟨⟨es, p, s'⟩, hdrive, hend⟩ := Option.map_eq_some_iff.mp h
  obtain ⟨result, hresult⟩ := Option.isSome_iff_exists.mp hend
  obtain ⟨o, ho, hok⟩ := Option.bind_eq_some_iff.mp hresult
  obtain rfl : p = .pure o := Prog.eq_pure_of_result? ho
  have hok' : o = .ok result := by
    cases o with
    | ok a => rw [Option.some.inj hok]
    | error e => cases hok
  subst hok'
  have hsteady : ∀ ch ∈ List.replicate 16 steady, ch.fs.Truthful := by
    intro ch hch
    rw [List.eq_of_mem_replicate hch]
    simp [FsChoice.Truthful, steady]
  have hrun : Prog.Run (TreeStep lengthServer)
      (edit lengthDigest "r" "note" (hashBytes lengthDigest (Text.utf8 "ab".toList)) noteEdits).run noteTree es
      (.pure (.ok result)) s'.tree :=
    run_tree (Prog.run_of_drive (fun c ch r s s' hch he => ⟨ch, hch, he⟩) hsteady hdrive)
  exact ⟨es, result, s'.tree, hrun,
    (edit_means_its_replacements noteEdits_pass lengthServer noteTree "r" "note" _).1 es result s'.tree hrun⟩

end RemoteWorkspace
