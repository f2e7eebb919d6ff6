import RemoteWorkspace.Lib.Text
import RemoteWorkspace.Protocol
import RemoteWorkspace.Store.Log

/-!
# The log files, byte by byte

How `store.rs` reads a log (`read_lines`, `parse_log_line_strict`) and repairs
its end (`truncate_trailing_garbage`, `append_missing_newline`), for any record
type with a format (`ObjectFormat`). `loadLog_logFile` connects this with the
`LogFile` that the store is modelled on; `torn_tail_repaired` is what it comes
to for a file whose last write was cut short at any byte.

The system calls that repair the file succeed here. A path is text as `{:?}`
displays it.
-/

namespace RemoteWorkspace

open Text

structure LineEntry where
  /-- Empty where the bytes are not valid UTF-8. -/
  text : List Char
  startOffset : Nat
  hasNewline : Bool
  utf8Ok : Bool
  rawLen : Nat
  deriving DecidableEq, Repr

def bytesToText (bytes : List UInt8) : List Char × Bool :=
  match utf8? bytes with
  | some cs => (cs, true)
  | none => ([], false)

def lineEntry (startOffset : Nat) (raw : List UInt8) (hasNewline : Bool) : LineEntry where
  text := (bytesToText raw).1
  startOffset := startOffset
  hasNewline := hasNewline
  utf8Ok := (bytesToText raw).2
  rawLen := raw.length

/-- The lines of the bytes from an offset on. -/
def readLinesFrom (start : Nat) (bytes : List UInt8) : List LineEntry :=
  if _h : bytes = [] then []
  else
    match bytes.idxOf? newline with
    | some i => lineEntry start (bytes.take i) true :: readLinesFrom (start + i + 1) (bytes.drop (i + 1))
    | none => [lineEntry start bytes false]
termination_by bytes.length
decreasing_by
  have := List.length_pos_iff.mpr _h
  simp only [List.length_drop]
  omega

def readLines (bytes : List UInt8) : List LineEntry := readLinesFrom 0 bytes

/-- The offset behind the last line that a newline ends. -/
def validContentEndOffset (entries : List LineEntry) : Nat :=
  ((entries.filter (·.hasNewline)).map fun e => e.startOffset + e.rawLen + 1).max?.getD 0

inductive ParseResult (α : Type) where
  | parsed (a : α)
  | skippedCrashTruncated
  | skippedBlank

section

variable {α : Type} (F : ObjectFormat α) (path : String)

def parseLogLineStrict (entry : LineEntry) (idx : Nat) : Except ProtocolError (ParseResult α) :=
  let corrupted (what : String) : Except ProtocolError (ParseResult α) :=
    .error (.new .ioError ("corrupted log " ++ path ++ ": line " ++ (idx + 1).repr ++ what))
  if !entry.utf8Ok then
    if !entry.hasNewline then .ok .skippedCrashTruncated
    else corrupted " is not valid UTF-8; refusing to start"
  else
    let trimmed := trim entry.text
    if trimmed = [] then
      if !entry.hasNewline then .ok .skippedBlank
      else corrupted " is empty (jsonl records must not be blank)"
    else
      match F.parse trimmed with
      | .ok v => .ok (.parsed v)
      | .error e =>
        if !entry.hasNewline then .ok .skippedCrashTruncated
        else corrupted (" is not valid JSON (" ++ e ++ "); refusing to start with a damaged authoritative record")

/-- The loop over the lines of a log: its records, and whether a part of one
ends it. -/
def parseLines : Nat → List LineEntry → Except ProtocolError (List α × Bool)
  | _, [] => .ok ([], false)
  | idx, entry :: entries => do
    match ← parseLogLineStrict F path entry idx with
    | .parsed a =>
      let (as, needsTruncate) ← parseLines (idx + 1) entries
      .ok (a :: as, needsTruncate)
    | .skippedCrashTruncated =>
      let (as, _) ← parseLines (idx + 1) entries
      .ok (as, true)
    | .skippedBlank => parseLines (idx + 1) entries

def truncateTrailingGarbage (entries : List LineEntry) (bytes : List UInt8) : List UInt8 :=
  bytes.take (validContentEndOffset entries)

def appendMissingNewline (entries : List LineEntry) (bytes : List UInt8) : List UInt8 :=
  match entries.getLast? with
  | none => bytes
  | some last =>
    if last.hasNewline || trim last.text = [] || !last.utf8Ok then bytes else bytes ++ [newline]

/-- The records of a log file, and the file once its end is repaired. -/
def loadLog (bytes : List UInt8) : Except ProtocolError (List α × List UInt8) := do
  let entries := readLines bytes
  let (records, needsTruncate) ← parseLines F path 0 entries
  .ok (records, if needsTruncate then truncateTrailingGarbage entries bytes
    else appendMissingNewline entries bytes)

end

/-! ## The lines of a file -/

/-- The entries of lines that newlines end. -/
def lineEntries : Nat → List (List UInt8) → List LineEntry
  | _, [] => []
  | start, l :: ls => lineEntry start l true :: lineEntries (start + l.length + 1) ls

theorem idxOf?_newline {raw : List UInt8} (h : newline ∉ raw) (rest : List UInt8) :
    (raw ++ newline :: rest).idxOf? newline = some raw.length := by
  induction raw with
  | nil => simp [List.idxOf?_cons]
  | cons b raw ih =>
    obtain ⟨hb, hraw⟩ := not_or.mp (List.mem_cons.not.mp h)
    rw [List.cons_append, List.idxOf?_cons, if_neg (by simpa using Ne.symm hb), ih hraw]
    rfl

theorem readLinesFrom_nil (start : Nat) : readLinesFrom start [] = [] := by
  rw [readLinesFrom, dif_pos rfl]

theorem readLinesFrom_line {raw : List UInt8} (h : newline ∉ raw) (start : Nat) (rest : List UInt8) :
    readLinesFrom start (raw ++ newline :: rest) =
      lineEntry start raw true :: readLinesFrom (start + raw.length + 1) rest := by
  rw [readLinesFrom, dif_neg (by simp), idxOf?_newline h]
  simp

theorem readLinesFrom_tail {raw : List UInt8} (h : newline ∉ raw) (hne : raw ≠ []) (start : Nat) :
    readLinesFrom start raw = [lineEntry start raw false] := by
  rw [readLinesFrom, dif_neg hne, List.idxOf?_eq_none_iff.mpr h]

theorem readLinesFrom_joinLines {ls : List (List UInt8)} (hls : ∀ l ∈ ls, newline ∉ l) (start : Nat)
    (rest : List UInt8) : readLinesFrom start (joinLines ls ++ rest) =
      lineEntries start ls ++ readLinesFrom (start + (joinLines ls).length) rest := by
  induction ls generalizing start with
  | nil => rfl
  | cons l ls ih =>
    rw [joinLines_cons, List.append_assoc, List.cons_append, readLinesFrom_line (hls l List.mem_cons_self),
      ih fun l hl => hls l (List.mem_cons_of_mem _ hl)]
    have hlen : start + l.length + 1 + (joinLines ls).length =
        start + (l ++ newline :: joinLines ls).length := by
      simp only [List.length_append, List.length_cons]
      omega
    rw [hlen]
    rfl

theorem mem_lineEntries {ls : List (List UInt8)} {start : Nat} {e : LineEntry} (h : e ∈ lineEntries start ls) :
    e.hasNewline = true ∧ e.startOffset + e.rawLen + 1 ≤ start + (joinLines ls).length := by
  induction ls generalizing start with
  | nil => cases h
  | cons l ls ih =>
    simp only [joinLines_cons, List.length_append, List.length_cons]
    rcases List.mem_cons.mp h with rfl | h
    · exact ⟨rfl, by simp only [lineEntry]; omega⟩
    · obtain ⟨hnl, hle⟩ := ih h
      exact ⟨hnl, by omega⟩

theorem exists_last_lineEntry {ls : List (List UInt8)} (hne : ls ≠ []) (start : Nat) :
    ∃ e ∈ lineEntries start ls, e.startOffset + e.rawLen + 1 = start + (joinLines ls).length := by
  induction ls generalizing start with
  | nil => exact absurd rfl hne
  | cons l ls ih =>
    simp only [joinLines_cons, List.length_append, List.length_cons]
    by_cases hls : ls = []
    · subst hls
      exact ⟨_, List.mem_cons_self, by simp only [lineEntry, joinLines_nil, List.length_nil]; omega⟩
    · obtain ⟨e, he, heq⟩ := ih hls (start + l.length + 1)
      exact ⟨e, List.mem_cons_of_mem _ he, by omega⟩

/-- What is cut off a file is what follows its last newline. -/
theorem validContentEndOffset_append {ls : List (List UInt8)} {entries : List LineEntry}
    (h : ∀ e ∈ entries, e.hasNewline = false) :
    validContentEndOffset (lineEntries 0 ls ++ entries) = (joinLines ls).length := by
  have hfilter : (lineEntries 0 ls ++ entries).filter (·.hasNewline) = lineEntries 0 ls := by
    rw [List.filter_append, List.filter_eq_self.mpr fun e he => (mem_lineEntries he).1,
      List.filter_eq_nil_iff.mpr fun e he => by simp [h e he], List.append_nil]
  rw [validContentEndOffset, hfilter]
  by_cases hls : ls = []
  · subst hls
    rfl
  · obtain ⟨e, he, heq⟩ := exists_last_lineEntry hls 0
    have hmax : ((lineEntries 0 ls).map fun e => e.startOffset + e.rawLen + 1).max? =
        some (0 + (joinLines ls).length) := by
      rw [List.max?_eq_some_iff]
      refine ⟨heq ▸ List.mem_map_of_mem he, fun n hn => ?_⟩
      obtain ⟨e', he', rfl⟩ := List.mem_map.mp hn
      exact (mem_lineEntries he').2
    rw [hmax, Option.getD_some, Nat.zero_add]

/-! ## What a line is read as -/

section

variable {α : Type} (F : ObjectFormat α) (path : String)

/-- The record on a line that a newline ends. -/
def lineRecord (line : List UInt8) : Option α :=
  match utf8? line with
  | none => none
  | some cs => if trim cs = [] then none else (F.parse (trim cs)).toOption

/-- What the bytes behind the last newline are: blank, a part of a record's
text, or all of it. -/
def tailOf (rest : List UInt8) : Tail α :=
  match utf8? rest with
  | none => .fragment
  | some cs =>
    if trim cs = [] then .none
    else
      match F.parse (trim cs) with
      | .ok a => .whole a
      | .error _ => .fragment

theorem parseLogLineStrict_line_ok {line : List UInt8} {a : α} (h : lineRecord F line = some a) (start idx : Nat) :
    parseLogLineStrict F path (lineEntry start line true) idx = .ok (.parsed a) := by
  unfold lineRecord at h
  split at h
  · cases h
  · rename_i cs hcs
    split at h
    · cases h
    · rename_i hblank
      cases hparse : F.parse (trim cs) with
      | ok v =>
        rw [hparse] at h
        cases h
        simp [parseLogLineStrict, lineEntry, bytesToText, hcs, hblank, hparse]
      | error e =>
        rw [hparse] at h
        cases h

theorem parseLogLineStrict_line_error {line : List UInt8} (h : lineRecord F line = none) (start idx : Nat) :
    ∃ e, parseLogLineStrict F path (lineEntry start line true) idx = .error e := by
  unfold lineRecord at h
  split at h
  · rename_i hcs
    simp [parseLogLineStrict, lineEntry, bytesToText, hcs]
  · rename_i cs hcs
    split at h
    · rename_i hblank
      simp [parseLogLineStrict, lineEntry, bytesToText, hcs, hblank]
    · rename_i hblank
      cases hparse : F.parse (trim cs) with
      | ok v =>
        rw [hparse] at h
        cases h
      | error e => simp [parseLogLineStrict, lineEntry, bytesToText, hcs, hblank, hparse]

/-- No unended line is refused. -/
theorem parseLogLineStrict_tail (rest : List UInt8) (start idx : Nat) :
    parseLogLineStrict F path (lineEntry start rest false) idx =
      .ok (match tailOf F rest with
        | .none => .skippedBlank
        | .fragment => .skippedCrashTruncated
        | .whole a => .parsed a) := by
  unfold tailOf
  cases hcs : utf8? rest with
  | none => simp [parseLogLineStrict, lineEntry, bytesToText, hcs]
  | some cs =>
    by_cases hblank : trim cs = []
    · simp [parseLogLineStrict, lineEntry, bytesToText, hcs, hblank]
    · cases hparse : F.parse (trim cs) <;>
        simp [parseLogLineStrict, lineEntry, bytesToText, hcs, hblank, hparse]

variable {F}

/-! ## Loading -/

theorem parseLines_cons (idx : Nat) (entry : LineEntry) (entries : List LineEntry) :
    parseLines F path idx (entry :: entries) =
      match parseLogLineStrict F path entry idx with
      | .error e => .error e
      | .ok (.parsed a) => (parseLines F path (idx + 1) entries).map fun r => (a :: r.1, r.2)
      | .ok .skippedCrashTruncated => (parseLines F path (idx + 1) entries).map fun r => (r.1, true)
      | .ok .skippedBlank => parseLines F path (idx + 1) entries := by
  rw [parseLines]
  cases parseLogLineStrict F path entry idx with
  | error e => rfl
  | ok r => cases r <;> cases parseLines F path (idx + 1) entries <;> rfl

theorem parseLines_lineEntries {ls : List (List UInt8)} {as : List α}
    (h : ls.map (lineRecord F) = as.map some) (start idx : Nat) (entries : List LineEntry) :
    parseLines F path idx (lineEntries start ls ++ entries) =
      (parseLines F path (idx + ls.length) entries).map fun r => (as ++ r.1, r.2) := by
  induction ls generalizing as start idx with
  | nil =>
    cases as with
    | nil =>
      rw [List.length_nil, Nat.add_zero, lineEntries, List.nil_append]
      cases parseLines F path idx entries <;> rfl
    | cons a as => cases h
  | cons l ls ih =>
    cases as with
    | nil => cases h
    | cons a as =>
      obtain ⟨hl, hls⟩ := List.cons.inj h
      rw [lineEntries, List.cons_append, parseLines_cons, parseLogLineStrict_line_ok F path hl start idx]
      simp only
      rw [ih hls, List.length_cons, Nat.add_right_comm idx 1, Nat.add_assoc idx]
      cases parseLines F path (idx + (ls.length + 1)) entries <;> rfl

theorem parseLines_error {entry : LineEntry} {entries : List LineEntry}
    (h : ∀ idx, ∃ e, parseLogLineStrict F path entry idx = .error e) (hmem : entry ∈ entries) (idx : Nat) :
    ∃ e, parseLines F path idx entries = .error e := by
  induction entries generalizing idx with
  | nil => cases hmem
  | cons x entries ih =>
    rcases List.mem_cons.mp hmem with rfl | hmem
    · obtain ⟨e, he⟩ := h idx
      exact ⟨e, by rw [parseLines_cons, he]⟩
    · obtain ⟨e, he⟩ := ih hmem (idx + 1)
      rw [parseLines_cons, he]
      cases parseLogLineStrict F path x idx with
      | error e' => exact ⟨e', rfl⟩
      | ok r => cases r <;> exact ⟨e, rfl⟩

/-- The entries of a file. -/
theorem readLines_joinLines {ls : List (List UInt8)} {rest : List UInt8} (hls : ∀ l ∈ ls, newline ∉ l)
    (hrest : newline ∉ rest) : readLines (joinLines ls ++ rest) =
      lineEntries 0 ls ++ if rest = [] then [] else [lineEntry (joinLines ls).length rest false] := by
  rw [readLines, readLinesFrom_joinLines hls, Nat.zero_add]
  split
  · rename_i hnil
    rw [hnil, readLinesFrom_nil]
  · rename_i hne
    rw [readLinesFrom_tail hrest hne]

theorem loadLog_of_parseLines {bytes : List UInt8} {as : List α} {needsTruncate : Bool}
    (h : parseLines F path 0 (readLines bytes) = .ok (as, needsTruncate)) :
    loadLog F path bytes = .ok (as, if needsTruncate then truncateTrailingGarbage (readLines bytes) bytes
      else appendMissingNewline (readLines bytes) bytes) := by
  simp only [loadLog, h]
  rfl

theorem blank_of_tailOf {rest : List UInt8} (h : tailOf F rest = .none) :
    trim (bytesToText rest).1 = [] ∨ (bytesToText rest).2 = false := by
  unfold tailOf at h
  unfold bytesToText
  cases hcs : utf8? rest with
  | none => exact .inr rfl
  | some cs =>
    rw [hcs] at h
    by_cases hblank : trim cs = []
    · exact .inl hblank
    · simp only [if_neg hblank] at h
      split at h <;> cases h

theorem not_blank_of_tailOf {rest : List UInt8} {a : α} (h : tailOf F rest = .whole a) :
    ¬ (trim (bytesToText rest).1 = [] ∨ (bytesToText rest).2 = false) := by
  unfold tailOf at h
  unfold bytesToText
  cases hcs : utf8? rest with
  | none => rw [hcs] at h; cases h
  | some cs =>
    rw [hcs] at h
    by_cases hblank : trim cs = []
    · simp only [if_pos hblank] at h
      cases h
    · simpa using hblank

/-- A file all of whose lines are records loads as these and what its end
holds, and its end is repaired. -/
theorem loadLog_joinLines {ls : List (List UInt8)} {rest : List UInt8} {as : List α}
    (hls : ∀ l ∈ ls, newline ∉ l) (hrest : newline ∉ rest) (h : ls.map (lineRecord F) = as.map some) :
    loadLog F path (joinLines ls ++ rest) = .ok (as ++ (tailOf F rest).toList,
      match tailOf F rest with
      | .none => joinLines ls ++ rest
      | .fragment => joinLines ls
      | .whole _ => joinLines ls ++ rest ++ [newline]) := by
  have hread := readLines_joinLines hls hrest
  by_cases hnil : rest = []
  · subst hnil
    rw [if_pos rfl] at hread
    have hparse : parseLines F path 0 (readLines (joinLines ls ++ [])) = .ok (as, false) := by
      rw [hread, parseLines_lineEntries path h]
      simp [parseLines, Except.map]
    have hkeep : appendMissingNewline (readLines (joinLines ls ++ [])) (joinLines ls ++ []) =
        joinLines ls ++ [] := by
      rw [hread, List.append_nil, appendMissingNewline]
      split
      · rfl
      · rename_i last hlast
        rw [(mem_lineEntries (List.mem_of_getLast? hlast)).1]
        rfl
    have htail : tailOf F [] = .none := rfl
    rw [loadLog_of_parseLines path hparse, htail, Tail.toList_none, List.append_nil as]
    exact congrArg (fun bytes => Except.ok (as, bytes)) hkeep
  · rw [if_neg hnil] at hread
    have hlast := parseLogLineStrict_tail F path rest (joinLines ls).length ls.length
    have hparse : ∀ r, parseLogLineStrict F path (lineEntry (joinLines ls).length rest false) ls.length = .ok r →
        parseLines F path 0 (readLines (joinLines ls ++ rest)) =
          match r with
          | .parsed a => .ok (as ++ [a], false)
          | .skippedCrashTruncated => .ok (as, true)
          | .skippedBlank => .ok (as, false) := by
      intro r hr
      rw [hread, parseLines_lineEntries path h, Nat.zero_add, parseLines_cons, hr]
      cases r <;> simp [parseLines, Except.map]
    have happend : appendMissingNewline (readLines (joinLines ls ++ rest)) (joinLines ls ++ rest) =
        if trim (bytesToText rest).1 = [] ∨ (bytesToText rest).2 = false then joinLines ls ++ rest
        else joinLines ls ++ rest ++ [newline] := by
      rw [hread, appendMissingNewline, List.getLast?_concat]
      by_cases hblank : trim (bytesToText rest).1 = [] <;> cases hutf8 : (bytesToText rest).2 <;>
        simp [lineEntry, hblank, hutf8]
    cases htail : tailOf F rest with
    | none =>
      rw [htail] at hlast
      rw [loadLog_of_parseLines path (hparse _ hlast), happend, if_pos (blank_of_tailOf htail)]
      simp
    | whole a =>
      rw [htail] at hlast
      rw [loadLog_of_parseLines path (hparse _ hlast), happend, if_neg (not_blank_of_tailOf htail)]
      simp
    | fragment =>
      rw [htail] at hlast
      have hcut : truncateTrailingGarbage (readLines (joinLines ls ++ rest)) (joinLines ls ++ rest) =
          joinLines ls := by
        rw [truncateTrailingGarbage, hread, validContentEndOffset_append (by simp [lineEntry]), List.take_left]
      rw [loadLog_of_parseLines path (hparse _ hlast)]
      simpa using hcut

/-- A file with a line that is no record is refused. -/
theorem loadLog_refuses {before line : List UInt8} (hbefore : before = [] ∨ before.getLast? = some newline)
    (hline : newline ∉ line) (h : lineRecord F line = none) (after : List UInt8) :
    ∃ e, loadLog F path (before ++ line ++ newline :: after) = .error e := by
  have hls : ∀ l ∈ (splitLines before).1, newline ∉ l := (splitLines_spec before).2.1
  have hread : readLines (before ++ line ++ newline :: after) =
      lineEntries 0 (splitLines before).1 ++ lineEntry before.length line true ::
        readLinesFrom (before.length + line.length + 1) after := by
    conv_lhs => rw [eq_joinLines hbefore]
    rw [readLines, List.append_assoc, readLinesFrom_joinLines hls, readLinesFrom_line hline, Nat.zero_add,
      ← eq_joinLines hbefore]
  have hmem : lineEntry before.length line true ∈ readLines (before ++ line ++ newline :: after) := by
    rw [hread]
    simp
  obtain ⟨e, he⟩ := parseLines_error path (fun idx => parseLogLineStrict_line_error F path h _ idx) hmem 0
  exact ⟨e, by simp only [loadLog, he]; rfl⟩

/-! ## The file as the store sees it -/

/-- The log that a file holds. -/
def logFile (F : ObjectFormat α) (bytes : List UInt8) : LogFile α where
  lines := (splitLines bytes).1.map (lineRecord F)
  tail := tailOf F (splitLines bytes).2

theorem lineRecord_of_tailOf {rest : List UInt8} {a : α} (h : tailOf F rest = .whole a) :
    lineRecord F rest = some a := by
  unfold tailOf at h
  unfold lineRecord
  split at h
  · cases h
  · split at h
    · cases h
    · rename_i hblank
      split at h
      · rename_i hparse
        cases h
        simp [hblank, hparse, Except.toOption]
      · cases h

theorem exists_records {ls : List (List UInt8)} (h : (ls.map (lineRecord F)).all Option.isSome = true) :
    ls.map (lineRecord F) = ((ls.map (lineRecord F)).filterMap id).map some := by
  induction ls with
  | nil => rfl
  | cons l ls ih =>
    rw [List.map_cons, List.all_cons, Bool.and_eq_true] at h
    obtain ⟨a, ha⟩ := Option.isSome_iff_exists.mp h.1
    have hcons : (some a :: ls.map (lineRecord F)).filterMap id = a :: (ls.map (lineRecord F)).filterMap id := rfl
    rw [List.map_cons, ha, hcons, List.map_cons, ← ih h.2]

/-- Whatever its bytes, a log file is refused exactly if the log that it holds does
not read; otherwise its records are read, and what is left holds the repaired
log. -/
theorem loadLog_logFile (F : ObjectFormat α) (path : String) (bytes : List UInt8) :
    match (logFile F bytes).read with
    | none => ∃ e, loadLog F path bytes = .error e
    | some as => ∃ repaired, loadLog F path bytes = .ok (as, repaired) ∧
        logFile F repaired = (logFile F bytes).repair := by
  obtain ⟨hjoin, hls, hrest⟩ := splitLines_spec bytes
  by_cases hall : ((splitLines bytes).1.map (lineRecord F)).all Option.isSome = true
  · have hread : (logFile F bytes).read = some (((splitLines bytes).1.map (lineRecord F)).filterMap id ++
        (tailOf F (splitLines bytes).2).toList) := LogFile.read_eq_some.mpr ⟨hall, rfl⟩
    have hload := loadLog_joinLines path hls hrest (exists_records hall)
    rw [hjoin] at hload
    rw [hread]
    refine ⟨_, hload, ?_⟩
    cases htail : tailOf F (splitLines bytes).2 with
    | none => simp [LogFile.repair, logFile, htail]
    | fragment =>
      have hsplit := splitLines_joinLines hls (List.not_mem_nil (a := newline))
      rw [List.append_nil] at hsplit
      simp only [LogFile.repair, logFile, htail, hsplit]
      rfl
    | whole a =>
      have hnl : ∀ l ∈ (splitLines bytes).1 ++ [(splitLines bytes).2], newline ∉ l := by
        simpa [or_imp, forall_and] using ⟨hls, hrest⟩
      have hsplit := splitLines_joinLines hnl (List.not_mem_nil (a := newline))
      have hbytes : bytes ++ [newline] = joinLines ((splitLines bytes).1 ++ [(splitLines bytes).2]) ++ [] := by
        rw [joinLines_append, joinLines_cons, joinLines_nil, List.append_nil, ← List.append_assoc, hjoin]
      simp only [LogFile.repair, logFile, htail, hbytes, hsplit, List.map_append, List.map_singleton,
        lineRecord_of_tailOf htail]
      rfl
  · have hread : (logFile F bytes).read = none := if_neg hall
    rw [hread]
    obtain ⟨r, hr, hnone⟩ := not_forall₂.mp (List.all_eq_true.not.mp hall)
    obtain ⟨l, hl, rfl⟩ := List.mem_map.mp hr
    obtain ⟨A, B, hAB⟩ := List.append_of_mem hl
    have := loadLog_refuses path (joinLines_ends A) (hls l hl) (by simpa using hnone)
      (joinLines B ++ (splitLines bytes).2)
    have hbytes : joinLines A ++ l ++ newline :: (joinLines B ++ (splitLines bytes).2) = bytes := by
      conv_rhs => rw [← hjoin, hAB]
      simp [joinLines_append]
    rwa [hbytes] at this

/-! ## A torn write -/

/-- The bytes of a line that are no record: not text, blank, or not the text of
one. -/
def Damaged (F : ObjectFormat α) (line : List UInt8) : Prop :=
  utf8? line = none ∨
    ∃ cs, utf8? line = some cs ∧ (trim cs = [] ∨ ∃ e, F.parse (trim cs) = .error e)

theorem lineRecord_of_damaged {line : List UInt8} (h : Damaged F line) : lineRecord F line = none := by
  unfold lineRecord
  rcases h with h | ⟨cs, hcs, h⟩
  · rw [h]
  · rw [hcs]
    rcases h with h | ⟨e, he⟩
    · exact if_pos h
    · simp [he, Except.toOption]

theorem lineRecord_bytes (F : ObjectFormat α) (a : α) : lineRecord F (F.bytes a) = some a := by
  obtain ⟨cs, hcs⟩ := F.object a
  have hne : F.text a ≠ [] := by simp [hcs]
  simp [lineRecord, ObjectFormat.bytes, F.parse_text, hne, Except.toOption]

/-- A part of a record's text is no record. -/
theorem tailOf_torn {a : α} {q : List UInt8} (hne : q ≠ []) (h : q <+: F.bytes a)
    (hlt : q.length < (F.bytes a).length) : tailOf F q = .fragment := by
  unfold tailOf
  cases hcs : utf8? q with
  | none => rfl
  | some cs =>
    have hq := utf8_of_utf8? hcs
    subst hq
    have hprefix : cs <+: F.text a := prefix_of_utf8_prefix h
    have hshort : cs ≠ F.text a := by
      rintro rfl
      exact absurd hlt (lt_irrefl _)
    obtain ⟨hblank, e, he⟩ := F.trim_of_torn (mt utf8_eq_nil.mpr hne) hprefix hshort
    simp [hblank, he]

theorem tailOf_bytes (F : ObjectFormat α) (a : α) : tailOf F (F.bytes a) = .whole a := by
  simp [tailOf, ObjectFormat.bytes, F.parse_text, F.text_ne_nil]

theorem map_lineRecord_bytes (F : ObjectFormat α) (as : List α) :
    (as.map F.bytes).map (lineRecord F) = as.map some := by
  rw [List.map_map]
  exact List.map_congr_left fun a _ => lineRecord_bytes F a

theorem newline_not_mem_lines {F : ObjectFormat α} {as : List α} : ∀ l ∈ as.map F.bytes, newline ∉ l := by
  rintro l hl
  obtain ⟨a, -, rfl⟩ := List.mem_map.mp hl
  exact F.newline_not_mem_bytes a

/-- A log that was written line by line is read back, and left as it is. -/
theorem loadLog_lines (F : ObjectFormat α) (path : String) (as : List α) :
    loadLog F path (F.lines as) = .ok (as, F.lines as) := by
  have := loadLog_joinLines path newline_not_mem_lines (List.not_mem_nil (a := newline))
    (map_lineRecord_bytes F as)
  rw [List.append_nil] at this
  rw [ObjectFormat.lines, this]
  simp [tailOf, utf8?, trim, trimStart, trimEnd]

/-- A log whose last write was cut short anywhere is read as if it had not been
made, or made whole if its text is complete, and is left as that log. -/
theorem loadLog_torn (F : ObjectFormat α) (path : String) (as : List α) {a : α} {q : List UInt8}
    (h : q <+: F.line a) : loadLog F path (F.lines as ++ q) =
      if q.length < (F.bytes a).length then .ok (as, F.lines as) else .ok (as ++ [a], F.lines (as ++ [a])) := by
  have hlast : F.lines (as ++ [a]) = F.lines as ++ F.line a := by
    rw [F.lines_append]
    simp [ObjectFormat.lines, ObjectFormat.line]
  rcases List.prefix_concat_iff.mp h with rfl | hq
  · rw [if_neg (by simp), ← loadLog_lines F path, hlast]
    rfl
  · have hjoin := fun hnl : newline ∉ q => loadLog_joinLines path newline_not_mem_lines hnl
      (map_lineRecord_bytes F as)
    have hnl : newline ∉ q := fun hmem => F.newline_not_mem_bytes a (hq.subset hmem)
    rw [← ObjectFormat.lines] at hjoin
    by_cases hlt : q.length < (F.bytes a).length
    · rw [if_pos hlt]
      by_cases hne : q = []
      · rw [hne, List.append_nil, loadLog_lines]
      · rw [hjoin hnl, tailOf_torn hne hq hlt]
        simp
    · obtain rfl : q = F.bytes a := hq.eq_of_length_le (Nat.not_lt.mp hlt)
      rw [if_neg hlt, hjoin hnl, tailOf_bytes, hlast]
      simp only [Tail.toList_whole, ObjectFormat.line, List.append_assoc]

/-- A torn tail is repaired exactly: what was appended before it is read, and
the record itself once its text is complete; the repaired file ends where a
next line can begin, and reads back with what is appended to it. And a line
that a newline ends is never passed over. -/
theorem torn_tail_repaired (F : ObjectFormat α) (path : String) :
    (∀ (as : List α) (a : α) (q : List UInt8), q <+: F.line a →
      let kept := if q.length < (F.bytes a).length then as else as ++ [a]
      ∃ repaired, loadLog F path (F.lines as ++ q) = .ok (kept, repaired) ∧
        (repaired = [] ∨ repaired.getLast? = some newline) ∧
        ∀ more, loadLog F path (repaired ++ F.lines more) = .ok (kept ++ more, repaired ++ F.lines more)) ∧
    ∀ before line after : List UInt8, before = [] ∨ before.getLast? = some newline → newline ∉ line →
      Damaged F line → ∃ e, loadLog F path (before ++ line ++ newline :: after) = .error e := by
  refine ⟨fun as a q h => ?_, fun before line after hbefore hline hdamaged => ?_⟩
  · have hmore : ∀ as more, loadLog F path (F.lines as ++ F.lines more) =
        .ok (as ++ more, F.lines as ++ F.lines more) := fun as more => by
      rw [← F.lines_append, loadLog_lines]
    have hload := loadLog_torn F path as h
    by_cases hlt : q.length < (F.bytes a).length
    · rw [if_pos hlt] at hload
      rw [if_pos hlt]
      exact ⟨_, hload, joinLines_ends _, hmore as⟩
    · rw [if_neg hlt] at hload
      rw [if_neg hlt]
      exact ⟨_, hload, joinLines_ends _, hmore (as ++ [a])⟩
  · exact loadLog_refuses path hbefore hline (lineRecord_of_damaged hdamaged) after

end

/-! ## A log of one kind of record -/

def withdrawnOp1 : AnyOperationRecord := .aborted { operationId := "op-1", timestampMs := 5 }

def withdrawnText : List Char :=
  "\x7b\"record_kind\":\"aborted\",\"operation_id\":\"op-1\",\"timestamp_ms\":5\x7d".toList

/-- The format of this one record. -/
def withdrawnFormat : ObjectFormat { r : AnyOperationRecord // r = withdrawnOp1 } where
  text _ := withdrawnText
  parse cs := if cs = withdrawnText then .ok ⟨withdrawnOp1, rfl⟩ else .error "expected an aborted record"
  parse_text := fun ⟨_, h⟩ => by subst h; exact if_pos rfl
  newline_not_mem _ := by decide
  object _ := ⟨withdrawnText.tail.dropLast, by decide⟩
  parse_prefix _ _ _ hne := ⟨_, if_neg hne⟩

/-- A record of 64 bytes, cut off after the first 20. -/
theorem torn_tail_repaired_withdrawn : ∃ repaired,
    loadLog withdrawnFormat "log" (withdrawnFormat.lines [⟨withdrawnOp1, rfl⟩] ++
        (withdrawnFormat.line ⟨withdrawnOp1, rfl⟩).take 20) = .ok ([⟨withdrawnOp1, rfl⟩], repaired) ∧
      (repaired = [] ∨ repaired.getLast? = some newline) := by
  obtain ⟨repaired, hload, hends, -⟩ :=
    (torn_tail_repaired withdrawnFormat "log").1 [⟨withdrawnOp1, rfl⟩] ⟨withdrawnOp1, rfl⟩ _ (List.take_prefix 20 _)
  exact ⟨repaired, hload, hends⟩

end RemoteWorkspace
