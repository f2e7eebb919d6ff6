import RemoteWorkspace.Client.CommandLine
import RemoteWorkspace.Lib.Keyed

/-!
# The fleet file

The workspaces of a client, declared in one TOML file: reading and checking it
(`parse_fleet`), and the text with one workspace more (`check_addable` and the
part of `add_workspace_entry` that computes). TOML itself is the library's: a
`Toml` reads a text as a document, and what a document holds is a table.
-/

namespace RemoteWorkspace

/-! ## TOML -/

inductive Item
  | str (s : String)
  | table (inline : Bool) (entries : List (String × Item))
  | other

abbrev Table := List (String × Item)

def Table.get (t : Table) (k : String) : Option Item := (Keyed.get Prod.fst k t).map Prod.snd

def Table.insert (t : Table) (k : String) (x : Item) : Table := Keyed.put Prod.fst (k, x) t

theorem Table.get_insert (t : Table) (k k' : String) (x : Item) :
    (t.insert k x).get k' = if k' = k then some x else t.get k' := by
  simp only [Table.get, Table.insert, Keyed.get_put]
  split <;> rfl

def Item.asStr : Item → Option String
  | .str s => some s
  | .table _ _ | .other => none

/-- `as_table_like`: a table, or an inline table. -/
def Item.asTableLike : Item → Option Table
  | .table _ entries => some entries
  | .str _ | .other => none

/-- The two TOML libraries, on texts of the type `Text`. -/
structure Toml (Text : Type) where
  Document : Type
  empty : Text
  parse : Text → Except String Document
  contents : Document → Table
  /-- A table put into the table `workspaces`, which is made if it is missing. -/
  insert : Document → String → Table → Document
  print : Document → Text
  /-- What is said of a table that is not a `FleetFile`. -/
  schemaError : Table → String

/-- `contents` with a workspace more. -/
def insertWorkspace (contents : Table) (name : String) (entry : Table) : Table :=
  let workspaces := ((contents.get "workspaces").bind Item.asTableLike).getD []
  contents.insert "workspaces" (.table false (workspaces.insert name (.table false entry)))

/-- A document is printed as it is, an edit changes what it is asked to change,
no text is no table, and no table has a key twice. -/
structure Toml.Lawful {Text : Type} (T : Toml Text) : Prop where
  print : ∀ doc, ∃ doc', T.parse (T.print doc) = .ok doc' ∧ T.contents doc' = T.contents doc
  insert : ∀ doc name entry,
    ((T.contents doc).get "workspaces" = none ∨ ∃ ws, (T.contents doc).get "workspaces" = some (.table false ws)) →
      T.contents (T.insert doc name entry) = insertWorkspace (T.contents doc) name entry
  empty : ∃ doc, T.parse T.empty = .ok doc ∧ T.contents doc = []
  distinct : ∀ text doc workspaces, T.parse text = .ok doc →
    ((T.contents doc).get "workspaces").bind Item.asTableLike = some workspaces → Keyed.Distinct Prod.fst workspaces

/-! ## Reading -/

structure WorkspaceEntry where
  host : Option String
  remoteShell : Option RemoteShell
  root : String
  bin : Option String
  config : Option String
  stateBase : Option String
  label : Option String

/-- Where the server runs. -/
inductive Endpoint
  | local (serverBin root : String) (stateBase config : Option String)
  | ssh (host : String) (remoteShell : RemoteShell) (remoteBin root : String) (stateBase config : Option String)
  deriving DecidableEq

structure FleetWorkspace where
  endpoint : Endpoint
  label : Option String
  deriving DecidableEq

def RemoteShell.text : RemoteShell → String
  | .posix => "posix"
  | .powershell => "powershell"

def RemoteShell.ofText (s : String) : Option RemoteShell :=
  if s = "posix" then some .posix else if s = "powershell" then some .powershell else none

/-- A field that may be missing. -/
def optionalField {α : Type} (f : Item → Option α) (t : Table) (k : String) : Option (Option α) :=
  match t.get k with
  | none => some none
  | some x => (f x).map some

def entryFields : List String := ["host", "remote_shell", "root", "bin", "config", "state_base", "label"]

/-- The derived `Deserialize`, which refuses fields it does not know. -/
def WorkspaceEntry.decode (x : Item) : Option WorkspaceEntry := do
  let t ← x.asTableLike
  if t.all fun kv => kv.1 ∈ entryFields then
    let host ← optionalField Item.asStr t "host"
    let remoteShell ← optionalField (fun x => x.asStr.bind RemoteShell.ofText) t "remote_shell"
    let root ← (t.get "root").bind Item.asStr
    let bin ← optionalField Item.asStr t "bin"
    let config ← optionalField Item.asStr t "config"
    let stateBase ← optionalField Item.asStr t "state_base"
    let label ← optionalField Item.asStr t "label"
    some { host, remoteShell, root, bin, config, stateBase, label }
  else none

/-- The entries of a `FleetFile`, by name. -/
def decodeFleet (contents : Table) : Option (List (String × WorkspaceEntry)) :=
  if contents.all fun kv => kv.1 = "workspaces" then
    match contents.get "workspaces" with
    | none => some []
    | some x => do
      let entries ← (← x.asTableLike).mapM fun kv => (WorkspaceEntry.decode kv.2).map fun e => (kv.1, e)
      some (entries.insertionSort fun a b => a.1 ≤ b.1)
  else none

/-- The endpoint of an entry, and the shells of the hosts so far. -/
def WorkspaceEntry.endpoint (shells : List (String × RemoteShell)) (name : String) (e : WorkspaceEntry) :
    Except String (Endpoint × List (String × RemoteShell)) :=
  let bin := e.bin.getD "remote-workspace-server"
  match e.host with
  | some host =>
    let remoteShell := e.remoteShell.getD .posix
    let endpoint := Endpoint.ssh host remoteShell bin e.root e.stateBase e.config
    match Keyed.get Prod.fst host shells with
    | some previous =>
      if previous.2 ≠ remoteShell then
        .error ("SSH host '" ++ host ++ "' has conflicting remote_shell values: " ++ previous.2.text ++ " and " ++
          remoteShell.text)
      else .ok (endpoint, Keyed.put Prod.fst (host, remoteShell) shells)
    | none => .ok (endpoint, Keyed.put Prod.fst (host, remoteShell) shells)
  | none =>
    if e.remoteShell.isSome then .error ("workspace '" ++ name ++ "' sets remote_shell without an SSH host")
    else .ok (.local bin e.root e.stateBase e.config, shells)

/-- The loop of `parse_fleet`. -/
def checkEntries : List ((Option String × String) × String) → List (String × RemoteShell) →
    List (String × WorkspaceEntry) → Except String (List (String × FleetWorkspace))
  | _, _, [] => .ok []
  | seen, shells, (name, e) :: rest =>
    match Keyed.get Prod.fst (e.host, e.root) seen with
    | some prev =>
      .error ("workspaces '" ++ prev.2 ++ "' and '" ++ name ++
        "' address the same host and root; they would contend for the same server state lock")
    | none => do
      let (endpoint, shells) ← e.endpoint shells name
      let out ← checkEntries (((e.host, e.root), name) :: seen) shells rest
      .ok ((name, { endpoint, label := e.label }) :: out)

abbrev FleetMap := List (String × FleetWorkspace)

def FleetMap.get (m : FleetMap) (name : String) : Option FleetWorkspace := (Keyed.get Prod.fst name m).map Prod.snd

section

variable {Text : Type} (T : Toml Text)

def parseFleet (text : Text) : Except String FleetMap := do
  let doc ← T.parse text
  match decodeFleet (T.contents doc) with
  | none => .error (T.schemaError (T.contents doc))
  | some entries => checkEntries [] [] entries

/-! ## Adding -/

structure NewEntry where
  name : String
  host : String
  remoteShell : RemoteShell
  root : String
  bin : Option String
  label : Option String
  config : Option String
  stateBase : Option String

structure DeployError where
  code : String
  message : String
  deriving DecidableEq

def writeFailed (message : String) : DeployError := ⟨"fleet_write_failed", message⟩

def parseDocument (text : Text) : Except DeployError T.Document :=
  match T.parse text with
  | .ok doc => .ok doc
  | .error e => .error (writeFailed ("parse fleet config: " ++ e))

def checkAddable (text : Text) (entry : NewEntry) : Except DeployError Unit := do
  let doc ← parseDocument T text
  match ((T.contents doc).get "workspaces").bind Item.asTableLike with
  | none => .ok ()
  | some workspaces =>
    if (workspaces.get entry.name).isSome then
      .error ⟨"workspace_already_exists", "workspace '" ++ entry.name ++ "' already exists in the fleet"⟩
    else
      let same := workspaces.find? fun (_, x) =>
        match x.asTableLike with
        | none => false
        | some t =>
          (t.get "host").bind Item.asStr = some entry.host ∧ (t.get "root").bind Item.asStr = some entry.root
      match same with
      | some (existing, _) =>
        .error ⟨"duplicate_workspace_target", "workspace '" ++ existing ++ "' already targets " ++ entry.host ++ ":" ++
          entry.root ++ "; they would contend for the same server state lock"⟩
      | none => .ok ()

/-- The table of a new entry. -/
def NewEntry.table (entry : NewEntry) : Table :=
  let optional (k : String) (v : Option String) : Table := v.toList.map fun s => (k, .str s)
  [("host", .str entry.host), ("remote_shell", .str entry.remoteShell.text), ("root", .str entry.root)] ++
    optional "bin" entry.bin ++ optional "config" entry.config ++ optional "state_base" entry.stateBase ++
    optional "label" entry.label

/-- The part of `add_workspace_entry` between reading the file and writing it. -/
def addEntry (text : Text) (entry : NewEntry) : Except DeployError Text := do
  checkAddable T text entry
  let doc ← parseDocument T text
  match (T.contents doc).get "workspaces" with
  | some (.str _) | some .other | some (.table true _) => .error (writeFailed "`workspaces` is not a table")
  | none | some (.table false _) =>
    let newText := T.print (T.insert doc entry.name entry.table)
    match parseFleet T newText with
    | .error e => .error (writeFailed ("refusing to write an invalid fleet config: " ++ e))
    | .ok _ => .ok newText

end

/-! ## What the file says of a name -/

/-- The workspace of an entry, whatever the others are. -/
def WorkspaceEntry.workspace (e : WorkspaceEntry) : FleetWorkspace where
  endpoint :=
    match e.host with
    | some host =>
      .ssh host (e.remoteShell.getD .posix) (e.bin.getD "remote-workspace-server") e.root e.stateBase e.config
    | none => .local (e.bin.getD "remote-workspace-server") e.root e.stateBase e.config
  label := e.label

/-- The tables below `workspaces`. -/
def workspacesOf (contents : Table) : Table := ((contents.get "workspaces").bind Item.asTableLike).getD []

/-- The workspace that the contents of a document declare under a name. -/
def declared (contents : Table) (name : String) : Option FleetWorkspace :=
  ((workspacesOf contents).get name).bind fun x => (WorkspaceEntry.decode x).map WorkspaceEntry.workspace

theorem endpoint_eq {shells shells' : List (String × RemoteShell)} {name : String} {e : WorkspaceEntry}
    {endpoint : Endpoint} (h : e.endpoint shells name = .ok (endpoint, shells')) :
    endpoint = e.workspace.endpoint := by
  unfold WorkspaceEntry.endpoint at h
  unfold WorkspaceEntry.workspace
  cases hhost : e.host with
  | none =>
    rw [hhost] at h
    dsimp only at h
    split at h
    · cases h
    · cases h
      rfl
  | some host =>
    rw [hhost] at h
    dsimp only at h
    split at h
    · split at h
      · cases h
      · cases h
        rfl
    · cases h
      rfl

/-- The checks leave each entry as it is. -/
theorem checkEntries_ok {seen : List ((Option String × String) × String)} {shells : List (String × RemoteShell)}
    {entries : List (String × WorkspaceEntry)} {out : FleetMap} (h : checkEntries seen shells entries = .ok out) :
    out = entries.map fun x => (x.1, x.2.workspace) := by
  induction entries generalizing seen shells out with
  | nil => exact (Except.ok.inj h).symm
  | cons x rest ih =>
    obtain ⟨name, e⟩ := x
    rw [checkEntries] at h
    split at h
    · cases h
    · cases hend : e.endpoint shells name with
      | error err =>
        rw [hend] at h
        cases h
      | ok r =>
        obtain ⟨endpoint, shells'⟩ := r
        rw [hend] at h
        simp only [bind, Except.bind] at h
        split at h
        · cases h
        · next out' hout =>
          cases h
          rw [ih hout, endpoint_eq hend]
          rfl

theorem get_map {α β : Type} (f : α → β) (k : String) (xs : List (String × α)) :
    (Keyed.get Prod.fst k (xs.map fun x => (x.1, f x.2))).map Prod.snd = ((Keyed.get Prod.fst k xs).map Prod.snd).map f := by
  induction xs with
  | nil => rfl
  | cons x xs ih =>
    simp only [List.map_cons, Keyed.get_cons]
    split
    · rfl
    · exact ih

theorem get_mapM {α β : Type} {f : α → Option β} {xs : List (String × α)} {ys : List (String × β)}
    (h : xs.mapM (fun x => (f x.2).map fun y => (x.1, y)) = some ys) :
    ys.map Prod.fst = xs.map Prod.fst ∧
      ∀ k, (Keyed.get Prod.fst k ys).map Prod.snd = ((Keyed.get Prod.fst k xs).map Prod.snd).bind f := by
  induction xs generalizing ys with
  | nil =>
    cases h
    exact ⟨rfl, fun _ => rfl⟩
  | cons x xs ih =>
    rw [List.mapM_cons] at h
    obtain ⟨y, hy, h⟩ := Option.bind_eq_some_iff.mp h
    obtain ⟨ys', hys, h⟩ := Option.bind_eq_some_iff.mp h
    cases h
    obtain ⟨v, hv, rfl⟩ := Option.map_eq_some_iff.mp hy
    obtain ⟨hkeys, hget⟩ := ih hys
    refine ⟨by simp [hkeys], fun k => ?_⟩
    simp only [Keyed.get_cons]
    split
    · simp [hv]
    · exact hget k

theorem decodeFleet_get {contents : Table} {entries : List (String × WorkspaceEntry)}
    (h : decodeFleet contents = some entries) (hd : Keyed.Distinct Prod.fst (workspacesOf contents)) (name : String) :
    (Keyed.get Prod.fst name entries).map Prod.snd = ((workspacesOf contents).get name).bind WorkspaceEntry.decode := by
  unfold decodeFleet at h
  split at h
  · unfold workspacesOf at hd ⊢
    cases hitem : contents.get "workspaces" with
    | none =>
      rw [hitem] at h
      cases h
      rfl
    | some x =>
      rw [hitem] at h hd
      obtain ⟨ws, hws, h⟩ := Option.bind_eq_some_iff.mp h
      obtain ⟨unsorted, hunsorted, h⟩ := Option.bind_eq_some_iff.mp h
      cases h
      simp only [Option.bind_some, hws, Option.getD_some] at hd ⊢
      obtain ⟨hkeys, hget⟩ := get_mapM hunsorted
      have hdistinct : Keyed.Distinct Prod.fst unsorted := by
        rw [Keyed.Distinct, hkeys]
        exact hd
      rw [← Keyed.get_perm hdistinct (List.perm_insertionSort _ unsorted).symm name]
      exact hget name
  · cases h

section

variable {Text : Type} {T : Toml Text} {text newText : Text} {out : FleetMap} {entry : NewEntry}

theorem parseFleet_ok (h : parseFleet T text = .ok out) :
    ∃ doc entries, T.parse text = .ok doc ∧ decodeFleet (T.contents doc) = some entries ∧
      out = entries.map fun x => (x.1, x.2.workspace) := by
  unfold parseFleet at h
  cases hdoc : T.parse text with
  | error e =>
    rw [hdoc] at h
    cases h
  | ok doc =>
    rw [hdoc] at h
    cases hentries : decodeFleet (T.contents doc) with
    | none =>
      simp only [bind, Except.bind, hentries] at h
      cases h
    | some entries =>
      simp only [bind, Except.bind, hentries] at h
      exact ⟨doc, entries, rfl, hentries, checkEntries_ok h⟩

theorem parseFleet_empty (hT : T.Lawful) : parseFleet T T.empty = .ok [] := by
  obtain ⟨doc, hdoc, hcontents⟩ := hT.empty
  simp only [parseFleet, hdoc, hcontents, bind, Except.bind]
  rfl

/-- What a checked file maps a name to depends on its entry alone. -/
theorem get_parseFleet (hT : T.Lawful) (h : parseFleet T text = .ok out) :
    ∃ doc, T.parse text = .ok doc ∧ ∀ name, out.get name = declared (T.contents doc) name := by
  obtain ⟨doc, entries, hdoc, hentries, rfl⟩ := parseFleet_ok h
  refine ⟨doc, hdoc, fun name => ?_⟩
  have hdistinct : Keyed.Distinct Prod.fst (workspacesOf (T.contents doc)) := by
    unfold workspacesOf
    cases hws : ((T.contents doc).get "workspaces").bind Item.asTableLike with
    | none => exact Keyed.distinct_nil
    | some ws => exact hT.distinct text doc ws hdoc hws
  rw [FleetMap.get, get_map WorkspaceEntry.workspace, decodeFleet_get hentries hdistinct, declared]
  cases (workspacesOf (T.contents doc)).get name <;> rfl

theorem workspacesOf_insertWorkspace (contents : Table) (name : String) (t : Table) :
    workspacesOf (insertWorkspace contents name t) = (workspacesOf contents).insert name (.table false t) := by
  rw [workspacesOf, insertWorkspace, Table.get_insert, if_pos rfl]
  rfl

/-- The workspace that a new entry stands for. -/
def NewEntry.workspace (entry : NewEntry) : FleetWorkspace where
  endpoint := .ssh entry.host entry.remoteShell (entry.bin.getD "remote-workspace-server") entry.root entry.stateBase
    entry.config
  label := entry.label

/-- The table of a new entry reads back. -/
theorem decode_table (entry : NewEntry) :
    (WorkspaceEntry.decode (.table false entry.table)).map WorkspaceEntry.workspace = some entry.workspace := by
  obtain ⟨name, host, remoteShell, root, bin, label, config, stateBase⟩ := entry
  cases remoteShell <;> cases bin <;> cases label <;> cases config <;> cases stateBase <;> rfl

theorem checkAddable_ok {doc : T.Document} (hdoc : T.parse text = .ok doc) (h : checkAddable T text entry = .ok ()) :
    (workspacesOf (T.contents doc)).get entry.name = none := by
  simp only [checkAddable, parseDocument, hdoc, bind, Except.bind] at h
  unfold workspacesOf
  cases hws : ((T.contents doc).get "workspaces").bind Item.asTableLike with
  | none => rfl
  | some workspaces =>
    rw [hws] at h
    dsimp only at h
    split at h
    · cases h
    · next hno => simpa using hno

theorem addEntry_cases {doc : T.Document} (hdoc : T.parse text = .ok doc) (h : addEntry T text entry = .ok newText) :
    checkAddable T text entry = .ok () ∧
    ((T.contents doc).get "workspaces" = none ∨ ∃ ws, (T.contents doc).get "workspaces" = some (.table false ws)) ∧
    newText = T.print (T.insert doc entry.name entry.table) ∧ ∃ out', parseFleet T newText = .ok out' := by
  unfold addEntry at h
  cases hcheck : checkAddable T text entry with
  | error e =>
    rw [hcheck] at h
    cases h
  | ok u =>
    simp only [hcheck, parseDocument, hdoc, bind, Except.bind] at h
    split at h
    · cases h
    · cases h
    · cases h
    · split at h
      · cases h
      · next out' hout =>
        cases h
        exact ⟨rfl, .inl ‹_›, rfl, out', hout⟩
    · split at h
      · cases h
      · next out' hout =>
        cases h
        exact ⟨rfl, .inr ⟨_, ‹_›⟩, rfl, out', hout⟩

/-- A workspace is added and the others are left as they are. -/
theorem addEntry_ok (hT : T.Lawful) (hout : parseFleet T text = .ok out) (h : addEntry T text entry = .ok newText) :
    ∃ out', parseFleet T newText = .ok out' ∧ out.get entry.name = none ∧
      ∀ name, out'.get name = if name = entry.name then some entry.workspace else out.get name := by
  obtain ⟨doc, hdoc, hget⟩ := get_parseFleet hT hout
  obtain ⟨hcheck, hplace, rfl, out', hout'⟩ := addEntry_cases hdoc h
  have hnone := checkAddable_ok hdoc hcheck
  obtain ⟨doc', hdoc', hget'⟩ := get_parseFleet hT hout'
  obtain ⟨printed, hprinted, hcontents⟩ := hT.print (T.insert doc entry.name entry.table)
  obtain rfl := Except.ok.inj (hdoc'.symm.trans hprinted)
  refine ⟨out', hout', by rw [hget, declared, hnone]; rfl, fun name => ?_⟩
  rw [hget', hcontents, hT.insert doc entry.name entry.table hplace, declared, workspacesOf_insertWorkspace,
    Table.get_insert]
  split
  · exact decode_table entry
  · exact (hget name).symm

end

end RemoteWorkspace
