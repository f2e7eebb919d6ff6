import RemoteWorkspace.Lib.FileTree
import RemoteWorkspace.Protocol

/-!
# The workspace: client paths, resolution and hashes

`workspace.rs` and `hash.rs` over a file tree. A client path is text; `join`
splits it into names below the workspace root or the scratch root, and
`resolve` turns it into a path of the tree by canonicalizing the deepest
ancestor that exists and putting the other names back behind it.

SHA-256 is a parameter: any function from contents to 32 bytes. What the code
relies on is the form of its text, by which no hash is the sentinel
`fileDeletedSentinel`.
-/

namespace RemoteWorkspace

open FileTree (Comp Node Errno comps)

abbrev Path := FileTree.Path String

structure File where
  content : List UInt8
  readable : Bool
  deriving DecidableEq, Repr

abbrev Tree := FileTree.Tree String File

/-- An `io::Error` as it is displayed. -/
def errnoText : Errno → String
  | .noEntry => "No such file or directory (os error 2)"
  | .notDirectory => "Not a directory (os error 20)"
  | .exists => "File exists (os error 17)"
  | .isDirectory => "Is a directory (os error 21)"
  | .loop => "Too many levels of symbolic links (os error 40)"
  | .denied => "Permission denied (os error 13)"

/-- The `From<io::Error>` of `ProtocolError`. -/
def ioError (e : Errno) : ProtocolError :=
  .new (if e = .noEntry then .notFound else .ioError) (errnoText e)

/-! ## Hashes -/

abbrev Sha256 := List UInt8 → Fin 32 → UInt8

/-- The same digest for everything. -/
def zeroDigest : Sha256 := fun _ _ => 0

def hexDigit (n : Nat) : Char := "0123456789abcdef".toList.getD n '0'

/-- The `hex::encode` of a digest. -/
def hexEncode (digest : Fin 32 → UInt8) : List Char :=
  (List.ofFn digest).flatMap fun b => [hexDigit (b.toNat / 16), hexDigit (b.toNat % 16)]

def hashBytes (sha256 : Sha256) (bytes : List UInt8) : String :=
  "sha256:" ++ String.ofList (hexEncode (sha256 bytes))

/-- Stands for "no file" where a hash is expected, and as the hash after a
deletion. -/
def fileDeletedSentinel : String := "sha256:"

/-- The hash of the file at a path; `none` where no regular file is. -/
def hashFile (sha256 : Sha256) (t : Tree) (p : Path) : Except Errno (Option String) :=
  match t.stat p with
  | .ok (.file f) => if f.readable then .ok (some (hashBytes sha256 f.content)) else .error .denied
  | .ok _ => .ok none
  | .error .noEntry => .ok none
  | .error e => .error e

theorem hashBytes_ne_sentinel (sha256 : Sha256) (bytes : List UInt8) :
    hashBytes sha256 bytes ≠ fileDeletedSentinel := by
  intro h
  have hlen := congrArg (fun s => s.toList.length) h
  simp [hashBytes, fileDeletedSentinel, hexEncode, List.ofFn_succ] at hlen

/-! ## Client paths -/

structure Workspace where
  root : Path
  scratchRoot : Path
  deriving Repr

/-- A workspace at the root of the tree. -/
def homeWorkspace : Workspace := { root := ["ws"], scratchRoot := ["scratch"] }

/-- A client path split at its slashes, below the root it addresses. A final
slash or `.` makes it name a directory only; an inner one changes nothing. -/
structure Joined where
  base : Path
  names : List String
  dirOnly : Bool
  deriving DecidableEq, Repr

/-- The path as it is handed to the system. -/
def Joined.comps (j : Joined) : List (Comp String) :=
  FileTree.comps (j.names.reverse ++ j.base) ++ if j.dirOnly then [.cur] else []

/-- The components of a client path, between its slashes. -/
def components (rel : List Char) : List String := (rel.splitOn '/').map String.ofList

def isNormal (component : String) : Bool := component ≠ "" && component ≠ "."

namespace Workspace

variable (ws : Workspace) (t : Tree)

/-- The root that a client path addresses, and the path below it. -/
def addressed (rel : String) : Path × List Char :=
  let cs := rel.toList
  let marker := "@scratch".toList
  if cs = marker then (ws.scratchRoot, ['.'])
  else if (marker ++ ['/']).isPrefixOf cs then (ws.scratchRoot, cs.drop (marker.length + 1))
  else (ws.root, cs)

def join (rel : String) : Except ProtocolError Joined :=
  if rel = "" then .error (.new .invalidRequest "path must not be empty")
  else
    let (base, relative) := ws.addressed rel
    if relative.head? = some '/' then
      .error (.new .pathOutsideRoot "path must be relative to workspace root")
    else
      let cs := components relative
      if ".." ∈ cs then .error (.new .pathOutsideRoot "path escapes workspace root")
      else
        .ok { base, names := cs.filter isNormal, dirOnly := !isNormal (cs.getLastD "") }

end Workspace

/-- The canonical path of the deepest ancestor of a path that exists, with the
other names put back behind it. -/
def existingAncestor (t : Tree) : Path → Except Errno Path
  | [] => t.realpath (comps [])
  | n :: p =>
    match t.realpath (comps (n :: p)) with
    | .ok q => .ok q
    | .error .noEntry => (existingAncestor t p).map (n :: ·)
    | .error e => .error e

/-- `canonicalize_ancestor`: only the path itself is tried with its final
slash; its ancestors have none. -/
def canonicalizeAncestor (t : Tree) (j : Joined) : Except Errno Path :=
  match t.realpath j.comps with
  | .ok q => .ok q
  | .error .noEntry =>
    match j.names.reverse ++ j.base with
    | [] => .error .noEntry
    | n :: p => (existingAncestor t p).map (n :: ·)
  | .error e => .error e

namespace Workspace

variable (ws : Workspace) (t : Tree)

def resolve (rel : String) : Except ProtocolError Path := do
  let j ← ws.join rel
  match canonicalizeAncestor t j with
  | .error e => .error (.new .ioError ("failed to resolve path: " ++ errnoText e))
  | .ok safe =>
    if j.base.isSuffixOf safe then .ok safe
    else .error (.new .pathOutsideRoot "resolved path escapes workspace root")

/-- Whether the entry that a client path names is itself a link. -/
def isSymlink (rel : String) : Except ProtocolError Bool := do
  let j ← ws.join rel
  let failed (e : Errno) : Except ProtocolError Bool :=
    .error (.new .ioError ("failed to resolve path: " ++ errnoText e))
  -- A path that names a directory only has its last name followed.
  match if j.dirOnly then (t.realpath j.comps).map t.node
      else (t.lstat (j.names.reverse ++ j.base)).map some with
  | .ok (some (.link _ _)) => .ok true
  | .ok _ => .ok false
  | .error .noEntry => .ok false
  | .error e => failed e

end Workspace

end RemoteWorkspace
