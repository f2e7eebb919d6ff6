import Mathlib.Algebra.GroupWithZero.Nat
import RemoteWorkspace.Workspace

/-!
# Text replacements

The part of `edit` that computes: the checks of its arguments, and the
replacements, each applied to what the one before it produced. Text is a list
of characters; its size is that of its UTF-8.
-/

namespace RemoteWorkspace

/-- Upper bound on the text inputs of a mutation and on the files it edits. -/
def maxTextBytes : Nat := 4 * 1024 * 1024

def maxEdits : Nat := 100

def textSize (cs : List Char) : Nat := (cs.map Char.utf8Size).sum

/-- Text cut at the matches of `pat` that do not overlap, from the left; `skip`
characters of the last match are still to come. -/
def splitText (pat : List Char) : Nat → List Char → List (List Char)
  | _, [] => [[]]
  | skip + 1, _ :: cs => splitText pat skip cs
  | 0, c :: cs =>
    if pat.isPrefixOf (c :: cs) then [] :: splitText pat (pat.length - 1) cs
    else
      match splitText pat 0 cs with
      | [] => [[c]]
      | piece :: pieces => (c :: piece) :: pieces

/-- `matches(..).count()`. -/
def countMatches (pat cs : List Char) : Nat := (splitText pat 0 cs).length - 1

/-- `replace`. -/
def replaceAll (pat new cs : List Char) : List Char := new.intercalate (splitText pat 0 cs)

/-- `replacen` with a count of one. -/
def replaceFirst (pat new : List Char) : List Char → List Char
  | [] => []
  | c :: cs => if pat.isPrefixOf (c :: cs) then new ++ (c :: cs).drop pat.length else c :: replaceFirst pat new cs

def usizeMax : Nat := 2 ^ 64 - 1

def saturatingMul (a b : Nat) : Nat := min (a * b) usizeMax

def saturatingAdd (a b : Nat) : Nat := min (a + b) usizeMax

/-- The size that a replacement of `replaced` matches would produce. -/
def projectedSize (size replaced oldSize newSize : Nat) : Nat :=
  saturatingAdd (size - saturatingMul replaced oldSize) (saturatingMul replaced newSize)

def editPrefix (index total : Nat) : String :=
  if total = 1 then "" else "edit " ++ (index + 1).repr ++ " of " ++ total.repr ++ ": "

def checkEdit (place : String) (e : EditSpec) : Except ProtocolError Unit :=
  if e.oldText = "" then .error (.new .invalidRequest (place ++ "old_text must not be empty"))
  else if e.oldText = e.newText then
    .error (.new .invalidRequest (place ++ "old_text and new_text are identical; nothing to change"))
  else if textSize e.oldText.toList > maxTextBytes ∨ textSize e.newText.toList > maxTextBytes then
    .error (.new .invalidRequest (place ++ "old_text/new_text exceed " ++ maxTextBytes.repr ++ " bytes"))
  else .ok ()

/-- The checks of an edit's arguments, made before the file is touched. -/
def checkEdits (edits : List EditSpec) : Except ProtocolError Unit :=
  if edits = [] then .error (.new .invalidRequest "edits must not be empty")
  else if edits.length > maxEdits then
    .error (.new .invalidRequest ("edits must not exceed " ++ maxEdits.repr ++ " replacements"))
  else edits.zipIdx.forM fun (e, i) => checkEdit (editPrefix i edits.length) e

/-- One replacement in the text that the ones before it have left. -/
def applyEdit (path place : String) (e : EditSpec) (content : List Char) : Except ProtocolError (List Char) :=
  let n := countMatches e.oldText.toList content
  let replaced := if e.replaceAll then n else 1
  if n = 0 then
    .error (.new .noMatch (place ++ "old_text not found in " ++ path ++
      "; re-read the file and copy the current text exactly"))
  else if n > 1 ∧ e.replaceAll = false then
    .error (.new .ambiguousMatch (place ++ "old_text occurs " ++ n.repr ++ " times in " ++ path ++
      "; extend it with surrounding context to make it unique, or pass replace_all=true"))
  else if projectedSize (textSize content) replaced (textSize e.oldText.toList) (textSize e.newText.toList) >
      maxTextBytes then
    .error (.new .invalidRequest (place ++ "resulting file would exceed " ++ maxTextBytes.repr ++ " bytes"))
  else if e.replaceAll then .ok (replaceAll e.oldText.toList e.newText.toList content)
  else .ok (replaceFirst e.oldText.toList e.newText.toList content)

def applyEdits (path : String) (edits : List EditSpec) (content : List Char) : Except ProtocolError (List Char) :=
  edits.zipIdx.foldlM (fun content (e, i) => applyEdit path (editPrefix i edits.length) e content) content

def isHexDigit (c : Char) : Bool :=
  c.isDigit || ('a'.toNat ≤ c.toNat && c.toNat ≤ 'f'.toNat) || ('A'.toNat ≤ c.toNat && c.toNat ≤ 'F'.toNat)

def isWellFormedHash (hash : String) : Bool :=
  let start := "sha256:".toList
  start.isPrefixOf hash.toList && (hash.toList.drop start.length).length = 64 &&
    (hash.toList.drop start.length).all isHexDigit

end RemoteWorkspace
