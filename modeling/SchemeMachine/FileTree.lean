import SchemeMachine.Path
import SchemeMachine.Table

/-!
# Files

A tree of files as a value, seen from a working directory inside it. A place is the list of names that
leads to it from the top. Paths are followed piece by piece: a dot stays, two dots go up, a name goes
down.

* `FileTree.readText` and `FileTree.writeText` read and replace the content of a file.
* `FileTree.isFile` says whether a path leads to a file.
* `FileError` is why a path cannot be used.
-/

namespace SchemeMachine

/-- Why a file operation fails. -/
inductive FileError where
  | notFound
  | notDirectory
  | isDirectory
  | nameTooLong
  /-- The path holds a character that no path may hold. -/
  | nulCharacter
deriving Repr, DecidableEq

/-- The message of the operating system. -/
def FileError.message : FileError → String
  | .notFound => "No such file or directory (os error 2)"
  | .notDirectory => "Not a directory (os error 20)"
  | .isDirectory => "Is a directory (os error 21)"
  | .nameTooLong => "File name too long (os error 36)"
  | .nulCharacter => "file name contained an unexpected NUL byte"

/-- **A tree of files** with the place of the working directory in it. A directory that holds nothing has
an entry without content. -/
structure FileTree where
  entries : Table (List String) (Option String) := {}
  workingDirectory : List String := []
deriving Repr, Inhabited

namespace FileTree

/-- What stands at a place. -/
inductive Found where
  | file (content : String)
  | directory
  | missing
deriving Repr, DecidableEq

/-- Whether a place lies above an entry or above the working directory, or is one of the two. -/
def leadsOn (t : FileTree) (place : List String) : Bool :=
  place.isPrefixOf t.workingDirectory || t.entries.keys.any fun k => place.isPrefixOf k

/-- What stands at a place. -/
def at? (t : FileTree) (place : List String) : Found :=
  match t.entries.find? place with
  | some (some content) => .file content
  | some none => .directory
  | none => if t.leadsOn place then .directory else .missing

/-- Follow pieces from a place, which must be a directory as long as pieces are left. The top is the
directory above itself. -/
def follow (t : FileTree) : List String → List String → Except FileError (List String)
  | place, [] => .ok place
  | place, piece :: rest =>
    match t.at? place with
    | .missing => .error .notFound
    | .file _ => .error .notDirectory
    | .directory =>
      if Path.isVoid piece then follow t place rest
      else if piece = ".." then follow t place.dropLast rest
      else if 255 < piece.utf8ByteSize then .error .nameTooLong
      else follow t (place ++ [piece]) rest

/-- Where a path starts. -/
def start (t : FileTree) (p : Path) : List String := if p.rooted then [] else t.workingDirectory

/-- What no path may be: empty, holding a zero character, or longer than the system allows. -/
def check (p : Path) : Except FileError Unit :=
  let s := p.text
  if s.toList.any (fun c => c.toNat = 0) then .error .nulCharacter
  else if s.isEmpty then .error .notFound
  else if 4096 ≤ s.utf8ByteSize then .error .nameTooLong
  else .ok ()

/-- The place that a path leads to. -/
def locate (t : FileTree) (p : Path) : Except FileError (List String) := do
  check p
  t.follow (t.start p) p.pieces

/-- **The content of a file.** -/
def readText (t : FileTree) (p : Path) : Except FileError String := do
  match t.at? (← t.locate p) with
  | .file content => return content
  | .directory => throw .isDirectory
  | .missing => throw .notFound

/-- **Whether a path leads to a file.** -/
def isFile (t : FileTree) (p : Path) : Bool :=
  match t.readText p with
  | .ok _ => true
  | .error _ => false

/-- **Replace the content of a file**, making it if its directory exists. A path that ends in a slash
stands for a directory. -/
def writeText (t : FileTree) (p : Path) (content : String) : Except FileError FileTree := do
  check p
  let pieces := (p.pieces.reverse.dropWhile (· = "")).reverse
  let place ← t.follow (t.start p) pieces.dropLast
  match t.at? place with
  | .missing => throw .notFound
  | .file _ => throw .notDirectory
  | .directory => pure ()
  let name := pieces.getLast?.getD ""
  if Path.isVoid name || name = ".." || pieces.length ≠ p.pieces.length then throw .isDirectory
  if 255 < name.utf8ByteSize then throw .nameTooLong
  match t.at? (place ++ [name]) with
  | .directory => throw .isDirectory
  | _ => return { t with entries := t.entries.insert (place ++ [name]) (some content) }

/-- Where a path leads from a place if every name on the way is a directory. -/
def reach (place : List String) (p : Path) : List String :=
  p.pieces.foldl
    (fun place piece =>
      if Path.isVoid piece then place else if piece = ".." then place.dropLast else place ++ [piece])
    (if p.rooted then [] else place)

/-- The tree of files below a place, given by their paths from there; without content a path is a
directory. The place is the working directory. -/
def ofFiles (base : List String) (files : List (String × Option String)) : FileTree where
  entries := Table.ofList (files.map fun f => (reach base (Path.ofText f.1), f.2))
  workingDirectory := base

/-- All files below a place with their contents, by their paths from there. -/
def filesBelow (t : FileTree) (base : List String) : List (String × String) :=
  t.entries.entries.filterMap fun e =>
    if base.isPrefixOf e.1 then
      e.2.map fun content => (String.intercalate "/" (e.1.drop base.length), content)
    else none

end FileTree

end SchemeMachine
