/-!
# Paths

A path is kept as it was written: the pieces between slashes, and whether a slash stands in front. Two
paths are the same if they agree on what their pieces mean: empty pieces and single dots mean nothing,
except for a dot in front of a path that is not rooted.

* `Path.ofText` and `Path.text` go between a path and its text.
* `Path.join`, `Path.parent?` and `Path.withExtension` keep all that they need not change.
* `Path.same` compares two paths.
-/

namespace SchemeMachine

/-- **A path**: its pieces between slashes, and whether it starts with a slash. -/
structure Path where
  rooted : Bool
  pieces : List String
deriving Repr, DecidableEq, Inhabited

namespace Path

/-- Cut a text at every slash. -/
def splitSlashes : List Char → List (List Char)
  | [] => [[]]
  | c :: cs =>
    if c = '/' then [] :: splitSlashes cs
    else
      match splitSlashes cs with
      | [] => [[c]]
      | first :: others => (c :: first) :: others

/-- The path of a text. -/
def ofText (s : String) : Path :=
  match s.toList with
  | '/' :: cs => ⟨true, (splitSlashes cs).map String.ofList⟩
  | cs => ⟨false, (splitSlashes cs).map String.ofList⟩

/-- The text of a path. -/
def text (p : Path) : String :=
  (if p.rooted then "/" else "") ++ String.intercalate "/" p.pieces

/-- The empty path. -/
def empty : Path := ⟨false, [""]⟩

/-- Whether the text is empty. -/
def isEmpty (p : Path) : Bool := !p.rooted && p.pieces.all (· = "") && p.pieces.length ≤ 1

/-- Whether a piece means nothing. -/
def isVoid (piece : String) : Bool := piece = "" || piece = "."

/-- The pieces that mean something. A dot counts in front of a path that is not rooted. -/
def components (p : Path) : List String :=
  match p.rooted, p.pieces with
  | false, "." :: rest => "." :: rest.filter fun piece => !isVoid piece
  | _, pieces => pieces.filter fun piece => !isVoid piece

/-- The text of a path without the pieces that mean nothing. -/
def canonicalText (p : Path) : String :=
  (if p.rooted then "/" else "") ++ String.intercalate "/" p.components

/-- **Whether two paths are the same**, which is seen from their texts, since no piece holds a slash. -/
def same (p q : Path) : Bool := p.canonicalText = q.canonicalText

/-- **The path of `q` as seen from the directory `p`**; a rooted `q` stands for itself. -/
def join (p q : Path) : Path :=
  if q.rooted then q
  else if p.isEmpty then q
  else if p.pieces.getLast? = some "" then ⟨p.rooted, p.pieces.dropLast ++ q.pieces⟩
  else ⟨p.rooted, p.pieces ++ q.pieces⟩

/-- Drop the pieces at the end that mean nothing; `reversed` holds the pieces, last one first. -/
def dropVoid (rooted : Bool) : (reversed : List String) → List String
  | [] => []
  | ["."] => if rooted then [] else ["."]
  | piece :: rest => if isVoid piece then dropVoid rooted rest else piece :: rest

theorem dropVoid_suffix (rooted : Bool) (reversed : List String) : dropVoid rooted reversed <:+ reversed := by
  fun_induction dropVoid rooted reversed with
  | case1 => exact List.suffix_rfl
  | case2 => exact List.nil_suffix
  | case3 => exact List.suffix_rfl
  | case4 piece rest hdot hvoid ih => exact ih.trans (List.suffix_cons _ _)
  | case5 => exact List.suffix_rfl

/-- The last component and the pieces before it, last one first. -/
def lastComponent? (p : Path) : Option (String × List String) :=
  match dropVoid p.rooted p.pieces.reverse with
  | [] => none
  | piece :: rest => some (piece, rest)

/-- **The directory that a path lies in**; `none` for a path without components. -/
def parent? (p : Path) : Option Path :=
  p.lastComponent?.map fun l =>
    match (dropVoid p.rooted l.2).reverse with
    | [] => ⟨p.rooted, [""]⟩
    | pieces => ⟨p.rooted, pieces⟩

/-- The name of the file: the last component, if it is a name. -/
def fileName? (p : Path) : Option String :=
  match p.lastComponent? with
  | some (piece, _) => if piece = "." ∨ piece = ".." then none else some piece
  | none => none

/-- A name without its extension: what stands before the last dot, all of it if nothing does. -/
def stemOf (name : String) : String :=
  match name.toList.reverse.dropWhile (· != '.') with
  | [] => name
  | [_] => name
  | _ :: before => String.ofList before.reverse

/-- The name of the file without its extension. -/
def fileStem? (p : Path) : Option String := p.fileName?.map stemOf

/-- **Replace the extension of the file name, or add one.** A path without a file name is kept. Two dots
are no file name, so a name that consists of two dots and an extension, with nothing written after it,
only loses its extension. -/
def withExtension (p : Path) (extension : String) : Path :=
  match p.fileName?, p.lastComponent? with
  | some name, some (_, before) =>
    if stemOf name = "." ∧ p.pieces.getLast? = some name then ⟨p.rooted, before.reverse ++ [".."]⟩
    else ⟨p.rooted, before.reverse ++ [stemOf name ++ "." ++ extension]⟩
  | _, _ => p

/-- The path of what module `origin` names `wanted`: next to the module. -/
def sibling (origin : Path) (wanted : String) : Path :=
  match origin.parent? with
  | some dir => dir.join (ofText wanted)
  | none => ofText wanted

end Path

end SchemeMachine
