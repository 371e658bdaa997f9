import SchemeMachine.Digest
import SchemeMachine.Instruction
import SchemeMachine.Text.Quoted

/-!
# Programs

A program is a list of instructions with the constants that they refer to and the tables that a
running program consults.

* `Program.listing` writes the instructions, one to a line; `Program.ofListing` reads them.
* `Program.renderConstant` writes a constant as source text.
* `LabelTable.ofCode` finds the place of every label.
-/

namespace SchemeMachine

/-- A constant of a program. A list refers to the lists and strings inside it by handle. -/
inductive Constant where
  | string (content : String)
  | list (items : List Operand)
deriving Repr, DecidableEq, Inhabited

/-- Equality with numbers compared as numbers. -/
def Constant.same : Constant → Constant → Bool
  | .list as, .list bs => as.length = bs.length && (as.zip bs).all fun p => p.1.same p.2
  | a, b => a = b

/-- **A program.** -/
structure Program where
  code : Array Instruction := #[]
  constants : Table Handle Constant := {}
  /-- The variables of the top lambda: the name as written, by the new name. -/
  topLevel : Table String String := {}
  /-- The label of the lambda around a lambda, by its label. -/
  enclosing : Table String String := {}
  /-- The native libraries that the program may call. -/
  natives : Names := {}
  /-- What identifies the source text, if there was one. -/
  sourceHash : String := ""
deriving Repr, DecidableEq, Inhabited

/-- What identifies a source text. -/
def sourceHash (source : String) : String := "sha256:" ++ Digest.ofText source

namespace Program

/-- Whether two pieces of code are the same instructions, numbers compared as numbers. -/
def sameCode (a b : Array Instruction) : Bool :=
  a.size = b.size && (a.toList.zip b.toList).all fun p => p.1.same p.2

/-- Whether two programs are the same, numbers compared as numbers. -/
def same (p q : Program) : Bool :=
  sameCode p.code q.code
    && p.constants.keys = q.constants.keys
    && (p.constants.values.zip q.constants.values).all (fun c => c.1.same c.2)
    && p.topLevel = q.topLevel && p.enclosing = q.enclosing && p.natives = q.natives
    && p.sourceHash = q.sourceHash

/-- The instructions as text, each ending its line. -/
def listing (p : Program) : String :=
  String.join (p.code.toList.map fun i => i.text ++ "\n")

/-- Read lines from number `n` on. -/
def readLines : (n : Nat) → List (List Char) → Except ListingError (List Instruction)
  | _, [] => .ok []
  | n, line :: lines => do
    let first ← Instruction.readLine n line
    let others ← readLines (n + 1) lines
    return first.toList ++ others

/-- **Read a listing.** It carries nothing but the instructions. -/
def ofListing (text : String) : Except ListingError Program := do
  let code ← readLines 1 (Text.lines text.toList)
  return { code := code.toArray }

/-- A constant as source text, to a depth of `fuel` lists; `none` if it refers to a handle that is no
constant. -/
def renderFrom (p : Program) : (fuel : Nat) → Handle → Option String
  | 0, _ => none
  | fuel + 1, h =>
    match p.constants.find? h with
    | none => none
    | some (.string content) => some (Text.quote content)
    | some (.list items) => do
      let parts ← items.mapM fun item =>
        match item with
        | .handle below => renderFrom p fuel below
        | .atom (.symbol s) => some s
        | other => some other.text
      return "(" ++ String.intercalate " " parts ++ ")"

/-- **A constant as source text.** -/
def renderConstant (p : Program) (h : Handle) : Option String :=
  p.renderFrom (p.constants.size + 1) h

end Program

/-- The place of every label. -/
abbrev LabelTable := Table String Nat

namespace LabelTable

/-- Enter the labels of instructions that start at a place. -/
def enter (labels : LabelTable) : (place : Nat) → List Instruction → Except ListingError LabelTable
  | _, [] => .ok labels
  | place, .label name :: rest =>
    if labels.contains name then .error (.duplicateLabel name)
    else enter (labels.insert name place) (place + 1) rest
  | place, _ :: rest => enter labels (place + 1) rest

/-- **The labels of a piece of code**, each of which must be defined once. -/
def ofCode (code : Array Instruction) : Except ListingError LabelTable :=
  enter Table.empty 0 code.toList

end LabelTable

end SchemeMachine
