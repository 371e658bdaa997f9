import SchemeMachine.Grammar
import SchemeMachine.Program.Lowering
import SchemeMachine.Tree.Scope
import SchemeMachine.Tree.TailCall

/-!
# From source to program

The stages put together: tokens, forms, tree, scopes and tail calls, program.

* `Tree.parse` reads a source text, `Tree.analyse` finds scopes and tail calls.
* `Tree.compile` makes a program of an analysed tree, `Program.compile` of a source text.
* `CompileError` is what can go wrong at any stage, with its message and its place.
-/

namespace SchemeMachine

/-- Why modules cannot be put together. -/
inductive LinkError where
  /-- No file answers to what module `origin` imports. -/
  | notFound (wanted origin : String)
  | unreadable (path reason : String)
  /-- Modules that wait for each other. -/
  | circular (modules : List String)
  /-- A module is faulty in itself. -/
  | inModule (name reason : String)
deriving Repr, DecidableEq

/-- The message for a reader. -/
def LinkError.message : LinkError → String
  | .notFound wanted origin =>
    "module not found: \"" ++ wanted ++ "\" (imported from " ++ origin ++ ")"
  | .unreadable path reason => "cannot read " ++ path ++ ": " ++ reason
  | .circular modules =>
    "circular dependency between modules: " ++ String.intercalate ", " modules
  | .inModule name reason => "in module " ++ name ++ ": " ++ reason

/-- **Why a source has no program**, by the stage at fault. -/
inductive CompileError where
  | lex (cause : Token.LexError)
  | parse (cause : ParseError)
  | analysis (cause : AnalysisError)
  | lower (cause : LowerError)
  | label (cause : ListingError)
  | link (cause : LinkError)
deriving Repr, DecidableEq

namespace CompileError

/-- The message for a reader. -/
def message : CompileError → String
  | .lex e => "lex error: " ++ e.message
  | .parse e => "parse error: " ++ e.message
  | .analysis e => "analysis error: " ++ e.message
  | .lower e => "lowering error: " ++ e.message
  | .label e => "label error: " ++ e.message
  | .link e => "module error: " ++ e.message

/-- The line and column of the fault, if it has them. -/
def place? : CompileError → Option (Nat × Nat)
  | .lex e => some e.place
  | .parse e => e.place?
  | .analysis (.defineTarget s) => some (s.line, s.col)
  | .lower e => e.span?.map fun s => (s.line, s.col)
  | .label _ => none
  | .link _ => none

/-- The message with the file and the place in front. -/
def report (e : CompileError) (file : String) : String :=
  match e.place? with
  | some (line, col) => file ++ s!":{line}:{col}: " ++ e.message
  | none => file ++ ": " ++ e.message

end CompileError

namespace Tree

/-- **Read a source text** into a tree. -/
def parse (source : String) : Except CompileError Tree := do
  let tokens ← (Token.scan source).mapError .lex
  let forms ← (Form.parse tokens).mapError .parse
  return ofForms forms

/-- **Find scopes and tail calls.** -/
def analyse (t : Tree) : Except CompileError Tree :=
  match t.resolveScopes with
  | (t, none) => .ok t.markTailCalls
  | (_, some e) => .error (.analysis e)

/-- **The program of an analysed tree**, whose labels must be distinct. -/
def compile (t : Tree) : Except CompileError Program := do
  let program ← (Program.ofTree t).mapError .lower
  let _ ← (LabelTable.ofCode program.code).mapError .label
  return program

end Tree

/-- **The program of a source text.** -/
def Program.compile (source : String) : Except CompileError Program := do
  let tree ← (← Tree.parse source).analyse
  let program ← tree.compile
  return { program with sourceHash := SchemeMachine.sourceHash source }

end SchemeMachine
