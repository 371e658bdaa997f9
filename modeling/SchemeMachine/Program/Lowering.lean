import SchemeMachine.Program
import SchemeMachine.Tree.Render

/-!
# From trees to programs

Every lambda becomes a block of code under its own label, after a start that calls the top lambda and
halts. The code of an expression leaves one value on the operand stack, except that a statement
(`define`, `set!`, `display`, `newline`, `fork`, `native`, `import`) leaves none. A body drops the values
of its forms but the last, and answers `#f` where the last form is a statement.

Lowering goes in two steps: a tree becomes pieces, which still have the shape of the expressions but
name their labels and constants, and a piece becomes instructions.

* `Piece` is the code of an expression in its shape, `Piece.code` its instructions.
* `Lowering.node` is the piece of a node, tied from `Lowering.nodeWith`, which is given the pieces of the
  nodes below.
* `Lowering.template` builds a list with holes at run time; a list without holes is a constant
  (`Lowering.constantList`).
* `Tree.blocks` holds the blocks of all lambdas, `Program.ofTree` is the whole program.
-/

namespace SchemeMachine

/-- Why a tree has no program. -/
inductive LowerError where
  | notAnalysed
  | malformedDefine (span : Option Span)
  | malformedSet (span : Option Span)
  | malformedIf (span : Option Span)
  | malformedCallCc (span : Option Span)
  | malformedFork (span : Option Span)
  | notCallable (what : String) (span : Option Span)
  | arity (form expected : String) (got : Nat) (span : Option Span)
  | unquoteOutsideQuasiquote (span : Option Span)
  | emptyApplication (span : Option Span)
  | unexpectedKeyword (keyword : String) (span : Option Span)
deriving Repr, DecidableEq

namespace LowerError

/-- The place of the fault, if it has one. -/
def span? : LowerError → Option Span
  | .notAnalysed => none
  | .malformedDefine s | .malformedSet s | .malformedIf s | .malformedCallCc s | .malformedFork s
  | .notCallable _ s | .arity _ _ _ s | .unquoteOutsideQuasiquote s | .emptyApplication s
  | .unexpectedKeyword _ s => s

/-- The message for a reader. -/
def message (e : LowerError) : String :=
  let place := match e.span? with
    | none => ""
    | some s => " at " ++ s.text
  match e with
  | .notAnalysed => "AST must go through scope and tail-call analysis before lowering"
  | .malformedDefine _ => "malformed define" ++ place ++ ": expected (define <variable> <expr>)"
  | .malformedSet _ => "malformed set!" ++ place ++ ": expected (set! <variable> <expr>)"
  | .malformedIf _ => "malformed if" ++ place ++ ": expected (if <test> <then> [<else>])"
  | .malformedCallCc _ =>
    "malformed call/cc" ++ place ++ ": the argument must be a lambda or a variable"
  | .malformedFork _ => "malformed fork" ++ place ++ ": expected a quoted list or a module path"
  | .notCallable what _ => what ++ " is not callable" ++ place
  | .arity form expected got _ =>
    form ++ " expects " ++ expected ++ s!" argument(s), got {got}" ++ place
  | .unquoteOutsideQuasiquote _ => "unquote outside of quasiquote" ++ place
  | .emptyApplication _ => "empty application" ++ place
  | .unexpectedKeyword keyword _ => "keyword '" ++ keyword ++ "' cannot be used here" ++ place

end LowerError

namespace Lowering

/-- A piece of code as instructions. -/
abbrev Code := List Instruction

/-! ### Single instructions -/

/-- An operation without operand. -/
def plain (op : Opcode) : Instruction := .op op none

/-- Push an atom. -/
def pushAtom (a : Atom) : Instruction := .op .push (some (.atom a))

/-- Push a boolean. -/
def pushBoolean (b : Bool) : Instruction := pushAtom (.boolean b)

/-- Push a constant. -/
def pushHandle (h : Handle) : Instruction := .op .push (some (.handle h))

/-- An operation on a label. -/
def toLabel (op : Opcode) (name : String) : Instruction := .op op (some (.label name))

/-- An operation on a variable. -/
def onVariable (op : Opcode) (name : String) : Instruction := .op op (some (.atom (.variable name)))

/-- A call, in tail position or not. -/
def callTo (tail : Bool) (target : Operand) : Instruction :=
  .op (if tail then .tailCall else .call) (some target)

end Lowering

/-! ### Pieces -/

/-- **The code of an expression, in its shape.** Labels are made from the number that a piece carries. -/
inductive Piece where
  | push (operand : Operand)
  | load (name : String)
  /-- Close a lambda over the environment. -/
  | closure (lambda : Handle)
  /-- A call of a known target. -/
  | call (tail : Bool) (target : Operand) (args : List Piece)
  /-- A call whose operator, the first operand, is computed. -/
  | computedCall (tail : Bool) (n : Nat) (operands : List Piece)
  /-- `define` or `set!`, by its operation. -/
  | assignment (op : Opcode) (name : String) (right : Piece)
  | conditional (n : Nat) (test yes no : Piece)
  /-- `and` (`conjunction`) or `or`; whether the last clause returns by itself. -/
  | connective (conjunction : Bool) (n : Nat) (clauses : List Piece) (last : Piece) (returns : Bool)
  | body (forms : List Piece) (last : Piece)
  | callWithContinuation (n : Nat) (target : Operand)
  | fork (h : Handle)
  | display (shown : Piece)
  | newline
  /-- `native` or `import`, which have no code. -/
  | declaration
  | primitive (op : Opcode) (args : List Piece)
  /-- The first operand, then each further one followed by the operation. -/
  | arithmetic (op : Opcode) (first : Piece) (rest : List Piece)
  /-- A list with holes: its elements, consed onto an empty list that is a constant. -/
  | template (items : List Piece) (empty : Handle)
deriving Repr, Inhabited

namespace Piece

open Lowering

/-- Whether a piece leaves a value; a statement leaves none. -/
def yields : Piece → Bool
  | .assignment .. | .fork _ | .display _ | .newline | .declaration => false
  | _ => true

/-- Code that leaves a value in any case: after a statement, `#f`. -/
def valued (yields : Bool) (code : Code) : Code :=
  if yields then code else code ++ [pushBoolean false]

/-- Code that leaves no value. -/
def dropped (yields : Bool) (code : Code) : Code := if yields then code ++ [plain .pop] else code

/-- The label of the block that makes a computed call. -/
def blockLabel (n : Nat) : String := s!"_tmp{n}"

/-- The parameters of the block that makes a computed call with `count` operands. -/
def blockParameters (n count : Nat) : List String :=
  (List.range count).map fun i => blockLabel n ++ s!".p{i}"

/-- The block of a computed call: store the operands, load the arguments, call the operator. -/
def blockCode (n count : Nat) : Code :=
  .label (blockLabel n)
    :: ((blockParameters n count).reverse.map (onVariable .store)
      ++ (blockParameters n count).tail.map (onVariable .load)
      ++ [callTo true (.atom (.variable (blockLabel n ++ ".p0"))), plain .ret])

/-- The label of the second branch of an `if`. -/
def thenLabel (n : Nat) : String := s!"_if{n}"

/-- The label after an `if`. -/
def endLabel (n : Nat) : String := s!"_endif{n}"

/-- The label at which `and` or `or` is decided early. -/
def sinkLabel (conjunction : Bool) (n : Nat) : String :=
  (if conjunction then "_and" else "_or") ++ s!"{n}"

/-- The name of a captured continuation, which is also the label to go on at. -/
def resumeLabel (n : Nat) : String := s!"_cont{n}"

/-- The jump after a clause of `and` or `or`. -/
def clauseJump (conjunction : Bool) (n : Nat) : Instruction :=
  toLabel (if conjunction then .ifFalse else .ifTrue) (sinkLabel conjunction n)

mutual

/-- **The instructions of a piece.** -/
def code : Piece → Code
  | .push operand => [.op .push (some operand)]
  | .load name => [onVariable .load name]
  | .closure h => [toLabel .loadClosure (Handle.label h)]
  | .call tail target args => eachValue [] args ++ [callTo tail target]
  | .computedCall tail n operands =>
    toLabel .goto (blockLabel n ++ "_end") :: blockCode n operands.length
      ++ .label (blockLabel n ++ "_end") :: eachValue [] operands
      ++ [callTo tail (.label (blockLabel n))]
  | .assignment op name right => valued right.yields right.code ++ [onVariable op name]
  | .conditional n test yes no =>
    valued test.yields test.code ++ toLabel .ifTrue (thenLabel n) :: valued no.yields no.code
      ++ toLabel .goto (endLabel n) :: .label (thenLabel n) :: valued yes.yields yes.code
      ++ [.label (endLabel n)]
  | .connective conjunction n clauses last returns =>
    eachValue [clauseJump conjunction n] clauses ++ valued last.yields last.code
      ++ (if returns then [] else [clauseJump conjunction n])
      ++ [pushBoolean conjunction, toLabel .goto (sinkLabel conjunction n ++ "_end"),
        .label (sinkLabel conjunction n), pushBoolean (!conjunction),
        .label (sinkLabel conjunction n ++ "_end")]
  | .body forms last => eachForm forms ++ valued last.yields last.code
  | .callWithContinuation n target =>
    [onVariable .capture (resumeLabel n), onVariable .load (resumeLabel n), callTo false target,
      .label (resumeLabel n)]
  | .fork h => [.op .fork (some (.handle h))]
  | .display shown => valued shown.yields shown.code ++ [plain .display]
  | .newline => [plain .newline]
  | .declaration => []
  | .primitive op args => eachValue [] args ++ [plain op]
  | .arithmetic op first rest => valued first.yields first.code ++ eachValue [plain op] rest
  | .template items empty =>
    eachValue [] items ++ pushHandle empty :: List.replicate items.length (plain .cons)

/-- Values one after the other, each followed by some code. -/
def eachValue (suffix : Code) : List Piece → Code
  | [] => []
  | p :: ps => valued p.yields p.code ++ suffix ++ eachValue suffix ps

/-- Forms one after the other, whose values are dropped. -/
def eachForm : List Piece → Code
  | [] => []
  | p :: ps => dropped p.yields p.code ++ eachForm ps

end

/-- The instructions of a piece that has to leave a value. -/
def value (p : Piece) : Code := valued p.yields p.code

end Piece

/-- **The block of a lambda**: its handle, its parameters, these as they were written, and its body. -/
structure Block where
  handle : Handle
  parameters : List String
  written : List String
  body : Piece
deriving Repr, Inhabited

open Lowering in
/-- The instructions of a block: store the arguments, last one first, run the body, return. -/
def Block.code (b : Block) : Code :=
  .comment (" lambda " ++ Handle.label b.handle ++ " (" ++ String.intercalate " " b.written ++ ")")
    :: .label (Handle.label b.handle)
    :: (b.parameters.reverse.map (onVariable .store) ++ b.body.value ++ [plain .ret])

namespace Lowering

/-- What lowering hands out as it goes: numbers for labels, handles for fresh constants, and the
constants met so far. -/
structure Stock where
  labels : Nat := 0
  nextConstant : Handle
  constants : Table Handle Constant := {}

/-- Lowering hands out from a stock and may fail. -/
abbrev Lower := StateT Stock (Except LowerError)

/-- A number that no label has yet. -/
def freshLabel : Lower Nat := modifyGet fun s => (s.labels, { s with labels := s.labels + 1 })

/-- Note a constant. -/
def addConstant (h : Handle) (c : Constant) : Lower Unit :=
  modify fun s => { s with constants := s.constants.insert h c }

/-- A new constant with a handle of its own. -/
def freshConstant (c : Constant) : Lower Handle :=
  modifyGet fun s =>
    (s.nextConstant,
      { s with nextConstant := s.nextConstant + 1, constants := s.constants.insert s.nextConstant c })

/-! ### Children and bodies

The functions below are given `below`, the piece of a node. -/

/-- The piece of a child. A keyword is a value if it is a primitive. -/
def child (below : Handle → Lower Piece) : Child → Lower Piece
  | .node h => below h
  | .atom (.variable name) => return .load name
  | .atom (.keyword word) =>
    if (Opcode.ofPrimitive? word).isSome then return .push (.atom (.keyword word))
    else throw (.unexpectedKeyword word none)
  | .atom a => return .push (.atom a)

/-- The pieces of several children, one after the other. -/
def children (below : Handle → Lower Piece) : List Child → Lower (List Piece)
  | [] => return []
  | c :: cs => do
    let first ← child below c
    let others ← children below cs
    return first :: others

/-- Whether a child has no effect and no need to be evaluated for itself. -/
def isLiteral (t : Tree) : Child → Bool
  | .atom (.variable _) => false
  | .atom _ => true
  | .node h =>
    match t.get? h with
    | some (.string ..) => true
    | some (.application _ .quote _) => true
    | _ => false

/-- The pieces of a body, the last one apart. Literals before the last form are left out. -/
def forms (t : Tree) (below : Handle → Lower Piece) : List Child → Lower (List Piece × Piece)
  | [] => return ([], .push (.atom (.boolean false)))
  | [c] => return ([], ← child below c)
  | c :: cs =>
    if isLiteral t c then forms t below cs
    else do
      let first ← child below c
      let (others, last) ← forms t below cs
      return (first :: others, last)

/-- The piece of a body. -/
def body (t : Tree) (below : Handle → Lower Piece) (cs : List Child) : Lower Piece := do
  let (dropped, last) ← forms t below cs
  return .body dropped last

/-! ### Quoted data -/

/-- What an atom of quoted data is: every word is a symbol. -/
def quotedAtom : Atom → Atom
  | .variable name => .symbol name
  | .keyword name => .symbol name
  | other => other

/-- Note a quoted list and all that is nested in it as constants, to a depth of `fuel` lists. -/
def constantList (t : Tree) : (fuel : Nat) → Handle → Lower Unit
  | 0, h => throw (.emptyApplication (t.spans.find? h))
  | fuel + 1, h =>
    match t.get? h with
    | some (.application _ _ children) => do
      let items ← children.mapM fun c =>
        match c with
        | .atom a => pure (Operand.atom (quotedAtom a))
        | .node below => do
          match t.get? below with
          | some (.string _ content) => addConstant below (.string content)
          | some (.application _ quotation _) =>
            if quotation = .unquote then throw (.unquoteOutsideQuasiquote (t.spans.find? below))
            else constantList t fuel below
          | _ => throw (.unquoteOutsideQuasiquote (t.spans.find? below))
          pure (Operand.handle below)
      addConstant h (.list items)
    | _ => throw (.emptyApplication (t.spans.find? h))

/-- Whether a template has a hole, to a depth of `fuel` lists. -/
def hasHole (t : Tree) : (fuel : Nat) → Handle → Bool
  | 0, _ => false
  | fuel + 1, h =>
    match t.get? h with
    | some (.application _ _ children) =>
      (children.filterMap Child.node?).any fun below =>
        match t.get? below with
        | some (.application _ quotation _) => quotation = .unquote || hasHole t fuel below
        | _ => false
    | _ => false

/-- **The piece of a template.** Without holes it is a constant. Otherwise its elements are pushed, the
holes evaluated among them, and then consed onto a fresh empty list. -/
def template (t : Tree) (below : Handle → Lower Piece) : (fuel : Nat) → Handle → Lower Piece
  | 0, h => throw (.emptyApplication (t.spans.find? h))
  | fuel + 1, h =>
    if hasHole t (t.size + 1) h then
      match t.get? h with
      | some (.application _ _ children) => do
        let items ← children.mapM fun c =>
          match c with
          | .atom a => pure (.push (.atom (quotedAtom a)))
          | .node below' =>
            match t.get? below' with
            | some (.application _ quotation inner) =>
              if quotation = .unquote then
                match inner with
                | [hole] => child below hole
                | _ => throw (.unquoteOutsideQuasiquote (t.spans.find? below'))
              else template t below fuel below'
            | some (.string _ content) => do
              addConstant below' (.string content)
              pure (.push (.handle below'))
            | _ => pure (.push (.handle below'))
        let empty ← freshConstant (.list [])
        return .template items empty
      | _ => throw (.emptyApplication (t.spans.find? h))
    else do
      constantList t (t.size + 1) h
      return .push (.handle h)

/-! ### Applications -/

/-- **A call whose operator is computed.** The operator and the arguments become parameters of a block
of their own, which calls the first of them with the others. -/
def computedCall (t : Tree) (below : Handle → Lower Piece) (h : Handle) (cs : List Child) :
    Lower Piece := do
  let n ← freshLabel
  return .computedCall (t.tailCalls.contains h) n (← children below cs)

/-- The piece of the right side of `define` or `set!`. A lambda is pushed by its label; the machine closes it
where it is stored. -/
def rightSide (t : Tree) (below : Handle → Lower Piece) (right : Child) : Lower Piece :=
  match right with
  | .node h =>
    if (t.get? h).any Node.isLambda then return .push (.label (Handle.label h)) else below h
  | _ => child below right

/-- The piece of `(define name e)` or `(set! name e)`. -/
def assignment (t : Tree) (below : Handle → Lower Piece) (op : Opcode) (fault : LowerError) :
    List Child → Lower Piece
  | [.atom (.variable name), right] => return .assignment op name (← rightSide t below right)
  | _ => throw fault

/-- The piece of `if`. Without a third part the answer of a false test is `#f`. -/
def conditional (below : Handle → Lower Piece) (test yes : Child) (no : Option Child) :
    Lower Piece := do
  let n ← freshLabel
  let test ← child below test
  let no ← match no with
    | some c => child below c
    | none => pure (.push (.atom (.boolean false)))
  return .conditional n test (← child below yes) no

/-- The piece of `and` (`conjunction`) or `or`. A last clause that is a tail call returns its own value. -/
def connective (t : Tree) (below : Handle → Lower Piece) (conjunction : Bool) (clauses : List Child) :
    Lower Piece :=
  match clauses.getLast? with
  | none => return .push (.atom (.boolean conjunction))
  | some last => do
    let n ← freshLabel
    let earlier ← children below clauses.dropLast
    let returns := last.node?.any fun h => t.tailCalls.contains h
    return .connective conjunction n earlier (← child below last) returns

/-- The piece of `(call/cc f)`: capture the continuation under a name that is also the label after the
call, and call `f` with it. -/
def callWithContinuation (t : Tree) (span : Option Span) : List Child → Lower Piece
  | [.atom (.variable name)] => return .callWithContinuation (← freshLabel) (.atom (.variable name))
  | [.node h] =>
    if (t.get? h).any Node.isLambda then
      return .callWithContinuation (← freshLabel) (.label (Handle.label h))
    else throw (.malformedCallCc span)
  | _ => throw (.malformedCallCc span)

/-- The piece of `fork` on a quoted list or a module path. -/
def forking (t : Tree) (span : Option Span) : List Child → Lower Piece
  | [.node h] => do
    match t.get? h with
    | some (.application _ .quote _) => constantList t (t.size + 1) h
    | some (.string _ content) => addConstant h (.string content)
    | _ => throw (.malformedFork span)
    return .fork h
  | _ => throw (.malformedFork span)

/-- The piece of a primitive with a fixed number of operands. -/
def primitive (below : Handle → Lower Piece) (word : String) (op : Opcode) (expected : Nat)
    (span : Option Span) (args : List Child) : Lower Piece :=
  if args.length = expected then return .primitive op (← children below args)
  else throw (.arity word s!"{expected}" args.length span)

/-- **The piece of arithmetic** on any number of operands, from the left. Alone, `-` negates and `/`
inverts; `+` and `*` of nothing are their neutral elements. -/
def arithmetic (below : Handle → Lower Piece) (word : String) (op : Opcode) (span : Option Span)
    (args : List Child) : Lower Piece := do
  match args with
  | [] =>
    match op with
    | .add => return .push (.atom (.number 0.0))
    | .mul => return .push (.atom (.number 1.0))
    | .sub | .div => throw (.arity word "at least 1" 0 span)
    | _ => throw (.arity word "at least 2" 0 span)
  | [single] =>
    match op with
    | .add | .mul => return .arithmetic op (← child below single) []
    | .sub => return .arithmetic op (.push (.atom (.number 0.0))) [← child below single]
    | .div => return .arithmetic op (.push (.atom (.number 1.0))) [← child below single]
    | _ => throw (.arity word "at least 2" 1 span)
  | first :: rest => return .arithmetic op (← child below first) (← children below rest)

/-- The piece of a form whose head is a keyword. -/
def form (t : Tree) (below : Handle → Lower Piece) (h : Handle) (word : String) (args : List Child) :
    Lower Piece := do
  let span := t.spans.find? h
  match word with
  | "define" => assignment t below .store (.malformedDefine span) args
  | "set!" => assignment t below .set (.malformedSet span) args
  | "if" =>
    match args with
    | [test, yes] => conditional below test yes none
    | [test, yes, no] => conditional below test yes (some no)
    | _ => throw (.malformedIf span)
  | "and" => connective t below true args
  | "or" => connective t below false args
  | "begin" => body t below args
  | "call/cc" => callWithContinuation t span args
  | "fork" => forking t span args
  | "display" =>
    match args with
    | [c] => return .display (← child below c)
    | _ => throw (.arity "display" "1" args.length span)
  | "newline" =>
    match args with
    | [] => return .newline
    | _ => throw (.arity "newline" "0" args.length span)
  | "native" | "import" => return .declaration
  | "+" => arithmetic below word .add span args
  | "-" => arithmetic below word .sub span args
  | "*" => arithmetic below word .mul span args
  | "/" => arithmetic below word .div span args
  | "%" => arithmetic below word .mod span args
  | "pow" => arithmetic below word .pow span args
  | "=" => primitive below word .eqn 2 span args
  | "<" => primitive below word .lt 2 span args
  | ">" => primitive below word .gt 2 span args
  | "<=" => primitive below word .le 2 span args
  | ">=" => primitive below word .ge 2 span args
  | "cons" => primitive below word .cons 2 span args
  | "not" => primitive below word .not 1 span args
  | "car" => primitive below word .car 1 span args
  | "cdr" => primitive below word .cdr 1 span args
  | _ => throw (.unexpectedKeyword word span)

/-- A call of a known target. -/
def directCall (t : Tree) (below : Handle → Lower Piece) (h : Handle) (target : Operand)
    (args : List Child) : Lower Piece := do
  return .call (t.tailCalls.contains h) target (← children below args)

/-- The piece of an application in code. -/
def application (t : Tree) (below : Handle → Lower Piece) (h : Handle) (children : List Child) :
    Lower Piece :=
  match children with
  | [] => throw (.emptyApplication (t.spans.find? h))
  | .atom (.keyword word) :: args => form t below h word args
  | .atom (.variable name) :: args => directCall t below h (.atom (.variable name)) args
  | .atom a :: _ => throw (.notCallable a.text (t.spans.find? h))
  | .node op :: args =>
    match t.get? op with
    | some (.lambda ..) => directCall t below h (.label (Handle.label op)) args
    | some (.application _ .code _) => computedCall t below h children
    | _ => throw (.notCallable (t.render op) (t.spans.find? h))

/-! ### Nodes and programs -/

/-- The piece of a node, given the pieces of the nodes below it. -/
def nodeWith (t : Tree) (below : Handle → Lower Piece) (h : Handle) : Lower Piece :=
  match t.get? h with
  | none => throw (.emptyApplication none)
  | some (.string _ content) => do
    addConstant h (.string content)
    return .push (.handle h)
  | some (.lambda ..) => return .closure h
  | some (.application _ .code children) => application t below h children
  | some (.application _ .quote _) => do
    constantList t (t.size + 1) h
    return .push (.handle h)
  | some (.application _ .quasiquote _) => template t below (t.size + 1) h
  | some (.application _ .unquote _) => throw (.unquoteOutsideQuasiquote (t.spans.find? h))

/-- The piece of a node, to a depth of `fuel` nodes. -/
def node (t : Tree) : (fuel : Nat) → Handle → Lower Piece
  | 0, _ => throw (.emptyApplication none)
  | fuel + 1, h => nodeWith t (node t fuel) h

/-- The blocks of those handles that are lambdas. -/
def lambdaBlocks (t : Tree) : List Handle → Lower (List Block)
  | [] => return []
  | h :: hs =>
    match t.get? h with
    | some (.lambda _ parameters children) => do
      let body ← body t (node t (t.size + 1)) children
      let others ← lambdaBlocks t hs
      return ⟨h, parameters, parameters.map t.writtenName, body⟩ :: others
    | _ => lambdaBlocks t hs

end Lowering

/-- The blocks of all lambdas, and what lowering them has handed out. -/
def Tree.blocks (t : Tree) : Except LowerError (List Block × Lowering.Stock) :=
  (Lowering.lambdaBlocks t t.lambdas).run { nextConstant := t.size }

/-- The instructions of a program: call the top lambda, halt, and the blocks. -/
def Program.codeOf (blocks : List Block) : Lowering.Code :=
  Lowering.callTo false (.label (Handle.label Tree.top)) :: Lowering.plain .halt
    :: blocks.flatMap Block.code

/-- **The program of an analysed tree.** -/
def Program.ofTree (t : Tree) : Except LowerError Program :=
  if t.analysed then do
    let (blocks, stock) ← t.blocks
    return {
      code := (Program.codeOf blocks).toArray
      constants := stock.constants
      topLevel := Table.ofList (t.renamings.entries.filterMap fun e =>
        if e.2.owner = Tree.top then some (e.1, e.2.written) else none)
      enclosing := Table.ofList (t.scopes.entries.filterMap fun e =>
        e.2.parent.map fun p => (Handle.label e.1, Handle.label p))
      natives := t.natives }
  else throw .notAnalysed

end SchemeMachine
