import SchemeMachine.Proofs.Names

/-!
# The layout of code

Code with what is known at each of its places: whose code it is, and how many operands of its own it has on
the stack. A block of code is well laid out if every instruction finds the operands it takes and leaves
those that the next one, or the target of its jump, expects.

* `Spot` is what is known at a place, `Line` an instruction at its spot.
* `Piece.lines`, `Block.lines` and `Program.linesOf` give the lines of code; `Piece.map_lines` says that they are
  the instructions of the code.
* `Flows` says what an instruction makes of its spot, `Chain` that the lines of a piece of code follow upon each
  other.
-/

namespace SchemeMachine

open Lowering

/-- **What is known at a place of the code**: the label of the code it belongs to (there is none for the start),
how many operands are on the stack since that code was entered, and the procedure on top of the stack if it is
still a label. -/
structure Spot where
  owner : Option String
  depth : Nat
  pending : Option String := none
deriving Repr, DecidableEq

/-- **An instruction at its spot.** A call has a number of arguments. -/
structure Line where
  spot : Spot
  instruction : Instruction
  arguments : Nat := 0
deriving Repr, DecidableEq

namespace Piece

variable (o : String)

/-- Lines that leave a value in any case. -/
def valuedLines (d : Nat) (yields : Bool) (lines : List Line) : List Line :=
  if yields then lines else lines ++ [⟨⟨o, d, none⟩, pushBoolean false, 0⟩]

/-- Lines that leave no value. -/
def droppedLines (d : Nat) (yields : Bool) (lines : List Line) : List Line :=
  if yields then lines ++ [⟨⟨o, d + 1, none⟩, plain .pop, 0⟩] else lines

/-- Store as many operands as there are names, which are all that is on the stack. -/
def storeLines : List String → List Line
  | [] => []
  | x :: xs => ⟨⟨o, xs.length + 1, none⟩, onVariable .store x, 0⟩ :: storeLines xs

/-- Load variables. -/
def loadLines : (d : Nat) → List String → List Line
  | _, [] => []
  | d, x :: xs => ⟨⟨o, d, none⟩, onVariable .load x, 0⟩ :: loadLines (d + 1) xs

/-- Cons operands onto a list, `count` times. -/
def consLines (d : Nat) : (count : Nat) → List Line
  | 0 => []
  | count + 1 => ⟨⟨o, d + count + 2, none⟩, plain .cons, 0⟩ :: consLines d count

/-- The lines of the block of a computed call. -/
def blockLines (n count : Nat) : List Line :=
  ⟨⟨blockLabel n, count, none⟩, .label (blockLabel n), 0⟩
    :: (storeLines (blockLabel n) (blockParameters n count).reverse
      ++ loadLines (blockLabel n) 0 (blockParameters n count).tail
      ++ [⟨⟨blockLabel n, count - 1, none⟩, callTo true (.atom (.variable (blockLabel n ++ ".p0"))), count - 1⟩,
        ⟨⟨blockLabel n, 1, none⟩, plain .ret, 0⟩])

/-- The label that a piece leaves on the stack. -/
def pendingLabel : Piece → Option String
  | .push (.label name) => some name
  | _ => none

mutual

/-- **The lines of a piece**, which belongs to the code at `o` and starts with `d` operands on the stack. -/
def lines (d : Nat) : Piece → List Line
  | .push operand => [⟨⟨o, d, none⟩, .op .push (some operand), 0⟩]
  | .load name => [⟨⟨o, d, none⟩, onVariable .load name, 0⟩]
  | .closure h => [⟨⟨o, d, none⟩, toLabel .loadClosure (Handle.label h), 0⟩]
  | .call tail target args =>
    linesAll d args ++ [⟨⟨o, d + args.length, none⟩, callTo tail target, args.length⟩]
  | .computedCall tail n operands =>
    ⟨⟨o, d, none⟩, toLabel .goto (blockLabel n ++ "_end"), 0⟩ :: blockLines n operands.length
      ++ ⟨⟨o, d, none⟩, .label (blockLabel n ++ "_end"), 0⟩ :: linesAll d operands
      ++ [⟨⟨o, d + operands.length, none⟩, callTo tail (.label (blockLabel n)), operands.length⟩]
  | .assignment op name right =>
    valuedLines o d right.yields (lines d right)
      ++ [⟨⟨o, d + 1, right.pendingLabel⟩, onVariable op name, 0⟩]
  | .conditional n test yes no =>
    valuedLines o d test.yields (lines d test)
      ++ ⟨⟨o, d + 1, none⟩, toLabel .ifTrue (thenLabel n), 0⟩ :: valuedLines o d no.yields (lines d no)
      ++ ⟨⟨o, d + 1, none⟩, toLabel .goto (endLabel n), 0⟩ :: ⟨⟨o, d, none⟩, .label (thenLabel n), 0⟩
        :: valuedLines o d yes.yields (lines d yes)
      ++ [⟨⟨o, d + 1, none⟩, .label (endLabel n), 0⟩]
  | .connective conjunction n clauses last returns =>
    linesThen d (clauseJump conjunction n) clauses ++ valuedLines o d last.yields (lines d last)
      ++ (if returns then [] else [⟨⟨o, d + 1, none⟩, clauseJump conjunction n, 0⟩])
      ++ [⟨⟨o, d, none⟩, pushBoolean conjunction, 0⟩,
        ⟨⟨o, d + 1, none⟩, toLabel .goto (sinkLabel conjunction n ++ "_end"), 0⟩,
        ⟨⟨o, d, none⟩, .label (sinkLabel conjunction n), 0⟩, ⟨⟨o, d, none⟩, pushBoolean (!conjunction), 0⟩,
        ⟨⟨o, d + 1, none⟩, .label (sinkLabel conjunction n ++ "_end"), 0⟩]
  | .body forms last => linesDropped d forms ++ valuedLines o d last.yields (lines d last)
  | .callWithContinuation n target =>
    [⟨⟨o, d, none⟩, onVariable .capture (resumeLabel n), 0⟩, ⟨⟨o, d, none⟩, onVariable .load (resumeLabel n), 0⟩,
      ⟨⟨o, d + 1, none⟩, callTo false target, 1⟩, ⟨⟨o, d + 1, none⟩, .label (resumeLabel n), 0⟩]
  | .fork h => [⟨⟨o, d, none⟩, .op .fork (some (.handle h)), 0⟩]
  | .display shown =>
    valuedLines o d shown.yields (lines d shown) ++ [⟨⟨o, d + 1, none⟩, plain .display, 0⟩]
  | .newline => [⟨⟨o, d, none⟩, plain .newline, 0⟩]
  | .declaration => []
  | .primitive op args => linesAll d args ++ [⟨⟨o, d + args.length, none⟩, plain op, 0⟩]
  | .arithmetic op first rest =>
    valuedLines o d first.yields (lines d first) ++ linesThen (d + 1) (plain op) rest
  | .template items empty =>
    linesAll d items ++ ⟨⟨o, d + items.length, none⟩, pushHandle empty, 0⟩ :: consLines o d items.length

/-- The lines of values that stay on the stack. -/
def linesAll (d : Nat) : List Piece → List Line
  | [] => []
  | p :: ps => valuedLines o d p.yields (lines d p) ++ linesAll (d + 1) ps

/-- The lines of values, each of which the next instruction uses up. -/
def linesThen (d : Nat) (i : Instruction) : List Piece → List Line
  | [] => []
  | p :: ps => valuedLines o d p.yields (lines d p) ++ ⟨⟨o, d + 1, none⟩, i, 0⟩ :: linesThen d i ps

/-- The lines of forms whose values are dropped. -/
def linesDropped (d : Nat) : List Piece → List Line
  | [] => []
  | p :: ps => droppedLines o d p.yields (lines d p) ++ linesDropped d ps

end

/-! ### Lines are the instructions of the code -/

variable {o}

theorem map_valuedLines {d : Nat} {yields : Bool} {ls : List Line} {code : Code}
    (h : ls.map Line.instruction = code) :
    (valuedLines o d yields ls).map Line.instruction = valued yields code := by
  cases yields <;> simp [valuedLines, valued, h]

theorem map_droppedLines {d : Nat} {yields : Bool} {ls : List Line} {code : Code}
    (h : ls.map Line.instruction = code) :
    (droppedLines o d yields ls).map Line.instruction = dropped yields code := by
  cases yields <;> simp [droppedLines, dropped, h]

@[simp] theorem map_storeLines (xs : List String) :
    (storeLines o xs).map Line.instruction = xs.map (onVariable .store) := by
  induction xs with
  | nil => rfl
  | cons x xs ih => simp [storeLines, ih]

@[simp] theorem map_loadLines (xs : List String) (d : Nat) :
    (loadLines o d xs).map Line.instruction = xs.map (onVariable .load) := by
  induction xs generalizing d with
  | nil => rfl
  | cons x xs ih => simp [loadLines, ih]

@[simp] theorem map_consLines (d count : Nat) :
    (consLines o d count).map Line.instruction = List.replicate count (plain .cons) := by
  induction count with
  | zero => rfl
  | succ count ih => simp [consLines, ih, List.replicate_succ]

@[simp] theorem map_blockLines (n count : Nat) : (blockLines n count).map Line.instruction = blockCode n count := by
  simp [blockLines, blockCode]

mutual

/-- **The lines of a piece are its instructions.** -/
theorem map_lines : (p : Piece) → (d : Nat) → (p.lines o d).map Line.instruction = p.code
  | .push _, _ => rfl
  | .load _, _ => rfl
  | .closure _, _ => rfl
  | .call tail target args, d => by simp [lines, code, map_linesAll args]
  | .computedCall tail n operands, d => by simp [lines, code, map_linesAll operands]
  | .assignment op name right, d => by simp [lines, code, map_valuedLines (map_lines right d)]
  | .conditional n test yes no, d => by
    simp [lines, code, map_valuedLines (map_lines test d), map_valuedLines (map_lines yes d),
      map_valuedLines (map_lines no d)]
  | .connective conjunction n clauses last returns, d => by
    cases returns <;>
      simp [lines, code, map_linesThen clauses, map_valuedLines (map_lines last d)]
  | .body forms last, d => by
    simp [lines, code, map_linesDropped forms, map_valuedLines (map_lines last d)]
  | .callWithContinuation _ _, _ => rfl
  | .fork _, _ => rfl
  | .display shown, d => by simp [lines, code, map_valuedLines (map_lines shown d)]
  | .newline, _ => rfl
  | .declaration, _ => rfl
  | .primitive op args, d => by simp [lines, code, map_linesAll args]
  | .arithmetic op first rest, d => by
    simp [lines, code, map_linesThen rest, map_valuedLines (map_lines first d)]
  | .template items empty, d => by simp [lines, code, map_linesAll items]

theorem map_linesAll : (ps : List Piece) → (d : Nat) → (linesAll o d ps).map Line.instruction = eachValue [] ps
  | [], _ => rfl
  | p :: ps, d => by simp [linesAll, eachValue, map_valuedLines (map_lines p d), map_linesAll ps]

theorem map_linesThen : (ps : List Piece) → (d : Nat) → (i : Instruction) →
    (linesThen o d i ps).map Line.instruction = eachValue [i] ps
  | [], _, _ => rfl
  | p :: ps, d, i => by simp [linesThen, eachValue, map_valuedLines (map_lines p d), map_linesThen ps]

theorem map_linesDropped : (ps : List Piece) → (d : Nat) →
    (linesDropped o d ps).map Line.instruction = eachForm ps
  | [], _ => rfl
  | p :: ps, d => by simp [linesDropped, eachForm, map_droppedLines (map_lines p d), map_linesDropped ps]

end

end Piece

/-- The lines of a block: as it is entered, its arguments are on the stack. -/
def Block.lines (b : Block) : List Line :=
  let o := Handle.label b.handle
  ⟨⟨o, b.parameters.length, none⟩,
      .comment (" lambda " ++ o ++ " (" ++ String.intercalate " " b.written ++ ")"), 0⟩
    :: ⟨⟨o, b.parameters.length, none⟩, .label o, 0⟩
    :: (Piece.storeLines o b.parameters.reverse ++ Piece.valuedLines o 0 b.body.yields (b.body.lines o 0)
      ++ [⟨⟨o, 1, none⟩, plain .ret, 0⟩])

/-- The lines of a program. -/
def Program.linesOf (blocks : List Block) : List Line :=
  ⟨⟨none, 0, none⟩, callTo false (.label (Handle.label Tree.top)), 0⟩ :: ⟨⟨none, 1, none⟩, plain .halt, 0⟩
    :: blocks.flatMap Block.lines

theorem Block.map_lines (b : Block) : b.lines.map Line.instruction = b.code := by
  simp [Block.lines, Block.code, Piece.value, Piece.map_valuedLines (Piece.map_lines b.body 0)]

/-- **The lines of a program are its instructions.** -/
theorem Program.map_linesOf (blocks : List Block) : (linesOf blocks).map Line.instruction = codeOf blocks := by
  simp only [linesOf, codeOf, List.map_cons, List.map_flatMap, Block.map_lines]

end SchemeMachine
