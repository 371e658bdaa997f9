import SchemeMachine.Proofs.Lowering.Retelling

/-!
# Lowering without tail calls

A tree whose marks for tail calls are taken away lowers to the same pieces, in which no call is a tail call.

* `Tree.unmarked` takes the marks away, `Piece.untail` and `Block.untail` the tail calls.
* `Tree.blocks_unmarked` is the result.
-/

namespace SchemeMachine

/-- The tree without its marks for tail calls. -/
def Tree.unmarked (t : Tree) : Tree := { t with tailCalls := {} }

namespace Piece

mutual

/-- **A piece without tail calls.** -/
def untail : Piece → Piece
  | .push operand => .push operand
  | .load name => .load name
  | .closure h => .closure h
  | .call _ target args => .call false target (untailAll args)
  | .computedCall _ n operands => .computedCall false n (untailAll operands)
  | .assignment op name right => .assignment op name right.untail
  | .conditional n test yes no => .conditional n test.untail yes.untail no.untail
  | .connective conjunction n clauses last _ => .connective conjunction n (untailAll clauses) last.untail false
  | .body forms last => .body (untailAll forms) last.untail
  | .callWithContinuation n target => .callWithContinuation n target
  | .fork h => .fork h
  | .display shown => .display shown.untail
  | .newline => .newline
  | .declaration => .declaration
  | .primitive op args => .primitive op (untailAll args)
  | .arithmetic op first rest => .arithmetic op first.untail (untailAll rest)
  | .template items empty => .template (untailAll items) empty

/-- Pieces without tail calls. -/
def untailAll : List Piece → List Piece
  | [] => []
  | p :: ps => p.untail :: untailAll ps

end

theorem untailAll_eq_map (ps : List Piece) : untailAll ps = ps.map untail := by
  induction ps with
  | nil => rfl
  | cons p ps ih => rw [untailAll, ih, List.map_cons]

@[simp] theorem length_untailAll (ps : List Piece) : (untailAll ps).length = ps.length := by
  rw [untailAll_eq_map, List.length_map]

@[simp] theorem yields_untail (p : Piece) : p.untail.yields = p.yields := by
  cases p <;> rfl

end Piece

/-- A block without tail calls. -/
def Block.untail (b : Block) : Block := { b with body := b.body.untail }

mutual

theorem Piece.retail_false : (p : Piece) → p.retail (fun _ => false) = p.untail
  | .push _ | .load _ | .closure _ | .callWithContinuation _ _ | .fork _ | .newline | .declaration => rfl
  | .call _ _ args => by rw [retail, untail, retailAll_false args]
  | .computedCall _ _ operands => by rw [retail, untail, retailAll_false operands]
  | .assignment _ _ right => by rw [retail, untail, retail_false right]
  | .conditional _ test yes no => by rw [retail, untail, retail_false test, retail_false yes, retail_false no]
  | .connective _ _ clauses last _ => by rw [retail, untail, retailAll_false clauses, retail_false last]
  | .body forms last => by rw [retail, untail, retailAll_false forms, retail_false last]
  | .display shown => by rw [retail, untail, retail_false shown]
  | .primitive _ args => by rw [retail, untail, retailAll_false args]
  | .arithmetic _ first rest => by rw [retail, untail, retail_false first, retailAll_false rest]
  | .template items _ => by rw [retail, untail, retailAll_false items]

theorem Piece.retailAll_false : (ps : List Piece) → retailAll (fun _ => false) ps = untailAll ps
  | [] => rfl
  | p :: ps => by rw [retailAll, untailAll, retail_false p, retailAll_false ps]

end

theorem Tree.retells_unmarked (t : Tree) : t.Retells (fun _ => false) t.unmarked := ⟨rfl, rfl, fun _ => rfl, rfl⟩

/-- **The blocks of a tree without marks** are those of the tree without tail calls. -/
theorem Tree.blocks_unmarked {t : Tree} {blocks : List Block} {stock : Lowering.Stock}
    (h : t.blocks = .ok (blocks, stock)) : t.unmarked.blocks = .ok (blocks.map Block.untail, stock) := by
  have huntail (b : Block) : b.retail (fun _ => false) = b.untail := by
    rw [Block.retail, Block.untail, Piece.retail_false]
  rw [t.retells_unmarked.blocks h, List.map_congr_left fun b _ => huntail b]

end SchemeMachine
