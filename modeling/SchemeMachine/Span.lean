/-!
# Places in a source text

* `Position` is a place in a text, moved forward character by character.
* `Span` is the stretch between two places, with the line and column at which it starts.
-/

namespace SchemeMachine

/-- **A place in a source text**: the bytes before it, and its line and column, counted from one. A
column counts characters. -/
structure Position where
  offset : Nat := 0
  line : Nat := 1
  col : Nat := 1
deriving Repr, DecidableEq, Inhabited

/-- **A stretch of a source text**: from byte `start` up to byte `stop`, starting at `line` and `col`. -/
structure Span where
  start : Nat
  stop : Nat
  line : Nat
  col : Nat
deriving Repr, DecidableEq, Inhabited

namespace Position

/-- The place after a character. -/
def advance (p : Position) (c : Char) : Position :=
  if c = '\n' then ⟨p.offset + c.utf8Size, p.line + 1, 1⟩
  else ⟨p.offset + c.utf8Size, p.line, p.col + 1⟩

/-- The place after several characters. -/
def advanceAll (p : Position) (cs : List Char) : Position := cs.foldl advance p

/-- The span from one place to a later one. -/
def spanTo (p q : Position) : Span := ⟨p.offset, q.offset, p.line, p.col⟩

@[simp] theorem advanceAll_nil (p : Position) : p.advanceAll [] = p := rfl

@[simp] theorem advanceAll_cons (p : Position) (c : Char) (cs : List Char) :
    p.advanceAll (c :: cs) = (p.advance c).advanceAll cs := rfl

theorem advanceAll_append (p : Position) (cs ds : List Char) :
    p.advanceAll (cs ++ ds) = (p.advanceAll cs).advanceAll ds := by
  simp [advanceAll]

end Position

namespace Span

/-- The span of what has no place in a text. -/
def unplaced : Span := ⟨0, 0, 0, 0⟩

/-- The smallest stretch that covers both, with the column of the one on the earlier line (the first
one if they start on the same line). -/
def merge (a b : Span) : Span :=
  ⟨min a.start b.start, max a.stop b.stop, min a.line b.line,
    if a.line ≤ b.line then a.col else b.col⟩

/-- Line and column, as shown to a reader. -/
def text (s : Span) : String := s!"{s.line}:{s.col}"

end Span

end SchemeMachine
