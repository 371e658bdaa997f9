/-!
# Code point ranges

A class of characters given by a table of closed ranges of code points.
-/

namespace SchemeMachine.Text

/-- Whether a character lies in one of the closed ranges. -/
def inRanges (ranges : List (Nat × Nat)) (c : Char) : Bool :=
  ranges.any fun r => r.1 ≤ c.toNat && c.toNat ≤ r.2

end SchemeMachine.Text
