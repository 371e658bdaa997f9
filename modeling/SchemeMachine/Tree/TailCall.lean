import SchemeMachine.Tree

/-!
# Tail calls

An application is a tail call if its value is the value of the lambda around it: the last form of a
body, a branch of an `if` in tail position, or the last form of a `begin`, `and` or `or` in tail
position. Special forms and primitives are no calls.
-/

namespace SchemeMachine.Tree

/-- The tail calls at or below a child in tail position, to a depth of `fuel` nodes. -/
def tailCallsBelow (t : Tree) : (fuel : Nat) → Child → List Handle
  | 0, _ => []
  | _, .atom _ => []
  | fuel + 1, .node h =>
    match t.get? h with
    | some (.application _ .code (head :: rest)) =>
      match head with
      | .atom (.keyword word) =>
        if word = "if" then (rest.drop 1 |>.take 2).flatMap (tailCallsBelow t fuel)
        else if word = "begin" ∨ word = "and" ∨ word = "or" then
          rest.getLast?.toList.flatMap (tailCallsBelow t fuel)
        else []
      | _ => [h]
    | _ => []

/-- The tail calls of one lambda. -/
def tailCallsOf (t : Tree) (h : Handle) : List Handle :=
  (t.bodyOf h).getLast?.toList.flatMap (t.tailCallsBelow (t.size + 1))

/-- **Mark the tail calls** of every lambda. -/
def markTailCalls (t : Tree) : Tree :=
  { t with tailCalls := OrderedSet.ofMembers (t.lambdas.flatMap t.tailCallsOf) }

end SchemeMachine.Tree
