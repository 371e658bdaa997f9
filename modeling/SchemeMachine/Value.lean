import SchemeMachine.Instruction

/-!
# Values

What a running program computes with. Strings, lists and procedures live on the heap; a value refers to
them by handle.
-/

namespace SchemeMachine

/-- **A value.** A label is a procedure that has not been closed over its environment yet; a keyword is a
primitive. -/
inductive Value where
  | number (value : Float)
  | boolean (value : Bool)
  | symbol (name : String)
  | keyword (name : String)
  | handle (value : Handle)
  | label (name : String)
deriving Repr, DecidableEq, Inhabited

namespace Value

/-- Every value but `#f` counts as true. -/
def isTruthy : Value → Bool
  | .boolean b => b
  | _ => true

/-- The number that a value is. -/
def number? : Value → Option Float
  | .number x => some x
  | _ => none

/-- The object that a value refers to. -/
def handle? : Value → Option Handle
  | .handle h => some h
  | _ => none

/-- The kind of a value as messages name it. -/
def typeName : Value → String
  | .number _ => "number"
  | .boolean _ => "boolean"
  | .symbol _ => "symbol"
  | .keyword _ => "primitive"
  | .handle _ => "object"
  | .label _ => "procedure"

/-- The value that an operand is; a variable is none. -/
def ofOperand? : Operand → Option Value
  | .atom (.number x) => some (.number x)
  | .atom (.boolean b) => some (.boolean b)
  | .atom (.symbol s) => some (.symbol s)
  | .atom (.keyword k) => some (.keyword k)
  | .atom (.variable _) => none
  | .label name => some (.label name)
  | .handle h => some (.handle h)

/-- The value by itself, without a look at the heap. -/
def text : Value → String
  | .number x => Number.display x
  | .boolean b => if b then "#t" else "#f"
  | .symbol s => s
  | .keyword k => k
  | .handle h => Handle.label h
  | .label name => "#<procedure @" ++ name ++ ">"

/-- Equality with numbers compared as numbers: zero has one sign, and no NaN equals anything. -/
def same : Value → Value → Bool
  | .number x, .number y => x == y
  | .number _, _ => false
  | _, .number _ => false
  | a, b => a = b

end Value

end SchemeMachine
