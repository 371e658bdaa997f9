import SchemeMachine.Machine

/-!
# Primitives

The operations that work on the operand stack alone: arithmetic, comparison, logic, lists and output.
`Machine.operate` answers the text that is written, which is empty for all but output.
-/

namespace SchemeMachine

/-- The number nearest to `m · 2 ^ e`. -/
def Number.scaled (m : Nat) (e : Int) : Float :=
  .ofModel (Float.Model.pack (Float.Model.UnpackedFloat.normalize .binary64 m e .positive))

/-- The remainder of `a` divided by `b`, with the sign of `a`: both are multiples of a power of two, and
the remainder of those multiples is exact. An infinite `b` leaves a finite `a` as it is. -/
def Number.remainder (a b : Float) : Float :=
  match Binary.ofFloat a, Binary.ofFloat b with
  | .nan, _ => a
  | _, .nan => b
  | .infinite _, _ => 0.0 / 0.0
  | .finite .., .infinite _ => a
  | .finite negative m q, .finite _ n r =>
    if n = 0 then 0.0 / 0.0
    else
      let e := min q r
      let rest := (m * Nat.pow 2 (q - e).toNat) % (n * Nat.pow 2 (r - e).toNat)
      let size := scaled rest e
      if negative then -size else size

namespace Machine

/-- The number that an operand must be. -/
def numberOf (op : Opcode) (v : Value) : Except Fault Float :=
  match v.number? with
  | some x => .ok x
  | none =>
    .error (.typeError (op.mnemonic ++ " expects numbers, got " ++ v.typeName ++ " " ++ v.text))

/-- The distance from one to the next larger number. A smaller divisor counts as zero. -/
def smallestDivisor : Float := 2.220446049250313e-16

/-- An operation on two numbers. -/
def numeric (op : Opcode) (a b : Float) : Except Fault Value :=
  match op with
  | .add => .ok (.number (a + b))
  | .sub => .ok (.number (a - b))
  | .mul => .ok (.number (a * b))
  | .div =>
    if b.abs < smallestDivisor then .error (.arithmeticError "div by zero")
    else .ok (.number (a / b))
  | .mod =>
    if b.abs < smallestDivisor then .error (.arithmeticError "mod by zero")
    else .ok (.number (Number.remainder a b))
  | .pow => .ok (.number (Float.pow a b))
  | .ge => .ok (.boolean (decide (b ≤ a)))
  | .le => .ok (.boolean (decide (a ≤ b)))
  | .gt => .ok (.boolean (decide (b < a)))
  | .lt => .ok (.boolean (decide (a < b)))
  | _ => .error (.invalidProgram (op.mnemonic ++ " is not numeric"))

/-- The items of the list that an operand must be. -/
def listItems (op : Opcode) (v : Value) : Move (List Value) := do
  let fault := Fault.typeError (op.mnemonic ++ " expects a list, got " ++ v.typeName)
  match v.handle? with
  | none => throw fault
  | some h =>
    match (← get).heap.get? h with
    | some (.list items) => return items
    | some _ => throw fault
    | none => throw (.invalidHandle h)

/-- Two numbers off the stack, and the result of an operation on them onto it. -/
def operateNumeric (op : Opcode) : Move Unit := do
  let b ← pop
  let a ← pop
  let result : Except Fault Value := do numeric op (← numberOf op a) (← numberOf op b)
  match result with
  | .ok v => push v
  | .error e => throw e

/-- **Carry out a primitive**; the answer is what it writes. -/
def operate (op : Opcode) : Move String := do
  match op with
  | .add | .sub | .mul | .div | .mod | .pow | .ge | .le | .gt | .lt =>
    operateNumeric op
    return ""
  | .eqn =>
    let b ← pop
    let a ← pop
    push (.boolean ((← get).heap.equal a b))
    return ""
  | .and =>
    let b ← pop
    let a ← pop
    push (.boolean (a.isTruthy && b.isTruthy))
    return ""
  | .or =>
    let b ← pop
    let a ← pop
    push (.boolean (a.isTruthy || b.isTruthy))
    return ""
  | .not =>
    let a ← pop
    push (.boolean (!a.isTruthy))
    return ""
  | .car =>
    let list ← pop
    match ← listItems op list with
    | first :: _ =>
      push first
      return ""
    | [] => throw (.typeError "car of an empty list")
  | .cdr =>
    let list ← pop
    match ← listItems op list with
    | _ :: rest =>
      push (.handle (← allocate (.list rest)))
      return ""
    | [] => throw (.typeError "cdr of an empty list")
  | .cons =>
    let list ← pop
    let head ← pop
    let items ← listItems op list
    push (.handle (← allocate (.list (head :: items))))
    return ""
  | .display =>
    let v ← pop
    return (← get).heap.display v
  | .newline => return "\n"
  | _ => throw (.invalidProgram (op.mnemonic ++ " is not a stack primitive"))

end Machine

end SchemeMachine
