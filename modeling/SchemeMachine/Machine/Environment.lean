import SchemeMachine.Machine

/-!
# Variables

A closure sees its own bindings, then its copy of the environment in which it was made. The copy may be
out of date, so a look-up also asks the nearest closure further out that binds the name: if that binding
is dirty and differs from the copy, it wins.

* `Machine.dereference` reads a variable.
* `Machine.store` binds one in the current closure, `Machine.assign` changes one wherever it is bound.
* `Machine.makeClosure` closes code over the environment.
-/

namespace SchemeMachine.Machine

/-- The nearest closure at or above a handle that binds a name, through `fuel` closures at most. -/
def binderFrom (heap : Heap) (name : String) : (fuel : Nat) → Option Handle → Option Handle
  | 0, _ => none
  | _, none => none
  | fuel + 1, some h =>
    match heap.closure? h with
    | none => none
    | some c => if c.bound.contains name then some h else binderFrom heap name fuel c.parent

/-- **The nearest closure that binds a name**, from a closure outward. -/
def binder? (heap : Heap) (start : Option Handle) (name : String) : Option Handle :=
  binderFrom heap name (heap.slots.size + 1) start

/-- The closure of a handle that must have one. -/
def closureOf (h : Handle) : Move Closure := do
  match (← get).heap.closure? h with
  | some c => return c
  | none => throw (.invalidHandle h)

/-- Change a closure. -/
def updateClosure (h : Handle) (f : Closure → Closure) : Move Unit := do
  match (← get).heap.mutableClosure? h with
  | some c => modify fun m => { m with heap := m.heap.put h (.closure (f c)) }
  | none => throw (.invalidHandle h)

/-- The binding of a name that closures further out have, and whether it is dirty. -/
def outerBinding? (heap : Heap) (c : Closure) (name : String) : Option (Value × Bool) :=
  ((binder? heap c.parent name).bind heap.closure?).bind fun outer =>
    (outer.bound.find? name).map fun v => (v, outer.isDirty name)

/-- What a closure sees of a name. -/
def lookup? (heap : Heap) (c : Closure) (name : String) : Option Value :=
  match c.bound.find? name with
  | some v => some v
  | none =>
    match c.free.find? name, outerBinding? heap c name with
    | some mine, some (theirs, dirty) => if !mine.same theirs && dirty then some theirs else some mine
    | some mine, none => some mine
    | none, some (theirs, _) => some theirs
    | none, none => none

/-- **Read a variable.** -/
def dereference (name : String) : Move Value := do
  match (← get).current with
  | none => throw (.unboundVariable name)
  | some h =>
    let c ← closureOf h
    match lookup? (← get).heap c name with
    | some v => return v
    | none => throw (.unboundVariable name)

/-- **Bind a variable** in the current closure. -/
def store (name : String) (value : Value) : Move Unit := do
  match (← get).current with
  | none => throw (.invalidProgram ("store of " ++ name ++ " outside any closure"))
  | some h => updateClosure h (·.bind name value)

/-- **Change a variable** where it is bound, and in the copy of the current closure. -/
def assign (name : String) (value : Value) : Move Unit := do
  match (← get).current with
  | none => throw (.unboundVariable name)
  | some h =>
    match (← get).heap.mutableClosure? h with
    | none => throw (.invalidHandle h)
    | some c =>
      if c.bound.contains name then updateClosure h (·.setBound name value)
      else
        let copied := c.free.contains name
        if copied then updateClosure h (·.setFree name value)
        match binder? (← get).heap c.parent name with
        | some outer => updateClosure outer (·.setBound name value)
        | none => if copied then pure () else throw (.unboundVariable name)

/-- The nearest closure with a label, from a handle outward, through `fuel` closures at most. -/
def activationFrom (heap : Heap) (label : String) : (fuel : Nat) → Option Handle →
    Except Fault (Option Handle)
  | 0, _ => .ok none
  | _, none => .ok none
  | fuel + 1, some h =>
    match heap.closure? h with
    | none => .error (.invalidHandle h)
    | some c => if c.label = label then .ok (some h) else activationFrom heap label fuel c.parent

/-- The closure that a new closure for a label belongs to: the nearest one running the lambda around it. Code
without a lambda around it belongs to the current closure. -/
def lexicalParent (label : String) : Move (Option Handle) := do
  let m ← get
  match m.image.program.enclosing.find? label with
  | none => return m.current
  | some enclosing =>
    match activationFrom m.heap enclosing (m.heap.slots.size + 1) m.current with
    | .error e => throw e
    | .ok (some h) => return some h
    | .ok none =>
      throw (.invalidProgram
        ("no live activation of @" ++ enclosing ++ " to close @" ++ label ++ " over"))

/-- **Close the code at a label over the environment.** -/
def makeClosure (label : String) : Move Handle := do
  match (← get).image.labels.find? label with
  | none => throw (.undefinedLabel label)
  | some address =>
    let parent ← lexicalParent label
    let free ← match parent with
      | some h => do
        let c ← closureOf h
        pure c.environment
      | none => pure Table.empty
    allocate (.closure { label, address, parent, free })

end SchemeMachine.Machine
