import SchemeMachine.Table
import SchemeMachine.Value

/-!
# Closures

A piece of code with the environment it runs in: its own bindings, and a copy of the environment in which
it was made. The copy goes out of date when a binding further out is changed, so every changed binding is
marked as dirty; a reader who finds it dirty prefers it to the copy.
-/

namespace SchemeMachine

/-- **A closure**: the label and place of its code, the closure it was made in, its own bindings, the
bindings copied when it was made, and the names changed since they were bound. -/
structure Closure where
  label : String
  address : Nat
  parent : Option Handle
  bound : Table String Value := {}
  free : Table String Value := {}
  dirty : Names := {}
deriving Repr, DecidableEq, Inhabited

namespace Closure

/-- Bind a name. Giving it another value than it had marks it as dirty. -/
def bind (c : Closure) (name : String) (value : Value) : Closure :=
  let changed := match c.bound.find? name with
    | some old => !value.same old
    | none => false
  { c with
    bound := c.bound.insert name value
    dirty := if changed then c.dirty.add name else c.dirty }

/-- Change a binding and mark it as dirty. -/
def setBound (c : Closure) (name : String) (value : Value) : Closure :=
  { c with bound := c.bound.insert name value, dirty := c.dirty.add name }

/-- Change a copied binding and mark it as dirty. -/
def setFree (c : Closure) (name : String) (value : Value) : Closure :=
  { c with free := c.free.insert name value, dirty := c.dirty.add name }

/-- Whether a name has been changed. -/
def isDirty (c : Closure) (name : String) : Bool := c.dirty.contains name

/-- **All that the closure sees by itself**: the copied bindings, its own over them. -/
def environment (c : Closure) : Table String Value := c.free.union c.bound

/-- The values it holds. -/
def values (c : Closure) : List Value := c.bound.values ++ c.free.values

/-! ### What a change leaves alone -/

@[simp] theorem bound_bind (c : Closure) (name : String) (value : Value) :
    (c.bind name value).bound = c.bound.insert name value := rfl

@[simp] theorem free_bind (c : Closure) (name : String) (value : Value) :
    (c.bind name value).free = c.free := rfl

@[simp] theorem parent_bind (c : Closure) (name : String) (value : Value) :
    (c.bind name value).parent = c.parent := rfl

@[simp] theorem bound_setBound (c : Closure) (name : String) (value : Value) :
    (c.setBound name value).bound = c.bound.insert name value := rfl

@[simp] theorem free_setBound (c : Closure) (name : String) (value : Value) :
    (c.setBound name value).free = c.free := rfl

@[simp] theorem parent_setBound (c : Closure) (name : String) (value : Value) :
    (c.setBound name value).parent = c.parent := rfl

/-- A changed binding is dirty. -/
@[simp] theorem isDirty_setBound (c : Closure) (name : String) (value : Value) :
    (c.setBound name value).isDirty name = true := by
  simp [isDirty, setBound, OrderedSet.add, Table.contains]

end Closure

end SchemeMachine
