import SchemeMachine.Closure
import SchemeMachine.Program

/-!
# The heap

Objects in numbered slots. The constants of a program take the slots that their handles name; they are
never changed and never freed. Everything made at run time goes into a slot freed before, the one freed
last first, or else behind all others.

* `Heap.allocate` places an object.
* `Heap.display` is what a program shows of a value, `Heap.source?` writes quoted data as source text.
* `Heap.collect` frees what cannot be reached: `Heap.mark` follows references from the roots, and
  `Heap.sweep` frees the rest.
-/

namespace SchemeMachine

/-- Where a call returns to: the closure that was current and the next place in the code. -/
structure Frame where
  closure : Option Handle
  returnAddress : Nat
deriving Repr, DecidableEq, Inhabited

/-- **What remains to be done at some point of a run**: the current closure, the operand stack and the calls
under way (both with the top first), and the label to go on at. -/
structure Continuation where
  closure : Option Handle
  stack : List Value
  frames : List Frame
  resume : String
deriving Repr, DecidableEq, Inhabited

/-- **An object on the heap.** -/
inductive Object where
  | string (content : String)
  | list (items : List Value)
  | closure (value : Closure)
  | continuation (value : Continuation)
deriving Repr, DecidableEq, Inhabited

namespace Object

/-- The kind of an object as messages name it. -/
def typeName : Object → String
  | .string _ => "string"
  | .list _ => "list"
  | .closure _ => "closure"
  | .continuation _ => "continuation"

/-- The objects that an object refers to. -/
def references : Object → List Handle
  | .string _ => []
  | .list items => items.filterMap Value.handle?
  | .closure c => c.parent.toList ++ c.values.filterMap Value.handle?
  | .continuation k =>
    k.closure.toList ++ k.stack.filterMap Value.handle? ++ k.frames.filterMap (·.closure)

/-- A constant as an object. Variables among the items of a list have no value and are left out. -/
def ofConstant : Constant → Object
  | .string content => .string content
  | .list items => .list (items.filterMap Value.ofOperand?)

end Object

/-- An object in its slot, whether it is a constant, and the closure that was current when it was made. -/
structure Slot where
  object : Object
  isConstant : Bool
  referrer : Option Handle
deriving Repr, DecidableEq, Inhabited

/-- **A heap**: the slots, those free for use (the next one first), and how many objects were made at run
time and not freed. -/
structure Heap where
  slots : Array (Option Slot) := #[]
  free : List Handle := []
  dynamic : Nat := 0
deriving Repr, DecidableEq, Inhabited

namespace Heap

/-! ### Slots -/

/-- The slot of a handle. -/
def slot? (heap : Heap) (h : Handle) : Option Slot := heap.slots[h]?.join

/-- The object of a handle. -/
def get? (heap : Heap) (h : Handle) : Option Object := (heap.slot? h).map (·.object)

/-- The closure of a handle. -/
def closure? (heap : Heap) (h : Handle) : Option Closure :=
  match heap.get? h with
  | some (.closure c) => some c
  | _ => none

/-- The string of a handle. -/
def string? (heap : Heap) (h : Handle) : Option String :=
  match heap.get? h with
  | some (.string s) => some s
  | _ => none

/-- The list of a handle. -/
def list? (heap : Heap) (h : Handle) : Option (List Value) :=
  match heap.get? h with
  | some (.list items) => some items
  | _ => none

/-- How many slots are in use. -/
def live (heap : Heap) : Nat := heap.slots.toList.countP Option.isSome

/-- Put a constant into its slot, adding slots as needed. -/
def placeConstant (heap : Heap) (h : Handle) (c : Constant) : Heap :=
  let slots := heap.slots ++ Array.replicate (h + 1 - heap.slots.size) none
  { heap with slots := slots.setIfInBounds h (some ⟨Object.ofConstant c, true, none⟩) }

/-- **The heap of a program** before it runs: its constants. -/
def ofConstants (constants : Table Handle Constant) : Heap :=
  constants.entries.foldl (fun heap e => heap.placeConstant e.1 e.2) {}

/-- **Place an object**; `referrer` is the current closure. -/
def allocate (heap : Heap) (object : Object) (referrer : Option Handle) : Handle × Heap :=
  let slot : Option Slot := some ⟨object, false, referrer⟩
  match heap.free with
  | h :: free =>
    (h, { slots := heap.slots.setIfInBounds h slot, free, dynamic := heap.dynamic + 1 })
  | [] =>
    (heap.slots.size, { slots := heap.slots.push slot, free := [], dynamic := heap.dynamic + 1 })

/-- Whether the object of a handle may be changed: there is one, and it is no constant. -/
def isMutable (heap : Heap) (h : Handle) : Bool := (heap.slot? h).any fun s => !s.isConstant

/-- Overwrite an object that may be changed. -/
def put (heap : Heap) (h : Handle) (object : Object) : Heap :=
  match heap.slot? h with
  | some s =>
    if s.isConstant then heap
    else { heap with slots := heap.slots.setIfInBounds h (some { s with object }) }
  | none => heap

/-- The closure of a handle, if it may be changed. -/
def mutableClosure? (heap : Heap) (h : Handle) : Option Closure :=
  if heap.isMutable h then heap.closure? h else none

/-! ### Texts -/

/-- What a program shows of a value, to a depth of `fuel` lists. -/
def displayFrom (heap : Heap) : (fuel : Nat) → Value → String
  | 0, v => v.text
  | fuel + 1, v =>
    match v with
    | .handle h =>
      match heap.get? h with
      | some (.string s) => s
      | some (.list items) =>
        "(" ++ String.intercalate " " (items.map (displayFrom heap fuel)) ++ ")"
      | some (.closure c) => "#<procedure @" ++ c.label ++ ">"
      | some (.continuation _) => "#<continuation>"
      | none => "#<invalid " ++ Handle.label h ++ ">"
    | other => other.text

/-- **What a program shows of a value.** -/
def display (heap : Heap) (v : Value) : String := heap.displayFrom (heap.slots.size + 1) v

/-- A value as source text, to a depth of `fuel` lists. -/
def sourceFrom? (heap : Heap) : (fuel : Nat) → Value → Option String
  | 0, _ => none
  | fuel + 1, v =>
    match v with
    | .number x => some (Number.display x)
    | .boolean b => some (if b then "#t" else "#f")
    | .symbol s => some s
    | .keyword k => some k
    | .label _ => none
    | .handle h =>
      match heap.get? h with
      | some (.string s) => some (Text.quote s)
      | some (.list items) =>
        (items.mapM (sourceFrom? heap fuel)).map fun parts =>
          "(" ++ String.intercalate " " parts ++ ")"
      | _ => none

/-- **A value as source text**; `none` if it holds something that has no source. -/
def source? (heap : Heap) (v : Value) : Option String := heap.sourceFrom? (heap.slots.size + 1) v

/-! ### Equality -/

/-- Whether two values are equal, to a depth of `fuel` lists. -/
def equalFrom (heap : Heap) : (fuel : Nat) → Value → Value → Bool
  | 0, a, b => a.same b
  | fuel + 1, a, b =>
    match a, b with
    | .handle x, .handle y =>
      if x = y then true
      else
        match heap.get? x, heap.get? y with
        | some (.string s), some (.string t) => s = t
        | some (.list l), some (.list m) =>
          l.length = m.length && (l.zip m).all fun p => equalFrom heap fuel p.1 p.2
        | _, _ => false
    | a, b => a.same b

/-- **Whether two values are equal**: strings and lists by content, everything else by identity. -/
def equal (heap : Heap) (a b : Value) : Bool := heap.equalFrom (heap.slots.size + 1) a b

/-! ### Collection -/

/-- Whether a handle is in use and not yet marked. -/
def isUnmarked (heap : Heap) (marked : Array Bool) (h : Handle) : Bool :=
  (heap.slot? h).isSome && !marked.getD h false

/-- What the object of a handle refers to. -/
def referencesOf (heap : Heap) (h : Handle) : List Handle :=
  ((heap.get? h).map Object.references).getD []

/-- **Mark what can be reached** from pending handles. Every round marks one more slot, so as many rounds
as there are slots suffice. -/
def mark (heap : Heap) : (fuel : Nat) → (marked : Array Bool) → (pending : List Handle) → Array Bool
  | 0, marked, _ => marked
  | fuel + 1, marked, pending =>
    match pending.dropWhile fun h => !heap.isUnmarked marked h with
    | [] => marked
    | h :: rest => mark heap fuel (marked.setIfInBounds h true) (heap.referencesOf h ++ rest)

/-- The handles of the constants. -/
def constantHandles (heap : Heap) : List Handle :=
  (List.range heap.slots.size).filter fun h => (heap.slot? h).any (·.isConstant)

/-- The slots that can be reached from the roots and the constants. -/
def reachable (heap : Heap) (roots : List Handle) : Array Bool :=
  heap.mark heap.slots.size (Array.replicate heap.slots.size false) (roots ++ heap.constantHandles)

/-- The handles in use that are not marked and no constants. -/
def garbage (heap : Heap) (marked : Array Bool) : List Handle :=
  (List.range heap.slots.size).filter fun h =>
    (heap.slot? h).any fun s => !s.isConstant && !marked.getD h false

/-- Free slots, the first one first, so that the last one is used next. -/
def sweep (heap : Heap) (garbage : List Handle) : Heap where
  slots := garbage.foldl (fun slots h => slots.setIfInBounds h none) heap.slots
  free := garbage.reverse ++ heap.free
  dynamic := heap.dynamic - garbage.length

/-- **Free what cannot be reached** from the roots and the constants; the answer counts what was freed. -/
def collect (heap : Heap) (roots : List Handle) : Nat × Heap :=
  let garbage := heap.garbage (heap.reachable roots)
  (garbage.length, heap.sweep garbage)

end Heap

end SchemeMachine
