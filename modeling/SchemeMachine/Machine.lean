import SchemeMachine.Module
import SchemeMachine.Native

/-!
# Machines

The state of one running program, and why a run fails. How a machine moves is in the modules below this
one: `Machine.Environment` reads and writes variables, `Machine.Primitive` computes, and `Machine.Step`
carries out instructions.
-/

namespace SchemeMachine

/-! ### Faults -/

/-- What goes wrong in a run. -/
inductive Fault where
  | unboundVariable (name : String)
  | typeError (reason : String)
  | arithmeticError (reason : String)
  | nativeIo (reason : String)
  | instructionLimit (limit : Nat)
  | undefinedLabel (name : String)
  | stackUnderflow
  | invalidHandle (handle : Handle)
  | fork (reason : String)
  | invalidProgram (reason : String)
  | placeOutOfRange (place : Nat)
  | native (cause : NativeError)
deriving Repr, DecidableEq

/-- The message for a reader. -/
def Fault.message : Fault → String
  | .unboundVariable name => "unbound variable: " ++ name
  | .typeError reason => "type error: " ++ reason
  | .arithmeticError reason => "arithmetic error: " ++ reason
  | .nativeIo reason => "native I/O error: " ++ reason
  | .instructionLimit limit => s!"instruction limit exceeded: {limit}"
  | .undefinedLabel name => "undefined label @" ++ name
  | .stackUnderflow => "operand stack underflow"
  | .invalidHandle h => "invalid handle " ++ Handle.label h
  | .fork reason => "fork failed: " ++ reason
  | .invalidProgram reason => "invalid program: " ++ reason
  | .placeOutOfRange place => s!"program counter {place} is out of range"
  | .native cause => cause.message

/-- **Why a run failed**, and the closure and instruction at which it did. -/
structure RunError where
  fault : Fault
  place : Option (String × Nat) := none
deriving Repr, DecidableEq

namespace RunError

/-- Add a place, unless there is one. -/
def located (e : RunError) (label : String) (pc : Nat) : RunError :=
  match e.place with
  | some _ => e
  | none => { e with place := some (label, pc) }

/-- The message for a reader. -/
def message (e : RunError) : String :=
  match e.place with
  | none => e.fault.message
  | some (label, pc) => e.fault.message ++ " (in @" ++ label ++ s!" at instruction {pc})"

end RunError

/-! ### Machines -/

/-- What a run is allowed, and where it looks for modules. -/
structure Settings where
  /-- The run fails after this many instructions. -/
  maxSteps : Option Nat := none
  /-- Garbage is collected from this many objects on; `none` means never. -/
  gcThreshold : Option Nat := some 50000
  traceInstructions : Bool := false
  searchPath : List Path := []
deriving Repr, DecidableEq, Inhabited

/-- What surrounds the machines: the settings, the native libraries, and the files. -/
structure Host where
  settings : Settings := {}
  registry : Registry := Registry.builtins
  files : FileTree := {}

/-- Whether a machine goes on. -/
inductive RunState where
  | running
  /-- Waiting for a native job. -/
  | sleeping
  /-- Paused until its next turn. -/
  | suspended
  | stopped
  | failed
deriving Repr, DecidableEq, Inhabited

namespace RunState

/-- The name of a state. -/
def text : RunState → String
  | .running => "Running"
  | .sleeping => "Sleeping"
  | .suspended => "Suspended"
  | .stopped => "Stopped"
  | .failed => "Failed"

/-- Whether a run is over. -/
def isTerminated : RunState → Bool
  | .stopped | .failed => true
  | _ => false

end RunState

/-- A program with the places of its labels. -/
structure Image where
  program : Program
  labels : LabelTable
deriving Repr, DecidableEq, Inhabited

/-- Find the labels of a program. -/
def Image.ofProgram (p : Program) : Except Fault Image :=
  match LabelTable.ofCode p.code with
  | .ok labels => .ok ⟨p, labels⟩
  | .error e => .error (.invalidProgram e.message)

/-- **A machine**: a program under way. Stacks have their top first. -/
structure Machine where
  pid : Nat
  image : Image
  pc : Nat := 0
  stack : List Value := []
  frames : List Frame := []
  /-- The closure whose code is running. -/
  current : Option Handle := none
  heap : Heap
  state : RunState := .running
  steps : Nat := 0
  /-- The most calls that were under way at one time. -/
  peakDepth : Nat := 0
  /-- The programs forked and not yet taken over, oldest first. -/
  forked : List Image := []
  /-- The job the machine sleeps on. -/
  pending : Option Job := none
  /-- Garbage is collected beyond this many objects. -/
  nextCollection : Nat := 0

namespace Machine

/-- **The machine that is about to run a program.** -/
def start (settings : Settings) (pid : Nat) (image : Image) : Machine where
  pid
  image
  heap := Heap.ofConstants image.program.constants
  nextCollection := settings.gcThreshold.getD 0

/-- The machine in one line. -/
def summary (m : Machine) : String :=
  s!"Process \x7b pid: {m.pid}, pc: {m.pc}, state: " ++ m.state.text
    ++ s!", steps: {m.steps}, stack_depth: {m.stack.length}, call_depth: {m.frames.length} \x7d"

/-- The label of the running closure. -/
def currentLabel (m : Machine) : String :=
  ((m.current.bind m.heap.closure?).map (·.label)).getD "<entry>"

/-- Put a string on the heap. -/
def newString (m : Machine) (content : String) : Value × Machine :=
  let (h, heap) := m.heap.allocate (.string content) m.current
  (.handle h, { m with heap })

/-- The string that a value refers to. -/
def stringOf? (m : Machine) (v : Value) : Option String := v.handle?.bind m.heap.string?

/-- What the registers refer to. -/
def roots (m : Machine) : List Handle :=
  m.stack.filterMap Value.handle? ++ m.frames.filterMap (·.closure) ++ m.current.toList

/-- Free all that the machine cannot reach; the answer counts what was freed. -/
def collectGarbage (m : Machine) : Nat × Machine :=
  let (freed, heap) := m.heap.collect m.roots
  (freed, { m with heap })

/-- Collect if there are more objects than allowed. The next time is at twice what is left, at the
threshold at the earliest. -/
def collectIfDue (settings : Settings) (m : Machine) : Machine :=
  match settings.gcThreshold with
  | none => m
  | some threshold =>
    if m.nextCollection < m.heap.dynamic then
      let m := m.collectGarbage.2
      { m with nextCollection := max threshold (2 * m.heap.dynamic) }
    else m

/-! ### Moves

An instruction is a sequence of moves, each of which may fail. What was done before a failure stays
done. -/

/-- A move of a machine. -/
abbrev Move := ExceptT Fault (StateM Machine)

/-- Go on to the next instruction. -/
def advance : Move Unit := modify fun m => { m with pc := m.pc + 1 }

/-- Go to a label. -/
def jump (label : String) : Move Unit := do
  match (← get).image.labels.find? label with
  | some place => modify fun m => { m with pc := place }
  | none => throw (.undefinedLabel label)

/-- Push a value. -/
def push (v : Value) : Move Unit := modify fun m => { m with stack := v :: m.stack }

/-- Pop a value. -/
def pop : Move Value := do
  match (← get).stack with
  | v :: stack =>
    modify fun m => { m with stack }
    return v
  | [] => throw .stackUnderflow

/-- Place an object on the heap. -/
def allocate (object : Object) : Move Handle :=
  modifyGet fun m =>
    let (h, heap) := m.heap.allocate object m.current
    (h, { m with heap })

/-- Return to the caller; without one the run is over. -/
def doReturn : Move Unit :=
  modify fun m =>
    match m.frames with
    | frame :: frames => { m with current := frame.closure, pc := frame.returnAddress, frames }
    | [] => { m with state := .stopped }

end Machine

end SchemeMachine
