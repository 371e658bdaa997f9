import SchemeMachine.Machine.Environment
import SchemeMachine.Machine.Primitive

/-!
# Steps

`Machine.step` carries out one instruction of a machine: a function of the host and the machine to what the
machine becomes, the text it writes, and the fault it meets.

* `Machine.call` calls a procedure, a primitive, a continuation or a native function.
* `Machine.capture` and `Machine.resume` take and reinstate a continuation.
* `Machine.fork` starts another program.
* `Machine.deliver` wakes a machine with the result of its native job.
-/

namespace SchemeMachine.Machine

/-! ### Operands -/

/-- The fault of a missing operand. -/
def missingOperand (op : Opcode) : Fault := .invalidProgram (op.mnemonic ++ " is missing its argument")

/-- The variable that an operand must be. -/
def variableOperand (op : Opcode) : Option Operand → Except Fault String
  | some (.atom (.variable name)) => .ok name
  | some other => .error (.invalidProgram (op.mnemonic ++ " expects a variable, got " ++ other.text))
  | none => .error (missingOperand op)

/-- The label that an operand must be. -/
def labelOperand (op : Opcode) : Option Operand → Except Fault String
  | some (.label name) => .ok name
  | some other => .error (.invalidProgram (op.mnemonic ++ " expects a label, got " ++ other.text))
  | none => .error (missingOperand op)

/-- A check as a move. -/
def require {α : Type} : Except Fault α → Move α
  | .ok a => return a
  | .error e => throw e

/-! ### Continuations -/

/-- Take what remains to be done and bind it to a name, which is also the label to go on at. -/
def capture (name : String) : Move Unit := do
  let m ← get
  let k : Continuation := ⟨m.current, m.stack, m.frames, name⟩
  let h ← allocate (.continuation k)
  store name (.handle h)
  advance

/-- Go on with a continuation, giving it the value on top of the stack. -/
def resume (k : Continuation) : Move Unit := do
  let v ← pop
  match (← get).image.labels.find? k.resume with
  | none => throw (.undefinedLabel k.resume)
  | some place =>
    modify fun m =>
      { m with stack := v :: k.stack, frames := k.frames, current := k.closure, pc := place }

/-! ### Calls -/

/-- Remember where to return to, unless the call is the last thing its caller does. -/
def pushFrame (tail : Bool) : Move Unit :=
  if tail then pure ()
  else modify fun m => { m with frames := ⟨m.current, m.pc + 1⟩ :: m.frames }

/-- Run the code of a closure. -/
def enter (activation : Handle) (tail : Bool) : Move Unit := do
  pushFrame tail
  modify fun m =>
    { m with
      current := some activation
      pc := ((m.heap.closure? activation).map (·.address)).getD m.pc }

/-- Go on after a call that has left its value: a tail call returns from its caller. -/
def finishCall (tail : Bool) : Move Unit := if tail then doReturn else advance

/-- The native function of a name `Library.function`, if the program declares the library. -/
def nativeTarget? (host : Host) (m : Machine) (name : String) :
    Option (String × String × NativeFunction) := do
  let (before, after) ← Text.splitAtChar '.' name.toList
  let library := String.ofList before
  let function := String.ofList after
  if m.image.program.natives.contains library then
    let native ← host.registry.lookup library function
    return (library, function, native)
  else none

/-- Pop the arguments of a call; the first argument was pushed first. -/
def popArguments : (count : Nat) → Move (List Value)
  | 0 => return []
  | count + 1 => do
    let v ← pop
    let others ← popArguments count
    return others ++ [v]

/-- **Call a native function.** A job puts the machine to sleep. -/
def callNative (library function : String) (native : NativeFunction) (tail : Bool) : Move Unit := do
  let arguments ← popArguments native.arity
  let m ← get
  match native.invoke m.heap ⟨m.pid, library, function, arguments⟩ with
  | .error (.io reason) => throw (.nativeIo reason)
  | .error e => throw (.native e)
  | .ok (.value v) => do
    push v
    finishCall tail
  | .ok (.newString content) => do
    push (.handle (← allocate (.string content)))
    finishCall tail
  | .ok (.pending job) => do
    pushFrame tail
    modify fun m => { m with pending := some job, state := .sleeping }

/-- Call a primitive that is a value. Output leaves `#f`. -/
def callPrimitive (word : String) (tail : Bool) : Move String := do
  match Opcode.ofPrimitive? word with
  | none => throw (.typeError (word ++ " is not callable"))
  | some op =>
    let written ← operate op
    if op = .display ∨ op = .newline then push (.boolean false)
    finishCall tail
    return written

/-- Call an object: a closure runs in a closure of its own, below the one called. -/
def callObject (h : Handle) (tail : Bool) : Move Unit := do
  match (← get).heap.get? h with
  | some (.closure c) =>
    let activation ← allocate
      (.closure { label := c.label, address := c.address, parent := some h, free := c.environment })
    enter activation tail
  | some (.continuation k) => resume k
  | some other => throw (.typeError (other.typeName ++ " is not callable"))
  | none => throw (.invalidHandle h)

/-- Call a value. -/
def callValue (v : Value) (tail : Bool) : Move String := do
  match v with
  | .label name =>
    enter (← makeClosure name) tail
    return ""
  | .keyword word => callPrimitive word tail
  | .handle h =>
    callObject h tail
    return ""
  | other => throw (.typeError (other.typeName ++ " " ++ other.text ++ " is not callable"))

/-- **Call what an operand names.** -/
def call (host : Host) (target : Operand) (tail : Bool) : Move String := do
  match target with
  | .atom (.variable name) =>
    match nativeTarget? host (← get) name with
    | some (library, function, native) =>
      callNative library function native tail
      return ""
    | none => callValue (← dereference name) tail
  | other =>
    match Value.ofOperand? other with
    | some v => callValue v tail
    | none => throw (.typeError (other.text ++ " is not callable"))

/-! ### Forks -/

/-- The program that forking an object runs: quoted code is compiled, a string names a module. -/
def forkProgram (host : Host) (heap : Heap) (h : Handle) : Except Fault Program :=
  match heap.get? h with
  | some (.list _) =>
    match heap.source? (.handle h) with
    | none => .error (.fork "quoted code has no source form")
    | some source => (Program.compile source).mapError fun e => .fork e.message
  | some (.string name) =>
    let sources := Sources.onDisk host.files host.settings.searchPath
    let path := (sources.resolve Path.empty name).getD (Path.ofText name)
    match Module.load sources path with
    | .ok loaded => .ok loaded.program
    | .error e => .error (.fork e.message)
  | some other => .error (.typeError ("cannot fork a " ++ other.typeName))
  | none => .error (.invalidHandle h)

/-- **Start another program.** -/
def fork (host : Host) (h : Handle) : Move Unit := do
  let program ← require (forkProgram host (← get).heap h)
  let image ← require (Image.ofProgram program)
  modify fun m => { m with forked := m.forked ++ [image] }

/-! ### Instructions -/

/-- Close a procedure that is still a label over the environment. -/
def closed : Value → Move Value
  | .label name => do
    let h ← makeClosure name
    return .handle h
  | other => return other

/-- The value of an operand: a variable is read. -/
def operandValue (op : Opcode) : Option Operand → Move Value
  | none => throw (missingOperand op)
  | some (.atom (.variable name)) => dereference name
  | some operand =>
    match Value.ofOperand? operand with
    | some v => return v
    | none => throw (missingOperand op)

/-- Jump if the value on top of the stack counts as true, or as false. -/
def branch (op : Opcode) (operand : Option Operand) (condition : Bool) : Move Unit := do
  let label ← require (labelOperand op operand)
  let v ← pop
  if v.isTruthy = condition then jump label else advance

/-- Exchange the two values on top of the stack. -/
def swap : Move Unit := do
  match (← get).stack with
  | a :: b :: rest => modify fun m => { m with stack := b :: a :: rest }
  | _ => throw .stackUnderflow

/-- **Carry out an operation**; the answer is what it writes. -/
def execute (host : Host) (op : Opcode) (operand : Option Operand) : Move String := do
  match op with
  | .store =>
    let name ← require (variableOperand op operand)
    store name (← pop)
    advance
    return ""
  | .load =>
    push (← closed (← operandValue op operand))
    advance
    return ""
  | .push =>
    push (← operandValue op operand)
    advance
    return ""
  | .loadClosure =>
    let label ← require (labelOperand op operand)
    push (.handle (← makeClosure label))
    advance
    return ""
  | .pop =>
    let _ ← pop
    advance
    return ""
  | .swap =>
    swap
    advance
    return ""
  | .set =>
    let name ← require (variableOperand op operand)
    assign name (← closed (← pop))
    advance
    return ""
  | .call =>
    match operand with
    | some target => call host target false
    | none => throw (missingOperand op)
  | .tailCall =>
    match operand with
    | some target => call host target true
    | none => throw (missingOperand op)
  | .ret =>
    doReturn
    return ""
  | .capture =>
    capture (← require (variableOperand op operand))
    return ""
  | .ifTrue =>
    branch op operand true
    return ""
  | .ifFalse =>
    branch op operand false
    return ""
  | .goto =>
    jump (← require (labelOperand op operand))
    return ""
  | .fork =>
    match operand with
    | some (.handle h) =>
      fork host h
      advance
      return ""
    | _ => throw (.typeError "fork expects a handle argument")
  | .nop =>
    advance
    return ""
  | .pause =>
    modify fun m => { m with state := .suspended }
    advance
    return ""
  | .halt =>
    modify fun m => { m with state := .stopped }
    return ""
  | _ =>
    let written ← operate op
    advance
    return written

/-- Carry out an instruction. Comments and labels do nothing. -/
def dispatch (host : Host) : Instruction → Move String
  | .comment _ => do
    advance
    return ""
  | .label _ => do
    advance
    return ""
  | .op opcode operand => execute host opcode operand

/-- What a step makes of a machine: the machine after it, the text it wrote, and why it failed. -/
structure Outcome where
  machine : Machine
  written : String := ""
  error : Option RunError := none

/-- A step that fails without having carried out an instruction. -/
def halted (m : Machine) (fault : Fault) : Outcome :=
  { machine := { m with state := .failed }, error := some { fault } }

/-- Note how many calls are under way. -/
def notePeak (m : Machine) : Machine := { m with peakDepth := max m.peakDepth m.frames.length }

/-- One instruction of a machine that is running. Only a call can bring more calls under way. -/
def stepRunning (host : Host) (m : Machine) : Outcome :=
  if host.settings.maxSteps.any (· ≤ m.steps) then
    halted m (.instructionLimit (host.settings.maxSteps.getD 0))
  else
    match m.image.program.code[m.pc]? with
    | none => halted m (.placeOutOfRange m.pc)
    | some instruction =>
      match (dispatch host instruction).run { m with steps := m.steps + 1 } with
      | (.error fault, after) =>
        { machine := { after with state := .failed }
          error := some (RunError.located { fault } after.currentLabel m.pc) }
      | (.ok written, after) =>
        let after := if instruction.isCall then after.notePeak else after
        { machine := after.collectIfDue host.settings, written }

/-- **One step of a machine.** A paused machine goes on; one that sleeps or is over stays as it is. -/
def step (host : Host) (m : Machine) : Outcome :=
  match m.state with
  | .running | .suspended => stepRunning host { m with state := .running }
  | _ => { machine := m }

/-- The value of what a job delivered; a job that failed delivers `#f`. -/
def resultValue (m : Machine) : Except NativeError NativeOutput → Value × Machine
  | .ok (.number x) => (.number x, m)
  | .ok (.boolean b) => (.boolean b, m)
  | .ok (.text content) => m.newString content
  | .ok .nothing => (.boolean false, m)
  | .error _ => (.boolean false, m)

/-- **Wake a machine** with the result of its job: the call returns it. -/
def deliver (m : Machine) (result : Except NativeError NativeOutput) : Machine :=
  let (v, m) := resultValue m result
  let m := { m with stack := v :: m.stack }
  let m := (doReturn.run m).2
  if m.state = .sleeping then { m with state := .running } else m

end SchemeMachine.Machine
