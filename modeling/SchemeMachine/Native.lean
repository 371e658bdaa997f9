import SchemeMachine.FileTree
import SchemeMachine.Heap
import SchemeMachine.Text.Case

/-!
# Native libraries

Functions that a program calls as `Library.function`. A function answers at once, or with a job that is
carried out while the caller sleeps.

* `Registry.builtins` holds the libraries `Math`, `String` and `File`.
* `Job.run` carries out a job on the files.
-/

namespace SchemeMachine

/-- Why a native call fails. -/
inductive NativeError where
  | unknown (name : String)
  | badArgument (function reason : String)
  | io (reason : String)
  | panicked (reason : String)
deriving Repr, DecidableEq

/-- The message for a reader. -/
def NativeError.message : NativeError → String
  | .unknown name => "unknown native function: " ++ name
  | .badArgument function reason => function ++ ": " ++ reason
  | .io reason => "I/O error: " ++ reason
  | .panicked reason => "native job panicked: " ++ reason

/-- What a job delivers. -/
inductive NativeOutput where
  | number (value : Float)
  | boolean (value : Bool)
  | text (content : String)
  | nothing
deriving Repr, DecidableEq

/-- **Work that is carried out while the caller sleeps.** -/
inductive Job where
  | readFile (path : String)
  | writeFile (path content : String)
  /-- A job whose result does not depend on anything else. -/
  | settled (result : Except NativeError NativeOutput)

/-- A file fault as a native call reports it. -/
def FileError.toNative (path : String) (e : FileError) : NativeError := .io (path ++ ": " ++ e.message)

/-- Carry out a job; the answer is its result and the files after it. -/
def Job.run (files : FileTree) : Job → Except NativeError NativeOutput × FileTree
  | .readFile path =>
    (match files.readText (Path.ofText path) with
      | .ok content => .ok (.text content)
      | .error e => .error (e.toNative path), files)
  | .writeFile path content =>
    match files.writeText (Path.ofText path) content with
    | .ok files => (.ok (.boolean true), files)
    | .error e => (.error (e.toNative path), files)
  | .settled result => (result, files)

/-- The call that a native function is asked to answer. -/
structure NativeCall where
  pid : Nat
  library : String
  function : String
  arguments : List Value

/-- What a native function answers. -/
inductive NativeAnswer where
  | value (value : Value)
  /-- A string that is still to be placed on the heap. -/
  | newString (content : String)
  | pending (job : Job)

/-- **A native function**: how many arguments it takes, and what it answers to a call. -/
structure NativeFunction where
  arity : Nat
  invoke : Heap → NativeCall → Except NativeError NativeAnswer

/-- The functions of a library by name. -/
abbrev Library := Table String NativeFunction

/-- The libraries by name. -/
abbrev Registry := Table String Library

/-- The function of a library. -/
def Registry.lookup (r : Registry) (library function : String) : Option NativeFunction :=
  (r.find? library).bind (·.find? function)

namespace NativeCall

/-- A fault in the arguments. -/
def badArgument (call : NativeCall) (reason : String) : NativeError :=
  .badArgument (call.library ++ "." ++ call.function) reason

/-- An argument; a call has as many as the function takes. -/
def argument (call : NativeCall) (i : Nat) : Value := call.arguments.getD i (.boolean false)

/-- The string that an argument refers to. -/
def string? (call : NativeCall) (heap : Heap) (i : Nat) : Option String :=
  (call.argument i).handle?.bind heap.string?

/-- The string that an argument must refer to. -/
def string (call : NativeCall) (heap : Heap) (i : Nat) : Except NativeError String :=
  match call.string? heap i with
  | some s => .ok s
  | none => .error (call.badArgument ("expected a string, got " ++ (call.argument i).typeName))

/-- The numbers that all arguments must be. -/
def numbers (call : NativeCall) : Except NativeError (List Float) :=
  call.arguments.mapM fun v =>
    match v.number? with
    | some x => .ok x
    | none => .error (call.badArgument ("expected a number, got " ++ v.typeName))

/-- The path that the first argument must be. -/
def path (call : NativeCall) (heap : Heap) : Except NativeError String :=
  match call.string? heap 0 with
  | some s => .ok s
  | none => .error (call.badArgument "expected a path string")

end NativeCall

namespace NativeFunction

/-- A function of one number. -/
def ofUnary (f : Float → Float) : NativeFunction where
  arity := 1
  invoke _ call := do
    let xs ← call.numbers
    return .value (.number (f (xs.getD 0 0.0)))

/-- A function of two numbers. -/
def ofBinary (f : Float → Float → Float) : NativeFunction where
  arity := 2
  invoke _ call := do
    let xs ← call.numbers
    return .value (.number (f (xs.getD 0 0.0) (xs.getD 1 0.0)))

/-- A function from a string to a new string. -/
def ofText (f : String → String) : NativeFunction where
  arity := 1
  invoke heap call := do
    return .newString (f (← call.string heap 0))

end NativeFunction

/-- The smaller of two numbers; what is no number is left out. -/
def Number.least (a b : Float) : Float :=
  if a.isNaN then b else if b < a then b else a

/-- The larger of two numbers; what is no number is left out. -/
def Number.greatest (a b : Float) : Float :=
  if a.isNaN then b else if a < b then b else a

namespace Registry

/-- Functions of numbers. -/
def math : Library := Table.ofList [
  ("sqrt", .ofUnary Float.sqrt),
  ("floor", .ofUnary Float.floor),
  ("ceil", .ofUnary Float.ceil),
  ("abs", .ofUnary Float.abs),
  ("round", .ofUnary Float.round),
  ("min", .ofBinary Number.least),
  ("max", .ofBinary Number.greatest)]

/-- The number of characters of a string. -/
def stringLength : NativeFunction where
  arity := 1
  invoke heap call := do
    return .value (.number (Float.ofNat (← call.string heap 0).length))

/-- Two strings one after the other. -/
def stringConcat : NativeFunction where
  arity := 2
  invoke heap call := do
    return .newString ((← call.string heap 0) ++ (← call.string heap 1))

/-- A number as a string. -/
def stringFromNumber : NativeFunction where
  arity := 1
  invoke _ call :=
    match (call.argument 0).number? with
    | some x => .ok (.newString (Number.display x))
    | none => .error (call.badArgument "expected a number")

/-- Functions of strings. -/
def strings : Library := Table.ofList [
  ("length", stringLength),
  ("concat", stringConcat),
  ("upcase", .ofText Text.upcase),
  ("downcase", .ofText Text.downcase),
  ("fromNumber", stringFromNumber)]

/-- Read a file. -/
def fileRead : NativeFunction where
  arity := 1
  invoke heap call := do
    return .pending (.readFile (← call.path heap))

/-- Write a file; what is no string is written as it is shown. -/
def fileWrite : NativeFunction where
  arity := 2
  invoke heap call := do
    let path ← call.path heap
    let content := (call.string? heap 1).getD (heap.display (call.argument 1))
    return .pending (.writeFile path content)

/-- Functions of files. -/
def files : Library := Table.ofList [("read", fileRead), ("write", fileWrite)]

/-- **The libraries that every program may declare.** -/
def builtins : Registry := Table.ofList [("Math", math), ("String", strings), ("File", files)]

end Registry

end SchemeMachine
