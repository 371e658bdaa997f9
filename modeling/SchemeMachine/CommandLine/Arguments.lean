import SchemeMachine.Decimal.Notation
import SchemeMachine.Path

/-!
# Command-line arguments

What the arguments ask for. An argument that starts with a dash is a switch, `--name` or a cluster of
letters such as `-vo`; a switch that takes a value has it attached, as in `--name=value` and `-ovalue`, or
in the next argument. After `--` there are no more switches. Anything else is an operand.

Arguments are read from the first to the last, and reading stops at the first fault or at a call
for help.

* `Request.ofArguments` is what a list of arguments asks for.
-/

namespace SchemeMachine.CommandLine

/-- **What to do.** -/
inductive Command where
  /-- Compile a file and run it. -/
  | run (file : Path) (maxSteps : Option Nat) (trace : Bool)
  /-- Compile a file and write the listing or the JSON of the program. -/
  | compile (file : Path) (json : Bool) (output : Option Path)
  /-- Write the analysed tree of a file as source. -/
  | ast (file : Path) (renamed : Bool)
deriving Repr, DecidableEq

/-- What help is about: all, or one of the commands. -/
inductive Topic where
  | overview
  | run
  | compile
  | ast
  | help
deriving Repr, DecidableEq

/-- **What the arguments ask for.** -/
inductive Request where
  | perform (command : Command)
  | help (topic : Topic)
  | version
  /-- The arguments make no sense. -/
  | misuse
deriving Repr, DecidableEq

/-- A switch: its name, its letter, and the test that its value has to pass if it takes one. -/
structure Switch where
  name : String
  letter : Option Char := none
  accepts : Option (String → Bool) := none

/-- What has been read of the arguments. -/
structure Reading where
  /-- The switches that were given, with their values. -/
  switches : List (String × String) := []
  operands : List String := []
  /-- The switch whose value comes next. -/
  pending : Option Switch := none
  /-- Whether there are no more switches. -/
  ended : Bool := false

/-- Whether a switch was given. -/
def Reading.has (r : Reading) (name : String) : Bool := r.switches.any (·.1 = name)

/-- The value of a switch. -/
def Reading.value? (r : Reading) (name : String) : Option String := r.switches.lookup name

/-- What a command takes. -/
structure Signature where
  topic : Topic
  switches : List Switch
  /-- How many operands there are. -/
  operands : Nat

/-- A call for help or for the version counts at once, any other switch once only. -/
def Reading.record (sig : Signature) (r : Reading) (s : Switch) (value : String) :
    Except Request Reading :=
  if s.name = "help" then .error (.help sig.topic)
  else if s.name = "version" then .error .version
  else if r.has s.name || !s.accepts.all (· value) then .error .misuse
  else .ok { r with switches := r.switches ++ [(s.name, value)], pending := none }

/-- Read a switch by its name, with an attached value after an equals sign. -/
def Reading.takeName (sig : Signature) (r : Reading) (body : List Char) : Except Request Reading :=
  let name := String.ofList (body.takeWhile (· ≠ '='))
  match sig.switches.find? (·.name = name), body.dropWhile (· ≠ '=') with
  | none, _ => .error .misuse
  | some s, [] => if s.accepts.isSome then .ok { r with pending := some s } else r.record sig s ""
  | some s, _ :: value =>
    if s.accepts.isSome then r.record sig s (String.ofList value) else .error .misuse

/-- Read a cluster of letters. What follows a letter that takes a value is its value; an equals sign in
front of it does not count. -/
def Reading.takeLetters (sig : Signature) (r : Reading) : List Char → Except Request Reading
  | [] => .ok r
  | c :: cs =>
    match sig.switches.find? (·.letter = some c) with
    | none => .error .misuse
    | some s =>
      if s.accepts.isSome then
        match cs with
        | [] => .ok { r with pending := some s }
        | '=' :: value => r.record sig s (String.ofList value)
        | value => r.record sig s (String.ofList value)
      else do Reading.takeLetters sig (← r.record sig s "") cs

/-- Read an operand, which must not be empty. -/
def Reading.takeOperand (sig : Signature) (r : Reading) (arg : String) : Except Request Reading :=
  if r.operands.length < sig.operands && arg ≠ "" then
    .ok { r with operands := r.operands ++ [arg] }
  else .error .misuse

/-- Read one argument. -/
def Reading.take (sig : Signature) (r : Reading) (arg : String) : Except Request Reading :=
  if r.ended then r.takeOperand sig arg
  else
    match r.pending, arg.toList with
    | some _, '-' :: _ :: _ => .error .misuse
    | some s, _ => r.record sig s arg
    | none, ['-', '-'] => .ok { r with ended := true }
    | none, '-' :: '-' :: body => r.takeName sig body
    | none, '-' :: c :: cs => r.takeLetters sig (c :: cs)
    | none, _ => r.takeOperand sig arg

/-- Read all arguments of a command. None of its operands may be missing, and no value. -/
def Signature.read (sig : Signature) (args : List String) : Except Request Reading := do
  let r ← args.foldlM (Reading.take sig) {}
  if r.pending.isSome || r.operands.length ≠ sig.operands then throw .misuse
  return r

/-! ### The commands -/

/-- The number of a text: digits after an optional plus sign, within 64 bits. -/
def countOf? (s : String) : Option Nat :=
  let digits := match s.toList with
    | '+' :: cs => cs
    | cs => cs
  let n := Number.digitsValue digits
  if !digits.isEmpty && digits.all Char.isDigit && n < Nat.pow 2 64 then some n else none

/-- Asks for a log, which has no influence on what is done. -/
def verbose : Switch := { name := "verbose", letter := some 'v' }

/-- Asks for help. -/
def help : Switch := { name := "help", letter := some 'h' }

/-- What may stand in front of a command. -/
def overview : Signature where
  topic := .overview
  switches := [verbose, help, { name := "version", letter := some 'V' }]
  operands := 0

/-- What the command to run a file takes. -/
def runSignature : Signature where
  topic := .run
  switches := [
    { name := "max-steps", accepts := some fun s => (countOf? s).isSome },
    { name := "trace" }, verbose, help]
  operands := 1

/-- What the command to compile a file takes. -/
def compileSignature : Signature where
  topic := .compile
  switches := [
    { name := "json" },
    { name := "output", letter := some 'o', accepts := some (· ≠ "") }, verbose, help]
  operands := 1

/-- What the command to write a tree takes. -/
def astSignature : Signature where
  topic := .ast
  switches := [{ name := "renamed" }, verbose, help]
  operands := 1

/-- The topic of a command's name. -/
def Topic.ofName? (name : String) : Option Topic :=
  if name = "run" then some .run
  else if name = "compile" then some .compile
  else if name = "ast" then some .ast
  else if name = "help" then some .help
  else none

/-- The file that a command is about. -/
def Reading.file (r : Reading) : Path := Path.ofText (r.operands.headD "")

/-- What a command asks for, given its arguments. -/
def Request.ofCommand : Topic → List String → Except Request Request
  | .overview, _ => .error .misuse
  | .run, args => do
    let r ← runSignature.read args
    return .perform (.run r.file ((r.value? "max-steps").bind countOf?) (r.has "trace"))
  | .compile, args => do
    let r ← compileSignature.read args
    return .perform (.compile r.file (r.has "json") ((r.value? "output").map Path.ofText))
  | .ast, args => do
    let r ← astSignature.read args
    return .perform (.ast r.file (r.has "renamed"))
  | .help, [] => return .help .overview
  | .help, [name] => return ((Topic.ofName? name).map .help).getD .misuse
  | .help, _ => return .misuse

/-- **What a list of arguments asks for**: switches for all commands, then a command. -/
def Request.ofArguments (args : List String) : Request :=
  let isCommand (arg : String) : Bool := (Topic.ofName? arg).isSome
  let request : Except Request Request := do
    let r ← (args.takeWhile fun a => !isCommand a).foldlM (Reading.take overview) {}
    match args.dropWhile fun a => !isCommand a with
    | name :: rest => if r.ended then throw .misuse else ofCommand ((Topic.ofName? name).getD .overview) rest
    | [] => throw .misuse
  match request with
  | .ok r => r
  | .error r => r

end SchemeMachine.CommandLine
