import SchemeMachine.Decimal.Notation
import SchemeMachine.Token
import SchemeMachine.Tree

/-!
# Instructions

The instructions of the stack machine and the text of each. An instruction is a comment, a label that
jumps can name, or an operation with at most one operand.

* `Opcode.mnemonic` names an operation; `Opcode.ofMnemonic?` reads the name back.
* `Operand.text` writes an operand; `Operand.classify` says what a written operand is.
* `Instruction.text` and `Instruction.readLine` are the two sides of one line of a listing.
-/

namespace SchemeMachine

/-! ### Operations -/

/-- The operations of the machine. -/
inductive Opcode where
  | store | load | loadClosure | push | pop | swap | set
  | call | tailCall | ret | capture | ifTrue | ifFalse | goto
  | car | cdr | cons
  | add | sub | mul | div | mod | pow
  | eqn | ge | le | gt | lt | not | and | or
  | fork | display | newline | nop | pause | halt
deriving Repr, DecidableEq, Inhabited

namespace Opcode

/-- All operations. -/
def all : List Opcode := [
  store, load, loadClosure, push, pop, swap, set,
  call, tailCall, ret, capture, ifTrue, ifFalse, goto,
  car, cdr, cons,
  add, sub, mul, div, mod, pow,
  eqn, ge, le, gt, lt, not, and, or,
  fork, display, newline, nop, pause, halt]

/-- The name of an operation in a listing. -/
def mnemonic : Opcode → String
  | store => "store" | load => "load" | loadClosure => "loadclosure" | push => "push"
  | pop => "pop" | swap => "swap" | set => "set"
  | call => "call" | tailCall => "tailcall" | ret => "return" | capture => "capturecc"
  | ifTrue => "iftrue" | ifFalse => "iffalse" | goto => "goto"
  | car => "car" | cdr => "cdr" | cons => "cons"
  | add => "add" | sub => "sub" | mul => "mul" | div => "div" | mod => "mod" | pow => "pow"
  | eqn => "eqn" | ge => "ge" | le => "le" | gt => "gt" | lt => "lt"
  | not => "not" | and => "and" | or => "or"
  | fork => "fork" | display => "display" | newline => "newline"
  | nop => "nop" | pause => "pause" | halt => "halt"

/-- The operation of a name. -/
def ofMnemonic? (name : String) : Option Opcode := all.find? fun op => op.mnemonic = name

/-- Whether an operation needs an operand. -/
def takesOperand : Opcode → Bool
  | store | load | loadClosure | push | set | call | tailCall | capture | ifTrue | ifFalse | goto
  | fork => true
  | _ => false

/-- The operation behind a primitive keyword, for the keywords that are values. -/
def ofPrimitive? : String → Option Opcode
  | "+" => some add | "-" => some sub | "*" => some mul | "/" => some div | "%" => some mod
  | "pow" => some pow
  | "=" => some eqn | "<" => some lt | ">" => some gt | "<=" => some le | ">=" => some ge
  | "not" => some not | "and" => some and | "or" => some or
  | "car" => some car | "cdr" => some cdr | "cons" => some cons
  | "display" => some display | "newline" => some newline
  | _ => none

end Opcode

/-! ### Operands -/

/-- What an operation works on. -/
inductive Operand where
  | atom (value : Atom)
  /-- The name of a place in the code. -/
  | label (name : String)
  /-- A constant or an object. -/
  | handle (value : Handle)
deriving Repr, DecidableEq, Inhabited

namespace Atom

/-- The atom in a listing. -/
def text : Atom → String
  | .number x => Number.display x
  | .boolean b => if b then "#t" else "#f"
  | .symbol s => "'" ++ s
  | .variable v => v
  | .keyword k => k

/-- Equality with numbers compared as numbers: zero has one sign, and no NaN equals anything. -/
def same : Atom → Atom → Bool
  | .number x, .number y => x == y
  | .number _, _ => false
  | _, .number _ => false
  | a, b => a = b

end Atom

namespace Operand

/-- The operand in a listing. -/
def text : Operand → String
  | .atom a => a.text
  | .label name => "@" ++ name
  | .handle h => Handle.label h

/-- Equality with numbers compared as numbers. -/
def same : Operand → Operand → Bool
  | .atom a, .atom b => a.same b
  | a, b => a = b

/-- The handle written by a sequence of digits, if it fits a machine word. -/
def handleOf? (digits : List Char) : Option Handle :=
  if !digits.isEmpty && digits.all Char.isDigit && Number.digitsValue digits < Nat.pow 2 64 then
    some (Number.digitsValue digits)
  else none

/-- **What a written operand is.** An ampersand before digits alone marks a handle, before anything
else a variable; `@` marks a label and a quote a symbol. Of the other words `#t` and `#f` are booleans,
numerals are numbers, keywords are keywords, and the rest are variables. -/
def classify (word : String) : Operand :=
  match word.toList with
  | '&' :: digits =>
    match handleOf? digits with
    | some h => .handle h
    | none => .atom (.variable word)
  | '@' :: name => .label (String.ofList name)
  | '\'' :: name => .atom (.symbol (String.ofList name))
  | _ =>
    if word = "#t" then .atom (.boolean true)
    else if word = "#f" then .atom (.boolean false)
    else if Number.isNumeral word then
      match Number.read? word with
      | some x => .atom (.number x)
      | none => .atom (.variable word)
    else if isKeyword word then .atom (.keyword word)
    else .atom (.variable word)

end Operand

/-! ### Instructions -/

/-- **An instruction.** -/
inductive Instruction where
  | comment (text : String)
  | label (name : String)
  | op (opcode : Opcode) (operand : Option Operand)
deriving Repr, DecidableEq, Inhabited

/-- Why a listing cannot be read. -/
inductive ListingError where
  | duplicateLabel (name : String)
  | unknownOpcode (word : String) (line : Nat)
  | missingArgument (opcode : Opcode) (line : Nat)
deriving Repr, DecidableEq

/-- The message for a reader. -/
def ListingError.message : ListingError → String
  | .duplicateLabel name => "duplicate label @" ++ name
  | .unknownOpcode word line => s!"unknown opcode '{word}' on line {line}"
  | .missingArgument opcode line =>
    "opcode " ++ opcode.mnemonic ++ s!" on line {line} requires an argument"

namespace Instruction

/-- The instruction as one line of a listing. -/
def text : Instruction → String
  | .comment text => ";" ++ text
  | .label name => "@" ++ name
  | .op opcode none => opcode.mnemonic
  | .op opcode (some operand) => opcode.mnemonic ++ " " ++ operand.text

/-- Whether an instruction is a call, in tail position or not. -/
def isCall : Instruction → Bool
  | .op .call _ => true
  | .op .tailCall _ => true
  | _ => false

/-- Equality with numbers compared as numbers. -/
def same : Instruction → Instruction → Bool
  | .op o (some a), .op p (some b) => o = p && a.same b
  | a, b => a = b

/-- **Read one line of a listing**, the one with number `line`. A blank line holds no instruction. -/
def readLine (line : Nat) (cs : List Char) : Except ListingError (Option Instruction) :=
  match Text.trim cs with
  | [] => .ok none
  | ';' :: text => .ok (some (.comment (String.ofList text)))
  | '@' :: name => .ok (some (.label (String.ofList (Text.trim name))))
  | trimmed =>
    let (mnemonic, rest) := (Text.splitAtBlank trimmed).getD (trimmed, [])
    let word := String.ofList mnemonic
    match Opcode.ofMnemonic? word with
    | none => .error (.unknownOpcode word line)
    | some opcode =>
      match Text.trim rest with
      | [] => if opcode.takesOperand then .error (.missingArgument opcode line) else .ok (some (.op opcode none))
      | operand => .ok (some (.op opcode (some (Operand.classify (String.ofList operand)))))

end Instruction

end SchemeMachine
