import SchemeMachine.Machine.Primitive
import SchemeMachine.Proofs.Syntax.Resolution

/-!
# What a program means

A direct evaluator for the sequential core of the language: literals and quoted data, variables, lambdas, calls,
`define`, `set!`, `if`, `begin`, arithmetic and comparison, `not`, `car`, `cdr`, `cons`, `display` and `newline`. It knows
nothing of instructions, labels or copies of environments.

* `Expression` is the abstract syntax of this core; `Term.expression?` and `Tree.expression?` read it off a parsed tree.
* A variable denotes a cell. Every activation of a lambda owns one cell for each name in the lambda's scope, which is
  empty at first, and a name denotes the cell of the innermost lambda around it that binds it (`Meaning.innermost?`).
* `Meaning.eval` evaluates an expression among the activations around it, to a depth of `fuel` expressions.
* A run ends with a value, or stops: it fails, or it does something whose outcome is left open (`Meaning.Stop`), as is a
  call with a wrong number of arguments, or showing or comparing procedures.
-/

namespace SchemeMachine

/-! ### Abstract syntax -/

/-- **An expression of the core.** A lambda carries the names of its scope: its parameters and what is defined in it. -/
inductive Expression where
  /-- A number, a boolean, a string, or quoted data. -/
  | literal (x : Term)
  | variable (name : String)
  /-- A primitive as a value. -/
  | primitive (word : String)
  | lambda (h : Handle) (parameters names : List String) (body : List Expression)
  | call (operator : Expression) (operands : List Expression)
  | define (name : String) (right : Expression)
  | assign (name : String) (right : Expression)
  | conditional (test yes no : Expression)
  | sequence (forms : List Expression)
  /-- Arithmetic on any number of operands. -/
  | arithmetic (word : String) (operands : List Expression)
  /-- A primitive on as many operands as it takes. -/
  | operation (word : String) (operands : List Expression)
deriving Inhabited

namespace Expression

/-- A name that the compiler cannot have made up. -/
def isOrdinary (name : String) : Bool := name.toList.head? ≠ some '&' ∧ name.toList.head? ≠ some '_'

/-- The arithmetic on any number of operands. -/
def arithmeticWords : List String := ["+", "-", "*", "/", "%"]

/-- The other primitives. -/
def operationWords : List String := ["=", "<", ">", "<=", ">=", "not", "car", "cdr", "cons", "display", "newline"]

/-- The form that a keyword makes of the expressions behind it. -/
def ofForm? (word : String) (operands : List Expression) : Option Expression :=
  match word, operands with
  | "define", [.variable name, right] => some (.define name right)
  | "set!", [.variable name, right] => some (.assign name right)
  | "if", [test, yes] => some (.conditional test yes (.literal (.atom (.boolean false))))
  | "if", [test, yes, no] => some (.conditional test yes no)
  | "begin", forms => some (.sequence forms)
  | word, operands =>
    if word ∈ arithmeticWords then some (.arithmetic word operands)
    else if word ∈ operationWords then some (.operation word operands)
    else none

/-- The words that forms of the core begin with. -/
theorem ofForm?_word {word : String} {e : Expression} {operands : List Expression}
    (he : ofForm? word operands = some e) :
    word ∈ ["define", "set!", "if", "begin"] ++ arithmeticWords ++ operationWords := by
  unfold ofForm? at he
  split at he
  · simp
  · simp
  · simp
  · simp
  · simp
  · split at he
    · simp [*]
    · split at he
      · simp [*]
      · cases he

/-- Whether an expression is a literal or a primitive, which a body leaves out before its last form. -/
def isLiteral : Expression → Bool
  | .literal _ | .primitive _ => true
  | _ => false

end Expression

namespace Term

mutual

/-- Whether a term is data: atoms other than words of code, strings, and quoted lists of such. -/
def isData : Term → Bool
  | .atom a => a.isDatum
  | .string _ _ => true
  | .application _ .quote items => isDataAll items
  | _ => false

/-- Whether several terms are data. -/
def isDataAll : List Term → Bool
  | [] => true
  | x :: xs => isData x && isDataAll xs

end

mutual

/-- **The expression that a term is**, if it belongs to the core. -/
def expression? : Term → Option Expression
  | .atom (.variable name) => if Expression.isOrdinary name then some (.variable name) else none
  | .atom (.keyword word) =>
    if word ∈ Expression.arithmeticWords ++ Expression.operationWords then some (.primitive word) else none
  | .atom a => some (.literal (.atom a))
  | .string h content => some (.literal (.string h content))
  | .lambda h parameters body => do
    let forms ← expressions? body
    if parameters.all Expression.isOrdinary then some (.lambda h parameters (parameters ++ definedAll body) forms)
    else none
  | .application h .quote items =>
    if isDataAll items then some (.literal (.application h .quote items)) else none
  | .application _ .code (.atom (.keyword word) :: rest) => do Expression.ofForm? word (← expressions? rest)
  | .application _ .code (head :: rest) => do return .call (← expression? head) (← expressions? rest)
  | _ => none

/-- The expressions that several terms are. -/
def expressions? : List Term → Option (List Expression)
  | [] => some []
  | x :: xs => do return (← expression? x) :: (← expressions? xs)

end

section

variable {xs : List Term} {es : List Expression}

theorem expressions?_cons {x : Term} :
    expressions? (x :: xs) = some es ↔ ∃ e es', x.expression? = some e ∧ expressions? xs = some es' ∧ es = e :: es' := by
  simp only [expressions?, Option.bind_eq_bind, Option.bind_eq_some_iff, Option.pure_def, Option.some.injEq,
    eq_comm (b := es), exists_and_left]

/-- The expression of a form in code whose head is a keyword. -/
theorem expression?_form {h : Handle} {word : String} {e : Expression} :
    (application h .code (.atom (.keyword word) :: xs)).expression? = some e ↔
      ∃ es, expressions? xs = some es ∧ Expression.ofForm? word es = some e := by
  simp only [expression?, Option.bind_eq_bind, Option.bind_eq_some_iff]

/-- The expression of a call. -/
theorem expression?_call {h : Handle} {x : Term} {e : Expression} (hx : ∀ word, x ≠ .atom (.keyword word)) :
    (application h .code (x :: xs)).expression? = some e ↔
      ∃ f es, x.expression? = some f ∧ expressions? xs = some es ∧ e = .call f es := by
  rw [expression?]
  · simp only [Option.bind_eq_bind, Option.bind_eq_some_iff, Option.pure_def, Option.some.injEq, eq_comm (b := e),
      exists_and_left]
  · exact fun word hword => hx word hword

theorem expressions?_single {x : Term} (h : expressions? [x] = some es) : ∃ e, x.expression? = some e ∧ es = [e] := by
  obtain ⟨e, _, he, hnil, rfl⟩ := expressions?_cons.mp h
  cases hnil
  exact ⟨e, he, rfl⟩

theorem exists_expression? (h : expressions? xs = some es) {x : Term} (hx : x ∈ xs) : ∃ e, x.expression? = some e := by
  induction xs generalizing es with
  | nil => cases hx
  | cons y ys ih =>
    obtain ⟨e, es', he, hes, -⟩ := expressions?_cons.mp h
    rcases List.mem_cons.mp hx with rfl | hx
    · exact ⟨e, he⟩
    · exact ih hes hx

theorem length_expressions? (h : expressions? xs = some es) : xs.length = es.length := by
  induction xs generalizing es with
  | nil =>
    cases h
    rfl
  | cons x xs ih =>
    obtain ⟨e, es', -, hrest, rfl⟩ := expressions?_cons.mp h
    exact congrArg (· + 1) (ih hrest)

end

end Term

namespace Tree

/-- The term at a child, to a depth of `fuel` nodes. -/
def term? (t : Tree) : (fuel : Nat) → Child → Option Term
  | 0, _ => none
  | _ + 1, .atom a => some (.atom a)
  | fuel + 1, .node h =>
    match t.get? h with
    | some (.string _ content) => some (.string h content)
    | some (.lambda _ parameters body) => (body.mapM (term? t fuel)).map (.lambda h parameters)
    | some (.application _ quotation items) => (items.mapM (term? t fuel)).map (.application h quotation)
    | none => none

/-- **The expression that a parsed tree is**: its top lambda, if all of it belongs to the core. -/
def expression? (t : Tree) : Option Expression := (t.term? (t.size + 1) (.node top)).bind Term.expression?

end Tree

namespace Meaning

/-! ### Values -/

/-- An activation of a lambda, and the names of the lambda's scope. -/
structure Region where
  activation : Nat
  lambda : Handle
  names : List String
deriving Inhabited

/-- Which list a list is: one written in the program, or the one made at some point of the run. -/
inductive Identity where
  | constant (h : Handle)
  | made (n : Nat)
deriving DecidableEq, Inhabited

/-- **What an expression denotes.** A procedure goes with the activations around it, the innermost first. -/
inductive Denoted where
  | number (x : Float)
  | boolean (b : Bool)
  | symbol (name : String)
  | primitive (word : String)
  | string (content : String)
  | list (identity : Identity) (items : List Denoted)
  | procedure (lambda : Handle) (parameters names : List String) (body : List Expression) (around : List Region)
deriving Inhabited

namespace Denoted

/-- Every value but `#f` counts as true. -/
def isTruthy : Denoted → Bool
  | .boolean b => b
  | _ => true

mutual

/-- What `display` shows of a value; nothing is said of procedures. -/
def text? : Denoted → Option String
  | .number x => some (Number.display x)
  | .boolean b => some (if b then "#t" else "#f")
  | .symbol name => some name
  | .primitive word => some word
  | .string content => some content
  | .list _ items => (texts? items).map fun parts => "(" ++ String.intercalate " " parts ++ ")"
  | .procedure .. => none

/-- What `display` shows of several values. -/
def texts? : List Denoted → Option (List String)
  | [] => some []
  | v :: vs => do return (← text? v) :: (← texts? vs)

end

mutual

/-- **Whether two values are equal**: a list is equal to itself, and to a list of the same length with equal items, from
left to right up to the first difference. Nothing is said of two procedures. -/
def equal? : Denoted → Denoted → Option Bool
  | .number x, .number y => some (x == y)
  | .boolean a, .boolean b => some (a = b)
  | .symbol a, .symbol b => some (a = b)
  | .primitive a, .primitive b => some (a = b)
  | .string a, .string b => some (a = b)
  | .list i xs, .list j ys =>
    if i = j then some true else if xs.length = ys.length then equalAll? xs ys else some false
  | .procedure .., .procedure .. => none
  | _, _ => some false

/-- Whether two lists of one length have equal items. -/
def equalAll? : List Denoted → List Denoted → Option Bool
  | x :: xs, y :: ys =>
    match equal? x y with
    | some true => equalAll? xs ys
    | other => other
  | _, _ => some true

end

end Denoted

mutual

/-- The value that data denote. Words of code are none. -/
def datum : Term → Denoted
  | .atom (.number x) => .number x
  | .atom (.boolean b) => .boolean b
  | .atom (.symbol name) => .symbol name
  | .atom (.variable name) => .symbol name
  | .atom (.keyword word) => .symbol word
  | .string _ content => .string content
  | .lambda h .. => .list (.constant h) []
  | .application h _ items => .list (.constant h) (data items)

/-- The values that several data denote. -/
def data : List Term → List Denoted
  | [] => []
  | x :: xs => datum x :: data xs

end

/-! ### Cells and output -/

/-- **What evaluation changes**: the cells, by activation and name, how many activations and lists there have been, and
what has been written. -/
structure Store where
  cells : Nat → String → Option Denoted := fun _ _ => none
  activations : Nat := 0
  lists : Nat := 0
  output : String := ""

namespace Store

/-- Write a cell. -/
def set (S : Store) (a : Nat) (name : String) (v : Denoted) : Store :=
  { S with cells := fun b x => if b = a ∧ x = name then some v else S.cells b x }

theorem cells_set (S : Store) (a b : Nat) (name x : String) (v : Denoted) :
    (S.set a name v).cells b x = if b = a ∧ x = name then some v else S.cells b x := rfl

/-- Write the cells of parameters, the last one first. -/
def bind (S : Store) (a : Nat) (parameters : List String) (vs : List Denoted) : Store :=
  (parameters.zip vs).foldr (fun e S => S.set a e.1 e.2) S

end Store

/-- Why a program fails. -/
inductive Failure where
  | unbound (name : String)
  | type
  | arithmetic (reason : String)
deriving DecidableEq

/-- Why an evaluation ends without a value: the program fails, what happens next is left open, or the depth does not
suffice. -/
inductive Stop where
  | failed (failure : Failure)
  | unspecified
  | exhausted
deriving DecidableEq

/-- An evaluation reads and changes cells, writes, and may stop. -/
abbrev Eval := ExceptT Stop (StateM Store)

/-- The program fails. -/
def fail {α : Type} (failure : Failure) : Eval α := throw (.failed failure)

/-- **The innermost activation that has a cell for a name.** -/
def innermost? (around : List Region) (name : String) : Option Region := around.find? fun r => r.names.contains name

/-- Read a variable. -/
def read (around : List Region) (name : String) : Eval Denoted := do
  let S ← get
  match (innermost? around name).bind fun r => S.cells r.activation name with
  | some v => return v
  | none => fail (.unbound name)

/-- Write the cell of a variable, which may be empty. -/
def define (around : List Region) (name : String) (v : Denoted) : Eval Unit :=
  match innermost? around name with
  | some r => modify fun S => S.set r.activation name v
  | none => fail (.unbound name)

/-- Write the cell of a variable, which must not be empty. -/
def assign (around : List Region) (name : String) (v : Denoted) : Eval Unit := do
  let S ← get
  match (innermost? around name).filter fun r => (S.cells r.activation name).isSome with
  | some r => modify fun S => S.set r.activation name v
  | none => fail (.unbound name)

/-- A new list. -/
def newList (items : List Denoted) : Eval Denoted :=
  modifyGet fun S => (.list (.made S.lists) items, { S with lists := S.lists + 1 })

/-- Write a text. -/
def write (text : String) : Eval Unit := modify fun S => { S with output := S.output ++ text }

/-! ### Primitives -/

/-- The number that a value must be. -/
def number : Denoted → Eval Float
  | .number x => return x
  | _ => fail .type

/-- **Arithmetic and comparison**: what a word makes of two numbers. A divisor nearer to zero than
`Machine.smallestDivisor` counts as zero. -/
def calculation? : String → Option (Float → Float → Eval Denoted)
  | "+" => some fun x y => return .number (x + y)
  | "-" => some fun x y => return .number (x - y)
  | "*" => some fun x y => return .number (x * y)
  | "/" => some fun x y =>
    if y.abs < Machine.smallestDivisor then fail (.arithmetic "div by zero") else return .number (x / y)
  | "%" => some fun x y =>
    if y.abs < Machine.smallestDivisor then fail (.arithmetic "mod by zero") else return .number (Number.remainder x y)
  | "<" => some fun x y => return .boolean (decide (x < y))
  | ">" => some fun x y => return .boolean (decide (y < x))
  | "<=" => some fun x y => return .boolean (decide (x ≤ y))
  | ">=" => some fun x y => return .boolean (decide (y ≤ x))
  | _ => none

/-- Arithmetic and comparison of two values, which must be numbers. -/
def numeric (word : String) (a b : Denoted) : Eval Denoted :=
  match calculation? word with
  | some f => do
    let x ← number a
    let y ← number b
    f x y
  | none => throw .unspecified

/-- **Carry out a primitive.** Output answers `#f`. A wrong number of operands is left open. -/
def operate (word : String) (operands : List Denoted) : Eval Denoted :=
  match word, operands with
  | "=", [a, b] =>
    match a.equal? b with
    | some answer => return .boolean answer
    | none => throw .unspecified
  | "not", [a] => return .boolean (!a.isTruthy)
  | "car", [.list _ (first :: _)] => return first
  | "car", [_] => fail .type
  | "cdr", [.list _ (_ :: rest)] => newList rest
  | "cdr", [_] => fail .type
  | "cons", [first, .list _ rest] => newList (first :: rest)
  | "cons", [_, _] => fail .type
  | "display", [a] =>
    match a.text? with
    | some text => do
      write text
      return .boolean false
    | none => throw .unspecified
  | "newline", [] => do
    write "\n"
    return .boolean false
  | word, [a, b] => numeric word a b
  | _, _ => throw .unspecified

/-! ### Expressions -/

section

variable (self : Expression → Eval Denoted)

/-- The values of expressions, from left to right. -/
def evalAll : List Expression → Eval (List Denoted)
  | [] => return []
  | e :: es => do
    let v ← self e
    let vs ← evalAll es
    return v :: vs

/-- The value of the last of several forms; without any it is `#f`. -/
def evalForms : List Expression → Eval Denoted
  | [] => return .boolean false
  | [e] => self e
  | e :: es => do
    let _ ← self e
    evalForms es

/-- Arithmetic from the left, as the operands are evaluated. -/
def evalFold (word : String) (v : Denoted) : List Expression → Eval Denoted
  | [] => return v
  | e :: es => do
    let w ← self e
    evalFold word (← numeric word v w) es

/-- **Arithmetic on any number of operands.** Alone, `-` negates and `/` inverts, `+` and `*` leave the operand; `+` and
`*` of nothing are their neutral elements. -/
def evalArithmetic (word : String) : List Expression → Eval Denoted
  | [] =>
    match word with
    | "+" => return .number 0.0
    | "*" => return .number 1.0
    | _ => throw .unspecified
  | [e] => do
    let v ← self e
    match word with
    | "-" => numeric "-" (.number 0.0) v
    | "/" => numeric "/" (.number 1.0) v
    | _ => return v
  | e :: es => do evalFold self word (← self e) es

end

/-- A new activation of a lambda with its parameters bound. -/
def enter (parameters : List String) (vs : List Denoted) : Eval Nat :=
  modifyGet fun S => (S.activations, { S with activations := S.activations + 1 }.bind S.activations parameters vs)

/-- **Call a value.** A wrong number of arguments is left open. -/
def apply (self : List Region → Expression → Eval Denoted) : Denoted → List Denoted → Eval Denoted
  | .procedure h parameters names body around, vs =>
    if vs.length = parameters.length then do
      let a ← enter parameters vs
      evalForms (self (⟨a, h, names⟩ :: around)) body
    else throw .unspecified
  | .primitive word, vs => operate word vs
  | _, _ => fail .type

/-- **Evaluate an expression** among the activations around it, given how to evaluate those inside. A variable in operator
position is read after the arguments have been evaluated, any other operator is evaluated before them. -/
def evalWith (self : List Region → Expression → Eval Denoted) (around : List Region) : Expression → Eval Denoted
  | .literal x => return datum x
  | .variable name => read around name
  | .primitive word => return .primitive word
  | .lambda h parameters names body => return .procedure h parameters names body around
  | .call (.variable name) operands => do
    let vs ← evalAll (self around) operands
    apply self (← read around name) vs
  | .call operator operands => do
    let f ← self around operator
    let vs ← evalAll (self around) operands
    apply self f vs
  | .define name right => do
    define around name (← self around right)
    return .boolean false
  | .assign name right => do
    assign around name (← self around right)
    return .boolean false
  | .conditional test yes no => do
    let v ← self around test
    if v.isTruthy then self around yes else self around no
  | .sequence forms => evalForms (self around) forms
  | .arithmetic word operands => evalArithmetic (self around) word operands
  | .operation word operands => do operate word (← evalAll (self around) operands)

/-- Evaluate an expression to a depth of `fuel` expressions. -/
def eval : (fuel : Nat) → List Region → Expression → Eval Denoted
  | 0 => fun _ _ => throw .exhausted
  | fuel + 1 => evalWith (eval fuel)

/-- **Run a program**: call its top lambda. -/
def run (fuel : Nat) (program : Expression) : Except Stop Denoted × Store := (eval fuel [] (.call program [])).run {}

end Meaning

end SchemeMachine
