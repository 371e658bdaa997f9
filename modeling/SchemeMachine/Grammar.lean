import SchemeMachine.Form
import SchemeMachine.Token.Lexer

/-!
# From tokens to forms

A recursive-descent parser. An expression is read in one of three modes: as code, as quoted data, or as
a template in which an unquoted part is code again. Each function answers what it read and the tokens
that it left.

The functions are given fuel, which each call uses up by one. At least every fourth call takes a token,
so four times the number of tokens is enough, and `Form.parse` supplies that.
-/

namespace SchemeMachine

/-- Why tokens do not form a program. -/
inductive ParseError where
  | unexpected (found expected : String) (line col : Nat)
  | unexpectedEnd
  | malformed (form reason : String) (line col : Nat)
  | unquoteOutsideQuasiquote (line col : Nat)
deriving Repr, DecidableEq

namespace ParseError

/-- The message for a reader. -/
def message : ParseError → String
  | .unexpected found expected line col =>
    s!"unexpected token {found} at line {line}, col {col}; expected {expected}"
  | .unexpectedEnd => "unexpected end of input"
  | .malformed form reason line col => s!"malformed {form} at line {line}, col {col}: {reason}"
  | .unquoteOutsideQuasiquote line col =>
    s!"unquote outside of quasiquote at line {line}, col {col}"

/-- The line and column of the fault. -/
def place? : ParseError → Option (Nat × Nat)
  | .unexpected _ _ line col => some (line, col)
  | .unexpectedEnd => none
  | .malformed _ _ line col => some (line, col)
  | .unquoteOutsideQuasiquote line col => some (line, col)

end ParseError

namespace Grammar

/-- How an expression is read. -/
inductive Mode where
  | code
  | quoted
  | template
deriving Repr, DecidableEq

/-! ### Single tokens -/

/-- The fault of meeting a token where another was expected. -/
def unexpected (t : Token) (expected : String) : ParseError :=
  if t.kind = .endOfText then .unexpectedEnd
  else .unexpected t.kind.text expected t.span.line t.span.col

/-- Take a token of the given kind; the answer is its span. -/
def expect (kind : Token.Kind) : List Token → Except ParseError (Span × List Token)
  | [] => .error .unexpectedEnd
  | t :: ts => if t.kind = kind then .ok (t.span, ts) else .error (unexpected t kind.text)

/-- Take a symbol; `role` says what it was to be. -/
def expectSymbol (role : String) : List Token → Except ParseError (String × List Token)
  | [] => .error .unexpectedEnd
  | t :: ts =>
    match t.kind with
    | .symbol name => .ok (name, ts)
    | _ => .error (unexpected t role)

/-- Take symbols up to a closing parenthesis, and that too. -/
def parameters : List Token → Except ParseError (List String × List Token)
  | [] => .error .unexpectedEnd
  | t :: ts =>
    match t.kind with
    | .close => .ok ([], ts)
    | .symbol name => do
      let (names, ts) ← parameters ts
      return (name :: names, ts)
    | _ => .error (unexpected t "parameter name")

/-- The span of the next token. -/
def nextSpan (ts : List Token) : Span := (ts.head?.map (·.span)).getD Span.unplaced

/-- The kind of the next token. -/
def nextKind (ts : List Token) : Token.Kind := (ts.head?.map (·.kind)).getD .endOfText

/-- The symbol that the next token is. -/
def nextSymbol? (ts : List Token) : Option String :=
  match nextKind ts with
  | .symbol name => some name
  | _ => none

/-- A symbol in each mode. -/
def word (mode : Mode) (name : String) : Form :=
  match mode with
  | .code => .atom (if isKeyword name then .keyword name else .variable name)
  | .quoted | .template => .atom (.symbol name)

/-- The fault of a form that has the wrong shape. -/
def malformed (form reason : String) (s : Span) : ParseError :=
  .malformed form reason s.line s.col

/-- A body must not be empty. -/
def requireBody (form : String) (s : Span) (body : List Form) : Except ParseError Unit :=
  if body.isEmpty then .error (malformed form "empty body" s) else .ok ()

/-! ### Expressions -/

/-- A clause of `cond`, before the clauses are chained. -/
structure Clause where
  span : Span
  test : Option Form
  body : List Form

/-- The chain of the clauses of `cond`. -/
def chain : List Clause → Option Form
  | [] => none
  | c :: cs => some (.clause c.span c.test c.body (chain cs))

mutual

/-- One expression. -/
def expr : (fuel : Nat) → Mode → List Token → Except ParseError (Form × List Token)
  | 0, _, _ => .error .unexpectedEnd
  | _, _, [] => .error .unexpectedEnd
  | fuel + 1, mode, t :: ts =>
    match t.kind with
    | .number x => .ok (.atom (.number x), ts)
    | .boolean b => .ok (.atom (.boolean b), ts)
    | .string s => .ok (.string t.span s, ts)
    | .symbol name => .ok (word mode name, ts)
    | .quote =>
      match mode with
      | .code => datum fuel .quote t.span ts
      | .quoted | .template => nested fuel mode "quote" t.span ts
    | .quasiquote =>
      match mode with
      | .code => datum fuel .quasiquote t.span ts
      | .quoted | .template => nested fuel mode "quasiquote" t.span ts
    | .unquote =>
      match mode with
      | .code => .error (.unquoteOutsideQuasiquote t.span.line t.span.col)
      | .quoted => nested fuel mode "unquote" t.span ts
      | .template => do
        let (inner, ts) ← expr fuel .code ts
        return (.group .unquote t.span [inner], ts)
    | .open =>
      match mode with
      | .code => compound fuel t.span ts
      | .quoted | .template => list fuel .quote mode t.span ts
    | .close => .error (unexpected t "expression")
    | .endOfText => .error .unexpectedEnd

/-- What follows a quote or a backquote in code: a list keeps the quotation, an atom needs none. -/
def datum : (fuel : Nat) → Quotation → Span → List Token → Except ParseError (Form × List Token)
  | 0, _, _, _ => .error .unexpectedEnd
  | fuel + 1, quotation, s, ts =>
    let mode := if quotation = .quasiquote then Mode.template else Mode.quoted
    match ts with
    | ⟨.open, here⟩ :: rest => list fuel quotation mode (here.merge s) rest
    | _ => expr fuel mode ts

/-- A quote inside quoted data: `'x` is the list `(quote x)`. -/
def nested : (fuel : Nat) → Mode → String → Span → List Token → Except ParseError (Form × List Token)
  | 0, _, _, _, _ => .error .unexpectedEnd
  | fuel + 1, mode, name, s, ts => do
    let (inner, ts) ← expr fuel mode ts
    return (.group .quote s [.atom (.symbol name), inner], ts)

/-- The rest of a list whose opening parenthesis has been taken. -/
def list : (fuel : Nat) → Quotation → Mode → Span → List Token → Except ParseError (Form × List Token)
  | 0, _, _, _, _ => .error .unexpectedEnd
  | fuel + 1, quotation, mode, s, ts => do
    let ((items, close), ts) ← sequence fuel mode ts
    return (.group quotation (s.merge close) items, ts)

/-- Expressions up to a closing parenthesis, whose span is answered too. -/
def sequence : (fuel : Nat) → Mode → List Token → Except ParseError ((List Form × Span) × List Token)
  | 0, _, _ => .error .unexpectedEnd
  | fuel + 1, mode, ts =>
    match nextKind ts with
    | .close => .ok (([], nextSpan ts), ts.tail)
    | .endOfText => .error .unexpectedEnd
    | _ => do
      let (first, ts) ← expr fuel mode ts
      let ((others, close), ts) ← sequence fuel mode ts
      return ((first :: others, close), ts)

/-- The rest of a form in code whose opening parenthesis, at `s`, has been taken. -/
def compound : (fuel : Nat) → Span → List Token → Except ParseError (Form × List Token)
  | 0, _, _ => .error .unexpectedEnd
  | fuel + 1, s, ts =>
    match nextSymbol? ts with
    | some "lambda" =>
      if nextKind ts.tail = .open then do
        let (names, ts) ← parameters ts.tail.tail
        let ((body, close), ts) ← sequence fuel .code ts
        requireBody "lambda" s body
        return (.lambda (s.merge close) names body, ts)
      else .error (malformed "lambda" "expected a parameter list" (nextSpan ts.tail))
    | some "define" =>
      if nextKind ts.tail = .open then do
        let (name, ts) ← expectSymbol "function name" ts.tail.tail
        let (names, ts) ← parameters ts
        let ((body, close), ts) ← sequence fuel .code ts
        requireBody "define" s body
        return (.procedure s (s.merge close) name names body, ts)
      else do
        let ((items, close), ts) ← sequence fuel .code ts.tail
        return (.group .code (s.merge close) (.atom (.keyword "define") :: items), ts)
    | some "let" => do
      let name := nextSymbol? ts.tail
      let (_, ts) ← expect .open (if name.isSome then ts.tail.tail else ts.tail)
      let (pairs, ts) ← bindings fuel ts
      let ((body, close), ts) ← sequence fuel .code ts
      requireBody "let" s body
      return (.letIn s (s.merge close) name (pairs.map (·.1)) (pairs.map (·.2)) body, ts)
    | some "cond" => do
      let (cs, ts) ← clauses fuel ts.tail
      match chain cs with
      | none => throw (malformed "cond" "no clauses" s)
      | some form => return (form, ts)
    | some "quote" => do
      let (form, ts) ← datum fuel .quote s ts.tail
      let (_, ts) ← expect .close ts
      return (form, ts)
    | _ => list fuel .code .code s ts

/-- The bindings of a `let` up to a closing parenthesis. -/
def bindings : (fuel : Nat) → List Token → Except ParseError (List (String × Form) × List Token)
  | 0, _ => .error .unexpectedEnd
  | fuel + 1, ts =>
    if nextKind ts = .close then .ok ([], ts.tail)
    else do
      let (_, ts) ← expect .open ts
      let (name, ts) ← expectSymbol "binding name" ts
      let (initial, ts) ← expr fuel .code ts
      let (_, ts) ← expect .close ts
      let (others, ts) ← bindings fuel ts
      return ((name, initial) :: others, ts)

/-- The clauses of a `cond` up to a closing parenthesis. -/
def clauses : (fuel : Nat) → List Token → Except ParseError (List Clause × List Token)
  | 0, _ => .error .unexpectedEnd
  | fuel + 1, ts =>
    if nextKind ts = .close then .ok ([], ts.tail)
    else do
      let s := nextSpan ts
      let (_, ts) ← expect .open ts
      let (test, ts) ← condition fuel ts
      let ((body, _), ts) ← sequence fuel .code ts
      if body.isEmpty then throw (malformed "cond" "clause without a body" s)
      let (others, ts) ← clauses fuel ts
      return (⟨s, test, body⟩ :: others, ts)

/-- The test of a clause; `else` stands for none. -/
def condition : (fuel : Nat) → List Token → Except ParseError (Option Form × List Token)
  | 0, _ => .error .unexpectedEnd
  | fuel + 1, ts =>
    if nextSymbol? ts = some "else" then .ok (none, ts.tail)
    else do
      let (test, ts) ← expr fuel .code ts
      return (some test, ts)

end

/-- The expressions up to the end of the text. -/
def program : (fuel : Nat) → List Token → Except ParseError (List Form)
  | 0, _ => .error .unexpectedEnd
  | fuel + 1, ts =>
    if nextKind ts = .endOfText then .ok []
    else do
      let (first, ts) ← expr fuel .code ts
      let others ← program fuel ts
      return first :: others

end Grammar

/-- **The forms of a program** from its tokens. -/
def Form.parse (tokens : List Token) : Except ParseError (List Form) :=
  Grammar.program (4 * tokens.length + 4) tokens

end SchemeMachine
