import SchemeMachine.Tree

/-!
# Source forms

What the grammar distinguishes, before it becomes nodes: atoms and groups, and the forms that the
tree has no node for. `Form.build` gives each of the latter its meaning in lambdas and applications:

* `(define (f x …) body …)` defines `f` as a lambda;
* `(let ((x e) …) body …)` applies a lambda to the initial values;
* `(let loop ((x e) …) body …)` does so through a name for that lambda;
* `cond` is a chain of `if`s, a body of several forms being wrapped in `begin`.

A node is allocated before its children, except that `let` allocates the lambda of its body after the
initial values, and `cond` its nodes after those of all tests and bodies, last clause first.
-/

namespace SchemeMachine

/-- **A parsed form**, with the spans that its nodes will have. -/
inductive Form where
  | atom (value : Atom)
  | string (span : Span) (content : String)
  /-- An application, a quoted list, a template or a hole. -/
  | group (quotation : Quotation) (span : Span) (items : List Form)
  | lambda (span : Span) (parameters : List String) (body : List Form)
  /-- `(define (name parameters …) body …)` -/
  | procedure (span lambdaSpan : Span) (name : String) (parameters : List String) (body : List Form)
  /-- `(let name ((variable initial) …) body …)`, with or without the name. -/
  | letIn (span bodySpan : Span) (name : Option String) (names : List String)
      (initials body : List Form)
  /-- A clause of `cond` and the clauses after it; an `else` clause has no test. -/
  | clause (span : Span) (test : Option Form) (body : List Form) (rest : Option Form)
deriving Repr, Inhabited

namespace Form

/-- Add parameters one after the other. -/
def addParameters (h : Handle) (names : List String) (t : Tree) : Tree :=
  names.foldl (fun t name => t.addParameter h name) t

/-- Hang children below a node, one after the other. -/
def pushAll (h : Handle) (children : List Child) (t : Tree) : Tree :=
  children.foldl (fun t c => t.pushChild h c) t

/-- An application in code with the given children. -/
def application (s : Span) (children : List Child) (t : Tree) : Handle × Tree :=
  let (h, t) := t.alloc (Node.freshApplication none .code)
  (h, (pushAll h children t).setSpan h s)

/-- The body of a clause: the form itself if it is the only one, else a `begin`. -/
def sequence (s : Span) (body : List Child) (t : Tree) : Child × Tree :=
  match body with
  | [single] => (single, t)
  | several =>
    let (h, t) := application s (.atom (.keyword "begin") :: several) t
    (.node h, t)

mutual

/-- Make the nodes of a form; the answer is what stands for it in its parent. -/
def build : Form → Tree → Child × Tree
  | .atom a, t => (.atom a, t)
  | .string s content, t =>
    let (h, t) := t.alloc (.string none content)
    (.node h, t.setSpan h s)
  | .group quotation s items, t =>
    let (h, t) := t.alloc (Node.freshApplication none quotation)
    (.node h, (buildInto h items t).setSpan h s)
  | .lambda s parameters body, t =>
    let (h, t) := t.alloc (Node.freshLambda none)
    (.node h, (buildInto h body (addParameters h parameters t)).setSpan h s)
  | .procedure s lambdaSpan name parameters body, t =>
    let (define, t) := t.alloc (Node.freshApplication none .code)
    let t := pushAll define [.atom (.keyword "define"), .atom (.variable name)] t
    let (h, t) := t.alloc (Node.freshLambda none)
    let t := (buildInto h body (addParameters h parameters t)).setSpan h lambdaSpan
    (.node define, (t.pushChild define (.node h)).setSpan define s)
  | .letIn s bodySpan name names initials body, t =>
    let (app, t) := t.alloc (Node.freshApplication none .code)
    let (values, t) := buildAll initials t
    let (h, t) := t.alloc (Node.freshLambda none)
    let t := (buildInto h body (addParameters h names t)).setSpan h bodySpan
    let t := t.setSpan app s
    match name with
    | none => (.node app, pushAll app (.node h :: values) t)
    | some name =>
      let (wrapper, t) := t.alloc (Node.freshLambda none)
      let (define, t) :=
        application s [.atom (.keyword "define"), .atom (.variable name), .node h] t
      let t := t.pushChild wrapper (.node define)
      let (call, t) := application s (.atom (.variable name) :: values) t
      let t := t.pushChild wrapper (.node call)
      (.node app, (t.pushChild app (.node wrapper)).setSpan wrapper s)
  | .clause s test body rest, t =>
    let (test, t) := buildOption test t
    let (body, t) := buildAll body t
    let (rest, t) := buildOption rest t
    let (body, t) := sequence s body t
    match test with
    | none => (body, t)
    | some test =>
      let (h, t) := application s (.atom (.keyword "if") :: test :: body :: rest.toList) t
      (.node h, t)

/-- Make the nodes of forms and hang each below a node as soon as it is made. -/
def buildInto (h : Handle) : List Form → Tree → Tree
  | [], t => t
  | f :: fs, t =>
    let (c, t) := build f t
    buildInto h fs (t.pushChild h c)

/-- Make the nodes of forms without a parent yet. -/
def buildAll : List Form → Tree → List Child × Tree
  | [], t => ([], t)
  | f :: fs, t =>
    let (c, t) := build f t
    let (cs, t) := buildAll fs t
    (c :: cs, t)

/-- Make the nodes of a form that may be missing. -/
def buildOption : Option Form → Tree → Option Child × Tree
  | none, t => (none, t)
  | some f, t =>
    let (c, t) := build f t
    (some c, t)

end

end Form

namespace Tree

/-- The native library that a top-level form declares: `(native Library)`. -/
def nativeDeclaration? (t : Tree) (c : Child) : Option String :=
  match c.node?.bind t.get? with
  | some (.application _ _ [.atom (.keyword "native"), .atom (.variable library)]) => some library
  | _ => none

/-- The module that a top-level form imports: `(import Alias "path")`. -/
def importDeclaration? (t : Tree) (c : Child) : Option (String × String) :=
  match c.node?.bind t.get? with
  | some (.application _ _ [.atom (.keyword "import"), .atom (.variable name), .node path]) =>
    (t.string? path).map fun content => (name, content)
  | _ => none

/-- Record the declarations among the top-level forms. -/
def declare (t : Tree) : Tree :=
  let body := t.bodyOf top
  { t with
    natives := t.natives.addAll (body.filterMap t.nativeDeclaration?)
    dependencies := t.dependencies.insertAll (body.filterMap t.importDeclaration?) }

/-- **The tree of a program** given by its top-level forms. -/
def ofForms (forms : List Form) : Tree := (Form.buildInto top forms Tree.empty).declare

end Tree

end SchemeMachine
