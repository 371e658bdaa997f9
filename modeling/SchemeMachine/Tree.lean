import SchemeMachine.Span
import SchemeMachine.Table

/-!
# Syntax trees

A program is a tree of lambdas, applications and strings. The nodes stand in one array and name each
other by index, so that a pass can attach facts to a node: its place in the text, its scope, whether it
is a tail call.

* `Tree.empty` holds the top lambda alone, whose body becomes the whole program.
* `Tree.alloc` adds a node; `Tree.pushChild` hangs one thing below another.
* `Tree.enclosingLambda` finds the lambda that a node belongs to.
-/

namespace SchemeMachine

/-- The words with a meaning of their own: special forms and primitive operators. -/
def keywords : List String := [
  "quote", "quasiquote", "unquote", "lambda", "define", "set!", "if", "cond", "else", "let",
  "and", "or", "begin", "call/cc", "fork", "import", "native", "display", "newline", "car",
  "cdr", "cons", "+", "-", "*", "/", "%", "pow", "=", "<", ">", "<=", ">=", "not"]

/-- Whether a word is a keyword. -/
def isKeyword (word : String) : Bool := keywords.contains word

/-- The index of a node, or of an object made from one. -/
abbrev Handle := Nat

/-- A handle as the listing writes it; it also names the code of a lambda. -/
def Handle.label (h : Handle) : String := s!"&{h}"

/-- What stands in a tree without having a node of its own. -/
inductive Atom where
  | number (value : Float)
  | boolean (value : Bool)
  /-- A quoted word. -/
  | symbol (name : String)
  | variable (name : String)
  | keyword (name : String)
deriving Repr, DecidableEq, Inhabited

/-- An element of a lambda's body or of an application. -/
inductive Child where
  | node (handle : Handle)
  | atom (value : Atom)
deriving Repr, DecidableEq, Inhabited

/-- Whether an application is code, quoted data, a template or a hole in one. -/
inductive Quotation where
  | code
  | quote
  | quasiquote
  | unquote
deriving Repr, DecidableEq, Inhabited

/-- A node of a tree. -/
inductive Node where
  | lambda (parent : Option Handle) (parameters : List String) (body : List Child)
  | application (parent : Option Handle) (quotation : Quotation) (children : List Child)
  | string (parent : Option Handle) (content : String)
deriving Repr, DecidableEq, Inhabited

/-- The names that one lambda binds, and the scopes around and inside it. -/
structure Scope where
  parent : Option Handle := none
  children : List Handle := []
  bound : List String := []
deriving Repr, DecidableEq, Inhabited

/-- The lambda that binds a renamed variable, and the name as it was written. -/
structure VariableInfo where
  owner : Handle
  written : String
deriving Repr, DecidableEq, Inhabited

/-- **A syntax tree** with what is known of its nodes. Node 0 is the top lambda. -/
structure Tree where
  nodes : Array Node
  /-- The place of each node that came from a text. -/
  spans : Table Handle Span := {}
  /-- The scope of each lambda. -/
  scopes : Table Handle Scope := {}
  /-- The applications in tail position. -/
  tailCalls : OrderedSet Handle := {}
  /-- The variables that scope analysis renamed, by their new names. -/
  renamings : Table String VariableInfo := {}
  /-- The native libraries that the program declares. -/
  natives : Names := {}
  /-- The modules that the program imports: path by alias. -/
  dependencies : Table String String := {}
  /-- Whether the variables have been renamed. -/
  analysed : Bool := false
deriving Repr, DecidableEq, Inhabited

namespace Child

/-- The variable that a child is. -/
def variableName? : Child → Option String
  | .atom (.variable name) => some name
  | _ => none

/-- The node that a child is. -/
def node? : Child → Option Handle
  | .node h => some h
  | _ => none

/-- Whether a child is a given keyword. -/
def isKeyword (c : Child) (word : String) : Bool := c = .atom (.keyword word)

end Child

namespace Node

/-- The node above. -/
def parent : Node → Option Handle
  | .lambda parent .. => parent
  | .application parent .. => parent
  | .string parent _ => parent

/-- Put a node below another. -/
def setParent (h : Handle) : Node → Node
  | .lambda _ parameters body => .lambda (some h) parameters body
  | .application _ quotation children => .application (some h) quotation children
  | .string _ content => .string (some h) content

/-- Append to the body of a lambda or the children of an application. -/
def push (c : Child) : Node → Node
  | .lambda parent parameters body => .lambda parent parameters (body ++ [c])
  | .application parent quotation children => .application parent quotation (children ++ [c])
  | .string parent content => .string parent content

/-- Add a parameter to a lambda, unless it has one of that name. -/
def addParameter (name : String) : Node → Node
  | .lambda parent parameters body =>
    .lambda parent (if name ∈ parameters then parameters else parameters ++ [name]) body
  | other => other

/-- A lambda without parameters and body. -/
def freshLambda (parent : Option Handle) : Node := .lambda parent [] []

/-- An application without children. -/
def freshApplication (parent : Option Handle) (quotation : Quotation) : Node :=
  .application parent quotation []

/-- Whether a node is a lambda. -/
def isLambda : Node → Bool
  | .lambda .. => true
  | _ => false

/-- Whether a node is an application. -/
def isApplication : Node → Bool
  | .application .. => true
  | _ => false

end Node

namespace Scope

/-- Whether a scope binds a name. -/
def binds (s : Scope) (name : String) : Bool := s.bound.contains name

/-- Bind a name, once. -/
def bind (s : Scope) (name : String) : Scope :=
  if s.binds name then s else { s with bound := s.bound ++ [name] }

end Scope

namespace Tree

/-- The handle of the top lambda. -/
def top : Handle := 0

/-- The tree of the empty program. -/
def empty : Tree := { nodes := #[Node.freshLambda none] }

/-- How many nodes there are. -/
def size (t : Tree) : Nat := t.nodes.size

/-- The node of a handle. -/
def get? (t : Tree) (h : Handle) : Option Node := t.nodes[h]?

/-- The handles of all nodes. -/
def handles (t : Tree) : List Handle := List.range t.size

/-- The handles of the lambdas. -/
def lambdas (t : Tree) : List Handle := t.handles.filter fun h => (t.get? h).any Node.isLambda

/-- The content of a string node. -/
def string? (t : Tree) (h : Handle) : Option String :=
  match t.get? h with
  | some (.string _ content) => some content
  | _ => none

/-- The body of a lambda, nothing for any other node. -/
def bodyOf (t : Tree) (h : Handle) : List Child :=
  match t.get? h with
  | some (.lambda _ _ body) => body
  | _ => []

/-- Add a node. Its handle is the number of nodes before it. -/
def alloc (t : Tree) (n : Node) : Handle × Tree := (t.size, { t with nodes := t.nodes.push n })

/-- Change a node, if there is one. -/
def modify (t : Tree) (h : Handle) (f : Node → Node) : Tree :=
  { t with nodes := t.nodes.modify h f }

/-- Hang a child below a node: the child's node learns its parent, then the parent its child. -/
def pushChild (t : Tree) (h : Handle) (c : Child) : Tree :=
  let placed := match c with
    | .node below => t.modify below (Node.setParent h)
    | .atom _ => t
  placed.modify h (Node.push c)

/-- Add a parameter to a lambda. -/
def addParameter (t : Tree) (h : Handle) (name : String) : Tree := t.modify h (Node.addParameter name)

/-- Record the place of a node. -/
def setSpan (t : Tree) (h : Handle) (s : Span) : Tree := { t with spans := t.spans.insert h s }

/-- The name that a variable had before it was renamed. -/
def writtenName (t : Tree) (name : String) : String :=
  ((t.renamings.find? name).map (·.written)).getD name

/-- Follow parents to the nearest lambda, at most `fuel` of them. -/
def enclosingFrom (t : Tree) : (fuel : Nat) → Handle → Handle
  | 0, _ => top
  | fuel + 1, h =>
    match t.get? h with
    | some (.lambda ..) => h
    | some n =>
      match n.parent with
      | some p => enclosingFrom t fuel p
      | none => top
    | none => top

/-- **The lambda around a node**: the nearest one at or above it, the top lambda if there is none. -/
def enclosingLambda (t : Tree) (h : Handle) : Handle := enclosingFrom t (t.size + 1) h

end Tree

end SchemeMachine
