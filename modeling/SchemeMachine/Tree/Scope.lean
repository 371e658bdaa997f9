import SchemeMachine.Tree

/-!
# Lexical scopes

Every lambda has a scope: its parameters, and the names defined in its body outside nested lambdas. Scope
analysis renames each variable that some enclosing lambda binds to `&N.x`, where `N` is the handle of
the nearest such lambda and `x` the name as written. Other names stay as they are, and so does quoted
data.

* `Tree.scopeTable` gives every lambda its parameters, `Tree.definitions` finds what bodies define.
* `Tree.resolve` finds the binder of a name.
* `Tree.resolveScopes` is the whole analysis; on an analysed tree it does nothing.
-/

namespace SchemeMachine

/-- Why a tree has no scopes. -/
inductive AnalysisError where
  /-- Something other than a variable is being defined. -/
  | defineTarget (span : Span)
deriving Repr, DecidableEq

/-- The message for a reader. -/
def AnalysisError.message : AnalysisError → String
  | .defineTarget span => s!"define target must be a variable (at {span.text})"

namespace Tree

/-! ### Building the scopes -/

/-- The scope of a lambda as far as its parameters go. -/
def parameterScope (t : Tree) (h : Handle) : Scope :=
  match t.get? h with
  | some (.lambda parent parameters _) =>
    parameters.foldl Scope.bind { parent := parent.map t.enclosingLambda }
  | _ => {}

/-- Note a scope in the scope around it. -/
def linkScope (scopes : Table Handle Scope) (h : Handle) : Table Handle Scope :=
  match (scopes.find? h).bind (·.parent) with
  | none => scopes
  | some p =>
    match scopes.find? p with
    | none => scopes
    | some outer => scopes.insert p { outer with children := outer.children ++ [h] }

/-- The scopes of all lambdas, with their parameters bound. -/
def scopeTable (t : Tree) : Table Handle Scope :=
  t.lambdas.foldl linkScope (Table.ofList (t.lambdas.map fun h => (h, t.parameterScope h)))

/-- The name that a node defines and the lambda in which it is bound; `none` for a node that is no
definition. -/
def definition? (t : Tree) (h : Handle) : Except AnalysisError (Option (Handle × String)) :=
  match t.get? h with
  | some (.application _ .code (.atom (.keyword "define") :: rest)) =>
    match rest with
    | .atom (.variable name) :: _ => .ok (some (t.enclosingLambda h, name))
    | _ => .error (.defineTarget ((t.spans.find? h).getD Span.unplaced))
  | _ => .ok none

/-- All definitions, in the order of their nodes. -/
def definitions (t : Tree) : Except AnalysisError (List (Handle × String)) := do
  return (← t.handles.mapM t.definition?).filterMap id

/-- Bind a defined name in its scope. -/
def bindDefinition (scopes : Table Handle Scope) (d : Handle × String) : Table Handle Scope :=
  match scopes.find? d.1 with
  | none => scopes
  | some scope => scopes.insert d.1 (scope.bind d.2)

/-! ### Renaming -/

/-- Look outward from a scope, through `fuel` scopes at most. -/
def resolveFrom (t : Tree) (name : String) : (fuel : Nat) → Handle → Option Handle
  | 0, _ => none
  | fuel + 1, h =>
    match t.scopes.find? h with
    | none => none
    | some scope =>
      if scope.binds name then some h
      else
        match scope.parent with
        | none => none
        | some p => resolveFrom t name fuel p

/-- **The binder of a name** used in the lambda `h`: the nearest scope outward that binds it. -/
def resolve (t : Tree) (h : Handle) (name : String) : Option Handle :=
  t.resolveFrom name (t.scopes.size + 1) h

/-- The new name of a variable. -/
def scopedName (owner : Handle) (name : String) : String := Handle.label owner ++ "." ++ name

/-- A name after renaming in the lambda `h`. -/
def newName (t : Tree) (h : Handle) (name : String) : String :=
  match t.resolve h name with
  | none => name
  | some owner => scopedName owner name

/-- Follow parents as long as they are code; quoted data answers `true`, all else `false`. -/
def isQuotedFrom (t : Tree) : (fuel : Nat) → Handle → Bool
  | 0, _ => false
  | fuel + 1, h =>
    match t.get? h with
    | some (.application parent quotation _) =>
      match quotation with
      | .unquote => false
      | .quote | .quasiquote => true
      | .code =>
        match parent with
        | none => false
        | some p => isQuotedFrom t fuel p
    | _ => false

/-- Whether a node is quoted data, not counting what is unquoted in it. -/
def isQuoted (t : Tree) (h : Handle) : Bool := t.isQuotedFrom (t.size + 1) h

/-- The variables that occur directly in a node, those of quoted data apart. -/
def occurrences (t : Tree) (h : Handle) : List String :=
  match t.get? h with
  | some (.lambda _ parameters body) => parameters ++ body.filterMap Child.variableName?
  | some (.application _ _ children) => if t.isQuoted h then [] else children.filterMap Child.variableName?
  | _ => []

/-- What a renamed occurrence adds to the table of renamings. -/
def renamingOf? (t : Tree) (owner : Handle) (name : String) : Option (String × VariableInfo) :=
  (t.resolve owner name).map fun binder => (scopedName binder name, ⟨binder, name⟩)

/-- Rename a child in the lambda `h`. -/
def renameChild (t : Tree) (h : Handle) : Child → Child
  | .atom (.variable name) => .atom (.variable (t.newName h name))
  | other => other

/-- A node with its variables renamed. -/
def renameNode (t : Tree) (h : Handle) : Node → Node
  | .lambda parent parameters body =>
    .lambda parent (parameters.map (t.newName h)) (body.map (t.renameChild h))
  | .application parent quotation children =>
    if t.isQuoted h then .application parent quotation children
    else .application parent quotation (children.map (t.renameChild (t.enclosingLambda h)))
  | .string parent content => .string parent content

/-- Rename every variable and note where the new names come from. -/
def renameVariables (t : Tree) : Tree :=
  { t with
    nodes := t.nodes.mapIdx fun h n => t.renameNode h n
    renamings := t.renamings.insertAll
      (t.handles.flatMap fun h => (t.occurrences h).filterMap (t.renamingOf? (t.enclosingLambda h)))
    analysed := true }

/-- **Scope analysis.** If a definition is at fault, the scopes are left as far as parameters go and
nothing is renamed. -/
def resolveScopes (t : Tree) : Tree × Option AnalysisError :=
  if t.analysed then (t, none)
  else
    let outlined := { t with scopes := t.scopeTable }
    match t.definitions with
    | .error e => (outlined, some e)
    | .ok ds =>
      ({ outlined with scopes := ds.foldl bindDefinition outlined.scopes }.renameVariables, none)

end Tree

end SchemeMachine
