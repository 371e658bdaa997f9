import SchemeMachine.Decimal.Notation
import SchemeMachine.Text.Quoted
import SchemeMachine.Tree

/-!
# Trees as source text

`Tree.render` writes a node back as source. Inside quoted data neither symbols nor lists carry a quote
of their own; a hole in a template is code again.

Variables go through a naming function: `Tree.writtenName` gives the source as it was written, the
identity shows the names that scope analysis gave.
-/

namespace SchemeMachine

/-- An atom in source text; symbols are bare inside quoted data. -/
def Atom.render (nameOf : String → String) (quoted : Bool) : Atom → String
  | .number x => Number.display x
  | .boolean b => if b then "#t" else "#f"
  | .symbol s => if quoted then s else "'" ++ s
  | .variable v => nameOf v
  | .keyword k => k

namespace Tree

/-- The text of an application from the texts of its children. -/
def wrap (quotation : Quotation) (quoted : Bool) (items : List String) : String :=
  let list := "(" ++ String.intercalate " " items ++ ")"
  match quotation with
  | .code => list
  | .quote => if quoted then list else "'" ++ list
  | .quasiquote => "`" ++ list
  | .unquote =>
    match items with
    | [single] => "," ++ single
    | _ => "," ++ list

/-- Whether the children of an application are quoted data. -/
def quotesInside (quotation : Quotation) (quoted : Bool) : Bool :=
  match quotation with
  | .unquote => false
  | .code => quoted
  | .quote | .quasiquote => true

/-- Write a node, to a depth of `fuel` nodes. -/
def renderNode (t : Tree) (nameOf : String → String) : (fuel : Nat) → Bool → Handle → String
  | 0, _, _ => "<invalid>"
  | fuel + 1, quoted, h =>
    let child (quoted : Bool) : Child → String
      | .node below => renderNode t nameOf fuel quoted below
      | .atom a => a.render nameOf quoted
    match t.get? h with
    | none => "<invalid>"
    | some (.string _ content) => Text.quote content
    | some (.lambda _ parameters body) =>
      "(lambda (" ++ String.intercalate " " (parameters.map nameOf) ++ ") "
        ++ String.intercalate " " (body.map (child false)) ++ ")"
    | some (.application _ quotation children) =>
      wrap quotation quoted (children.map (child (quotesInside quotation quoted)))

/-- A node as source text, its variables named by `nameOf`. -/
def renderWith (t : Tree) (nameOf : String → String) (h : Handle) : String :=
  renderNode t nameOf (t.size + 1) false h

/-- **A node as source text**, with the variables as they were written. -/
def render (t : Tree) (h : Handle) : String := t.renderWith t.writtenName h

/-- A child in code as source text. -/
def renderChild (t : Tree) (nameOf : String → String) : Child → String
  | .node h => t.renderWith nameOf h
  | .atom a => a.render nameOf false

/-- **The program as source text**: the top-level forms, one to a line. -/
def renderProgram (t : Tree) (nameOf : String → String) : String :=
  String.intercalate "\n" ((t.bodyOf top).map (t.renderChild nameOf))

end Tree

end SchemeMachine
