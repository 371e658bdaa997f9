import SchemeMachine.Decimal.Notation
import SchemeMachine.Span
import SchemeMachine.Text.Blank

/-!
# Tokens

The words of the source language, each with the stretch of text that it takes up.

* `Token.Kind.text` is the form in which a token is named in messages.
* `Number.isNumeral` separates numerals from symbols.
-/

namespace SchemeMachine

/-- Whether a word is read as a number: after an optional sign and an optional point it starts with a
digit, and the whole is a numeral. Words such as `inf` are thereby left to be symbols. -/
def Number.isNumeral (word : String) : Bool :=
  let unsigned := match word.toList with
    | '+' :: cs => cs
    | '-' :: cs => cs
    | cs => cs
  let body := match unsigned with
    | '.' :: cs => cs
    | cs => cs
  body.head?.any Char.isDigit && (Number.read? word).isSome

namespace Token

/-- What a token is. A square bracket counts as a parenthesis. -/
inductive Kind where
  | open
  | close
  | quote
  | quasiquote
  | unquote
  | number (value : Float)
  | string (content : String)
  | boolean (value : Bool)
  | symbol (name : String)
  | endOfText
deriving Repr, DecidableEq, Inhabited

/-- The token as messages name it. -/
def Kind.text : Kind → String
  | .open => "("
  | .close => ")"
  | .quote => "'"
  | .quasiquote => "`"
  | .unquote => ","
  | .number x => Number.text x
  | .string s => "\"" ++ s ++ "\""
  | .boolean b => if b then "#t" else "#f"
  | .symbol s => s
  | .endOfText => "EOF"

end Token

/-- **A token** with its place. -/
structure Token where
  kind : Token.Kind
  span : Span
deriving Repr, DecidableEq, Inhabited

end SchemeMachine
