import SchemeMachine.Decimal.Notation
import SchemeMachine.Json.Spelling

/-!
# JSON documents

Documents as values, and their text, compact or indented by two spaces.

* `JsonValue.compact` and `JsonValue.pretty` write a document.
* A number is written by its shortest decimal, always with a point or an exponent; what is no finite
  number is written `null`.
-/

namespace SchemeMachine

/-- A number of a document, as its numeral has it. -/
inductive JsonNumber where
  | natural (value : Nat)
  /-- The negative of a positive number. -/
  | negative (magnitude : Nat)
  | float (value : Float)
  /-- A numeral beyond the range of numbers. -/
  | outOfRange
deriving Repr, DecidableEq, Inhabited

/-- **A JSON document.** The members of an object keep their order. -/
inductive JsonValue where
  | null
  | boolean (value : Bool)
  | number (value : JsonNumber)
  | string (value : JsonString)
  | array (items : List JsonValue)
  | object (members : List (JsonString × JsonValue))
deriving Repr, Inhabited

namespace JsonValue

/-- The string of a text, as a document. -/
def text (s : String) : JsonValue := .string (.ofText s)

/-- An object with the given texts as keys. -/
def record (members : List (String × JsonValue)) : JsonValue :=
  .object (members.map fun m => (.ofText m.1, m.2))

/-! ### Texts of leaves -/

/-- The shortest decimal with a point or an exponent: positional up to sixteen digits before the point
and four zeros after it, else with a signed exponent. -/
def decimalText (d : Decimal) : List Char :=
  let ds := d.digitChars
  let point := Int.ofNat ds.length + d.exponent
  if 0 ≤ d.exponent ∧ point ≤ 16 then d.positional ++ ['.', '0']
  else if 0 < point ∧ point ≤ 16 then d.positional
  else if -5 < point ∧ point ≤ 0 then d.positional
  else
    let mantissa := match ds with
      | [single] => [single]
      | first :: rest => first :: '.' :: rest
      | [] => []
    let power := point - 1
    mantissa ++ 'e' :: (if power < 0 then '-' else '+') :: Nat.toDigits 10 power.natAbs

/-- A floating-point number in a document. -/
def floatText (x : Float) : String :=
  match Binary.ofFloat x with
  | .nan => "null"
  | .infinite _ => "null"
  | .finite negative m q =>
    if m = 0 then Number.signed negative ['0', '.', '0']
    else Number.signed negative (decimalText (Decimal.shortest .toEven m q))

/-- A number in a document. -/
def numberText : JsonNumber → String
  | .natural n => toString n
  | .negative n => "-" ++ toString n
  | .float x => floatText x
  | .outOfRange => "null"

/-! ### Texts of documents -/

mutual

/-- **The document without any blanks.** -/
def compact : JsonValue → String
  | .null => "null"
  | .boolean b => if b then "true" else "false"
  | .number n => numberText n
  | .string s => s.quoted
  | .array items => "[" ++ String.intercalate "," (compactItems items) ++ "]"
  | .object members => "\x7b" ++ String.intercalate "," (compactMembers members) ++ "\x7d"

/-- The texts of the items of an array. -/
def compactItems : List JsonValue → List String
  | [] => []
  | v :: vs => compact v :: compactItems vs

/-- The texts of the members of an object. -/
def compactMembers : List (JsonString × JsonValue) → List String
  | [] => []
  | (k, v) :: rest => (k.quoted ++ ":" ++ compact v) :: compactMembers rest

end

/-- The start of a line at a depth. -/
def indent (depth : Nat) : String := "\n" ++ String.join (List.replicate depth "  ")

/-- Parts between brackets, one to a line, at a depth; without parts the brackets touch. -/
def bracketed (left right : String) (depth : Nat) (parts : List String) : String :=
  if parts.isEmpty then left ++ right
  else left ++ String.intercalate "," (parts.map (indent (depth + 1) ++ ·)) ++ indent depth ++ right

mutual

/-- The indented document at a depth. -/
def prettyAt (depth : Nat) : JsonValue → String
  | .array items => bracketed "[" "]" depth (prettyItems (depth + 1) items)
  | .object members => bracketed "\x7b" "\x7d" depth (prettyMembers (depth + 1) members)
  | .null => "null"
  | .boolean b => if b then "true" else "false"
  | .number n => numberText n
  | .string s => s.quoted

/-- The texts of the items of an array. -/
def prettyItems (depth : Nat) : List JsonValue → List String
  | [] => []
  | v :: vs => prettyAt depth v :: prettyItems depth vs

/-- The texts of the members of an object. -/
def prettyMembers (depth : Nat) : List (JsonString × JsonValue) → List String
  | [] => []
  | (k, v) :: rest => (k.quoted ++ ": " ++ prettyAt depth v) :: prettyMembers depth rest

end

/-- **The document indented by two spaces.** -/
def pretty (v : JsonValue) : String := prettyAt 0 v

end JsonValue

end SchemeMachine
