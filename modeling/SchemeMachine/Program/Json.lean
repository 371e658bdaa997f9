import SchemeMachine.Json.Reader
import SchemeMachine.Program

/-!
# Programs as JSON

`Program.toJson` gives the document of a program, `Program.ofJson?` reads it back. An object that
carries a record has each of its fields once, in any order, and other fields are ignored; a record may
also be given as an array of its fields in order. Inside an instruction, what is ignored must still have
a meaning, and a word may be given in more ways than elsewhere (`Strictness`).
-/

namespace SchemeMachine

/-! ### Writing -/

/-- An object tagged with its kind. -/
def JsonValue.tagged (kind : String) (members : List (String × JsonValue)) : JsonValue :=
  .record (("kind", .text kind) :: members)

/-- An atom with its kind. -/
def Atom.toJson : Atom → JsonValue
  | .number x => .tagged "number" [("value", .number (.float x))]
  | .boolean b => .tagged "boolean" [("value", .boolean b)]
  | .symbol s => .tagged "symbol" [("value", .text s)]
  | .keyword k => .tagged "keyword" [("value", .text k)]
  | .variable v => .tagged "variable" [("value", .text v)]

/-- An operand with its kind. -/
def Operand.toJson : Operand → JsonValue
  | .atom a => a.toJson
  | .label name => .tagged "label" [("value", .text name)]
  | .handle h => .tagged "handle" [("value", .number (.natural h))]

/-- An instruction with its kind. -/
def Instruction.toJson : Instruction → JsonValue
  | .comment text => .tagged "comment" [("text", .text text)]
  | .label name => .tagged "label" [("name", .text name)]
  | .op opcode operand =>
    .tagged "op" [("opcode", .text opcode.mnemonic),
      ("argument", (operand.map Operand.toJson).getD .null)]

/-- A constant under the name of its kind. -/
def Constant.toJson : Constant → JsonValue
  | .string content => .record [("Str", .text content)]
  | .list items => .record [("List", .array (items.map Operand.toJson))]

/-- A table of strings as an object. -/
def Table.toJsonObject (t : Table String String) : JsonValue :=
  .record (t.entries.map fun e => (e.1, .text e.2))

/-- **The document of a program.** -/
def Program.toJson (p : Program) : JsonValue :=
  .record [
    ("instructions", .array (p.code.toList.map Instruction.toJson)),
    ("statics", .record (p.constants.entries.map fun e => (toString e.1, e.2.toJson))),
    ("top_level", p.topLevel.toJsonObject),
    ("enclosing", p.enclosing.toJsonObject),
    ("natives", .array (p.natives.keys.map JsonValue.text)),
    ("source_hash", .text p.sourceHash)]

/-! ### Reading -/

/-- **How exactly a part of a document must be written.** Read freely, an empty object is as good as
`null`, and the kind of an operand may be given by its number. -/
inductive Strictness where
  | exact
  | free
deriving Repr, DecidableEq

/-- Whether a document says nothing. -/
def JsonValue.isNothing (strictness : Strictness) : JsonValue → Bool
  | .null => true
  | .object [] => strictness = .free
  | _ => false

/-- A word out of a fixed choice: a string, or an object with the word as its only key and nothing under
it. -/
def JsonValue.word? (strictness : Strictness) : JsonValue → Option String
  | .string s => s.text?
  | .object [(key, v)] => if v.isNothing strictness then key.text? else none
  | _ => none

/-- The kinds of operands, in the order of their numbers. -/
def Operand.kinds : List String :=
  ["number", "boolean", "symbol", "keyword", "variable", "label", "handle"]

/-- The kind at the front of an array. -/
def Operand.leadingKind? (strictness : Strictness) (v : JsonValue) : Option String :=
  match v, strictness with
  | .string s, _ => s.text?
  | .number (.natural n), .free => kinds[n]?
  | _, _ => none

/-- An operand of a kind. -/
def Operand.ofKind? (kind : String) (v : JsonValue) : Option Operand :=
  match kind with
  | "number" => v.float?.map fun x => .atom (.number x)
  | "boolean" => v.boolean?.map fun b => .atom (.boolean b)
  | "symbol" => v.text?.map fun s => .atom (.symbol s)
  | "keyword" => v.text?.map fun s => .atom (.keyword s)
  | "variable" => v.text?.map fun s => .atom (.variable s)
  | "label" => v.text?.map .label
  | "handle" => v.natural?.map .handle
  | _ => none

/-- Read an operand: its kind and its value, in an object or in an array. -/
def Operand.ofJson? (strictness : Strictness) (v : JsonValue) : Option Operand :=
  match v with
  | .array [kind, value] => do Operand.ofKind? (← leadingKind? strictness kind) value
  | v => do
    let members ← v.members?
    let kind ← (← JsonValue.field? members "kind").word? strictness
    Operand.ofKind? kind (← JsonValue.field? members "value")

/-- Read the operand of an instruction, which may be absent, as `null` or altogether. -/
def Operand.ofJsonOption? : List JsonValue → Option (Option Operand)
  | [] => some none
  | [.null] => some none
  | [v] => (Operand.ofJson? .free v).map some
  | _ => none

/-- Read an opcode. -/
def Opcode.ofJson? (v : JsonValue) : Option Opcode := (v.word? .free).bind Opcode.ofMnemonic?

/-- How deep an instruction may be nested: a whole document 127 levels, of which the program and the
array of its instructions take two. -/
def Instruction.maxHeight : Nat := 125

/-- Read an instruction. All of it must have a meaning, also what is ignored. -/
def Instruction.ofJson? (v : JsonValue) : Option Instruction :=
  if v.isSound && v.height ≤ maxHeight then
    match v with
    | .array (.string kind :: fields) => do
      match ← kind.text?, fields with
      | "comment", [text] => return .comment (← text.text?)
      | "label", [name] => return .label (← name.text?)
      | "op", [opcode, operand] =>
        return .op (← Opcode.ofJson? opcode) (← Operand.ofJsonOption? [operand])
      | _, _ => none
    | v => do
      let members ← v.members?
      match ← (← JsonValue.field? members "kind").text? with
      | "comment" => return .comment (← (← JsonValue.field? members "text").text?)
      | "label" => return .label (← (← JsonValue.field? members "name").text?)
      | "op" =>
        return .op (← Opcode.ofJson? (← JsonValue.field? members "opcode"))
          (← Operand.ofJsonOption? (JsonValue.valuesOf members "argument"))
      | _ => none
  else none

/-- Read a constant. -/
def Constant.ofJson? : JsonValue → Option Constant
  | .object [(key, v)] => do
    match ← key.text? with
    | "Str" => return .string (← v.text?)
    | "List" => return .list (← v.items? (Operand.ofJson? .exact))
    | _ => none
  | _ => none

/-- Read a handle written as the key of a member: a numeral without sign, leading zeros and escapes. -/
def Handle.ofKey? (key : JsonString) : Option Handle :=
  let digits := key.spelling
  if digits.head? = some '0' ∧ digits.length ≠ 1 then none else Operand.handleOf? digits

/-- Read an object as a table of strings. -/
def Table.ofJsonObject? (v : JsonValue) : Option (Table String String) := do
  let entries ← (← v.members?).mapM fun m => m.2.text?.map fun s => (m.1, s)
  return Table.ofList entries

/-- Read the constants of a program. -/
def Program.constantsOfJson? : JsonValue → Option (Table Handle Constant)
  | .object members => do
    let entries ← members.mapM fun m => do
      return (← Handle.ofKey? m.1, ← Constant.ofJson? m.2)
    return Table.ofList entries
  | _ => none

/-- Read a program from its six fields. -/
def Program.ofFields? (code constants topLevel enclosing natives hash : JsonValue) : Option Program := do
  return {
    code := (← code.items? Instruction.ofJson?).toArray
    constants := ← constantsOfJson? constants
    topLevel := ← Table.ofJsonObject? topLevel
    enclosing := ← Table.ofJsonObject? enclosing
    natives := OrderedSet.ofMembers (← natives.items? JsonValue.text?)
    sourceHash := ← hash.text? }

/-- **Read a program** from its document. -/
def Program.ofJson? : JsonValue → Option Program
  | .array [code, constants, topLevel, enclosing, natives, hash] =>
    Program.ofFields? code constants topLevel enclosing natives hash
  | v => do
    let members ← v.members?
    Program.ofFields? (← JsonValue.field? members "instructions") (← JsonValue.field? members "statics")
      (← JsonValue.field? members "top_level") (← JsonValue.field? members "enclosing")
      (← JsonValue.field? members "natives") (← JsonValue.field? members "source_hash")

/-- Read a program from the text of its document. -/
def Program.ofJsonText? (text : String) : Option Program := (JsonValue.read? text).bind Program.ofJson?

end SchemeMachine
