import SchemeMachine.Json

/-!
# Reading JSON

`JsonValue.read?` reads a whole text as one document; `none` stands for any fault. A document is read
whatever its strings and numerals stand for; `JsonValue.isSound` says whether they stand for something.

A numeral without point and exponent is kept as an integer as long as it fits 64 bits. Any other is
read as its leading digits, as many as fit 64 bits, times a power of ten, with one rounding for each of
the two and one for the product or quotient. That is not always the nearest number.
-/

namespace SchemeMachine.JsonValue

/-- Drop the blanks between the parts of a document. -/
def skipBlanks (cs : List Char) : List Char :=
  cs.dropWhile fun c => c = ' ' || c = '\n' || c = '\t' || c = '\r'

/-! ### Numbers -/

/-- Append digits to a number as long as it fits 64 bits; the answer also says how many digits were
used and how many were left. -/
def significand (n : Nat) (digits : List Char) : Nat × Nat × Nat :=
  go n 0 digits
where
  /-- Continue from a number to which `used` digits were appended. -/
  go (n used : Nat) : List Char → Nat × Nat × Nat
    | [] => (n, used, 0)
    | d :: ds =>
      let next := 10 * n + (d.toNat - '0'.toNat)
      if next < Nat.pow 2 64 then go next (used + 1) ds else (n, used, ds.length + 1)

/-- Multiply or divide by a power of ten, in steps of at most `10 ^ 308`, `fuel` of them. -/
def scale : (fuel : Nat) → Float → Int → JsonNumber
  | 0, x, _ => .float x
  | fuel + 1, x, e =>
    if e.natAbs ≤ 308 then
      let power := Float.ofScientific 1 false e.natAbs
      if 0 ≤ e then
        let y := x * power
        if y.isInf then .outOfRange else .float y
      else .float (x / power)
    else if x == 0.0 then .float x
    else if 0 ≤ e then .outOfRange
    else scale fuel (x / 1e308) (e + 308)

/-- The negative of a floating-point number of a document. -/
def negateNumber : JsonNumber → JsonNumber
  | .float x => .float (-x)
  | other => other

/-- The number `± m · 10 ^ e`. -/
def scaled (negative : Bool) (m : Nat) (e : Int) : JsonNumber :=
  let magnitude := scale 5 (Float.ofNat m) e
  if negative then negateNumber magnitude else magnitude

/-- The part of a numeral after its digits: an exponent or nothing. -/
def readExponent (cs : List Char) : Option (Option Int × List Char) :=
  match cs with
  | [] => some (none, [])
  | mark :: rest =>
    if mark = 'e' ∨ mark = 'E' then
      let (negative, ds) : Bool × List Char :=
        match rest with
        | '-' :: ds => (true, ds)
        | '+' :: ds => (false, ds)
        | ds => (false, ds)
      let digits := ds.takeWhile Char.isDigit
      if digits.isEmpty then none
      else
        let e := Int.ofNat (Number.digitsValue digits)
        some (some (if negative then -e else e), ds.dropWhile Char.isDigit)
    else some (none, cs)

/-- A number whose numeral has a point or an exponent or too many digits. -/
def floatOf (negative : Bool) (whole fraction : List Char) (exponent : Int) : JsonNumber :=
  let (m, _, left) := significand 0 whole
  let (m, used, _) := significand m fraction
  scaled negative m (exponent + Int.ofNat left - Int.ofNat used)

/-- An integer without point and exponent. -/
def integerOf (negative : Bool) (whole : List Char) : JsonNumber :=
  let n := Number.digitsValue whole
  if Nat.pow 2 64 ≤ n then floatOf negative whole [] 0
  else if negative then
    if n = 0 ∨ Nat.pow 2 63 < n then .float (-(Float.ofNat n)) else .negative n
  else .natural n

/-- A numeral after its sign. -/
def readUnsigned (negative : Bool) (cs : List Char) : Option (JsonNumber × List Char) :=
  let whole := cs.takeWhile Char.isDigit
  let rest := cs.dropWhile Char.isDigit
  if whole.isEmpty || (whole.head? = some '0' && whole.length ≠ 1) then none
  else
    match rest with
    | '.' :: ds =>
      let fraction := ds.takeWhile Char.isDigit
      if fraction.isEmpty then none
      else (readExponent (ds.dropWhile Char.isDigit)).map fun r =>
        (floatOf negative whole fraction (r.1.getD 0), r.2)
    | _ => (readExponent rest).map fun r =>
      match r.1 with
      | some e => (floatOf negative whole [] e, r.2)
      | none => (integerOf negative whole, r.2)

/-- A numeral. -/
def readNumber (cs : List Char) : Option (JsonNumber × List Char) :=
  match cs with
  | '-' :: ds => readUnsigned true ds
  | ds => readUnsigned false ds

/-! ### Documents -/

/-- Take a given text off the front. -/
def expectText (word : String) (cs : List Char) : Option (List Char) :=
  if word.toList.isPrefixOf cs then some (cs.drop word.length) else none

mutual

/-- A document and the characters after it. -/
def readValue : (fuel : Nat) → List Char → Option (JsonValue × List Char)
  | 0, _ => none
  | fuel + 1, cs =>
    match skipBlanks cs with
    | [] => none
    | '"' :: rest => (JsonString.scan? rest).map fun r => (.string r.1, r.2)
    | '[' :: rest =>
      match skipBlanks rest with
      | ']' :: rest => some (.array [], rest)
      | _ => (readItems fuel rest).map fun r => (.array r.1, r.2)
    | '\x7b' :: rest =>
      match skipBlanks rest with
      | '\x7d' :: rest => some (.object [], rest)
      | _ => (readMembers fuel rest).map fun r => (.object r.1, r.2)
    | 'n' :: rest => (expectText "ull" rest).map fun rest => (.null, rest)
    | 't' :: rest => (expectText "rue" rest).map fun rest => (.boolean true, rest)
    | 'f' :: rest => (expectText "alse" rest).map fun rest => (.boolean false, rest)
    | other => (readNumber other).map fun r => (.number r.1, r.2)

/-- The items of an array up to its bracket, at least one. -/
def readItems : (fuel : Nat) → List Char → Option (List JsonValue × List Char)
  | 0, _ => none
  | fuel + 1, cs => do
    let (first, rest) ← readValue fuel cs
    match skipBlanks rest with
    | ',' :: rest =>
      let (others, rest) ← readItems fuel rest
      return (first :: others, rest)
    | ']' :: rest => return ([first], rest)
    | _ => none

/-- The members of an object up to its brace, at least one. -/
def readMembers : (fuel : Nat) → List Char → Option (List (JsonString × JsonValue) × List Char)
  | 0, _ => none
  | fuel + 1, cs =>
    match skipBlanks cs with
    | '"' :: rest => do
      let (key, rest) ← JsonString.scan? rest
      match skipBlanks rest with
      | ':' :: rest =>
        let (value, rest) ← readValue fuel rest
        match skipBlanks rest with
        | ',' :: rest =>
          let (others, rest) ← readMembers fuel rest
          return ((key, value) :: others, rest)
        | '\x7d' :: rest => return ([(key, value)], rest)
        | _ => none
      | _ => none
    | _ => none

end

/-- **Read a document** that takes up the whole text. -/
def read? (text : String) : Option JsonValue := do
  let cs := text.toList
  let (value, rest) ← readValue (2 * cs.length + 2) cs
  if (skipBlanks rest).isEmpty then some value else none

/-! ### What can be made of a document -/

mutual

/-- **Whether all of a document has a meaning**: no numeral is beyond the range of numbers, and every
string stands for a text. -/
def isSound : JsonValue → Bool
  | .number .outOfRange => false
  | .string s => s.text?.isSome
  | .array items => allSound items
  | .object members => membersSound members
  | _ => true

/-- Whether all items are sound. -/
def allSound : List JsonValue → Bool
  | [] => true
  | v :: vs => isSound v && allSound vs

/-- Whether all members are sound. -/
def membersSound : List (JsonString × JsonValue) → Bool
  | [] => true
  | (k, v) :: rest => k.text?.isSome && isSound v && membersSound rest

end

mutual

/-- **How deep arrays and objects are nested** in a document. -/
def height : JsonValue → Nat
  | .array items => heightOfItems items + 1
  | .object members => heightOfMembers members + 1
  | _ => 0

/-- The height of the highest item. -/
def heightOfItems : List JsonValue → Nat
  | [] => 0
  | v :: vs => max (height v) (heightOfItems vs)

/-- The height of the highest member. -/
def heightOfMembers : List (JsonString × JsonValue) → Nat
  | [] => 0
  | (_, v) :: rest => max (height v) (heightOfMembers rest)

end

/-- The text that a document is. -/
def text? : JsonValue → Option String
  | .string s => s.text?
  | _ => none

/-- The boolean that a document is. -/
def boolean? : JsonValue → Option Bool
  | .boolean b => some b
  | _ => none

/-- The natural number that a document is. -/
def natural? : JsonValue → Option Nat
  | .number (.natural n) => some n
  | _ => none

/-- The number that a document is. -/
def float? : JsonValue → Option Float
  | .number (.natural n) => some (Float.ofNat n)
  | .number (.negative n) => some (-(Float.ofNat n))
  | .number (.float x) => some x
  | _ => none

/-- Read an array, item by item. -/
def items? {α : Type} (f : JsonValue → Option α) : JsonValue → Option (List α)
  | .array items => items.mapM f
  | _ => none

/-- The members of an object by the texts of their keys, all of which must stand for one. -/
def members? : JsonValue → Option (List (String × JsonValue))
  | .object members => members.mapM fun m => m.1.text?.map fun key => (key, m.2)
  | _ => none

/-- The values of the members with a given key. -/
def valuesOf (members : List (String × JsonValue)) (key : String) : List JsonValue :=
  members.filterMap fun m => if m.1 = key then some m.2 else none

/-- The value of a key that must occur once. -/
def field? (members : List (String × JsonValue)) (key : String) : Option JsonValue :=
  match valuesOf members key with
  | [single] => some single
  | _ => none

end SchemeMachine.JsonValue
