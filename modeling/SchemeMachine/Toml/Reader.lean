import SchemeMachine.Decimal.Notation
import SchemeMachine.Toml

/-!
# Reading TOML

`Toml.read?` reads a text as a document; `none` stands for any fault, in a statement or between two.

Arrays and tables in braces may be nested, and the parts of a dotted key may be many, up to a limit of
`nestingLimit`.
-/

namespace SchemeMachine.Toml

/-- Nothing is nested this deep. -/
def nestingLimit : Nat := 80

/-! ### Layout -/

/-- Whether a character may stand in a comment. -/
def isPlain (c : Char) : Bool := c = '\t' || (' ' ≤ c && c.toNat ≠ 0x7f)

/-- Drop the blanks within a line. -/
def skipBlanks (cs : List Char) : List Char := cs.dropWhile fun c => c = ' ' || c = '\t'

/-- Drop the end of a line. -/
def newline? : List Char → Option (List Char)
  | '\n' :: cs => some cs
  | '\r' :: '\n' :: cs => some cs
  | _ => none

/-- Drop a comment, if there is one, up to the end of its line. -/
def skipComment : List Char → List Char
  | '#' :: cs => cs.dropWhile isPlain
  | cs => cs

/-- Drop what may follow a statement, the end of the line or text included. -/
def endStatement? (cs : List Char) : Option (List Char) :=
  match skipComment (skipBlanks cs) with
  | [] => some []
  | rest => newline? rest

/-- Drop blanks, comments and ends of lines. -/
def skipLayout (inComment : Bool) : List Char → List Char
  | [] => []
  | '\r' :: '\n' :: cs => skipLayout false cs
  | c :: cs =>
    if c = '\n' then skipLayout false cs
    else if inComment then if isPlain c then skipLayout true cs else c :: cs
    else if c = '#' then skipLayout true cs
    else if c = ' ' || c = '\t' then skipLayout false cs
    else c :: cs

/-- Take a given text off the front. -/
def expectText (word : String) (cs : List Char) : Option (List Char) :=
  if word.toList.isPrefixOf cs then some (cs.drop word.length) else none

/-! ### Strings -/

/-- The value of a hexadecimal digit. -/
def hexValue? (c : Char) : Option Nat :=
  if c.isDigit then some (c.toNat - '0'.toNat)
  else if 'a' ≤ c ∧ c ≤ 'f' then some (c.toNat - 'a'.toNat + 10)
  else if 'A' ≤ c ∧ c ≤ 'F' then some (c.toNat - 'A'.toNat + 10)
  else none

/-- The character whose code is given by `count` hexadecimal digits. -/
def readCode (count : Nat) (cs : List Char) : Option (Char × List Char) := do
  let digits ← (cs.take count).mapM hexValue?
  let code := digits.foldl (fun n d => 16 * n + d) 0
  if digits.length = count ∧ code.isValidChar then some (Char.ofNat code, cs.drop count) else none

/-- What stands after a backslash. -/
def readEscape : List Char → Option (Char × List Char)
  | [] => none
  | c :: cs =>
    if c = 'b' then some ('\x08', cs)
    else if c = 't' then some ('\t', cs)
    else if c = 'n' then some ('\n', cs)
    else if c = 'f' then some ('\x0c', cs)
    else if c = 'r' then some ('\r', cs)
    else if c = '"' ∨ c = '\\' then some (c, cs)
    else if c = 'u' then readCode 4 cs
    else if c = 'U' then readCode 8 cs
    else none

/-- How a string is written. -/
structure StringStyle where
  quote : Char
  /-- Whether a backslash escapes. -/
  escapes : Bool
  /-- Whether the quotes are three and the string may have more than one line. -/
  multiline : Bool

/-- Drop blanks and ends of lines. -/
def skipSpace : List Char → List Char
  | '\r' :: '\n' :: cs => skipSpace cs
  | c :: cs => if c = ' ' ∨ c = '\t' ∨ c = '\n' then skipSpace cs else c :: cs
  | [] => []

/-- Drop what a backslash at the end of a line hides: all blanks and ends of lines after it. -/
def continuation? (cs : List Char) : Option (List Char) := (newline? (skipBlanks cs)).map skipSpace

/-- The end of a string with triple quotes, if it is here: up to two more quotes belong to the string. -/
def tripleEnd? (quote : Char) (cs : List Char) : Option (List Char × List Char) :=
  let count := (cs.takeWhile (· = quote)).length
  if count < 3 then none
  else
    let more := min (count - 3) 2
    some (List.replicate more quote, cs.drop (more + 3))

/-- The characters of a string after its opening quotes, and the rest after the closing ones. -/
def readChars (style : StringStyle) : (fuel : Nat) → List Char → Option (List Char × List Char)
  | 0, _ => none
  | _, [] => none
  | fuel + 1, c :: cs =>
    let with1 (c : Char) (rest : List Char) : Option (List Char × List Char) :=
      (readChars style fuel rest).map fun r => (c :: r.1, r.2)
    if c = style.quote then
      if style.multiline then
        match tripleEnd? style.quote (c :: cs) with
        | some closing => some closing
        | none => with1 c cs
      else some ([], cs)
    else if c = '\\' ∧ style.escapes then
      match (if style.multiline then continuation? cs else none) with
      | some rest => readChars style fuel rest
      | none => (readEscape cs).bind fun r => with1 r.1 r.2
    else if isPlain c then with1 c cs
    else if style.multiline then (newline? (c :: cs)).bind fun rest => with1 '\n' rest
    else none

/-- A string after its opening quotes. -/
def readStringRest (style : StringStyle) (cs : List Char) : Option (String × List Char) :=
  let body := if style.multiline then (newline? cs).getD cs else cs
  (readChars style (body.length + 1) body).map fun r => (String.ofList r.1, r.2)

/-- A string on one line. -/
def readLineString (cs : List Char) : Option (String × List Char) :=
  match cs with
  | '"' :: rest => readStringRest ⟨'"', true, false⟩ rest
  | '\x27' :: rest => readStringRest ⟨'\x27', false, false⟩ rest
  | _ => none

/-- A string. -/
def readString (cs : List Char) : Option (String × List Char) :=
  match cs with
  | '"' :: '"' :: '"' :: rest => readStringRest ⟨'"', true, true⟩ rest
  | '\x27' :: '\x27' :: '\x27' :: rest => readStringRest ⟨'\x27', false, true⟩ rest
  | _ => readLineString cs

/-! ### Keys -/

/-- Whether a character may stand in a key without quotes. -/
def isBare (c : Char) : Bool := c.isAlphanum || c = '_' || c = '-'

/-- One part of a key. -/
def readSimpleKey (cs : List Char) : Option (String × List Char) :=
  match cs.takeWhile isBare with
  | [] => readLineString cs
  | bare => some (String.ofList bare, cs.dropWhile isBare)

/-- The parts of a key with the blanks around them, at most `limit`. -/
def readKeyParts : (limit : Nat) → List Char → Option (List String × List Char)
  | 0, _ => none
  | limit + 1, cs => do
    let (first, rest) ← readSimpleKey (skipBlanks cs)
    match skipBlanks rest with
    | '.' :: rest =>
      let (others, rest) ← readKeyParts limit rest
      return (first :: others, rest)
    | rest => return ([first], rest)

/-- A key, by its parts. -/
def readKeys (cs : List Char) : Option (List String × List Char) := readKeyParts (nestingLimit - 1) cs

/-! ### Numbers -/

/-- Further digits of a number. Single underscores between digits are left out. -/
def moreDigits (isDigit : Char → Bool) : List Char → List Char × List Char
  | [] => ([], [])
  | '_' :: d :: cs =>
    if isDigit d then
      let (ds, rest) := moreDigits isDigit cs
      (d :: ds, rest)
    else ([], '_' :: d :: cs)
  | c :: cs =>
    if isDigit c then
      let (ds, rest) := moreDigits isDigit cs
      (c :: ds, rest)
    else ([], c :: cs)

/-- The digits of a number, at least one. -/
def readDigits (isDigit : Char → Bool) : List Char → Option (List Char × List Char)
  | [] => none
  | c :: cs =>
    if isDigit c then
      let (ds, rest) := moreDigits isDigit cs
      some (c :: ds, rest)
    else none

/-- A sign, if there is one; the answer says whether it is a minus. -/
def readSign : List Char → Bool × List Char
  | '-' :: cs => (true, cs)
  | '+' :: cs => (false, cs)
  | cs => (false, cs)

/-- A decimal number without sign; a zero in front stands alone. -/
def readDecimal : List Char → Option (List Char × List Char)
  | '0' :: cs => some (['0'], cs)
  | cs => readDigits Char.isDigit cs

/-- An integer that fits 64 bits. -/
def integerOf? (value : Int) : Option Toml :=
  if -Int.ofNat (Nat.pow 2 63) ≤ value ∧ value < Int.ofNat (Nat.pow 2 63) then some (.integer value) else none

/-- An integer in a base other than ten, after its mark. -/
def readBased (base : Nat) (cs : List Char) : Option (Toml × List Char) := do
  let isDigit (c : Char) : Bool := (hexValue? c).any (· < base)
  let (digits, rest) ← readDigits isDigit cs
  let value := digits.foldl (fun n d => base * n + (hexValue? d).getD 0) 0
  return (← integerOf? value, rest)

/-- An integer. -/
def readInteger (cs : List Char) : Option (Toml × List Char) :=
  match cs with
  | '0' :: 'x' :: rest => readBased 16 rest
  | '0' :: 'o' :: rest => readBased 8 rest
  | '0' :: 'b' :: rest => readBased 2 rest
  | _ => do
    let (negative, rest) := readSign cs
    let (digits, rest) ← readDecimal rest
    let value := Int.ofNat (Number.digitsValue digits)
    return (← integerOf? (if negative then -value else value), rest)

/-- A point and the digits after it. -/
def readFraction : List Char → Option (List Char × List Char)
  | '.' :: cs => (readDigits Char.isDigit cs).map fun r => ('.' :: r.1, r.2)
  | _ => none

/-- An exponent. -/
def readExponent : List Char → Option (List Char × List Char)
  | [] => none
  | mark :: cs =>
    if mark = 'e' ∨ mark = 'E' then
      let (negative, rest) := readSign cs
      (readDigits Char.isDigit rest).map fun r => ('e' :: (if negative then '-' :: r.1 else r.1), r.2)
    else none

/-- A floating-point number: with a fraction or an exponent or both, or not finite. A positive one must
not be too large. -/
def readFloat (cs : List Char) : Option (Toml × List Char) := do
  let (negative, rest) := readSign cs
  match (expectText "inf" rest).or (expectText "nan" rest) with
  | some rest => return (.float, rest)
  | none =>
    let (whole, rest) ← readDecimal rest
    let (tail, rest) ←
      match readFraction rest with
      | some (fraction, rest) =>
        match readExponent rest with
        | some (exponent, rest) => some (fraction ++ exponent, rest)
        | none => some (fraction, rest)
      | none => readExponent rest
    let value := (Number.read? (String.ofList (whole ++ tail))).getD 0.0
    if value.isInf ∧ !negative then none else some (.float, rest)

/-! ### Points in time -/

/-- A number of exactly `count` digits between two bounds. -/
def readFixed (count low high : Nat) (cs : List Char) : Option (Nat × List Char) :=
  let digits := cs.take count
  let value := Number.digitsValue digits
  if digits.length = count ∧ digits.all Char.isDigit ∧ low ≤ value ∧ value ≤ high then
    some (value, cs.drop count)
  else none

/-- The number of days of a month. -/
def daysIn (year month : Nat) : Nat :=
  let isLeap := year % 4 = 0 ∧ (year % 100 ≠ 0 ∨ year % 400 = 0)
  if month = 2 then if isLeap then 29 else 28
  else if month ∈ [4, 6, 9, 11] then 30
  else 31

/-- A date; the answer is what follows it. -/
def readDate (cs : List Char) : Option (List Char) := do
  let (year, rest) ← readFixed 4 0 9999 cs
  let (month, rest) ← readFixed 2 1 12 (← expectText "-" rest)
  let (_, rest) ← readFixed 2 1 (daysIn year month) (← expectText "-" rest)
  return rest

/-- Hours and minutes. -/
def readClock (cs : List Char) : Option (List Char) := do
  let (_, rest) ← readFixed 2 0 23 cs
  let (_, rest) ← readFixed 2 0 59 (← expectText ":" rest)
  return rest

/-- A time of the day. -/
def readTime (cs : List Char) : Option (List Char) := do
  let (_, rest) ← readFixed 2 0 60 (← expectText ":" (← readClock cs))
  match rest with
  | '.' :: d :: more => if d.isDigit then return more.dropWhile Char.isDigit else return rest
  | _ => return rest

/-- Drop how far a time is from universal time, if that is said. -/
def skipOffset (cs : List Char) : List Char :=
  match cs with
  | [] => []
  | c :: rest =>
    if c = 'Z' ∨ c = 'z' then rest
    else if c = '+' ∨ c = '-' then (readClock rest).getD cs
    else cs

/-- Drop the time of the day after a date, if there is one. -/
def skipTime (cs : List Char) : List Char :=
  match cs with
  | [] => []
  | c :: rest =>
    if c = 'T' ∨ c = 't' ∨ c = ' ' then
      match readTime rest with
      | some rest => skipOffset rest
      | none => cs
    else cs

/-- A point in time: a date, a time of the day, or both. -/
def readMoment (cs : List Char) : Option (Toml × List Char) :=
  match readDate cs with
  | some rest => some (.moment, skipTime rest)
  | none => (readTime cs).map fun rest => (.moment, rest)

/-! ### Values -/

/-- A value that is no array and no table. -/
def readScalar (cs : List Char) : Option (Toml × List Char) :=
  match cs with
  | [] => none
  | c :: rest =>
    if c = '"' ∨ c = '\x27' then (readString cs).map fun r => (.string r.1, r.2)
    else if c = 't' then (expectText "rue" rest).map fun rest => (.boolean true, rest)
    else if c = 'f' then (expectText "alse" rest).map fun rest => (.boolean false, rest)
    else (readMoment cs).or ((readFloat cs).or (readInteger cs))

/-- The items of an array up to its bracket. The last one may have a comma after it. -/
def readItems (value : List Char → Option (Toml × List Char)) :
    (fuel : Nat) → List Char → Option (List Toml × List Char)
  | 0, _ => none
  | fuel + 1, cs =>
    match skipLayout false cs with
    | ']' :: rest => some ([], rest)
    | start => do
      let (first, rest) ← value start
      match skipLayout false rest with
      | ',' :: rest =>
        let (others, rest) ← readItems value fuel rest
        return (first :: others, rest)
      | ']' :: rest => return ([first], rest)
      | _ => none

/-- A binding of a key. -/
def readBinding (value : List Char → Option (Toml × List Char)) (cs : List Char) :
    Option ((List String × Toml) × List Char) := do
  let (keys, rest) ← readKeys cs
  let (v, rest) ← value (skipBlanks (← expectText "=" rest))
  return ((keys, v), rest)

/-- The bindings of a table in braces up to its brace, at least one. -/
def readBindings (value : List Char → Option (Toml × List Char)) :
    (fuel : Nat) → List Char → Option (List (List String × Toml) × List Char)
  | 0, _ => none
  | fuel + 1, cs => do
    let (first, rest) ← readBinding value cs
    match skipBlanks rest with
    | ',' :: rest =>
      let (others, rest) ← readBindings value fuel rest
      return (first :: others, rest)
    | '\x7d' :: rest => return ([first], rest)
    | _ => none

/-- A value with at most `depth` levels of arrays and tables. -/
def readValue : (depth : Nat) → List Char → Option (Toml × List Char)
  | 0, cs => readScalar cs
  | depth + 1, cs =>
    match cs with
    | '[' :: rest =>
      (readItems (readValue depth) (rest.length + 1) rest).map fun r => (.array r.1, r.2)
    | '\x7b' :: rest =>
      match skipBlanks rest with
      | '\x7d' :: rest => some (emptyTable .braces, rest)
      | _ => do
        let (bindings, rest) ← readBindings (readValue depth) (rest.length + 1) rest
        return (← ofBindings? bindings, rest)
    | _ => readScalar cs

/-! ### Documents -/

/-- A header between its brackets and to the end of its line. -/
def readHeader (closing : String) (cs : List Char) : Option (List String × List Char) := do
  let (keys, rest) ← readKeys cs
  return (keys, ← endStatement? (← expectText closing rest))

/-- The statements of a text. -/
def readStatements : (fuel : Nat) → List Char → Option (List Statement)
  | 0, _ => none
  | fuel + 1, cs =>
    match skipBlanks cs with
    | [] => some []
    | '[' :: '[' :: rest => do
      let (keys, rest) ← readHeader "]]" rest
      return .doubleHeader keys :: (← readStatements fuel rest)
    | '[' :: rest => do
      let (keys, rest) ← readHeader "]" rest
      return .header keys :: (← readStatements fuel rest)
    | rest =>
      match endStatement? rest with
      | some rest => readStatements fuel rest
      | none => do
        let ((keys, value), rest) ← readBinding (readValue (nestingLimit - 1)) rest
        return .binding keys value :: (← readStatements fuel (← endStatement? rest))

/-- **Read a document.** A byte order mark in front of it does not count. -/
def read? (text : String) : Option Toml := do
  let cs := match text.toList with
    | '\ufeff' :: cs => cs
    | cs => cs
  ofStatements? (← readStatements (cs.length + 1) cs)

end SchemeMachine.Toml
