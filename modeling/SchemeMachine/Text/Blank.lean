/-!
# Blank and control characters

The character classes that separate words of a text, and the cuts that follow them.

* `isBlank` holds of the characters with the Unicode property `White_Space`.
* `isControl` holds of the control characters (general category `Cc`).
* `trim` and `splitAtBlank` cut a text at blanks; `lines` cuts it at line feeds.
-/

namespace SchemeMachine.Text

/-- A character with the Unicode property `White_Space`. -/
def isBlank (c : Char) : Bool :=
  let n := c.toNat
  (9 ≤ n && n ≤ 13) || n == 0x20 || n == 0x85 || n == 0xA0 || n == 0x1680
    || (0x2000 ≤ n && n ≤ 0x200A) || n == 0x2028 || n == 0x2029 || n == 0x202F || n == 0x205F
    || n == 0x3000

/-- A control character: the code points below U+0020 and from U+007F to U+009F. -/
def isControl (c : Char) : Bool :=
  c.toNat < 0x20 || (0x7F ≤ c.toNat && c.toNat ≤ 0x9F)

/-- Drop the blanks at the front. -/
def trimLeft (cs : List Char) : List Char := cs.dropWhile isBlank

/-- Drop the blanks at the end. -/
def trimRight (cs : List Char) : List Char := (cs.reverse.dropWhile isBlank).reverse

/-- Drop the blanks at both ends. -/
def trim (cs : List Char) : List Char := trimRight (trimLeft cs)

/-- What stands before and after the first blank; `none` if there is no blank. -/
def splitAtBlank (cs : List Char) : Option (List Char × List Char) :=
  match cs.dropWhile (fun c => !isBlank c) with
  | [] => none
  | _ :: rest => some (cs.takeWhile (fun c => !isBlank c), rest)

/-- What stands before and after the first occurrence of a character; `none` if it does not occur. -/
def splitAtChar (sep : Char) (cs : List Char) : Option (List Char × List Char) :=
  match cs.dropWhile (· != sep) with
  | [] => none
  | _ :: rest => some (cs.takeWhile (· != sep), rest)

/-- Drop one carriage return at the end. -/
def dropReturn (cs : List Char) : List Char :=
  if cs.getLast? = some '\r' then cs.dropLast else cs

/-- The lines of a text, without their ends: a line ends at a line feed, before which one carriage
return belongs to the end too. `acc` holds the characters of the current line, last one first. -/
def linesFrom (acc : List Char) : List Char → List (List Char)
  | [] => if acc.isEmpty then [] else [acc.reverse]
  | '\n' :: rest => dropReturn acc.reverse :: linesFrom [] rest
  | c :: rest => linesFrom (c :: acc) rest

/-- The lines of a text. A text that ends in a line feed has no empty last line, and a carriage
return stays where no line feed follows it. -/
def lines (cs : List Char) : List (List Char) := linesFrom [] cs

end SchemeMachine.Text
