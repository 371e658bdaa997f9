import SchemeMachine.Decimal.Shortest

/-!
# Numbers as text

How a binary64 value is written and read.

* `Number.text` writes the shortest decimal positionally, however long that is.
* `Number.display` is the same except that zero has no sign.
* `Number.read?` reads a decimal numeral, with or without a point and an exponent, to the nearest value.
-/

namespace SchemeMachine

namespace Decimal

/-- The digits of the decimal as characters. -/
def digitChars (d : Decimal) : List Char := Nat.toDigits 10 d.digits

/-- The decimal without an exponent: `1200`, `12.5`, `0.0012`. -/
def positional (d : Decimal) : List Char :=
  let ds := d.digitChars
  if 0 ≤ d.exponent then ds ++ List.replicate d.exponent.toNat '0'
  else
    let places := (-d.exponent).toNat
    if places < ds.length then
      ds.take (ds.length - places) ++ '.' :: ds.drop (ds.length - places)
    else '0' :: '.' :: (List.replicate (places - ds.length) '0' ++ ds)

end Decimal

namespace Number

/-- A minus sign for a negative number. -/
def signed (negative : Bool) (cs : List Char) : String :=
  String.ofList (if negative then '-' :: cs else cs)

/-- **The text of a number**: its shortest decimal, positionally, with `-0` for negative zero. -/
def text (x : Float) : String :=
  match Binary.ofFloat x with
  | .nan => "NaN"
  | .infinite negative => signed negative ['i', 'n', 'f']
  | .finite negative m q =>
    if m = 0 then signed negative ['0'] else signed negative (Decimal.shortest .up m q).positional

/-- The text of a number as a program shows it: zero has no sign. -/
def display (x : Float) : String :=
  match Binary.ofFloat x with
  | .finite _ 0 _ => "0"
  | _ => text x

/-! ### Reading -/

/-- The value of a sequence of digits. -/
def digitsValue (cs : List Char) : Nat :=
  cs.foldl (fun n c => 10 * n + (c.toNat - '0'.toNat)) 0

/-- The binary64 value nearest to `m · 10 ^ e`. A power of ten that leaves the range of binary64
is answered without being computed. -/
def ofDecimal (m : Nat) (e : Int) : Float :=
  if m = 0 then 0.0
  else
    let top := Int.ofNat (Nat.toDigits 10 m).length + e
    if 400 < top then 1.0 / 0.0
    else if top < -400 then 0.0
    else if 0 ≤ e then Float.ofScientific m false e.toNat
    else Float.ofScientific m true (-e).toNat

/-- The exponent part of a numeral: nothing, or `e` with an optional sign and digits. -/
def readExponent? : List Char → Option Int
  | [] => some 0
  | mark :: rest =>
    if mark = 'e' ∨ mark = 'E' then
      let (negative, ds) : Bool × List Char :=
        match rest with
        | '-' :: ds => (true, ds)
        | '+' :: ds => (false, ds)
        | ds => (false, ds)
      if !ds.isEmpty && ds.all Char.isDigit then
        some (if negative then -Int.ofNat (digitsValue ds) else Int.ofNat (digitsValue ds))
      else none
    else none

/-- A numeral without sign: digits with at most one point among them, at least one digit, and an
optional exponent. -/
def readUnsigned? (cs : List Char) : Option Float :=
  let whole := cs.takeWhile Char.isDigit
  let rest := cs.dropWhile Char.isDigit
  let (fraction, tail) : List Char × List Char :=
    match rest with
    | '.' :: ds => (ds.takeWhile Char.isDigit, ds.dropWhile Char.isDigit)
    | _ => ([], rest)
  if whole.isEmpty && fraction.isEmpty then none
  else (readExponent? tail).map fun e =>
    ofDecimal (digitsValue (whole ++ fraction)) (e - Int.ofNat fraction.length)

/-- Read the words for the values that are no decimals, in any case. -/
def readWord? (cs : List Char) : Option Float :=
  let word := String.ofList (cs.map Char.toLower)
  if word = "inf" ∨ word = "infinity" then some (1.0 / 0.0)
  else if word = "nan" then some (0.0 / 0.0)
  else none

/-- **Read a number**: an optional sign before a numeral or one of the words `inf`, `infinity` and
`nan`. -/
def read? (s : String) : Option Float :=
  let (negative, cs) : Bool × List Char :=
    match s.toList with
    | '-' :: cs => (true, cs)
    | '+' :: cs => (false, cs)
    | cs => (false, cs)
  let value := match readWord? cs with
    | some x => some x
    | none => readUnsigned? cs
  value.map fun x => if negative then -x else x

end Number

end SchemeMachine
