/-!
# Strings of JSON documents

A string of a document is kept as it is spelled between its quotes. A spelling may hold escapes, and one
text has many spellings; a spelling with half of a surrogate pair stands for no text at all.

* `JsonString.ofText` spells a text, escaping only what must not stand in a document.
* `JsonString.text?` is the text that a spelling stands for.
* `JsonString.scan?` takes a spelling off the front of a document.
-/

namespace SchemeMachine

/-- **A string of a document**: what stands between its quotes. -/
structure JsonString where
  spelling : List Char
deriving Repr, DecidableEq, Inhabited

namespace JsonString

/-! ### Spelling a text -/

/-- Hexadecimal digits of a number, four of them. -/
def hexFour (n : Nat) : List Char :=
  let ds := Nat.toDigits 16 n
  List.replicate (4 - ds.length) '0' ++ ds

/-- The spelling of a character. -/
def escapeChar (c : Char) : List Char :=
  if c = '"' then ['\\', '"']
  else if c = '\\' then ['\\', '\\']
  else if c = '\n' then ['\\', 'n']
  else if c = '\r' then ['\\', 'r']
  else if c = '\t' then ['\\', 't']
  else if c.toNat = 8 then ['\\', 'b']
  else if c.toNat = 12 then ['\\', 'f']
  else if c.toNat < 0x20 then '\\' :: 'u' :: hexFour c.toNat
  else [c]

/-- **The string of a text.** -/
def ofText (s : String) : JsonString := ⟨s.toList.flatMap escapeChar⟩

/-- The string with its quotes. -/
def quoted (s : JsonString) : String := String.ofList ('"' :: (s.spelling ++ ['"']))

/-! ### What a spelling stands for -/

/-- The value of a hexadecimal digit. -/
def hexValue? (c : Char) : Option Nat :=
  if '0' ≤ c ∧ c ≤ '9' then some (c.toNat - '0'.toNat)
  else if 'a' ≤ c ∧ c ≤ 'f' then some (c.toNat - 'a'.toNat + 10)
  else if 'A' ≤ c ∧ c ≤ 'F' then some (c.toNat - 'A'.toNat + 10)
  else none

/-- The value of four hexadecimal digits. -/
def hexUnit? (a b c d : Char) : Option Nat := do
  return ((← hexValue? a) * 16 + (← hexValue? b)) * 256 + ((← hexValue? c) * 16 + (← hexValue? d))

/-- What a backslash and one character stand for. -/
def simpleEscape? (c : Char) : Option Char :=
  if c = '"' ∨ c = '\\' ∨ c = '/' then some c
  else if c = 'b' then some (Char.ofNat 8)
  else if c = 'f' then some (Char.ofNat 12)
  else if c = 'n' then some '\n'
  else if c = 'r' then some '\r'
  else if c = 't' then some '\t'
  else none

/-- Whether a unit is the first half of a surrogate pair. -/
def isHighSurrogate (unit : Nat) : Bool := 0xD800 ≤ unit && unit ≤ 0xDBFF

/-- Whether a unit is the second half of a surrogate pair. -/
def isLowSurrogate (unit : Nat) : Bool := 0xDC00 ≤ unit && unit ≤ 0xDFFF

/-- The character of a surrogate pair. -/
def pairChar (high low : Nat) : Char := Char.ofNat (0x10000 + (high - 0xD800) * 0x400 + (low - 0xDC00))

/-- The text of a spelling. A character outside the basic plane may be escaped as two surrogates; a
surrogate alone stands for nothing. -/
def decode? : List Char → Option (List Char)
  | [] => some []
  | '\\' :: 'u' :: a :: b :: c :: d :: rest => do
    let unit ← hexUnit? a b c d
    if isHighSurrogate unit then
      match rest with
      | '\\' :: 'u' :: e :: f :: g :: h :: rest => do
        let low ← hexUnit? e f g h
        if isLowSurrogate low then return pairChar unit low :: (← decode? rest) else none
      | _ => none
    else if isLowSurrogate unit then none
    else return Char.ofNat unit :: (← decode? rest)
  | '\\' :: c :: rest => do return (← simpleEscape? c) :: (← decode? rest)
  | c :: rest => do return c :: (← decode? rest)

/-- A character without a backslash stands for itself. -/
theorem decode?_plain {c : Char} (hc : c ≠ '\\') (rest : List Char) : decode? (c :: rest) = (decode? rest).map (c :: ·) := by
  rw [decode?.eq_def]
  split
  · next h => cases h
  · next h => exact absurd (List.cons.inj h).1 hc
  · next h => exact absurd (List.cons.inj h).1 hc
  · next h =>
    obtain ⟨rfl, rfl⟩ := List.cons.inj h
    cases decode? rest <;> rfl

/-- **The text that a string stands for**, if it stands for one. -/
def text? (s : JsonString) : Option String := (decode? s.spelling).map String.ofList

/-! ### Finding the end of a string -/

/-- The spelling up to the closing quote, and the rest after it. Every escape must be well formed, but a
spelling need not stand for a text. -/
def scanChars? : List Char → Option (List Char × List Char)
  | [] => none
  | '"' :: rest => some ([], rest)
  | '\\' :: 'u' :: a :: b :: c :: d :: rest =>
    if (hexUnit? a b c d).isSome then
      (scanChars? rest).map fun r => ('\\' :: 'u' :: a :: b :: c :: d :: r.1, r.2)
    else none
  | '\\' :: c :: rest =>
    if (simpleEscape? c).isSome then (scanChars? rest).map fun r => ('\\' :: c :: r.1, r.2) else none
  | c :: rest =>
    if c = '\\' ∨ c.toNat < 0x20 then none
    else (scanChars? rest).map fun r => (c :: r.1, r.2)

/-- A plain character is passed. -/
theorem scanChars?_plain {c : Char} (hquote : c ≠ '"') (hslash : c ≠ '\\') (hcontrol : ¬c.toNat < 0x20)
    (rest : List Char) : scanChars? (c :: rest) = (scanChars? rest).map fun r => (c :: r.1, r.2) := by
  rw [scanChars?.eq_def]
  split
  · next h => cases h
  · next h => exact absurd (List.cons.inj h).1 hquote
  · next h => exact absurd (List.cons.inj h).1 hslash
  · next h => exact absurd (List.cons.inj h).1 hslash
  · next h =>
    obtain ⟨rfl, rfl⟩ := List.cons.inj h
    rw [if_neg (not_or.mpr ⟨hslash, hcontrol⟩)]

/-- **A string after its opening quote**, and what follows its closing quote. -/
def scan? (cs : List Char) : Option (JsonString × List Char) :=
  (scanChars? cs).map fun r => (⟨r.1⟩, r.2)

end JsonString

end SchemeMachine
