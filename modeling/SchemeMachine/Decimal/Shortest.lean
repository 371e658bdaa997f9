/-!
# The fewest digits that read back

A finite binary64 value is `mantissa · 2 ^ exponent`. Among the decimals that round to it, `shortest`
picks one with the fewest digits, and among those the nearest to the value. Everything is computed on
natural numbers: the value, the two ends of the interval of reals that round to it and the decimal
grid are all brought to one common unit.

* `Binary.ofFloat` decodes a value.
* `shortest` selects the decimal; an exact tie between two neighbours goes by a `Tie` rule.
-/

namespace SchemeMachine

/-- A decimal `digits · 10 ^ exponent`. -/
structure Decimal where
  digits : Nat
  exponent : Int
deriving Repr, DecidableEq, Inhabited

/-- What a binary64 value is: no number, an infinity, or `± mantissa · 2 ^ exponent`. -/
inductive Binary where
  | nan
  | infinite (negative : Bool)
  | finite (negative : Bool) (mantissa : Nat) (exponent : Int)
deriving Repr, DecidableEq, Inhabited

namespace Binary

/-- Decode the 64 bits of a value: a sign bit, eleven bits of exponent, 52 bits of fraction. -/
def ofFloat (x : Float) : Binary :=
  let bits := x.toBits.toNat
  let negative := bits / Nat.pow 2 63 == 1
  let power := bits / Nat.pow 2 52 % 2048
  let fraction := bits % Nat.pow 2 52
  if power = 2047 then
    if fraction = 0 then .infinite negative else .nan
  else if power = 0 then .finite negative fraction (-1074)
  else .finite negative (fraction + Nat.pow 2 52) (Int.ofNat power - 1075)

end Binary

/-- Which of two equally near decimals is taken. -/
inductive Tie where
  /-- The larger one. -/
  | up
  /-- The one whose last digit is even. -/
  | toEven
deriving Repr, DecidableEq

namespace Decimal

/-- Two to the power `e` if `e` is positive, else one. -/
def twoPow (e : Int) : Nat := Nat.pow 2 e.toNat

/-- Ten to the power `e` if `e` is positive, else one. -/
def tenPow (e : Int) : Nat := Nat.pow 10 e.toNat

/-- The number `k` with `10 ^ (k - 1) ≤ m · 2 ^ q < 10 ^ k`, for `m` positive. Scaling by `10 ^ 400`
first makes every positive binary64 value larger than one. -/
def magnitude (m : Nat) (q : Int) : Int :=
  Int.ofNat (Nat.toDigits 10 (m * twoPow q * Nat.pow 10 400 / twoPow (-q))).length - 400

/-- The grid point `10 ^ k` wide steps that lies in the rounding interval of `m · 2 ^ q` and is nearest
to it, if either of the two neighbours of the value on the grid does. The interval reaches half a step
up and half a step down, a quarter down from a power of two, and holds its ends iff `m` is even. -/
def nearestOnGrid (tie : Tie) (m : Nat) (q k : Int) : Option Nat :=
  let unit := twoPow (q - 2) * tenPow (-k)
  let grid := tenPow k * twoPow (2 - q)
  let value := 4 * m * unit
  let low := (4 * m - if m = Nat.pow 2 52 ∧ q ≠ -1074 then 1 else 2) * unit
  let high := (4 * m + 2) * unit
  let inside (c : Nat) : Bool :=
    if m % 2 = 0 then low ≤ c * grid && c * grid ≤ high else low < c * grid && c * grid < high
  let below := value / grid
  let above := below + 1
  match inside below, inside above with
  | false, false => none
  | true, false => some below
  | false, true => some above
  | true, true =>
    match compare (2 * value) ((below + above) * grid), tie with
    | .lt, _ => some below
    | .gt, _ => some above
    | .eq, .up => some above
    | .eq, .toEven => some (if below % 2 = 0 then below else above)

/-- Try the grids with `n`, `n + 1`, … digits, `fuel` of them. Seventeen digits always suffice. -/
def search (tie : Tie) (m : Nat) (q top : Int) : (fuel n : Nat) → Decimal
  | 0, _ => ⟨m, 0⟩
  | fuel + 1, n =>
    let k := top - Int.ofNat n
    match nearestOnGrid tie m q k with
    | some c => ⟨c, k⟩
    | none => search tie m q top fuel (n + 1)

/-- Move the zeros at the end of the digits into the exponent, `fuel` of them at most. -/
def dropZeros : (fuel : Nat) → Decimal → Decimal
  | 0, d => d
  | fuel + 1, d =>
    if d.digits ≠ 0 ∧ d.digits % 10 = 0 then dropZeros fuel ⟨d.digits / 10, d.exponent + 1⟩ else d

/-- **The shortest decimal** that rounds to `m · 2 ^ q`, for a positive binary64 value. -/
def shortest (tie : Tie) (m : Nat) (q : Int) : Decimal :=
  dropZeros 20 (search tie m q (magnitude m q) 17 1)

end Decimal

end SchemeMachine
