import SchemeMachine.Proofs.Number.Decimal

/-!
# The shortest decimal reads back

The digits of a number are searched for on coarser and finer grids of powers of ten. What is found lies in the rounding
interval of the number, and on a grid of seventeen digits something is found.

* `covers_of_nearestOnGrid`: a point that the search accepts lies in the interval.
* `nearestOnGrid_seventeen`: one of the two neighbours of a value on a grid of seventeen digits is accepted, since a step
  of the grid is less than the interval is wide.
* `covers_shortest` is the result: **the shortest decimal of a value lies in its rounding interval**.
-/

namespace SchemeMachine.Decimal

open Binary

/-- The number that a decimal stands for. -/
def value (d : Decimal) : ℚ := d.digits * 10 ^ d.exponent

/-! ### One unit for all -/

theorem twoPow_pos (e : Int) : 0 < twoPow e := Nat.pow_pos (by decide)

theorem twoPow_cast (e : Int) : ((twoPow e : Nat) : ℚ) = 2 ^ (e.toNat) := by
  unfold twoPow
  exact Nat.cast_pow 2 _

theorem tenPow_cast (e : Int) : ((tenPow e : Nat) : ℚ) = 10 ^ (e.toNat) := by
  unfold tenPow
  exact Nat.cast_pow 10 _

/-- A power as a quotient of two powers with whole exponents. -/
theorem zpow_eq_div {b : ℚ} (hb : b ≠ 0) (e : Int) : b ^ e * b ^ (-e).toNat = b ^ e.toNat := by
  rw [← zpow_natCast, ← zpow_natCast, ← zpow_add₀ hb]
  congr 1
  omega

/-- The scale that makes the unit of the value and the steps of the grid whole numbers. -/
theorem unit_eq (q k : Int) : ((twoPow (q - 2) * tenPow (-k) : Nat) : ℚ) = 2 ^ (q - 2) * (2 ^ (2 - q).toNat * 10 ^ (-k).toNat) := by
  rw [Nat.cast_mul, twoPow_cast, tenPow_cast, ← zpow_eq_div (by norm_num : (2 : ℚ) ≠ 0) (q - 2),
    show (-(q - 2)).toNat = (2 - q).toNat by omega]
  ring

theorem grid_eq (q k : Int) : ((tenPow k * twoPow (2 - q) : Nat) : ℚ) = 10 ^ k * (2 ^ (2 - q).toNat * 10 ^ (-k).toNat) := by
  rw [Nat.cast_mul, twoPow_cast, tenPow_cast, ← zpow_eq_div (by norm_num : (10 : ℚ) ≠ 0) k]
  ring

/-! ### One grid -/

/-- The steps from zero down to a value on the grid of `10 ^ k`. -/
def below (m : Nat) (q k : Int) : Nat := 4 * m * (twoPow (q - 2) * tenPow (-k)) / (tenPow k * twoPow (2 - q))

/-- The test of a grid point: it lies in the rounding interval, in the common unit. -/
def inside (m : Nat) (q k : Int) (c : Nat) : Bool :=
  let low := (4 * m - if m = Nat.pow 2 52 ∧ q ≠ -1074 then 1 else 2) * (twoPow (q - 2) * tenPow (-k))
  let high := (4 * m + 2) * (twoPow (q - 2) * tenPow (-k))
  let point := c * (tenPow k * twoPow (2 - q))
  if m % 2 = 0 then low ≤ point && point ≤ high else low < point && point < high

/-- **The test is that of the rounding interval.** -/
theorem inside_iff {m : Nat} (hm : 0 < m) (q k : Int) (c : Nat) : inside m q k c = true ↔ Covers m q (c * 10 ^ k) := by
  set scale : ℚ := 2 ^ (2 - q).toNat * 10 ^ (-k).toNat with hscale
  have hpos : 0 < scale := by positivity
  have hfour : (2 : ℚ) ^ q = 4 * 2 ^ (q - 2) := by
    rw [zpow_sub₀ (by norm_num)]
    norm_num
    ring
  have hpoint : ((c * (tenPow k * twoPow (2 - q)) : Nat) : ℚ) = c * 10 ^ k * scale := by
    rw [Nat.cast_mul, grid_eq]
    ring
  have hhigh : (((4 * m + 2) * (twoPow (q - 2) * tenPow (-k)) : Nat) : ℚ) = (m + 1 / 2) * 2 ^ q * scale := by
    rw [Nat.cast_mul, unit_eq, hfour]
    push_cast
    ring
  have hlow : (((4 * m - if m = Nat.pow 2 52 ∧ q ≠ -1074 then 1 else 2) * (twoPow (q - 2) * tenPow (-k)) : Nat) : ℚ) =
      (m - downward m q) * 2 ^ q * scale := by
    rw [Nat.cast_mul, unit_eq, hfour]
    have hdown : ((4 * m - if m = Nat.pow 2 52 ∧ q ≠ -1074 then 1 else 2 : Nat) : ℚ) = 4 * (m - downward m q) := by
      unfold downward
      have hpow : Nat.pow 2 52 = 2 ^ 52 := rfl
      rw [hpow]
      split
      · rw [Nat.cast_sub (by omega)]
        push_cast
        ring
      · rw [Nat.cast_sub (by omega)]
        push_cast
        ring
    rw [hdown]
    ring
  -- the comparisons of whole numbers are those of the numbers, scaled
  have hle {a b : Nat} {x y : ℚ} (ha : (a : ℚ) = x * scale) (hb : (b : ℚ) = y * scale) : a ≤ b ↔ x ≤ y := by
    rw [← Nat.cast_le (α := ℚ), ha, hb, mul_le_mul_iff_left₀ hpos]
  have hlt {a b : Nat} {x y : ℚ} (ha : (a : ℚ) = x * scale) (hb : (b : ℚ) = y * scale) : a < b ↔ x < y := by
    rw [← Nat.cast_lt (α := ℚ), ha, hb, mul_lt_mul_iff_left₀ hpos]
  unfold inside
  dsimp only
  split
  · next heven =>
    rw [Bool.and_eq_true, decide_eq_true_eq, decide_eq_true_eq, hle hlow hpoint, hle hpoint hhigh]
    exact ⟨fun h => ⟨h.1, h.2, fun hodd => absurd hodd (by omega)⟩, fun h => ⟨h.low, h.high⟩⟩
  · next hodd =>
    rw [Bool.and_eq_true, decide_eq_true_eq, decide_eq_true_eq, hlt hlow hpoint, hlt hpoint hhigh]
    exact ⟨fun h => ⟨h.1.le, h.2.le, fun _ => h⟩, fun h => h.inner (by omega)⟩

/-- **What the search on one grid answers**: a point that passes the test, or nothing if neither neighbour does. -/
theorem nearestOnGrid_cases (tie : Tie) (m : Nat) (q k : Int) :
    (∃ c, nearestOnGrid tie m q k = some c ∧ inside m q k c = true) ∨
      (nearestOnGrid tie m q k = none ∧ inside m q k (below m q k) = false ∧
        inside m q k (below m q k + 1) = false) := by
  unfold nearestOnGrid
  dsimp only
  split
  · next hbelow habove => exact Or.inr ⟨rfl, hbelow, habove⟩
  · next hbelow _ => exact Or.inl ⟨_, rfl, hbelow⟩
  · next _ habove => exact Or.inl ⟨_, rfl, habove⟩
  · next hbelow habove =>
    refine Or.inl ?_
    split
    · exact ⟨_, rfl, hbelow⟩
    · exact ⟨_, rfl, habove⟩
    · exact ⟨_, rfl, habove⟩
    · split
      · exact ⟨_, rfl, hbelow⟩
      · exact ⟨_, rfl, habove⟩

/-- **What is found on a grid lies in the rounding interval.** -/
theorem covers_of_nearestOnGrid {tie : Tie} {m : Nat} (hm : 0 < m) {q k : Int} {c : Nat}
    (h : nearestOnGrid tie m q k = some c) : Covers m q (c * 10 ^ k) := by
  rcases nearestOnGrid_cases tie m q k with ⟨d, hd, hinside⟩ | ⟨hnone, -, -⟩
  · obtain rfl : d = c := Option.some.inj (hd.symm.trans h)
    exact (inside_iff hm q k d).mp hinside
  · rw [h] at hnone
    cases hnone

/-- A value lies between its two neighbours on a grid. -/
theorem below_bounds (m : Nat) (q k : Int) :
    (below m q k : ℚ) * 10 ^ k ≤ m * 2 ^ q ∧ (m : ℚ) * 2 ^ q < (below m q k + 1) * 10 ^ k := by
  set scale : ℚ := 2 ^ (2 - q).toNat * 10 ^ (-k).toNat with hscale
  have hpos : 0 < scale := by positivity
  have hgrid : 0 < tenPow k * twoPow (2 - q) := by
    unfold tenPow
    exact Nat.mul_pos (Nat.pow_pos (by decide)) (twoPow_pos _)
  have hvalue : ((4 * m * (twoPow (q - 2) * tenPow (-k)) : Nat) : ℚ) = m * 2 ^ q * scale := by
    rw [Nat.cast_mul, unit_eq, ← hscale, show q = q - 2 + 2 by omega, zpow_add₀ (by norm_num), Int.add_sub_cancel]
    push_cast
    ring
  have hdiv : below m q k * (tenPow k * twoPow (2 - q)) ≤ 4 * m * (twoPow (q - 2) * tenPow (-k)) := Nat.div_mul_le_self _ _
  have hmod : 4 * m * (twoPow (q - 2) * tenPow (-k)) < (below m q k + 1) * (tenPow k * twoPow (2 - q)) := by
    rw [mul_comm (below m q k + 1)]
    exact Nat.lt_mul_div_succ _ hgrid
  constructor
  · refine le_of_mul_le_mul_right ?_ hpos
    rw [← hvalue, mul_assoc, ← grid_eq]
    exact_mod_cast hdiv
  · refine lt_of_mul_lt_mul_right ?_ hpos.le
    rw [← hvalue, mul_assoc ((below m q k : ℚ) + 1), ← grid_eq]
    exact_mod_cast hmod

/-- **A grid of seventeen digits is fine enough**: if the value has its first digit at `k + 16` or above, one of its two
neighbours on the grid of `10 ^ k` lies in the rounding interval. -/
theorem isSome_nearestOnGrid (tie : Tie) {m : Nat} {q k : Int} (hc : Canonical m q)
    (hfine : (10 : ℚ) ^ (k + 16) ≤ m * 2 ^ q) : ∃ c, nearestOnGrid tie m q k = some c := by
  rcases nearestOnGrid_cases tie m q k with ⟨c, hsome, -⟩ | ⟨-, hbelow, habove⟩
  · exact ⟨c, hsome⟩
  exfalso
  rw [← Bool.not_eq_true, inside_iff hc.pos] at hbelow habove
  obtain ⟨hle, hlt⟩ := below_bounds m q k
  have hunit : (0 : ℚ) < 2 ^ q := by positivity
  have hdown := downward_pos m q
  -- a neighbour outside is at least as far from the value as the interval reaches
  have hdowns : (below m q k : ℚ) * 10 ^ k ≤ (m - downward m q) * 2 ^ q := by
    by_contra hcontra
    have hin := not_le.mp hcontra
    have hin' : (below m q k : ℚ) * 10 ^ k < (m + 1 / 2) * 2 ^ q := by nlinarith
    exact hbelow ⟨hin.le, hin'.le, fun _ => ⟨hin, hin'⟩⟩
  have hups : (m + 1 / 2) * 2 ^ q ≤ (below m q k + 1 : ℚ) * 10 ^ k := by
    by_contra hcontra
    have hin := not_le.mp hcontra
    have hin' : (m - downward m q) * 2 ^ q < (below m q k + 1 : ℚ) * 10 ^ k := by nlinarith
    push_cast at habove
    exact habove ⟨hin'.le, hin.le, fun _ => ⟨hin', hin⟩⟩
  -- so a step is at least as wide as the interval, but it is a small part of the value
  have hstep : (1 / 2 + downward m q) * 2 ^ q ≤ 10 ^ k := by linarith
  have hpart : (10 : ℚ) ^ k * 10 ^ 16 ≤ m * 2 ^ q := by
    rw [zpow_add₀ (by norm_num)] at hfine
    exact_mod_cast hfine
  have hwide : (1 / 2 + downward m q) * 10 ^ 16 ≤ m := by
    refine le_of_mul_le_mul_right ?_ hunit
    nlinarith
  have hm : (m : ℚ) < 2 ^ 53 := by exact_mod_cast hc.lt_pow
  unfold downward at hwide
  split at hwide
  · next h =>
    rw [h.1] at hwide
    norm_num at hwide
  · norm_num at hwide hm
    linarith

/-! ### The search -/

/-- **The search answers with the first grid on which something is found.** -/
theorem search_eq {tie : Tie} {m : Nat} {q top : Int} :
    ∀ (fuel n : Nat) {c k : Nat}, n ≤ k → k < n + fuel → nearestOnGrid tie m q (top - k) = some c →
      ∃ (d : Nat) (j : Int), search tie m q top fuel n = ⟨d, j⟩ ∧ nearestOnGrid tie m q j = some d
  | 0, n, c, k, hle, hlt, _ => absurd hlt (by omega)
  | fuel + 1, n, c, k, hle, hlt, hk => by
    unfold search
    dsimp only
    cases hn : nearestOnGrid tie m q (top - Int.ofNat n) with
    | some d => exact ⟨d, _, rfl, hn⟩
    | none =>
      have hne : n ≠ k := by
        rintro rfl
        rw [Int.ofNat_eq_natCast, hk] at hn
        cases hn
      exact search_eq fuel (n + 1) (by omega) (by omega) hk

/-- The whole part of a value, scaled by a power of ten. -/
theorem scaled_le (m : Nat) (q : Int) (s : Nat) :
    ((m * twoPow q * Nat.pow 10 s / twoPow (-q) : Nat) : ℚ) ≤ m * 2 ^ q * 10 ^ s := by
  have hmul : m * twoPow q * Nat.pow 10 s / twoPow (-q) * twoPow (-q) ≤ m * twoPow q * 10 ^ s := Nat.div_mul_le_self _ _
  have hcast : ((m * twoPow q * Nat.pow 10 s / twoPow (-q) : Nat) : ℚ) * twoPow (-q) ≤ m * twoPow q * 10 ^ s := by
    exact_mod_cast hmul
  rw [twoPow_cast (-q), twoPow_cast q, ← zpow_eq_div (by norm_num) q] at hcast
  refine le_of_mul_le_mul_right ?_ (by positivity : (0 : ℚ) < 2 ^ (-q).toNat)
  linarith

/-- The place of the first digit of a value, counted on the whole part of the scaled value. -/
theorem first_digit_le {m : Nat} {q : Int} {s : Nat} (hpos : 0 < m * twoPow q * Nat.pow 10 s / twoPow (-q)) :
    (10 : ℚ) ^ ((Nat.toDigits 10 (m * twoPow q * Nat.pow 10 s / twoPow (-q))).length - (s : Int) - 1) ≤ m * 2 ^ q := by
  have hdigits := (decimal_bounds hpos (-s)).1
  rw [zpow_neg, zpow_natCast, ← div_eq_mul_inv] at hdigits
  exact le_trans hdigits ((div_le_iff₀ (by positivity)).mpr (scaled_le m q s))

theorem magnitude_bound {m : Nat} {q : Int} (hc : Canonical m q) : (10 : ℚ) ^ (magnitude m q - 1) ≤ m * 2 ^ q := by
  have hsmall : twoPow (-q) ≤ Nat.pow 10 400 := by
    calc twoPow (-q) ≤ 2 ^ 1075 := Nat.pow_le_pow_right (by decide) (by have := hc.le_exponent; omega)
      _ ≤ Nat.pow 10 400 := by decide +kernel
  have hone : 1 ≤ m * twoPow q := Nat.mul_pos hc.pos (twoPow_pos q)
  have hscaled : twoPow (-q) ≤ m * twoPow q * Nat.pow 10 400 := le_trans hsmall (Nat.le_mul_of_pos_left _ hone)
  exact first_digit_le (Nat.div_pos hscaled (twoPow_pos (-q)))

/-- Zeros at the end of the digits may stand in the exponent. -/
theorem value_dropZeros : ∀ (fuel : Nat) (d : Decimal), (dropZeros fuel d).value = d.value
  | 0, _ => rfl
  | fuel + 1, d => by
    unfold dropZeros
    split
    · next h =>
      rw [value_dropZeros fuel]
      have hten : ((d.digits / 10 : Nat) : ℚ) * 10 = d.digits := by
        exact_mod_cast Nat.div_mul_cancel (Nat.dvd_of_mod_eq_zero h.2)
      unfold value
      dsimp only
      rw [zpow_add_one₀ (by norm_num), ← hten]
      ring
    · rfl

/-- **The shortest decimal of a value lies in its rounding interval.** -/
theorem covers_shortest (tie : Tie) {m : Nat} {q : Int} (hc : Canonical m q) : Covers m q (shortest tie m q).value := by
  have hfine : (10 : ℚ) ^ (magnitude m q - (17 : Nat) + 16) ≤ m * 2 ^ q := by
    rw [show magnitude m q - (17 : Nat) + 16 = magnitude m q - 1 by omega]
    exact magnitude_bound hc
  obtain ⟨c, hsome⟩ := isSome_nearestOnGrid tie hc hfine
  obtain ⟨d, j, hsearch, hfound⟩ := search_eq 17 1 (by decide) (by decide) hsome
  rw [shortest, value_dropZeros, hsearch]
  exact covers_of_nearestOnGrid hc.pos hfound

end SchemeMachine.Decimal
