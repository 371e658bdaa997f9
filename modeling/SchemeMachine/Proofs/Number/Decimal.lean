import SchemeMachine.Proofs.Number.Packing

/-!
# Reading a decimal

A decimal is read by rounding it once, exactly: directly where its digits and its power of ten are both values, else
through a product or a quotient of whole numbers of any size.

* `toDigits_bounds` is the place of the first digit.
* `ofFloat_ofScientific` and `ofFloat_ofScientific_neg` are the two signs of the exponent.
* `ofFloat_ofDecimal` is the result: **a decimal in the rounding interval of a value is read as that value**.
-/

namespace SchemeMachine.Binary

open Float.Model Float.Model.UnpackedFloat

/-! ### Digits -/

/-- A number is less than ten to the number of its digits, and no less than ten to one fewer. -/
theorem toDigits_bounds {n : Nat} (hn : 0 < n) :
    10 ^ ((Nat.toDigits 10 n).length - 1) ≤ n ∧ n < 10 ^ (Nat.toDigits 10 n).length := by
  have hpos : 0 < (Nat.toDigits 10 n).length := Nat.length_toDigits_pos
  refine ⟨?_, (Nat.length_toDigits_le_iff (by decide) hpos).mp le_rfl⟩
  by_cases hone : (Nat.toDigits 10 n).length = 1
  · rw [hone]
    exact hn
  · by_contra hlt
    have := (Nat.length_toDigits_le_iff (b := 10) (n := n) (by decide) (by omega)).mpr (Nat.lt_of_not_le hlt)
    omega

/-- The number of its decimal digits is no more than that of its bits. -/
theorem length_toDigits_le (n : Nat) : (Nat.toDigits 10 n).length ≤ n.log2 + 1 := by
  refine (Nat.length_toDigits_le_iff (by decide) (by omega)).mpr ?_
  exact lt_of_lt_of_le Nat.lt_log2_self (Nat.pow_le_pow_left (by decide) _)

/-- The place of the first digit of `d · 10 ^ e`. -/
theorem decimal_bounds {d : Nat} (hd : 0 < d) (e : Int) :
    (10 : ℚ) ^ ((Nat.toDigits 10 d).length + e - 1) ≤ d * 10 ^ e ∧
      (d : ℚ) * 10 ^ e < 10 ^ ((Nat.toDigits 10 d).length + e) := by
  obtain ⟨hlow, hhigh⟩ := toDigits_bounds hd
  have hpos : 0 < (Nat.toDigits 10 d).length := Nat.length_toDigits_pos
  have hten : (0 : ℚ) < 10 ^ e := by positivity
  constructor
  · rw [show ((Nat.toDigits 10 d).length + e - 1 : Int) = (((Nat.toDigits 10 d).length - 1 : Nat) : Int) + e by omega,
      zpow_add₀ (by norm_num), zpow_natCast]
    exact mul_le_mul_of_nonneg_right (by exact_mod_cast hlow) hten.le
  · rw [zpow_add₀ (by norm_num), zpow_natCast]
    exact mul_lt_mul_of_pos_right (by exact_mod_cast hhigh) hten

/-! ### Powers of ten -/

/-- The entries of the table of powers of ten, with the 53 bits that each of them has. -/
theorem ofFloat_powersOfTen : ∀ e : Fin 23,
    ofFloat (Float.exactlyRepresentablePowersOfTen[e.val]!) =
        .finite false (10 ^ e.val * 2 ^ 52 / 2 ^ (10 ^ e.val).log2) ((10 ^ e.val).log2 - 52) ∧
      10 ^ e.val * 2 ^ 52 % 2 ^ (10 ^ e.val).log2 = 0 := by
  decide

/-- **The powers of ten up to `10 ^ 22` are values.** -/
theorem ofFloat_powerOfTen {e : Nat} (he : e < Float.exactlyRepresentablePowersOfTen.size) :
    ∃ m q, ofFloat Float.exactlyRepresentablePowersOfTen[e] = .finite false m q ∧ 0 < m ∧ (m : ℚ) * 2 ^ q = 10 ^ e := by
  obtain ⟨hentry, hmod⟩ := ofFloat_powersOfTen ⟨e, he⟩
  dsimp only at hentry hmod
  rw [getElem!_pos _ e he] at hentry
  have hlog : 2 ^ (10 ^ e).log2 ≤ 10 ^ e := Nat.log2_self_le (by positivity)
  have hexact := Nat.div_mul_cancel (Nat.dvd_of_mod_eq_zero hmod)
  refine ⟨_, _, hentry, Nat.div_pos (le_trans hlog (Nat.le_mul_of_pos_right _ (by decide))) (by positivity), ?_⟩
  have hcast : ((10 ^ e * 2 ^ 52 / 2 ^ (10 ^ e).log2 : Nat) : ℚ) * 2 ^ (10 ^ e).log2 = 10 ^ e * 2 ^ 52 := by
    exact_mod_cast hexact
  rw [zpow_sub₀ (by norm_num), zpow_natCast, ← mul_div_assoc, hcast]
  norm_num

/-! ### Scientific notation -/

/-- A power of ten as a product, with a whole exponent. -/
theorem ofFloat_ofScientific {d e : Nat} (hd : 0 < d) (he : e ≤ 2048) {m : Nat} {q : Int} (hc : Canonical m q)
    (hcovers : Covers m q (d * 10 ^ e)) : ofFloat (Float.ofScientific d false e) = .finite false m q := by
  unfold Float.ofScientific
  -- small factors are multiplied as values, others as whole numbers
  split
  · next hsmall =>
    obtain ⟨m₁, e₁, hx, hfull, hx'⟩ := ofFloat_toFloat hd hsmall.1
    obtain ⟨m₂, e₂, hy, hpos, hy'⟩ := ofFloat_powerOfTen (e := e) (by
      simp only [Float.exactlyRepresentablePowersOfTen, List.size_toArray, List.length_cons, List.length_nil]
      omega)
    rw [← hx', ← hy'] at hcovers
    exact ofFloat_mul hx hy hfull hpos hc hcovers
  · have hround : UnpackedFloat.ofScientific .binary64 d e = .finite .positive m q hc.pos := by
      have hbound : ¬(e : Int) > 2 ^ Format.binary64.exponentBits := by
        have : (2 : Int) ^ Format.binary64.exponentBits = 2048 := rfl
        omega
      have hleast : ¬(e : Int) < -((2 : Int) ^ Format.binary64.exponentBits + d.log2) := by
        have : (2 : Int) ^ Format.binary64.exponentBits = 2048 := rfl
        omega
      unfold UnpackedFloat.ofScientific
      rw [dif_neg hd.ne', if_neg hbound, if_neg hleast, if_pos (by omega)]
      refine mul_eq _ _ ?_ hc ?_ _ _
      · rw [Nat.shiftLeft_eq]
        calc 2 ^ 52 ≤ 1 * 2 ^ 53 * 1 := by decide
          _ ≤ d * 2 ^ 53 * 10 ^ (e : Int).toNat := Nat.mul_le_mul (Nat.mul_le_mul_right _ hd) (Nat.one_le_pow _ _ (by decide))
      · have hbits : ((Format.binary64.mantissaBits : Nat) : Int) = 53 := rfl
        convert hcovers using 1
        rw [Nat.shiftLeft_eq, hbits, Int.toNat_natCast, show Format.binary64.mantissaBits = 53 from rfl]
        push_cast
        rw [zpow_neg]
        field_simp
        norm_num
    have hmodel : Float.Model.ofScientific d (Int.ofNat e) = Float.Model.pack (UnpackedFloat.ofScientific .binary64 d e) :=
      rfl
    simp only [Bool.false_eq_true, if_false, hmodel, hround]
    exact ofFloat_pack false hc

/-- A power of ten as a quotient, with a negative exponent. -/
theorem ofFloat_ofScientific_neg {d e : Nat} (hd : 0 < d) (he : 0 < e) (hle : e ≤ 2048 + d.log2) {m : Nat} {q : Int}
    (hc : Canonical m q) (hcovers : Covers m q (d / 10 ^ e)) :
    ofFloat (Float.ofScientific d true e) = .finite false m q := by
  unfold Float.ofScientific
  split
  · next hsmall =>
    obtain ⟨m₁, e₁, hx, hfull, hx'⟩ := ofFloat_toFloat hd hsmall.1
    obtain ⟨m₂, e₂, hy, hpos, hy'⟩ := ofFloat_powerOfTen (e := e) (by
      simp only [Float.exactlyRepresentablePowersOfTen, List.size_toArray, List.length_cons, List.length_nil]
      omega)
    rw [← hx', ← hy'] at hcovers
    exact ofFloat_div hx hy (by omega) hpos hc hcovers
  · have hround : UnpackedFloat.ofScientific .binary64 d (Int.negOfNat e) = .finite .positive m q hc.pos := by
      have hneg : Int.negOfNat e = -(e : Int) := Int.negOfNat_eq
      have hpower : (2 : Int) ^ Format.binary64.exponentBits = 2048 := rfl
      unfold UnpackedFloat.ofScientific
      rw [hneg, dif_neg hd.ne', if_neg (by omega), if_neg (by omega), if_neg (by omega)]
      refine div_eq _ _ hc ?_ _ _
      convert hcovers using 1
      rw [Int.neg_neg, Int.toNat_natCast, zpow_zero, mul_one, mul_one]
      push_cast
      rfl
    have hmodel : Float.Model.ofScientific d (Int.negOfNat e) =
        Float.Model.pack (UnpackedFloat.ofScientific .binary64 d (Int.negOfNat e)) := rfl
    simp only [if_true, hmodel, hround]
    exact ofFloat_pack false hc

/-! ### Decimals -/

/-- The rounding interval of a value lies within the powers of ten that a decimal may have. -/
theorem Covers.within {m : Nat} {q : Int} {v : ℚ} (hc : Canonical m q) (h : Covers m q v) :
    (10 : ℚ) ^ (-400 : Int) < v ∧ v < 10 ^ (400 : Int) := by
  have hone : (1 : ℚ) ≤ m := by exact_mod_cast hc.pos
  have hlt : (m : ℚ) + 1 ≤ 2 ^ 53 := by exact_mod_cast hc.lt_pow
  have hunit : (0 : ℚ) < 2 ^ q := by positivity
  have hrange : (2 : ℚ) ^ (1075 : Int) < 10 ^ (400 : Int) := by
    exact_mod_cast (by decide +kernel : 2 ^ 1075 < 10 ^ 400)
  constructor
  · calc (10 : ℚ) ^ (-400 : Int) < 2 ^ (-1075 : Int) := by
          rw [zpow_neg, zpow_neg]
          exact inv_strictAnti₀ (by positivity) hrange
      _ = 1 / 2 * 2 ^ (-1074 : Int) := by
          rw [show (-1075 : Int) = -1 + -1074 by norm_num, zpow_add₀ (by norm_num)]
          norm_num
      _ ≤ 1 / 2 * 2 ^ q := mul_le_mul_of_nonneg_left (zpow_le_zpow_right₀ (by norm_num) hc.le_exponent) (by norm_num)
      _ ≤ (m - downward m q) * 2 ^ q := mul_le_mul_of_nonneg_right (by linarith [downward_le m q]) hunit.le
      _ ≤ v := h.low
  · calc v ≤ (m + 1 / 2) * 2 ^ q := h.high
      _ ≤ 2 ^ 53 * 2 ^ q := mul_le_mul_of_nonneg_right (by linarith) hunit.le
      _ ≤ 2 ^ 53 * 2 ^ (971 : Int) := mul_le_mul_of_nonneg_left (zpow_le_zpow_right₀ (by norm_num) hc.exponent_le) (by norm_num)
      _ = 2 ^ (1024 : Int) := by
          rw [← zpow_natCast, ← zpow_add₀ (by norm_num)]
          norm_num
      _ ≤ 2 ^ (1075 : Int) := zpow_le_zpow_right₀ (by norm_num) (by norm_num)
      _ < 10 ^ (400 : Int) := hrange

/-- **A decimal in the rounding interval of a value is read as that value.** -/
theorem ofFloat_ofDecimal {d : Nat} {e : Int} (hd : 0 < d) {m : Nat} {q : Int} (hc : Canonical m q)
    (hcovers : Covers m q (d * 10 ^ e)) : ofFloat (Number.ofDecimal d e) = .finite false m q := by
  obtain ⟨hfirst, hpast⟩ := decimal_bounds hd e
  obtain ⟨hmin, hmax⟩ := hcovers.within hc
  -- the first digit stands where the value has one
  have htop : (Nat.toDigits 10 d).length + e - 1 < 400 :=
    (zpow_lt_zpow_iff_right₀ (by norm_num : (1 : ℚ) < 10)).mp (lt_of_le_of_lt hfirst hmax)
  have hbottom : -400 < (Nat.toDigits 10 d).length + e :=
    (zpow_lt_zpow_iff_right₀ (by norm_num : (1 : ℚ) < 10)).mp (lt_trans hmin hpast)
  have hlength := length_toDigits_le d
  unfold Number.ofDecimal
  simp only [Int.ofNat_eq_natCast]
  rw [if_neg hd.ne', if_neg (by omega), if_neg (by omega)]
  split
  · next he =>
    obtain ⟨n, rfl⟩ := Int.eq_ofNat_of_zero_le he
    rw [zpow_natCast] at hcovers
    exact ofFloat_ofScientific hd (by omega) hc hcovers
  · next he =>
    obtain ⟨n, hn⟩ := Int.eq_ofNat_of_zero_le (by omega : 0 ≤ -e)
    obtain rfl : e = -(n : Int) := by omega
    rw [zpow_neg, zpow_natCast, ← div_eq_mul_inv] at hcovers
    rw [Int.neg_neg, Int.toNat_natCast]
    exact ofFloat_ofScientific_neg hd (by omega) (by omega) hc hcovers

end SchemeMachine.Binary
