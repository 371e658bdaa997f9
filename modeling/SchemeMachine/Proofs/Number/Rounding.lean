import Mathlib

/-!
# Rounding to the nearest binary64 value

The arithmetic of `Float` rounds an exact result once: it keeps the leading bits of the mantissa together with two bits
that say where the rest lies, and decides by these. Here the exact results are rational numbers, and a canonical pair of
a mantissa and an exponent is the answer for all of them that lie in its rounding interval.

* `Canonical` are the pairs that a positive finite value is made of, `Covers` the rounding interval of one.
* `Represents` says which rational numbers a mantissa with its two bits stands for. Shifts keep it
  (`Represents.shiftRight`), and it decides the rounded mantissa (`Represents.roundedMantissa_eq`).
* `roundWithAccuracy_eq` is the result: **a number in the rounding interval of a canonical pair is rounded to that
  pair**. Products and quotients follow, `mul_eq` and `div_eq`.
-/

namespace SchemeMachine.Binary

open Float.Model Float.Model.UnpackedFloat

/-- **The mantissa and the exponent of a positive finite value**: 53 bits, all used unless the exponent is the least. -/
structure Canonical (m : Nat) (q : Int) : Prop where
  pos : 0 < m
  lt_pow : m < 2 ^ 53
  le_exponent : -1074 ≤ q
  exponent_le : q ≤ 971
  full : 2 ^ 52 ≤ m ∨ q = -1074

/-- How far the rounding interval reaches down, in units of the last bit: half a unit, but a quarter from a power of
two, below which the units are half as wide. -/
def downward (m : Nat) (q : Int) : ℚ := if m = 2 ^ 52 ∧ q ≠ -1074 then 1 / 4 else 1 / 2

theorem downward_pos (m : Nat) (q : Int) : 0 < downward m q := by
  unfold downward
  split <;> norm_num

theorem downward_le (m : Nat) (q : Int) : downward m q ≤ 1 / 2 := by
  unfold downward
  split <;> norm_num

/-- **The rounding interval** of `m · 2 ^ q`. It has its ends iff `m` is even. -/
structure Covers (m : Nat) (q : Int) (v : ℚ) : Prop where
  low : (m - downward m q) * 2 ^ q ≤ v
  high : v ≤ (m + 1 / 2) * 2 ^ q
  inner : m % 2 = 1 → (m - downward m q) * 2 ^ q < v ∧ v < (m + 1 / 2) * 2 ^ q

/-- A value lies in its own interval. -/
theorem covers_self (m : Nat) (q : Int) : Covers m q (m * 2 ^ q) := by
  have hunit : (0 : ℚ) < 2 ^ q := by positivity
  have hlow : ((m : ℚ) - downward m q) * 2 ^ q < m * 2 ^ q :=
    mul_lt_mul_of_pos_right (by linarith [downward_pos m q]) hunit
  have hhigh : (m : ℚ) * 2 ^ q < (m + 1 / 2) * 2 ^ q := mul_lt_mul_of_pos_right (by linarith) hunit
  exact ⟨hlow.le, hhigh.le, fun _ => ⟨hlow, hhigh⟩⟩

/-! ### A mantissa with its two bits -/

/-- **The numbers that a mantissa with a round bit and a sticky bit stands for**: the first bit is the half after the
mantissa, the second says whether anything follows. -/
def Represents (em : ExtendedMantissa) (x : ℚ) : Prop :=
  if em.roundBit then
    if em.stickyBit then (em.mantissa : ℚ) + 1 / 2 < x ∧ x < em.mantissa + 1 else x = em.mantissa + 1 / 2
  else
    if em.stickyBit then (em.mantissa : ℚ) < x ∧ x < em.mantissa + 1 / 2 else x = em.mantissa

theorem represents_exact (m : Nat) : Represents (.ofMantissaAndAccuracy m .exact) m := by
  simp [Represents, ExtendedMantissa.ofMantissaAndAccuracy]

/-- The bits of a proper fraction after a mantissa. -/
theorem represents_fraction (m : Nat) {num den : Nat} (h : num < den) :
    Represents (.ofMantissaAndAccuracy m (accuracyOfFraction num den)) (m + num / den) := by
  have hden : (0 : ℚ) < den := by exact_mod_cast Nat.zero_lt_of_lt h
  unfold accuracyOfFraction
  split
  · next hzero =>
    subst hzero
    simpa using represents_exact m
  · next hne =>
    have hnum : (0 : ℚ) < num := by exact_mod_cast Nat.pos_of_ne_zero hne
    have hlt : (num : ℚ) / den < 1 := (div_lt_one hden).mpr (by exact_mod_cast h)
    have hgt : (0 : ℚ) < num / den := div_pos hnum hden
    -- twice the remainder is compared with the divisor
    cases hcmp : compare (2 * num) den with
    | lt =>
      have hhalf : (num : ℚ) / den < 1 / 2 := by
        rw [div_lt_div_iff₀ hden (by norm_num)]
        exact_mod_cast (show num * 2 < 1 * den by have := Nat.compare_eq_lt.mp hcmp; omega)
      simp only [Represents, ExtendedMantissa.ofMantissaAndAccuracy, Bool.false_eq_true, if_false, if_true]
      constructor <;> linarith
    | eq =>
      have hhalf : (num : ℚ) / den = 1 / 2 := by
        rw [div_eq_div_iff hden.ne' (by norm_num)]
        exact_mod_cast (show num * 2 = 1 * den by have := Nat.compare_eq_eq.mp hcmp; omega)
      simp only [Represents, ExtendedMantissa.ofMantissaAndAccuracy, Bool.false_eq_true, if_false, if_true]
      linarith
    | gt =>
      have hhalf : 1 / 2 < (num : ℚ) / den := by
        rw [div_lt_div_iff₀ (by norm_num) hden]
        exact_mod_cast (show 1 * den < num * 2 by have := Nat.compare_eq_gt.mp hcmp; omega)
      simp only [Represents, ExtendedMantissa.ofMantissaAndAccuracy, if_true]
      constructor <;> linarith

/-- The mantissa is the whole part. -/
theorem Represents.bounds {em : ExtendedMantissa} {x : ℚ} (h : Represents em x) :
    (em.mantissa : ℚ) ≤ x ∧ x < em.mantissa + 1 := by
  obtain ⟨m, round, sticky⟩ := em
  cases round <;> cases sticky <;> simp only [Represents, Bool.false_eq_true, if_false, if_true] at h ⊢ <;>
    constructor <;> linarith

theorem Represents.shiftRightOne {em : ExtendedMantissa} {x : ℚ} (h : Represents em x) :
    Represents em.shiftRightOne (x / 2) := by
  obtain ⟨m, round, sticky⟩ := em
  have hhalves : ((m % 2 : Nat) : ℚ) + 2 * ((m / 2 : Nat) : ℚ) = m := by exact_mod_cast Nat.mod_add_div m 2
  rcases Nat.mod_two_eq_zero_or_one m with hm | hm <;> rw [hm] at hhalves <;> push_cast at hhalves <;>
    cases round <;> cases sticky <;>
    simp only [Represents, ExtendedMantissa.shiftRightOne, hm, bne_self_eq_false, Bool.or_self, Bool.or_false,
      Bool.or_true, Bool.false_eq_true, if_false, if_true, Nat.one_ne_zero, bne_iff_ne, ne_eq, not_false_eq_true] at h ⊢ <;>
    first | linarith | (constructor <;> linarith)

theorem Represents.shiftRight {em : ExtendedMantissa} {x : ℚ} (h : Represents em x) (n : Nat) :
    Represents (em >>> n) (x / 2 ^ n) := by
  change Represents (n.repeat ExtendedMantissa.shiftRightOne em) _
  induction n with
  | zero => simpa [Nat.repeat] using h
  | succ n ih =>
    rw [Nat.repeat, pow_succ, ← div_div]
    exact ih.shiftRightOne

/-- **The rounded mantissa is the nearest whole number**, the even one of two. -/
theorem Represents.roundedMantissa_eq {em : ExtendedMantissa} {x : ℚ} (h : Represents em x) {m : Nat}
    (hlow : (m : ℚ) - 1 / 2 ≤ x) (hhigh : x ≤ m + 1 / 2)
    (hodd : m % 2 = 1 → (m : ℚ) - 1 / 2 < x ∧ x < m + 1 / 2) : em.roundedMantissa = m := by
  obtain ⟨k, round, sticky⟩ := em
  -- bounds between whole numbers, read off the bounds of `x`
  have hle (a b : Nat) (hab : (a : ℚ) < b + 1) : a ≤ b := by
    have : a < b + 1 := by exact_mod_cast hab
    omega
  cases round <;> cases sticky <;>
    simp only [Represents, ExtendedMantissa.roundedMantissa, ExtendedMantissa.accuracy, Accuracy.roundToNearestEven,
      Bool.false_eq_true, if_false, if_true] at h ⊢
  · exact Nat.le_antisymm (hle _ _ (by linarith)) (hle _ _ (by linarith))
  · exact Nat.le_antisymm (hle _ _ (by linarith)) (hle _ _ (by linarith))
  · -- half way: one of the two neighbours is `m`, and the odd one is no candidate
    have hkm : k ≤ m := hle _ _ (by linarith)
    have hmk : m ≤ k + 1 := hle _ _ (by push_cast; linarith)
    rcases Nat.mod_two_eq_zero_or_one m with hm | hm
    · omega
    · obtain ⟨hl, hr⟩ := hodd hm
      have hkm' : k + 1 ≤ m := hle _ _ (by push_cast; linarith)
      have hmk' : m ≤ k := hle _ _ (by linarith)
      omega
  · exact Nat.le_antisymm (hle _ _ (by push_cast; linarith)) (hle _ _ (by push_cast; linarith))

/-! ### Shifting to the exponent of the result -/

theorem targetExponent_eq (t : Int) : Format.binary64.targetExponent t = max (t - 53) (-1074) := rfl

theorem shiftToTargetExponent_eq (m : Nat) (e : Int) (acc : Accuracy)
    (he : e ≤ max (m.log2 + 1 + e - 53) (-1074)) :
    shiftToTargetExponent .binary64 m e acc =
      (ExtendedMantissa.ofMantissaAndAccuracy m acc >>> (max (m.log2 + 1 + e - 53) (-1074) - e).toNat,
        max (m.log2 + 1 + e - 53) (-1074)) := by
  unfold shiftToTargetExponent shiftToExponent totalExponent
  rw [targetExponent_eq]
  refine Prod.ext rfl ?_
  dsimp only
  omega

/-- A mantissa that fills its 53 bits stays where it is. -/
theorem shiftToTargetExponent_canonical {m : Nat} {q : Int} (h : Canonical m q) :
    shiftToTargetExponent .binary64 m q .exact = (⟨m, false, false⟩, q) := by
  have hlog : m.log2 < 53 := (Nat.log2_lt h.pos.ne').mpr h.lt_pow
  have hq : max ((m.log2 : Int) + 1 + q - 53) (-1074) = q := by
    rcases h.full with hfull | hleast
    · have := (Nat.le_log2 h.pos.ne').mpr hfull
      have := h.le_exponent
      omega
    · omega
  rw [shiftToTargetExponent_eq m q .exact hq.ge, hq, Int.sub_self]
  rfl

/-- A mantissa that the rounding carried to the next power of two is shifted once more. -/
theorem shiftToTargetExponent_carried {q : Int} (hq : -1074 < q) :
    shiftToTargetExponent .binary64 (2 ^ 53) (q - 1) .exact = (⟨2 ^ 52, false, false⟩, q) := by
  have hlog : Nat.log2 (2 ^ 53) = 53 := Nat.log2_two_pow
  have hmax : max ((Nat.log2 (2 ^ 53) : Int) + 1 + (q - 1) - 53) (-1074) = q := by omega
  rw [shiftToTargetExponent_eq _ _ _ (by omega), hmax, show (q - (q - 1)).toNat = 1 by omega]
  rfl

/-- **What the first shift leaves**: a number below `2 ^ 53` that represents the same value, with 53 bits before the
point unless the exponent is the least. -/
theorem exists_shifted {m : Nat} {e : Int} {acc : Accuracy} {x : ℚ}
    (hx : Represents (.ofMantissaAndAccuracy m acc) x) (hwide : 2 ^ 52 ≤ m ∨ e ≤ -1074) :
    ∃ em t y, shiftToTargetExponent .binary64 m e acc = (em, t) ∧ Represents em y ∧ y * 2 ^ t = x * 2 ^ e ∧
      0 ≤ y ∧ y < 2 ^ 53 ∧ -1074 ≤ t ∧ (t = -1074 ∨ 2 ^ 52 ≤ y) := by
  have hmantissa : (ExtendedMantissa.ofMantissaAndAccuracy m acc).mantissa = m := by
    unfold ExtendedMantissa.ofMantissaAndAccuracy
    split <;> rfl
  obtain ⟨hlow, hhigh⟩ := hx.bounds
  rw [hmantissa] at hlow hhigh
  set t : Int := max ((m.log2 : Int) + 1 + e - 53) (-1074) with ht
  -- a mantissa that is wide enough is shifted to the right, if at all
  have het : e ≤ t := by
    rcases hwide with hm | he
    · have := (Nat.le_log2 (by omega)).mpr hm
      omega
    · omega
  obtain ⟨s, hs⟩ : ∃ s : Nat, t = e + s := ⟨(t - e).toNat, by omega⟩
  have hpow : (0 : ℚ) < 2 ^ s := by positivity
  refine ⟨_, t, x / 2 ^ s, shiftToTargetExponent_eq m e acc het, ?_, ?_, ?_, ?_, by omega, ?_⟩
  · rw [← ht, show (t - e).toNat = s by omega]
    exact hx.shiftRight s
  · rw [hs, zpow_add₀ (by norm_num), zpow_natCast]
    field_simp
  · exact div_nonneg (le_trans (Nat.cast_nonneg m) hlow) hpow.le
  · -- `x` has no more than `53 + s` bits before the point
    rw [div_lt_iff₀ hpow, ← pow_add]
    have hbits : m + 1 ≤ 2 ^ (53 + s) := le_trans Nat.lt_log2_self (Nat.pow_le_pow_right (by decide) (by omega))
    calc x < m + 1 := hhigh
      _ ≤ 2 ^ (53 + s) := by exact_mod_cast hbits
  · -- unless the exponent is the least, the leading bit stays in front of the point
    by_cases hleast : t = -1074
    · exact Or.inl hleast
    · have hm : m ≠ 0 := by
        rintro rfl
        have : Nat.log2 0 = 0 := rfl
        omega
      have hbits : 2 ^ (52 + s) ≤ m :=
        le_trans (Nat.pow_le_pow_right (by decide) (by omega)) (Nat.log2_self_le hm)
      refine Or.inr ?_
      rw [le_div_iff₀ hpow, ← pow_add]
      calc (2 : ℚ) ^ (52 + s) ≤ m := by exact_mod_cast hbits
        _ ≤ x := hlow

/-- A number with 53 bits before the point, or fewer at the least exponent, lies in the rounding interval of a canonical
pair with the same exponent, or below that of the next power of two. -/
theorem Covers.exponent {m : Nat} {q t : Int} {y : ℚ} (hc : Canonical m q) (h : Covers m q (y * 2 ^ t))
    (hy : y < 2 ^ 53) (ht : -1074 ≤ t) (hfull : t = -1074 ∨ 2 ^ 52 ≤ y) :
    q = t ∨ (m = 2 ^ 52 ∧ q = t + 1 ∧ 2 ^ 53 - 1 / 2 ≤ y) := by
  have hunit (k : Int) : (0 : ℚ) < 2 ^ k := by positivity
  rcases lt_trichotomy q t with hlt | heq | hgt
  · -- the number is too large for the pair
    have hy' : 2 ^ 52 ≤ y := hfull.resolve_left (by have := hc.le_exponent; omega)
    obtain ⟨d, hd⟩ : ∃ d : Nat, t = q + 1 + d := ⟨(t - q - 1).toNat, by omega⟩
    have hbelow : y * 2 ^ t < 2 ^ 53 * 2 ^ q := by
      by_cases hodd : m % 2 = 1
      · have hm : (m : ℚ) + 1 / 2 ≤ 2 ^ 53 := by
          have : (m : ℚ) + 1 ≤ 2 ^ 53 := by exact_mod_cast hc.lt_pow
          linarith
        exact lt_of_lt_of_le (h.inner hodd).2 (mul_le_mul_of_nonneg_right hm (hunit q).le)
      · have hm : (m : ℚ) + 1 / 2 < 2 ^ 53 := by
          have : (m : ℚ) + 1 ≤ 2 ^ 53 := by exact_mod_cast hc.lt_pow
          linarith
        exact lt_of_le_of_lt h.high (mul_lt_mul_of_pos_right hm (hunit q))
    have habove : (2 : ℚ) ^ 53 * 2 ^ q ≤ y * 2 ^ t := by
      have hstep : (2 : ℚ) ^ q * 2 ≤ 2 ^ t := by
        rw [← zpow_add_one₀ (by norm_num)]
        exact zpow_le_zpow_right₀ (by norm_num) (by omega)
      calc (2 : ℚ) ^ 53 * 2 ^ q = 2 ^ 52 * (2 ^ q * 2) := by ring
        _ ≤ 2 ^ 52 * 2 ^ t := mul_le_mul_of_nonneg_left hstep (by positivity)
        _ ≤ y * 2 ^ t := mul_le_mul_of_nonneg_right hy' (hunit t).le
    exact absurd hbelow (not_lt.mpr habove)
  · exact Or.inl heq
  · -- the number is below the first value with the exponent of the pair
    have hm : 2 ^ 52 ≤ m := hc.full.resolve_right (by omega)
    have hstep : (2 : ℚ) ^ t * 2 ≤ 2 ^ q := by
      rw [← zpow_add_one₀ (by norm_num)]
      exact zpow_le_zpow_right₀ (by norm_num) (by omega)
    have hupper : y * 2 ^ t < 2 ^ 52 * 2 ^ q := by
      calc y * 2 ^ t < 2 ^ 53 * 2 ^ t := mul_lt_mul_of_pos_right hy (hunit t)
        _ = 2 ^ 52 * (2 ^ t * 2) := by ring
        _ ≤ 2 ^ 52 * 2 ^ q := mul_le_mul_of_nonneg_left hstep (by positivity)
    have hdown : (m : ℚ) - downward m q < 2 ^ 52 :=
      lt_of_mul_lt_mul_right (lt_of_le_of_lt h.low hupper) (hunit q).le
    have hpower : m = 2 ^ 52 := by
      have hlt : (m : ℚ) < 2 ^ 52 + 1 := by linarith [downward_le m q]
      have : m < 2 ^ 52 + 1 := by exact_mod_cast hlt
      omega
    have hquarter : downward m q = 1 / 4 := if_pos ⟨hpower, by omega⟩
    have hlow := h.low
    rw [hquarter, hpower] at hlow
    push_cast at hlow
    obtain hnext | hfar : q = t + 1 ∨ t + 2 ≤ q := by omega
    · refine Or.inr ⟨hpower, hnext, ?_⟩
      rw [hnext, zpow_add_one₀ (by norm_num)] at hlow
      have := le_of_mul_le_mul_right (by linarith : ((2 : ℚ) ^ 53 - 1 / 2) * 2 ^ t ≤ y * 2 ^ t) (hunit t)
      exact this
    · exfalso
      have hfour : (2 : ℚ) ^ t * 4 ≤ 2 ^ q := by
        rw [show (4 : ℚ) = 2 ^ (2 : Int) by norm_num, ← zpow_add₀ (by norm_num)]
        exact zpow_le_zpow_right₀ (by norm_num) hfar
      have hsmall : y * 2 ^ t < 2 ^ 53 * 2 ^ t := mul_lt_mul_of_pos_right hy (hunit t)
      nlinarith [hunit t]

/-- **A number in the rounding interval of a canonical pair is rounded to that pair.** -/
theorem roundWithAccuracy_eq {m : Nat} {e : Int} {acc : Accuracy} {x : ℚ}
    (hx : Represents (.ofMantissaAndAccuracy m acc) x) (hwide : 2 ^ 52 ≤ m ∨ e ≤ -1074) {M : Nat} {q : Int}
    (hc : Canonical M q) (hcovers : Covers M q (x * 2 ^ e)) (sign : Sign) :
    roundWithAccuracy .binary64 sign m e acc = .finite sign M q hc.pos := by
  obtain ⟨em, t, y, hshift, hy, hvalue, hnonneg, hlt, ht, hfull⟩ := exists_shifted hx hwide
  rw [← hvalue] at hcovers
  have hunit : (0 : ℚ) < 2 ^ t := by positivity
  unfold roundWithAccuracy
  rw [hshift]
  -- the pair is met, or rounding carries into the next power of two
  rcases hcovers.exponent hc hlt ht hfull with rfl | ⟨rfl, rfl, hhigh⟩
  · have hrounded : em.roundedMantissa = M := by
      refine hy.roundedMantissa_eq ?_ (le_of_mul_le_mul_right hcovers.high hunit) fun hodd => ⟨?_, ?_⟩
      · have := le_of_mul_le_mul_right hcovers.low hunit
        linarith [downward_le M q]
      · have := lt_of_mul_lt_mul_right (hcovers.inner hodd).1 hunit.le
        linarith [downward_le M q]
      · exact lt_of_mul_lt_mul_right (hcovers.inner hodd).2 hunit.le
    simp only [hrounded, shiftToTargetExponent_canonical hc, hc.pos.ne', dif_neg, not_false_eq_true]
  · have hrounded : em.roundedMantissa = 2 ^ 53 := by
      refine hy.roundedMantissa_eq ?_ ?_ fun hodd => absurd hodd (by decide)
      · push_cast
        exact hhigh
      · push_cast
        linarith
    have hcarried := shiftToTargetExponent_carried (q := t + 1) (by omega)
    rw [Int.add_sub_cancel] at hcarried
    simp only [hrounded, hcarried]
    rfl

/-! ### The operations -/

/-- **A product in the rounding interval of a pair is that pair**, if the product of the mantissas fills its bits. -/
theorem mul_eq {m₁ m₂ : Nat} {e₁ e₂ : Int} (h₁ : 0 < m₁) (h₂ : 0 < m₂) (hwide : 2 ^ 52 ≤ m₁ * m₂) {M : Nat} {q : Int}
    (hc : Canonical M q) (hcovers : Covers M q (m₁ * 2 ^ e₁ * (m₂ * 2 ^ e₂))) (s₁ s₂ : Sign) :
    UnpackedFloat.mul .binary64 (.finite s₁ m₁ e₁ h₁) (.finite s₂ m₂ e₂ h₂) = .finite (s₁ * s₂) M q hc.pos := by
  refine roundWithAccuracy_eq (represents_exact _) (Or.inl hwide) hc ?_ _
  rw [zpow_add₀ (by norm_num), Nat.cast_mul]
  convert hcovers using 1
  ring

/-- The quotient of two mantissas, the first one shifted, has 53 bits or the least exponent. -/
theorem divCore_wide (m₁ : Nat) (e₁ : Int) {m₂ : Nat} (e₂ : Int) (h₁ : 0 < m₁) (h₂ : 0 < m₂) :
    ∃ (k : Nat) (t : Int), t + k = e₁ - e₂ ∧
      divCore .binary64 m₁ e₁ m₂ e₂ = (m₁ * 2 ^ k / m₂, t, accuracyOfFraction (m₁ * 2 ^ k % m₂) m₂) ∧
      (2 ^ 52 ≤ m₁ * 2 ^ k / m₂ ∨ t ≤ -1074) := by
  set t : Int := min (e₁ - e₂) (max (totalExponent m₁ e₁ - totalExponent m₂ e₂ - 53) (-1074)) with ht
  have htotal : totalExponent m₁ e₁ - totalExponent m₂ e₂ = m₁.log2 + e₁ - (m₂.log2 + e₂) := by
    unfold totalExponent
    omega
  rw [htotal] at ht
  refine ⟨(e₁ - e₂ - t).toNat, t, by omega, ?_, ?_⟩
  · unfold divCore
    rw [targetExponent_eq, htotal, ← ht]
    simp only [Nat.shiftLeft_eq]
  · by_cases hleast : t ≤ -1074
    · exact Or.inr hleast
    · -- the shifted mantissa is long enough, counted in bits
      have hbits : 2 ^ 52 * 2 ^ (m₂.log2 + 1) ≤ 2 ^ m₁.log2 * 2 ^ (e₁ - e₂ - t).toNat := by
        rw [← pow_add, ← pow_add]
        exact Nat.pow_le_pow_right (by decide) (by omega)
      refine Or.inl ((Nat.le_div_iff_mul_le h₂).mpr ?_)
      calc 2 ^ 52 * m₂ ≤ 2 ^ 52 * 2 ^ (m₂.log2 + 1) := Nat.mul_le_mul_left _ Nat.lt_log2_self.le
        _ ≤ 2 ^ m₁.log2 * 2 ^ (e₁ - e₂ - t).toNat := hbits
        _ ≤ m₁ * 2 ^ (e₁ - e₂ - t).toNat := Nat.mul_le_mul_right _ (Nat.log2_self_le h₁.ne')

/-- **A quotient in the rounding interval of a pair is that pair.** -/
theorem div_eq {m₁ m₂ : Nat} {e₁ e₂ : Int} (h₁ : 0 < m₁) (h₂ : 0 < m₂) {M : Nat} {q : Int} (hc : Canonical M q)
    (hcovers : Covers M q (m₁ * 2 ^ e₁ / (m₂ * 2 ^ e₂))) (s₁ s₂ : Sign) :
    UnpackedFloat.div .binary64 (.finite s₁ m₁ e₁ h₁) (.finite s₂ m₂ e₂ h₂) = .finite (s₁ / s₂) M q hc.pos := by
  obtain ⟨k, t, hk, hcore, hwide⟩ := divCore_wide m₁ e₁ e₂ h₁ h₂
  have hm₂ : (m₂ : ℚ) ≠ 0 := by exact_mod_cast h₂.ne'
  simp only [UnpackedFloat.div, hcore]
  refine roundWithAccuracy_eq (represents_fraction _ (Nat.mod_lt _ h₂)) hwide hc ?_ _
  -- quotient and remainder together are the exact quotient
  have hquotient : (((m₁ * 2 ^ k / m₂ : Nat) : ℚ) + ((m₁ * 2 ^ k % m₂ : Nat) : ℚ) / m₂) = m₁ * 2 ^ k / m₂ := by
    rw [eq_div_iff hm₂, add_mul, div_mul_cancel₀ _ hm₂]
    have := Nat.div_add_mod (m₁ * 2 ^ k) m₂
    rw [mul_comm (m₂ : Nat)] at this
    exact_mod_cast this
  have hpowers : (2 : ℚ) ^ k * 2 ^ t = 2 ^ e₁ / 2 ^ e₂ := by
    rw [← zpow_natCast, ← zpow_add₀ (by norm_num), ← zpow_sub₀ (by norm_num)]
    congr 1
    omega
  rw [hquotient]
  convert hcovers using 1
  rw [mul_div_mul_comm, ← hpowers]
  ring

/-- **A number in the rounding interval of a pair is rounded to it**, whatever its mantissa and exponent are. -/
theorem round_eq {m : Nat} {e : Int} (hm : 0 < m) {M : Nat} {q : Int} (hc : Canonical M q)
    (hcovers : Covers M q (m * 2 ^ e)) (sign : Sign) : round .binary64 sign m e = .finite sign M q hc.pos := by
  unfold UnpackedFloat.round decreaseExponent
  rw [targetExponent_eq]
  dsimp only
  set k : Nat := (e - max (totalExponent m e - 53) (-1074)).toNat with hk
  unfold totalExponent at hk
  rw [Nat.shiftLeft_eq]
  refine roundWithAccuracy_eq (represents_exact _) ?_ hc ?_ _
  · by_cases hleast : e - k ≤ -1074
    · exact Or.inr hleast
    · refine Or.inl ?_
      calc 2 ^ 52 ≤ 2 ^ (m.log2 + k) := Nat.pow_le_pow_right (by decide) (by omega)
        _ = 2 ^ m.log2 * 2 ^ k := pow_add _ _ _
        _ ≤ m * 2 ^ k := Nat.mul_le_mul_right _ (Nat.log2_self_le hm.ne')
  · convert hcovers using 1
    rw [zpow_sub₀ (by norm_num), zpow_natCast]
    push_cast
    field_simp

/-- A whole number of at most 53 bits has a canonical pair of its own. -/
theorem exists_canonical_natCast {n : Nat} (hn : 0 < n) (hlt : n < 2 ^ 53) :
    ∃ m q, Canonical m q ∧ 2 ^ 52 ≤ m ∧ (m : ℚ) * 2 ^ q = n := by
  have hlog : n.log2 < 53 := (Nat.log2_lt hn.ne').mpr hlt
  obtain ⟨k, hk⟩ : ∃ k, n.log2 + k = 52 := ⟨52 - n.log2, by omega⟩
  have hlow : 2 ^ 52 ≤ n * 2 ^ k := by
    calc 2 ^ 52 = 2 ^ n.log2 * 2 ^ k := by rw [← pow_add, hk]
      _ ≤ n * 2 ^ k := Nat.mul_le_mul_right _ (Nat.log2_self_le hn.ne')
  have hhigh : n * 2 ^ k < 2 ^ 53 := by
    calc n * 2 ^ k < 2 ^ (n.log2 + 1) * 2 ^ k := Nat.mul_lt_mul_of_pos_right Nat.lt_log2_self (by positivity)
      _ = 2 ^ 53 := by rw [← pow_add, show n.log2 + 1 + k = 53 by omega]
  refine ⟨n * 2 ^ k, -k, ⟨by positivity, hhigh, by omega, by omega, Or.inl hlow⟩, hlow, ?_⟩
  rw [zpow_neg, zpow_natCast]
  push_cast
  field_simp

end SchemeMachine.Binary
