import SchemeMachine.Decimal.Notation
import SchemeMachine.Proofs.Number.Rounding

/-!
# The 64 bits of a value

`Binary.ofFloat` decodes the bits of a value by division; the arithmetic of `Float` takes them apart and puts them
together as bit vectors. The two agree.

* `ofFloat_injective` says that a finite value is determined by its sign, mantissa and exponent.
* `ofFloat_pack` reads back what the arithmetic puts together, `unpack_eq` is what it takes apart.
* `canonical_of_ofFloat`: every positive mantissa that comes out of a value is canonical with its exponent.
* `ofFloat_neg`, `ofFloat_mul`, `ofFloat_div` and `ofFloat_ofNat` are the operations that reading a numeral uses.
-/

namespace SchemeMachine.Binary

open Float.Model Float.Model.UnpackedFloat

/-- The sign as the arithmetic has it. -/
def sign (negative : Bool) : Sign := if negative then .negative else .positive

/-! ### Decoding -/

/-- **A finite value, by its bits**: the exponent bits are not all set, and the leading bit of the mantissa is left out
unless they are all zero. -/
theorem ofFloat_eq_finite_iff {x : Float} {negative : Bool} {m : Nat} {q : Int} :
    ofFloat x = .finite negative m q ↔
      x.toBits.toNat / 2 ^ 52 % 2048 ≠ 2047 ∧ (negative = true ↔ x.toBits.toNat / 2 ^ 63 = 1) ∧
        ((x.toBits.toNat / 2 ^ 52 % 2048 = 0 ∧ m = x.toBits.toNat % 2 ^ 52 ∧ q = -1074) ∨
          (x.toBits.toNat / 2 ^ 52 % 2048 ≠ 0 ∧ m = x.toBits.toNat % 2 ^ 52 + 2 ^ 52 ∧
            q = ((x.toBits.toNat / 2 ^ 52 % 2048 : Nat) : Int) - 1075)) := by
  have hpow (n : Nat) : Nat.pow 2 n = 2 ^ n := rfl
  have hsign : (negative = true ↔ x.toBits.toNat / 2 ^ 63 = 1) ↔ (x.toBits.toNat / 2 ^ 63 == 1) = negative := by
    rw [@Bool.eq_iff_iff _ negative, beq_iff_eq]
    exact Iff.comm
  rw [hsign]
  simp only [ofFloat, hpow, Int.ofNat_eq_natCast]
  generalize x.toBits.toNat / 2 ^ 52 % 2048 = power
  by_cases hinf : power = 2047
  · rw [if_pos hinf]
    constructor
    · split <;> intro h <;> cases h
    · exact fun h => absurd hinf h.1
  · rw [if_neg hinf]
    by_cases hzero : power = 0
    · simp only [hzero, if_true, finite.injEq, ne_eq, OfNat.zero_ne_ofNat, not_false_eq_true, true_and,
        not_true_eq_false, false_and, or_false, eq_comm]
    · simp only [hinf, hzero, if_false, finite.injEq, ne_eq, not_false_eq_true, true_and, false_and, false_or, eq_comm]

/-- A value is determined by its bits. -/
theorem eq_of_toBits_toNat {x y : Float} (h : x.toBits.toNat = y.toBits.toNat) : x = y := by
  obtain ⟨⟨xbits, hx⟩⟩ := x
  obtain ⟨⟨ybits, hy⟩⟩ := y
  have hbits : xbits = ybits := UInt64.toNat_inj.mp h
  subst hbits
  rfl

/-- **A finite value is determined by its sign, mantissa and exponent.** -/
theorem ofFloat_injective {x y : Float} {negative : Bool} {m : Nat} {q : Int} (hx : ofFloat x = .finite negative m q)
    (hy : ofFloat y = .finite negative m q) : x = y := by
  obtain ⟨hx₁, hx₂, hx₃⟩ := ofFloat_eq_finite_iff.mp hx
  obtain ⟨hy₁, hy₂, hy₃⟩ := ofFloat_eq_finite_iff.mp hy
  have hxlt := x.toBits.toNat_lt
  have hylt := y.toBits.toNat_lt
  apply eq_of_toBits_toNat
  -- the bits are the sign, the exponent and the fraction one after another
  have hsign : x.toBits.toNat / 2 ^ 63 = 1 ↔ y.toBits.toNat / 2 ^ 63 = 1 := hx₂.symm.trans hy₂
  rcases hx₃ with ⟨h₁, rfl, rfl⟩ | ⟨h₁, rfl, rfl⟩ <;> rcases hy₃ with ⟨h₂, hm, hq⟩ | ⟨h₂, hm, hq⟩ <;> omega

/-- The mantissa and exponent of a value other than zero are canonical. -/
theorem canonical_of_ofFloat {x : Float} {negative : Bool} {m : Nat} {q : Int} (hx : ofFloat x = .finite negative m q)
    (hm : 0 < m) : Canonical m q := by
  obtain ⟨hpower, -, hcases⟩ := ofFloat_eq_finite_iff.mp hx
  have hfraction : x.toBits.toNat % 2 ^ 52 < 2 ^ 52 := Nat.mod_lt _ (by decide)
  have hrange : x.toBits.toNat / 2 ^ 52 % 2048 < 2048 := Nat.mod_lt _ (by decide)
  rcases hcases with ⟨hzero, rfl, rfl⟩ | ⟨hzero, rfl, rfl⟩
  · exact ⟨hm, by omega, by omega, by omega, Or.inr rfl⟩
  · exact ⟨hm, by omega, by omega, by omega, Or.inl (by omega)⟩

/-! ### Taking apart -/

theorem toNat_unpackMantissa (b : BitVec Format.binary64.numBits) : (unpackMantissa b).toNat = b.toNat % 2 ^ 52 := by
  simp [unpackMantissa, BitVec.extractLsb_toNat]

theorem toNat_unpackExponent (b : BitVec Format.binary64.numBits) :
    (unpackExponent b).toNat = b.toNat / 2 ^ 52 % 2048 := by
  simp [unpackExponent, BitVec.extractLsb_toNat, Nat.shiftRight_eq_div_pow]

theorem toNat_unpackSign (b : BitVec Format.binary64.numBits) : (unpackSign b).toNat = b.toNat / 2 ^ 63 := by
  have hlt : b.toNat < 2 ^ 64 := b.isLt
  have hbit : (unpackSign b).toNat = b.toNat / 2 ^ 63 % 2 := by
    simp [unpackSign, BitVec.extractLsb_toNat, Nat.shiftRight_eq_div_pow]
  omega

/-- A mantissa with the leading bit that is not stored. -/
theorem toNat_implicit (v : BitVec 52) : (1#1 ++ v).toNat = v.toNat + 2 ^ 52 := by
  rw [BitVec.toNat_append, ← Nat.shiftLeft_add_eq_or_of_lt v.isLt, Nat.add_comm]
  rfl

/-- **What the arithmetic takes a value apart into.** -/
theorem unpack_eq {x : Float} {negative : Bool} {m : Nat} {q : Int} (hx : ofFloat x = .finite negative m q)
    (hm : 0 < m) : x.toModel.unpack = .finite (sign negative) m q hm := by
  obtain ⟨hpower, hnegative, hcases⟩ := ofFloat_eq_finite_iff.mp hx
  -- the same bits, as a bit vector and as a number
  set b : BitVec Format.binary64.numBits := x.toModel.toBits.toBitVec with hb
  have hbits : x.toBits.toNat = b.toNat := rfl
  rw [hbits] at hpower hnegative hcases
  have hsign : Sign.ofBitVec (unpackSign b) = sign negative := by
    have hlt : b.toNat < 2 ^ 64 := b.isLt
    have hzero : unpackSign b = 0#1 ↔ negative = false := by
      rw [← BitVec.toNat_inj, toNat_unpackSign, BitVec.toNat_ofNat, Nat.zero_mod, ← Bool.not_eq_true, hnegative]
      omega
    unfold Sign.ofBitVec sign
    cases negative with
    | true => exact if_neg fun h => Bool.noConfusion (hzero.mp h)
    | false => exact if_pos (hzero.mpr rfl)
  have hexponent : unpackExponent b ≠ -1#_ := by
    rw [ne_eq, ← BitVec.toNat_inj, toNat_unpackExponent]
    exact hpower
  have hleast : (unpackExponent b = 0#_) = (b.toNat / 2 ^ 52 % 2048 = 0) := by
    rw [← BitVec.toNat_inj, toNat_unpackExponent]
    rfl
  have hbias : ((Format.binary64.exponentBias : Int) + (52 : Nat)) = 1075 := rfl
  unfold Float.Model.unpack UnpackedFloat.unpack
  rw [← hb]
  simp only [hexponent, if_false, hsign, hleast, hbias]
  -- a subnormal value has all of its mantissa stored, a normal one lacks the leading bit
  rcases hcases with ⟨hzero, rfl, rfl⟩ | ⟨hzero, rfl, rfl⟩
  · have hmantissa : unpackMantissa b ≠ 0#_ := by
      rw [ne_eq, ← BitVec.toNat_inj, toNat_unpackMantissa]
      exact hm.ne'
    simp only [hzero, if_true, hmantissa, dif_neg, not_false_eq_true, toNat_unpackMantissa, toNat_unpackExponent]
    congr 1
  · simp only [hzero, if_false, toNat_implicit, toNat_unpackMantissa, toNat_unpackExponent]

/-! ### Putting together -/

theorem toNat_packComponents (s : Sign) (e : BitVec 11) (m : BitVec 52) :
    (packComponents .binary64 s e m).toNat = s.toBitVec.toNat * 2 ^ 63 + e.toNat * 2 ^ 52 + m.toNat := by
  unfold packComponents
  rw [BitVec.toNat_append, ← Nat.shiftLeft_add_eq_or_of_lt m.isLt, BitVec.toNat_append,
    ← Nat.shiftLeft_add_eq_or_of_lt e.isLt, Nat.shiftLeft_eq, Nat.shiftLeft_eq]
  ring

/-- **What the arithmetic puts together is decoded to the same**, for a canonical pair. -/
theorem ofFloat_pack (negative : Bool) {m : Nat} {q : Int} (h : Canonical m q) :
    ofFloat (.ofModel (Float.Model.pack (.finite (sign negative) m q h.pos))) = .finite negative m q := by
  have hlt := h.lt_pow
  have hle := h.le_exponent
  have hmost := h.exponent_le
  set x : Float := .ofModel (Float.Model.pack (.finite (sign negative) m q h.pos)) with hx
  have hbits : x.toBits.toNat = (UnpackedFloat.pack .binary64 (.finite (sign negative) m q h.pos)).toNat := rfl
  have hsign : (sign negative).toBitVec.toNat = if negative then 1 else 0 := by cases negative <;> rfl
  have hbiased : (q + Format.binary64.exponentBias + (52 : Nat)).toNat = (q + 1075).toNat := by
    have : (Format.binary64.exponentBias : Int) = 1023 := rfl
    omega
  have hsignle : (sign negative).toBitVec.toNat ≤ 1 := by
    rw [hsign]
    split <;> decide
  have hnegative (rest : Nat) (hrest : rest < 2 ^ 63) :
      negative = true ↔ ((sign negative).toBitVec.toNat * 2 ^ 63 + rest) / 2 ^ 63 = 1 := by
    rw [hsign]
    cases negative with
    | true => simp; omega
    | false => simp; omega
  have hfits : ¬2 ^ Format.binary64.exponentBits ≤ (q + 1075).toNat + 1 := by
    have : 2 ^ Format.binary64.exponentBits = 2048 := rfl
    omega
  rw [ofFloat_eq_finite_iff, hbits]
  simp only [UnpackedFloat.pack, hbiased, if_neg hfits]
  by_cases hfull : 2 ^ 52 ≤ m
  · -- all bits are used: the leading one is dropped
    have hlog : m.log2 + 1 = Format.binary64.mantissaBits := by
      have h₁ := (Nat.le_log2 h.pos.ne').mpr hfull
      have h₂ := (Nat.log2_lt h.pos.ne').mpr hlt
      have h₃ : Format.binary64.mantissaBits = 53 := rfl
      omega
    rw [if_pos hlog, toNat_packComponents, BitVec.toNat_ofNat, BitVec.toNat_ofNat]
    rw [Nat.add_assoc]
    refine ⟨by omega, hnegative _ (by omega), Or.inr ⟨by omega, by omega, by omega⟩⟩
  · have hleast : q = -1074 := h.full.resolve_left hfull
    have hlog : ¬m.log2 + 1 = Format.binary64.mantissaBits := by
      have h₂ := (Nat.log2_lt h.pos.ne').mpr (Nat.lt_of_not_le hfull)
      have h₃ : Format.binary64.mantissaBits = 53 := rfl
      omega
    rw [if_neg hlog, toNat_packComponents, BitVec.toNat_ofNat, BitVec.toNat_ofNat]
    rw [Nat.add_assoc]
    refine ⟨by omega, hnegative _ (by omega), Or.inl ⟨by omega, by omega, hleast⟩⟩

/-! ### The operations -/

/-- **The negation of a value.** -/
theorem ofFloat_neg {x : Float} {negative : Bool} {m : Nat} {q : Int} (hx : ofFloat x = .finite negative m q)
    (hm : 0 < m) : ofFloat (-x) = .finite (!negative) m q := by
  have hneg : -x = .ofModel (Float.Model.pack x.toModel.unpack.neg) := rfl
  have hsign : -sign negative = sign (!negative) := by cases negative <;> rfl
  rw [hneg, unpack_eq hx hm, UnpackedFloat.neg, hsign]
  exact ofFloat_pack _ (canonical_of_ofFloat hx hm)

/-- **A product** of positive values that lies in the rounding interval of a pair. -/
theorem ofFloat_mul {x y : Float} {m₁ m₂ : Nat} {e₁ e₂ : Int} (hx : ofFloat x = .finite false m₁ e₁)
    (hy : ofFloat y = .finite false m₂ e₂) (h₁ : 2 ^ 52 ≤ m₁) (h₂ : 0 < m₂) {M : Nat} {q : Int} (hc : Canonical M q)
    (hcovers : Covers M q (m₁ * 2 ^ e₁ * (m₂ * 2 ^ e₂))) : ofFloat (x * y) = .finite false M q := by
  have hmul : x * y = .ofModel (Float.Model.pack (UnpackedFloat.mul .binary64 x.toModel.unpack y.toModel.unpack)) := rfl
  rw [hmul, unpack_eq hx (by omega), unpack_eq hy h₂, mul_eq _ _ (le_trans h₁ (Nat.le_mul_of_pos_right _ h₂)) hc hcovers]
  exact ofFloat_pack false hc

/-- **A quotient** of positive values that lies in the rounding interval of a pair. -/
theorem ofFloat_div {x y : Float} {m₁ m₂ : Nat} {e₁ e₂ : Int} (hx : ofFloat x = .finite false m₁ e₁)
    (hy : ofFloat y = .finite false m₂ e₂) (h₁ : 0 < m₁) (h₂ : 0 < m₂) {M : Nat} {q : Int} (hc : Canonical M q)
    (hcovers : Covers M q (m₁ * 2 ^ e₁ / (m₂ * 2 ^ e₂))) : ofFloat (x / y) = .finite false M q := by
  have hdiv : x / y = .ofModel (Float.Model.pack (UnpackedFloat.div .binary64 x.toModel.unpack y.toModel.unpack)) := rfl
  rw [hdiv, unpack_eq hx h₁, unpack_eq hy h₂, div_eq _ _ hc hcovers]
  exact ofFloat_pack false hc

/-- **A whole number of at most 53 bits is a value.** -/
theorem ofFloat_toFloat {n : Nat} (hn : 0 < n) (hlt : n < 2 ^ 53) :
    ∃ m q, ofFloat n.toUInt64.toFloat = .finite false m q ∧ 2 ^ 52 ≤ m ∧ (m : ℚ) * 2 ^ q = n := by
  obtain ⟨m, q, hc, hfull, hvalue⟩ := exists_canonical_natCast hn hlt
  refine ⟨m, q, ?_, hfull, hvalue⟩
  have hnat : n.toUInt64.toNat = n := by
    rw [Nat.toUInt64, UInt64.toNat_ofNat']
    omega
  have hfloat : n.toUInt64.toFloat = .ofModel (Float.Model.pack (UnpackedFloat.ofNat .binary64 n.toUInt64.toNat)) := rfl
  have hcompare : compare (n : Int) 0 = .gt := Int.compare_eq_gt.mpr (by omega)
  have hround : UnpackedFloat.ofNat .binary64 n = .finite .positive m q hc.pos := by
    simp only [UnpackedFloat.ofNat, UnpackedFloat.ofInt, UnpackedFloat.normalize, hcompare, Int.toNat_natCast]
    refine round_eq hn hc ?_ _
    rw [zpow_zero, mul_one, ← hvalue]
    exact covers_self m q
  rw [hfloat, hnat, hround]
  exact ofFloat_pack false hc

end SchemeMachine.Binary
