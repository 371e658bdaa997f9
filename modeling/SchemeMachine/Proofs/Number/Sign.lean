import SchemeMachine.Machine.Primitive
import SchemeMachine.Proofs.Lineage
import SchemeMachine.Proofs.Number.Text

/-!
# The sign of zero

Numbers that compare as equal are the same, or both zero. No operation of the machine tells the two zeros apart, as a
divisor near zero is refused: from numbers that agree up to the sign of zero come numbers that do.

* `Number.Agree` is the relation, and `Number.agree_of_beq` says where it comes from.
* `Number.Agree.add` and its siblings are the operations, `Number.Agree.display` is the text.
-/

namespace SchemeMachine

open Float.Model

/-- What two numbers are taken apart into agrees, up to the sign of zero. -/
def Unsigned (u v : UnpackedFloat) : Prop := u = v ∨ ∃ s s', u = .zero s ∧ v = .zero s'

/-- **Numbers that agree up to the sign of zero.** -/
def Number.Agree (x y : Float) : Prop := Unsigned x.toModel.unpack y.toModel.unpack

namespace Unsigned

variable {u v u' v' : UnpackedFloat}

theorem refl (u : UnpackedFloat) : Unsigned u u := Or.inl rfl

theorem zero (s s' : UnpackedFloat.Sign) : Unsigned (.zero s) (.zero s') := Or.inr ⟨s, s', rfl, rfl⟩

/-- What is put together is taken apart again; a zero keeps its sign. -/
theorem pack (h : Unsigned u v) : Unsigned (Float.Model.pack u).unpack (Float.Model.pack v).unpack := by
  rcases h with rfl | ⟨s, s', rfl, rfl⟩
  · exact refl _
  · have hzero (s : UnpackedFloat.Sign) : (Float.Model.pack (.zero s)).unpack = .zero s :=
      UnpackedFloat.unpack_packedZero
    rw [hzero, hzero]
    exact zero s s'

theorem abs (h : Unsigned u v) : u.abs = v.abs := by
  rcases h with rfl | ⟨s, s', rfl, rfl⟩ <;> rfl

/-- **An operation that does not tell the zeros apart**: of two zeros it makes a zero, and beside anything else their sign
does not matter. -/
theorem operation {f : UnpackedFloat → UnpackedFloat → UnpackedFloat}
    (hzeros : ∀ s s', ∃ s'', f (.zero s) (.zero s') = .zero s'')
    (hleft : ∀ s t w, (∀ r, w ≠ .zero r) → Unsigned (f (.zero s) w) (f (.zero t) w))
    (hright : ∀ s t w, (∀ r, w ≠ .zero r) → Unsigned (f w (.zero s)) (f w (.zero t))) (h : Unsigned u v)
    (h' : Unsigned u' v') : Unsigned (f u u') (f v v') := by
  have hboth (s s' t t' : UnpackedFloat.Sign) : Unsigned (f (.zero s) (.zero s')) (f (.zero t) (.zero t')) := by
    obtain ⟨a, ha⟩ := hzeros s s'
    obtain ⟨b, hb⟩ := hzeros t t'
    rw [ha, hb]
    exact zero a b
  rcases h with rfl | ⟨s, t, rfl, rfl⟩ <;> rcases h' with rfl | ⟨s', t', rfl, rfl⟩
  · exact refl _
  · by_cases hu : ∃ r, u = .zero r
    · obtain ⟨r, rfl⟩ := hu
      exact hboth r s' r t'
    · exact hright s' t' u fun r hr => hu ⟨r, hr⟩
  · by_cases hu : ∃ r, u' = .zero r
    · obtain ⟨r, rfl⟩ := hu
      exact hboth s r t r
    · exact hleft s t u' fun r hr => hu ⟨r, hr⟩
  · exact hboth s s' t t'

/-- The sum of two zeros is a zero; of a zero and something else it is the other. -/
theorem add (h : Unsigned u v) (h' : Unsigned u' v') : Unsigned (u.add .binary64 u') (v.add .binary64 v') := by
  refine operation (f := UnpackedFloat.add .binary64) (fun s s' => ?_) (fun s t w hw => ?_) (fun s t w hw => ?_) h h'
  · simp only [UnpackedFloat.add]
    split <;> exact ⟨_, rfl⟩
  all_goals
    cases w with
    | zero r => exact absurd rfl (hw r)
    | _ => exact refl _

theorem sub (h : Unsigned u v) (h' : Unsigned u' v') : Unsigned (u.sub .binary64 u') (v.sub .binary64 v') := by
  refine operation (f := UnpackedFloat.sub .binary64) (fun s s' => ?_) (fun s t w hw => ?_) (fun s t w hw => ?_) h h'
  · simp only [UnpackedFloat.sub]
    split <;> exact ⟨_, rfl⟩
  all_goals
    cases w with
    | zero r => exact absurd rfl (hw r)
    | _ => exact refl _

/-- The product of a zero is a zero, or no number. -/
theorem mul (h : Unsigned u v) (h' : Unsigned u' v') : Unsigned (u.mul .binary64 u') (v.mul .binary64 v') := by
  refine operation (f := UnpackedFloat.mul .binary64) (fun s s' => ⟨_, rfl⟩) (fun s t w hw => ?_) (fun s t w hw => ?_) h h'
  all_goals
    cases w with
    | zero r => exact absurd rfl (hw r)
    | finite => exact zero _ _
    | _ => exact refl _

/-- A quotient depends on the sign of its divisor, if that is zero. -/
theorem div (h : Unsigned u v) (h' : ∀ s, u' ≠ .zero s) : Unsigned (u.div .binary64 u') (v.div .binary64 u') := by
  rcases h with rfl | ⟨s, t, rfl, rfl⟩
  · exact refl _
  · cases u' with
    | zero r => exact absurd rfl (h' r)
    | _ => first | exact refl _ | exact zero _ _

/-- **The order does not know the sign of zero.** -/
theorem compare (h : Unsigned u v) (h' : Unsigned u' v') : u.compare u' = v.compare v' := by
  rcases h with rfl | ⟨s, t, rfl, rfl⟩ <;> rcases h' with rfl | ⟨s', t', rfl, rfl⟩
  · rfl
  · rcases u with (_ | _) | _ | _ | ⟨_ | _⟩ <;> rfl
  · rcases u' with (_ | _) | _ | _ | ⟨_ | _⟩ <;> rfl
  · rfl

end Unsigned

namespace Number

variable {x y x' y' : Float}

/-- A number is determined by what it is taken apart into. -/
theorem eq_of_unpack (h : x.toModel.unpack = y.toModel.unpack) : x = y := by
  apply Binary.eq_of_toBits_toNat
  have hbits (z : Float) : UnpackedFloat.pack .binary64 z.toModel.unpack = z.toModel.toBits.toBitVec :=
    UnpackedFloat.pack_unpack_of_valid z.toModel.valid
  have heq : x.toModel.toBits.toBitVec = y.toModel.toBits.toBitVec := by rw [← hbits, ← hbits, h]
  exact congrArg BitVec.toNat heq

/-- A number that is taken apart into a zero is one of the two zeros. -/
theorem eq_zero_of_unpack {s : UnpackedFloat.Sign} (h : x.toModel.unpack = .zero s) : x = 0.0 ∨ x = -0.0 := by
  have hx : x = .ofModel (pack (.zero s)) := eq_of_unpack (h.trans UnpackedFloat.unpack_packedZero.symm)
  cases s with
  | positive => exact Or.inl (hx.trans (Binary.eq_of_toBits_toNat (by decide)))
  | negative => exact Or.inr (hx.trans (Binary.eq_of_toBits_toNat (by decide)))

theorem lt_iff_compare : x < y ↔ x.toModel.unpack.compare y.toModel.unpack = some .lt := by
  unfold LT.lt instLTFloat Float.lt
  simp only [decide_eq_true_eq]
  exact beq_iff_eq

theorem le_iff_compare : x ≤ y ↔ (x.toModel.unpack.compare y.toModel.unpack).any (·.isLE) = true := by
  unfold LE.le instLEFloat Float.le
  simp only [decide_eq_true_eq]
  exact Iff.rfl

theorem agree_of_zero {s s' : UnpackedFloat.Sign} (hx : x.toModel.unpack = .zero s) (hy : y.toModel.unpack = .zero s') :
    Agree x y :=
  Or.inr ⟨s, s', hx, hy⟩

/-- Nothing, with a sign. -/
theorem signed_scaled_zero (negative : Bool) (e : Int) :
    (if negative then -scaled 0 e else scaled 0 e).toModel.unpack = .zero (Binary.sign negative) := by
  have hzero : (scaled 0 e).toModel.unpack = .zero .positive := UnpackedFloat.unpack_packedZero
  cases negative with
  | false => exact hzero
  | true =>
    change (pack (scaled 0 e).toModel.unpack.neg).unpack = _
    rw [hzero]
    exact UnpackedFloat.unpack_packedZero

/-- **Numbers that compare as equal agree.** -/
theorem agree_of_beq (h : (x == y) = true) : Agree x y := (unpacked_beq.mp (float_beq.mp h)).2

namespace Agree

theorem refl (x : Float) : Agree x x := Unsigned.refl _

theorem trans (h : Agree x y) (h' : Agree y x') : Agree x x' := by
  rcases h with h | ⟨s, t, h, hy⟩
  · rw [Agree, h]
    exact h'
  · rcases h' with h' | ⟨s', t', -, h'⟩
    · exact Or.inr ⟨s, t, h, h' ▸ hy⟩
    · exact Or.inr ⟨s, t', h, h'⟩

theorem add (h : Agree x y) (h' : Agree x' y') : Agree (x + x') (y + y') := (Unsigned.add h h').pack

theorem sub (h : Agree x y) (h' : Agree x' y') : Agree (x - x') (y - y') := (Unsigned.sub h h').pack

theorem mul (h : Agree x y) (h' : Agree x' y') : Agree (x * x') (y * y') := (Unsigned.mul h h').pack

theorem abs (h : Agree x y) : x.abs = y.abs := eq_of_unpack (congrArg (fun u => (pack u).unpack) (Unsigned.abs h))

/-- Comparisons do not know the sign of zero. -/
theorem lt (h : Agree x y) (h' : Agree x' y') : x < x' ↔ y < y' := by
  rw [lt_iff_compare, lt_iff_compare, Unsigned.compare h h']

theorem le (h : Agree x y) (h' : Agree x' y') : x ≤ x' ↔ y ≤ y' := by
  rw [le_iff_compare, le_iff_compare, Unsigned.compare h h']

theorem beq (h : Agree x y) (h' : Agree x' y') : (x == x') = (y == y') :=
  congrArg (· == some Ordering.eq) (Unsigned.compare h h')

/-- Numbers that agree are the same, or both zero. -/
theorem eq_or_zero (h : Agree x y) : x = y ∨ (x = 0.0 ∨ x = -0.0) ∧ (y = 0.0 ∨ y = -0.0) := by
  rcases h with h | ⟨s, s', hx, hy⟩
  · exact Or.inl (eq_of_unpack h)
  · exact Or.inr ⟨eq_zero_of_unpack hx, eq_zero_of_unpack hy⟩

/-- **A divisor that is not refused** is the same as the number it agrees with. -/
theorem eq_of_divisor (h : Agree x y) (hx : ¬x.abs < Machine.smallestDivisor) : x = y := by
  refine h.eq_or_zero.resolve_right fun hzero => hx ?_
  rcases hzero.1 with rfl | rfl <;> decide

theorem div (h : Agree x y) (hx : ¬x'.abs < Machine.smallestDivisor) : Agree (x / x') (y / x') := by
  refine (Unsigned.div h fun s hs => hx ?_).pack
  rcases eq_zero_of_unpack hs with rfl | rfl <;> decide

/-- **The remainder of a zero is a zero**, or what the divisor makes of it. -/
theorem remainder (h : Agree x y) (x' : Float) : Agree (Number.remainder x x') (Number.remainder y x') := by
  rcases h.eq_or_zero with rfl | ⟨hzero, hzero'⟩
  · exact refl _
  · -- both zeros have the same exponent, and nothing is left of either
    have hfinite : ∀ z : Float, z = 0.0 ∨ z = -0.0 → ∃ negative, Binary.ofFloat z = .finite negative 0 (-1074) := by
      rintro z (rfl | rfl)
      · exact ⟨_, ofFloat_zero⟩
      · exact ⟨_, ofFloat_neg_zero⟩
    obtain ⟨a, ha⟩ := hfinite x hzero
    obtain ⟨b, hb⟩ := hfinite y hzero'
    unfold Number.remainder
    rw [ha, hb]
    cases hdivisor : Binary.ofFloat x' with
    | nan => exact refl _
    | infinite _ => exact h
    | finite _ n r =>
      dsimp only
      split
      · exact refl _
      · simp only [Nat.zero_mul, Nat.zero_mod]
        exact agree_of_zero (signed_scaled_zero a _) (signed_scaled_zero b _)

/-- The text of a number does not show the sign of zero. -/
theorem display (h : Agree x y) : Number.display x = Number.display y := by
  rcases h.eq_or_zero with rfl | ⟨hzero, hzero'⟩
  · rfl
  · have htext : ∀ z : Float, z = 0.0 ∨ z = -0.0 → Number.display z = "0" := by
      rintro z (rfl | rfl)
      · exact display_of_zero ofFloat_zero
      · exact display_of_zero ofFloat_neg_zero
    rw [htext x hzero, htext y hzero']

end Agree

end Number

end SchemeMachine
