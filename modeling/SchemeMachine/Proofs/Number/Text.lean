import SchemeMachine.Proofs.Number.Shortest
import SchemeMachine.Proofs.Syntax.Lexing

/-!
# A number survives being written

The text of a finite number is its shortest decimal, positionally. Reading it gives the number back.

* `readUnsigned?_positional` says that reading the digits of a decimal gives the decimal, wherever the point is.
* `read?_text` is the round trip: **every finite number is read back from its text**.
* `reread_beq` and `display_reread` are the same of the text that a program shows, which has no sign for zero: what is
  read equals the number and is shown the same way.
-/

namespace SchemeMachine.Number

open Binary Float.Model

/-! ### The digits of a decimal -/

theorem digitsValue_eq (cs : List Char) : digitsValue cs = Nat.ofDigitChars 10 cs 0 := rfl

theorem digitsValue_digitChars (d : Decimal) : digitsValue d.digitChars = d.digits := Nat.ofDigitChars_ten_toDigits

/-- Zeros after the digits. -/
theorem digitsValue_append_zeros (cs : List Char) (n : Nat) :
    digitsValue (cs ++ List.replicate n '0') = digitsValue cs * 10 ^ n := by
  rw [digitsValue_eq, digitsValue_eq, Nat.ofDigitChars_append, Nat.ofDigitChars_replicate_zero, Nat.mul_comm]

/-- Zeros before the digits. -/
theorem digitsValue_zeros_append (cs : List Char) (n : Nat) :
    digitsValue (List.replicate n '0' ++ cs) = digitsValue cs := by
  rw [digitsValue_eq, digitsValue_eq, Nat.ofDigitChars_append, Nat.ofDigitChars_replicate_zero, Nat.mul_zero]

/-- **Reading the digits of a decimal gives the decimal**, wherever the point is. -/
theorem readUnsigned?_positional (d : Decimal) :
    ∃ n e, readUnsigned? d.positional = some (ofDecimal n e) ∧ (n : ℚ) * 10 ^ e = d.value := by
  have hdigits : ∀ c ∈ d.digitChars, c.isDigit = true := fun c hc =>
    Nat.isDigit_of_mem_toDigits (by decide) (by decide) hc
  have hzeros (n : Nat) : ∀ c ∈ List.replicate n '0', c.isDigit = true := fun c hc => by
    rw [List.eq_of_mem_replicate hc]
    rfl
  have hne : d.digitChars ≠ [] := Nat.toDigits_ne_nil
  unfold Decimal.positional
  dsimp only
  split
  · next he =>
    -- zeros to the right of the digits
    obtain ⟨n, hn⟩ := Int.eq_ofNat_of_zero_le he
    refine ⟨_, 0, readUnsigned?_whole (by simp [hne]) (List.forall_mem_append.mpr ⟨hdigits, hzeros _⟩), ?_⟩
    rw [digitsValue_append_zeros, digitsValue_digitChars, Decimal.value, hn, Int.toNat_natCast, zpow_natCast, zpow_zero,
      mul_one]
    push_cast
    rfl
  · next he =>
    obtain ⟨n, hn⟩ := Int.eq_ofNat_of_zero_le (by omega : 0 ≤ -d.exponent)
    have hexponent : d.exponent = -(n : Int) := by omega
    have hvalue : (d.digits : ℚ) * 10 ^ (-(n : Int)) = d.value := by rw [Decimal.value, hexponent]
    rw [hn, Int.toNat_natCast]
    split
    · next hplaces =>
      -- the point among the digits
      have htake : d.digitChars.take (d.digitChars.length - n) ≠ [] := by
        rw [ne_eq, List.take_eq_nil_iff, not_or]
        exact ⟨by omega, hne⟩
      refine ⟨_, _, readUnsigned?_point htake (fun c hc => hdigits c (List.mem_of_mem_take hc))
        (fun c hc => hdigits c (List.mem_of_mem_drop hc)), ?_⟩
      rw [List.take_append_drop, digitsValue_digitChars, List.length_drop, Int.ofNat_eq_natCast,
        show d.digitChars.length - (d.digitChars.length - n) = n by omega]
      exact hvalue
    · next hplaces =>
      -- zeros between the point and the digits
      refine ⟨_, _, readUnsigned?_point (List.cons_ne_nil '0' []) (by decide)
        (List.forall_mem_append.mpr ⟨hzeros (n - d.digitChars.length), hdigits⟩), ?_⟩
      have hcons : ['0'] ++ (List.replicate (n - d.digitChars.length) '0' ++ d.digitChars) =
          List.replicate (n - d.digitChars.length + 1) '0' ++ d.digitChars := rfl
      rw [hcons, digitsValue_zeros_append, digitsValue_digitChars, List.length_append, List.length_replicate,
        Int.ofNat_eq_natCast, show n - d.digitChars.length + d.digitChars.length = n by omega]
      exact hvalue

/-- **The shortest decimal of a value is read as that value.** -/
theorem readUnsigned?_shortest (tie : Tie) {m : Nat} {q : Int} (hc : Canonical m q) :
    ∃ y, readUnsigned? (Decimal.shortest tie m q).positional = some y ∧ ofFloat y = .finite false m q := by
  obtain ⟨n, e, hread, hvalue⟩ := readUnsigned?_positional (Decimal.shortest tie m q)
  have hcovers := Decimal.covers_shortest tie hc
  rw [← hvalue] at hcovers
  refine ⟨_, hread, ofFloat_ofDecimal (Nat.pos_of_ne_zero ?_) hc hcovers⟩
  rintro rfl
  have hpos := (hcovers.within hc).1
  rw [Nat.cast_zero, zero_mul] at hpos
  exact absurd hpos (not_lt.mpr (by positivity))

/-! ### The round trip -/

theorem ofFloat_zero : ofFloat 0.0 = .finite false 0 (-1074) := by decide

theorem ofFloat_neg_zero : ofFloat (-0.0) = .finite true 0 (-1074) := by decide

/-- A value with mantissa zero is one of the two zeros. -/
theorem eq_zero_of_ofFloat {x : Float} {negative : Bool} {q : Int} (hx : ofFloat x = .finite negative 0 q) :
    x = if negative then -0.0 else 0.0 := by
  obtain ⟨-, -, ⟨-, -, rfl⟩ | ⟨-, h, -⟩⟩ := ofFloat_eq_finite_iff.mp hx
  · cases negative with
    | true => exact ofFloat_injective hx ofFloat_neg_zero
    | false => exact ofFloat_injective hx ofFloat_zero
  · omega

theorem isDecimal_zero : IsDecimal ['0'] := ⟨['0'], [], List.cons_ne_nil _ _, by decide, by simp, Or.inl rfl⟩

/-- **Every finite number is read back from its text.** -/
theorem read?_text {x : Float} (hx : IsFinite x) : read? (text x) = some x := by
  obtain ⟨negative, m, q, hx⟩ := hx
  unfold text
  rw [hx]
  dsimp only
  split
  · next hm =>
    subst hm
    have hzero : readUnsigned? ['0'] = some 0.0 := rfl
    rw [isDecimal_zero.read?_signed, hzero, Option.map_some, eq_zero_of_ofFloat hx]
  · next hm =>
    have hpos : 0 < m := Nat.pos_of_ne_zero hm
    obtain ⟨y, hread, hy⟩ := readUnsigned?_shortest .up (canonical_of_ofFloat hx hpos)
    rw [(isDecimal_positional _).read?_signed, hread, Option.map_some]
    cases negative with
    | true => exact congrArg some (ofFloat_injective (ofFloat_neg hy hpos) hx)
    | false => exact congrArg some (ofFloat_injective hy hx)

theorem display_of_zero {x : Float} {negative : Bool} {q : Int} (hx : ofFloat x = .finite negative 0 q) :
    display x = "0" := by
  unfold display
  rw [hx]
  rfl

/-- The text that a program shows differs from the text of the number at zero only. -/
theorem reread_of_pos {x : Float} {negative : Bool} {m : Nat} {q : Int} (hx : ofFloat x = .finite negative m q)
    (hm : 0 < m) : reread x = x := by
  have hdisplay : display x = text x := by
    obtain ⟨m, rfl⟩ := Nat.exists_eq_succ_of_ne_zero hm.ne'
    unfold display
    rw [hx]
    rfl
  rw [reread, hdisplay, read?_text ⟨negative, m, q, hx⟩, Option.getD_some]

theorem reread_of_zero {x : Float} {negative : Bool} {q : Int} (hx : ofFloat x = .finite negative 0 q) :
    reread x = 0.0 := by
  rw [reread, display_of_zero hx]
  rfl

/-- A finite number equals itself, also as the program compares numbers. -/
theorem beq_self_of_pos {x : Float} {negative : Bool} {m : Nat} {q : Int} (hx : ofFloat x = .finite negative m q)
    (hm : 0 < m) : (x == x) = true := by
  have hbeq : (x == x) = UnpackedFloat.beq x.toModel.unpack x.toModel.unpack := rfl
  rw [hbeq, unpack_eq hx hm]
  cases negative <;> simp [UnpackedFloat.beq, UnpackedFloat.compare, sign]

/-- **A number that has been shown and read again equals the number.** -/
theorem reread_beq {x : Float} (hx : IsFinite x) : (reread x == x) = true := by
  obtain ⟨negative, m, q, hx⟩ := hx
  by_cases hm : m = 0
  · subst hm
    rw [reread_of_zero hx, eq_zero_of_ofFloat hx]
    cases negative <;> decide
  · have hpos := Nat.pos_of_ne_zero hm
    rw [reread_of_pos hx hpos]
    exact beq_self_of_pos hx hpos

theorem display_reread {x : Float} (hx : IsFinite x) : display (reread x) = display x := by
  obtain ⟨negative, m, q, hx⟩ := hx
  by_cases hm : m = 0
  · subst hm
    rw [reread_of_zero hx, display_of_zero hx, display_of_zero ofFloat_zero]
  · rw [reread_of_pos hx (Nat.pos_of_ne_zero hm)]

end SchemeMachine.Number
