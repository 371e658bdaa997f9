import SchemeMachine.Proofs.Number.Decimal
import SchemeMachine.Proofs.Syntax.Lexing

/-!
# A numeral is a number

The words `nan` and `inf` are no numerals, and reading digits never ends without a value: what a numeral is read as is
finite, or infinite if the numeral is too large.

* `Binary.ofFloat_pack_ne_nan`: the arithmetic puts together no value that is not a number, unless it was given one.
* `Number.ne_nan_of_isNumeral` is the result for a numeral.
-/

namespace SchemeMachine

namespace Binary

open Float.Model Float.Model.UnpackedFloat

/-- **No number at all, by its bits**: the exponent bits are all set, and the fraction is not zero. -/
theorem ofFloat_eq_nan_iff {x : Float} :
    ofFloat x = .nan ↔ x.toBits.toNat / 2 ^ 52 % 2048 = 2047 ∧ x.toBits.toNat % 2 ^ 52 ≠ 0 := by
  unfold ofFloat
  simp only [show Nat.pow 2 52 = 2 ^ 52 from rfl]
  split
  · next hpower =>
    split
    · next hfraction => exact ⟨nofun, fun h => absurd hfraction h.2⟩
    · next hfraction => exact ⟨fun _ => ⟨hpower, hfraction⟩, fun _ => rfl⟩
  · next hpower =>
    split
    · exact ⟨nofun, fun h => absurd h.1 hpower⟩
    · exact ⟨nofun, fun h => absurd h.1 hpower⟩

/-- **What is put together from a number is a number.** -/
theorem ofFloat_pack_ne_nan {u : UnpackedFloat} (hu : u ≠ .notANumber) :
    ofFloat (.ofModel (Float.Model.pack u)) ≠ .nan := by
  set x : Float := .ofModel (Float.Model.pack u) with hx
  have hbits : x.toBits.toNat = (UnpackedFloat.pack .binary64 u).toNat := rfl
  have hsign : ∀ s : Sign, s.toBitVec.toNat ≤ 1 := fun s => by cases s <;> decide
  -- an exponent that is not all ones, or a fraction of zero
  have hpacked : ∀ (s : Sign) (e : BitVec 11) (m : BitVec 52), (e.toNat ≠ 2047 ∨ m.toNat = 0) →
      UnpackedFloat.pack .binary64 u = packComponents .binary64 s e m → ofFloat x ≠ .nan := by
    intro s e m hor hpack hnan
    rw [ofFloat_eq_nan_iff, hbits, hpack, toNat_packComponents] at hnan
    have he := e.isLt
    have hm := m.isLt
    have hs := hsign s
    omega
  cases u with
  | notANumber => exact absurd rfl hu
  | infinity s => exact hpacked s _ 0#52 (Or.inr rfl) rfl
  | zero s => exact hpacked s 0#11 _ (Or.inl (by decide)) rfl
  | finite s m e hm =>
    have hpack := UnpackedFloat.pack.eq_def .binary64 (.finite s m e hm)
    simp only at hpack
    split at hpack
    · exact hpacked s _ 0#52 (Or.inr rfl) hpack
    · next hfits =>
      have hsize : 2 ^ Format.binary64.exponentBits = 2048 := rfl
      split at hpack
      · refine hpacked s _ _ (Or.inl ?_) hpack
        rw [BitVec.toNat_ofNat]
        omega
      · exact hpacked s _ _ (Or.inl (by decide)) hpack

/-- What is taken apart from a number is a number. -/
theorem unpack_ne_nan {x : Float} (hx : ofFloat x ≠ .nan) : x.toModel.unpack ≠ .notANumber := by
  intro hnan
  set b : BitVec Format.binary64.numBits := x.toModel.toBits.toBitVec with hb
  have hbits : x.toBits.toNat = b.toNat := rfl
  rw [ne_eq, ofFloat_eq_nan_iff, hbits] at hx
  unfold Float.Model.unpack UnpackedFloat.unpack at hnan
  rw [← hb] at hnan
  simp only at hnan
  split at hnan
  · next hexponent =>
    split at hnan
    · cases hnan
    · next hmantissa =>
      rw [← BitVec.toNat_inj, toNat_unpackExponent] at hexponent
      rw [← BitVec.toNat_inj, toNat_unpackMantissa] at hmantissa
      exact hx ⟨hexponent, hmantissa⟩
  · split at hnan
    · split at hnan <;> cases hnan
    · cases hnan

theorem neg_ne_nan {x : Float} (hx : ofFloat x ≠ .nan) : ofFloat (-x) ≠ .nan := by
  have hneg : -x = .ofModel (Float.Model.pack x.toModel.unpack.neg) := rfl
  rw [hneg]
  refine ofFloat_pack_ne_nan fun hnan => unpack_ne_nan hx ?_
  cases hu : x.toModel.unpack with
  | notANumber => rfl
  | _ => rw [hu] at hnan; cases hnan

/-- Rounding gives a number. -/
theorem roundWithAccuracy_ne_nan (spec : Format) (s : Sign) (m : Nat) (e : Int) (acc : Accuracy) :
    roundWithAccuracy spec s m e acc ≠ .notANumber := by
  unfold roundWithAccuracy
  dsimp only
  split <;> exact nofun

/-- A product or a quotient of positive numbers is a number. -/
theorem mul_ne_nan (spec : Format) {m n : Nat} {e f : Int} (hm : 0 < m) (hn : 0 < n) :
    UnpackedFloat.mul spec (.finite .positive m e hm) (.finite .positive n f hn) ≠ .notANumber :=
  roundWithAccuracy_ne_nan _ _ _ _ _

theorem div_ne_nan (spec : Format) {m n : Nat} {e f : Int} (hm : 0 < m) (hn : 0 < n) :
    UnpackedFloat.div spec (.finite .positive m e hm) (.finite .positive n f hn) ≠ .notANumber :=
  roundWithAccuracy_ne_nan _ _ _ _ _

theorem ofScientific_ne_nan {d : Nat} (hd : 0 < d) (negative : Bool) (e : Nat) :
    ofFloat (Float.ofScientific d negative e) ≠ .nan := by
  unfold Float.ofScientific
  split
  · next hsmall =>
    obtain ⟨m₁, e₁, hx, hfull, -⟩ := ofFloat_toFloat hd hsmall.1
    obtain ⟨m₂, e₂, hy, hpos, -⟩ := ofFloat_powerOfTen (e := e) (by
      simp only [Float.exactlyRepresentablePowersOfTen, List.size_toArray, List.length_cons, List.length_nil]
      omega)
    dsimp only
    split
    · change ofFloat (.ofModel (Float.Model.pack (UnpackedFloat.div .binary64 _ _))) ≠ _
      rw [unpack_eq hx (by omega), unpack_eq hy hpos]
      exact ofFloat_pack_ne_nan (div_ne_nan _ _ _)
    · change ofFloat (.ofModel (Float.Model.pack (UnpackedFloat.mul .binary64 _ _))) ≠ _
      rw [unpack_eq hx (by omega), unpack_eq hy hpos]
      exact ofFloat_pack_ne_nan (mul_ne_nan _ _ _)
  · dsimp only
    generalize (if negative = true then Int.negOfNat e else Int.ofNat e) = k
    change ofFloat (.ofModel (Float.Model.pack (UnpackedFloat.ofScientific .binary64 d k))) ≠ _
    refine ofFloat_pack_ne_nan ?_
    unfold UnpackedFloat.ofScientific
    rw [dif_neg hd.ne']
    split
    · exact nofun
    split
    · exact nofun
    split
    · exact mul_ne_nan _ _ _
    · exact div_ne_nan _ _ _

end Binary

namespace Number

theorem ofDecimal_ne_nan (m : Nat) (e : Int) : Binary.ofFloat (ofDecimal m e) ≠ .nan := by
  have hzero : Binary.ofFloat 0.0 ≠ .nan := by decide
  have hinfinite : Binary.ofFloat (1.0 / 0.0) ≠ .nan := by decide
  unfold ofDecimal
  split
  · exact hzero
  next hm =>
  dsimp only
  split
  · exact hinfinite
  split
  · exact hzero
  split
  · exact Binary.ofScientific_ne_nan (Nat.pos_of_ne_zero hm) _ _
  · exact Binary.ofScientific_ne_nan (Nat.pos_of_ne_zero hm) _ _

/-- What starts with a digit, after a point or not, is none of the words for the values that are no decimals. -/
theorem readWord?_eq_none {cs : List Char} (h : ∀ c ∈ cs.head?, c.isDigit = true ∨ c = '.') : readWord? cs = none := by
  have hlower : ∀ c ∈ cs.head?, c.toLower ≠ 'i' ∧ c.toLower ≠ 'n' := by
    intro c hc
    rcases h c hc with hc | rfl
    · exact (isDigit_plain hc).2.2.2.2.2.2
    · decide
  have hne : ∀ w : String, (w.toList.head? = some 'i' ∨ w.toList.head? = some 'n') →
      String.ofList (cs.map Char.toLower) ≠ w := by
    rintro w hw rfl
    rw [String.toList_ofList, List.head?_map] at hw
    cases hhead : cs.head? with
    | none => rw [hhead] at hw; rcases hw with hw | hw <;> cases hw
    | some c =>
      rw [hhead, Option.map_some, Option.some.injEq, Option.some.injEq] at hw
      exact hw.elim (hlower c hhead).1 (hlower c hhead).2
  unfold readWord?
  dsimp only
  rw [if_neg (not_or.mpr ⟨hne _ (Or.inl rfl), hne _ (Or.inl rfl)⟩), if_neg (hne _ (Or.inr rfl))]

theorem readUnsigned?_ne_nan {cs : List Char} {x : Float} (hx : readUnsigned? cs = some x) : Binary.ofFloat x ≠ .nan := by
  unfold readUnsigned? at hx
  dsimp only at hx
  split at hx
  all_goals
    split at hx
    · cases hx
    · obtain ⟨e, -, rfl⟩ := Option.map_eq_some_iff.mp hx
      exact ofDecimal_ne_nan _ _

/-- The sign apart, a numeral starts with a digit or with a point before one, so it is none of the words. -/
theorem ne_nan_of_starts {cs : List Char} (hcs : (match cs with
      | '.' :: ds => ds
      | ds => ds).head?.any Char.isDigit = true) {y : Float} (hy : (match readWord? cs with
      | some x => some x
      | none => readUnsigned? cs) = some y) : Binary.ofFloat y ≠ .nan := by
  have hhead : ∀ c ∈ cs.head?, c.isDigit = true ∨ c = '.' := by
    intro c hc
    split at hcs
    · exact Or.inr (Option.some.inj hc).symm
    · rw [Option.mem_def.mp hc] at hcs
      exact Or.inl hcs
  rw [readWord?_eq_none hhead] at hy
  exact readUnsigned?_ne_nan hy

/-- **A numeral is read as a number.** -/
theorem ne_nan_of_isNumeral {word : String} (hword : isNumeral word = true) {x : Float} (hx : read? word = some x) :
    Binary.ofFloat x ≠ .nan := by
  have hstart := (Bool.and_eq_true_iff.mp hword).1
  have hsigned : ∀ (negative : Bool) (y : Float), Binary.ofFloat y ≠ .nan →
      Binary.ofFloat (if negative then -y else y) ≠ .nan := by
    intro negative y hy
    split
    · exact Binary.neg_ne_nan hy
    · exact hy
  unfold read? at hx
  obtain ⟨y, hy, rfl⟩ := Option.map_eq_some_iff.mp hx
  refine hsigned _ y (ne_nan_of_starts ?_ hy)
  clear hx hy
  revert hstart
  generalize word.toList = cs
  intro hstart
  cases cs with
  | nil => exact hstart
  | cons c cs =>
    by_cases hminus : c = '-'
    · subst hminus
      exact hstart
    by_cases hplus : c = '+'
    · subst hplus
      exact hstart
    · simp [hminus, hplus] at hstart ⊢
      exact hstart

end Number

end SchemeMachine
