import Mathlib.Algebra.Group.Nat.Defs
import SchemeMachine.Json.Reader
import SchemeMachine.Proofs.Syntax.Lexing

/-!
# Numerals in a document

A numeral has no end of its own: the reader takes what can be part of it. In a document a comma, a bracket or a line
break follows, and the numeral is read as if it stood alone.

* `Stops` says that what follows can be no part of a numeral; `Stops.readNumber_append` is the consequence.
* `ReadsAs` says that a text is read as a document wherever it stands, and that the reader stops at its end.
* `readsAs_natural` are the numbers of 64 bits, `readsAs_float` the floating-point numbers.
-/

namespace SchemeMachine.JsonValue

/-! ### Blanks -/

/-- The characters that may stand between the parts of a document. -/
def isBlank (c : Char) : Bool := c = ' ' || c = '\n' || c = '\t' || c = '\r'

theorem skipBlanks_append {bs : List Char} (h : ∀ c ∈ bs, isBlank c = true) (cs : List Char) :
    skipBlanks (bs ++ cs) = skipBlanks cs := List.dropWhile_append_of_pos h

theorem skipBlanks_cons {c : Char} (h : isBlank c = false) (cs : List Char) : skipBlanks (c :: cs) = c :: cs :=
  List.dropWhile_cons_of_neg (by rw [← Bool.not_eq_true] at h; exact h)

/-! ### Numerals in their place -/

/-- The digits of an exponent after its sign, and the rest. -/
def exponentDigits (negative : Bool) (ds : List Char) : Option (Option Int × List Char) :=
  if (ds.takeWhile Char.isDigit).isEmpty then none
  else
    let e := Int.ofNat (Number.digitsValue (ds.takeWhile Char.isDigit))
    some (some (if negative then -e else e), ds.dropWhile Char.isDigit)

/-- An exponent after its mark. -/
def signedExponent : List Char → Option (Option Int × List Char)
  | '-' :: ds => exponentDigits true ds
  | '+' :: ds => exponentDigits false ds
  | ds => exponentDigits false ds

theorem signedExponent_plain {ds : List Char} (h : ∀ c ∈ ds.head?, c ≠ '-' ∧ c ≠ '+') :
    signedExponent ds = exponentDigits false ds := by
  unfold signedExponent
  split
  · exact absurd rfl (h '-' rfl).1
  · exact absurd rfl (h '+' rfl).2
  · rfl

theorem readExponent_mark {mark : Char} (h : mark = 'e' ∨ mark = 'E') (cs : List Char) :
    readExponent (mark :: cs) = signedExponent cs := by
  unfold readExponent
  dsimp only
  rw [if_pos h]
  split
  · rfl
  · rfl
  · next hminus hplus =>
    rw [signedExponent_plain]
    · rfl
    · intro c hc
      cases cs with
      | nil => cases hc
      | cons d ds =>
        obtain rfl := Option.some.inj hc
        exact ⟨fun h => hminus ds (by rw [h]), fun h => hplus ds (by rw [h])⟩

/-- A number without a point, after its digits. -/
def wholeNumber (negative : Bool) (whole : List Char) (r : Option Int × List Char) : JsonNumber × List Char :=
  match r.1 with
  | some e => (floatOf negative whole [] e, r.2)
  | none => (integerOf negative whole, r.2)

/-- A numeral after its first digits. -/
def afterDigits (negative : Bool) (whole : List Char) : List Char → Option (JsonNumber × List Char)
  | '.' :: ds =>
    if (ds.takeWhile Char.isDigit).isEmpty then none
    else (readExponent (ds.dropWhile Char.isDigit)).map fun r =>
      (floatOf negative whole (ds.takeWhile Char.isDigit) (r.1.getD 0), r.2)
  | rest => (readExponent rest).map (wholeNumber negative whole)

theorem afterDigits_plain {rest : List Char} (h : ∀ c ∈ rest.head?, c ≠ '.') (negative : Bool) (whole : List Char) :
    afterDigits negative whole rest = (readExponent rest).map (wholeNumber negative whole) := by
  unfold afterDigits
  split
  · exact absurd rfl (h '.' rfl)
  · rfl

theorem readUnsigned_eq (negative : Bool) (cs : List Char) :
    readUnsigned negative cs =
      if (cs.takeWhile Char.isDigit).isEmpty ||
          ((cs.takeWhile Char.isDigit).head? = some '0' && (cs.takeWhile Char.isDigit).length ≠ 1) then none
      else afterDigits negative (cs.takeWhile Char.isDigit) (cs.dropWhile Char.isDigit) := by
  unfold readUnsigned
  dsimp only
  split
  · rfl
  · split
    · next heq => rw [heq, afterDigits]
    · next hpoint =>
      rw [afterDigits_plain]
      · rfl
      · intro c hc hdot
        cases hrest : cs.dropWhile Char.isDigit with
        | nil =>
          rw [hrest] at hc
          cases hc
        | cons d ds =>
          rw [hrest] at hc
          obtain rfl := Option.some.inj hc
          exact hpoint ds (by rw [hrest, hdot])

/-- What may follow a numeral: nothing that could be part of it. -/
def Stops (rest : List Char) : Prop :=
  ∀ c ∈ rest.head?, c.isDigit = false ∧ c ≠ '.' ∧ c ≠ 'e' ∧ c ≠ 'E' ∧ c ≠ '-' ∧ c ≠ '+'

namespace Stops

variable {rest : List Char}

theorem splitDigits (h : Stops rest) (cs : List Char) :
    (cs ++ rest).takeWhile Char.isDigit = cs.takeWhile Char.isDigit ∧
      (cs ++ rest).dropWhile Char.isDigit = cs.dropWhile Char.isDigit ++ rest := by
  induction cs with
  | nil =>
    cases rest with
    | nil => exact ⟨rfl, rfl⟩
    | cons c rest => simp [(h c rfl).1]
  | cons c cs ih =>
    cases hc : c.isDigit with
    | true => simp [hc, ih]
    | false => simp [hc]

theorem exponentDigits_append (h : Stops rest) (negative : Bool) (ds : List Char) :
    exponentDigits negative (ds ++ rest) = (exponentDigits negative ds).map fun r => (r.1, r.2 ++ rest) := by
  unfold exponentDigits
  rw [(h.splitDigits ds).1, (h.splitDigits ds).2]
  split <;> rfl

theorem plain (h : Stops rest) : ∀ c ∈ rest.head?, c ≠ '-' ∧ c ≠ '+' := fun c hc => (h c hc).2.2.2.2

theorem signedExponent_append (h : Stops rest) (cs : List Char) :
    signedExponent (cs ++ rest) = (signedExponent cs).map fun r => (r.1, r.2 ++ rest) := by
  cases cs with
  | nil =>
    rw [List.nil_append, signedExponent_plain h.plain]
    exact h.exponentDigits_append false []
  | cons c cs =>
    by_cases hminus : c = '-'
    · subst hminus
      exact h.exponentDigits_append true cs
    by_cases hplus : c = '+'
    · subst hplus
      exact h.exponentDigits_append false cs
    have hplain (ds : List Char) : ∀ d ∈ (c :: ds).head?, d ≠ '-' ∧ d ≠ '+' := fun d hd => by
      obtain rfl := Option.some.inj hd
      exact ⟨hminus, hplus⟩
    rw [signedExponent_plain (hplain cs), List.cons_append, signedExponent_plain (hplain (cs ++ rest)), ← List.cons_append]
    exact h.exponentDigits_append false (c :: cs)

theorem readExponent_append (h : Stops rest) (cs : List Char) :
    readExponent (cs ++ rest) = (readExponent cs).map fun r => (r.1, r.2 ++ rest) := by
  cases cs with
  | nil =>
    cases rest with
    | nil => rfl
    | cons c rest =>
      obtain ⟨-, -, he, hE, -⟩ := h c rfl
      simp [readExponent, he, hE]
  | cons mark cs =>
    by_cases hmark : mark = 'e' ∨ mark = 'E'
    · rw [List.cons_append, readExponent_mark hmark, readExponent_mark hmark]
      exact h.signedExponent_append cs
    · simp only [readExponent, List.cons_append, hmark, if_false, Option.map_some]

theorem afterDigits_append (h : Stops rest) (negative : Bool) (whole tail : List Char) :
    afterDigits negative whole (tail ++ rest) = (afterDigits negative whole tail).map fun r => (r.1, r.2 ++ rest) := by
  -- without a point
  have hwhole (htail : ∀ c ∈ (tail ++ rest).head?, c ≠ '.') (htail' : ∀ c ∈ tail.head?, c ≠ '.') :
      afterDigits negative whole (tail ++ rest) =
        (afterDigits negative whole tail).map fun r => (r.1, r.2 ++ rest) := by
    rw [afterDigits_plain htail, afterDigits_plain htail', h.readExponent_append, Option.map_map, Option.map_map]
    congr 1
    funext r
    obtain ⟨_ | e, r⟩ := r <;> rfl
  cases tail with
  | nil => exact hwhole (fun c hc => (h c hc).2.1) (by simp)
  | cons c tail =>
    by_cases hpoint : c = '.'
    · subst hpoint
      obtain ⟨htake, hdrop⟩ := h.splitDigits tail
      rw [List.cons_append, afterDigits, afterDigits, htake, hdrop, h.readExponent_append]
      split
      · rfl
      · rw [Option.map_map, Option.map_map]
        rfl
    · have hhead (ds : List Char) : ∀ d ∈ (c :: ds).head?, d ≠ '.' := fun d hd => by
        obtain rfl := Option.some.inj hd
        exact hpoint
      exact hwhole (hhead _) (hhead _)

/-- **A numeral is read the same, whatever follows it.** -/
theorem readNumber_append (h : Stops rest) {cs : List Char} (hcs : cs ≠ []) :
    readNumber (cs ++ rest) = (readNumber cs).map fun r => (r.1, r.2 ++ rest) := by
  have hunsigned (negative : Bool) (ds : List Char) :
      readUnsigned negative (ds ++ rest) = (readUnsigned negative ds).map fun r => (r.1, r.2 ++ rest) := by
    rw [readUnsigned_eq, readUnsigned_eq, (h.splitDigits ds).1, (h.splitDigits ds).2]
    split
    · rfl
    · exact h.afterDigits_append _ _ _
  obtain ⟨c, cs, rfl⟩ := List.exists_cons_of_ne_nil hcs
  unfold readNumber
  by_cases hminus : c = '-'
  · subst hminus
    exact hunsigned true cs
  · rw [List.cons_append]
    split
    · next heq => exact absurd (List.cons.inj heq).1 hminus
    · split
      · next heq => exact absurd (List.cons.inj heq).1 hminus
      · exact hunsigned false (c :: cs)

end Stops

theorem readNumber_of_ne {c : Char} (hc : c ≠ '-') (cs : List Char) :
    readNumber (c :: cs) = readUnsigned false (c :: cs) := by
  unfold readNumber
  split
  · next heq => exact absurd (List.cons.inj heq).1 hc
  · rfl

/-- What a numeral leaves was there before. -/
theorem mem_of_readExponent {cs : List Char} {r : Option Int × List Char} (h : readExponent cs = some r) :
    ∀ c ∈ r.2, c ∈ cs := by
  have hdigits {negative : Bool} {ds : List Char} (hds : exponentDigits negative ds = some r) :
      ∀ c ∈ r.2, c ∈ ds := by
    unfold exponentDigits at hds
    split at hds
    · cases hds
    · rw [← Option.some.inj hds]
      exact fun c hc => (List.dropWhile_suffix _).subset hc
  cases cs with
  | nil =>
    rw [← Option.some.inj h]
    exact fun c hc => hc
  | cons mark cs =>
    by_cases hmark : mark = 'e' ∨ mark = 'E'
    · rw [readExponent_mark hmark] at h
      unfold signedExponent at h
      intro c hc
      split at h
      · exact List.mem_cons_of_mem _ (List.mem_cons_of_mem _ (hdigits h c hc))
      · exact List.mem_cons_of_mem _ (List.mem_cons_of_mem _ (hdigits h c hc))
      · exact List.mem_cons_of_mem _ (hdigits h c hc)
    · simp only [readExponent, hmark, if_false] at h
      rw [← Option.some.inj h]
      exact fun c hc => hc

theorem mem_of_readNumber {cs : List Char} {r : JsonNumber × List Char} (h : readNumber cs = some r) :
    ∀ c ∈ r.2, c ∈ cs := by
  -- nothing is read but a front part of what is there
  have hunsigned {negative : Bool} {ds : List Char} (hds : readUnsigned negative ds = some r) :
      ∀ c ∈ r.2, c ∈ ds := by
    intro c hc
    have hdrop := (List.dropWhile_suffix (l := ds) Char.isDigit).subset
    rw [readUnsigned_eq] at hds
    split at hds
    · cases hds
    unfold afterDigits at hds
    split at hds
    · next tail heq =>
      rw [heq] at hdrop
      split at hds
      · cases hds
      · obtain ⟨e, he, rfl⟩ := Option.map_eq_some_iff.mp hds
        exact hdrop (List.mem_cons_of_mem _ ((List.dropWhile_suffix _).subset (mem_of_readExponent he c hc)))
    · obtain ⟨e, he, rfl⟩ := Option.map_eq_some_iff.mp hds
      refine hdrop (mem_of_readExponent he c ?_)
      unfold wholeNumber at hc
      split at hc <;> exact hc
  cases cs with
  | nil => cases h
  | cons c cs =>
    by_cases hc : c = '-'
    · subst hc
      exact fun d hd => List.mem_cons_of_mem _ (hunsigned h d hd)
    · rw [readNumber_of_ne hc] at h
      exact hunsigned h

/-! ### Legible numbers -/

/-- What a document begins with: no blank, and no bracket that closes an array. -/
def Opens (cs : List Char) : Prop := ∃ c ds, cs = c :: ds ∧ isBlank c = false ∧ c ≠ ']'

/-- **A text is read as a document**, and the reader stops where the text ends. -/
structure ReadsAs (cs : List Char) (v : JsonValue) : Prop where
  opens : Opens cs
  read : ∀ fuel rest, Stops rest → readValue (fuel + 1) (cs ++ rest) = some (v, rest)

/-- The characters a numeral begins with. -/
def StartsNumeral (cs : List Char) : Prop := ∃ c ds, cs = c :: ds ∧ (c.isDigit = true ∨ c = '-')

/-- None of the characters that a document other than a number begins with. -/
theorem StartsNumeral.plain {c : Char} (hc : c.isDigit = true ∨ c = '-') :
    isBlank c = false ∧ c ≠ ']' ∧ c ≠ '"' ∧ c ≠ '[' ∧ c ≠ '\x7b' ∧ c ≠ 'n' ∧ c ≠ 't' ∧ c ≠ 'f' := by
  rcases hc with hc | rfl
  · refine ⟨?_, ?_, ?_, ?_, ?_, ?_, ?_, ?_⟩
    · by_contra hblank
      rw [Bool.not_eq_false, isBlank] at hblank
      simp only [Bool.or_eq_true, decide_eq_true_eq] at hblank
      rcases hblank with ((rfl | rfl) | rfl) | rfl <;> cases hc
    all_goals
      rintro rfl
      cases hc
  · decide

theorem readValue_numeral {cs : List Char} (h : StartsNumeral cs) (fuel : Nat) :
    readValue (fuel + 1) cs = (readNumber cs).map fun r => (.number r.1, r.2) := by
  obtain ⟨c, ds, rfl, hc⟩ := h
  obtain ⟨hblank, -, hquote, hbracket, hbrace, hn, ht, hf⟩ := StartsNumeral.plain hc
  rw [readValue, skipBlanks_cons hblank]
  split
  · next heq => cases heq
  · next heq => exact absurd (List.cons.inj heq).1 hquote
  · next heq => exact absurd (List.cons.inj heq).1 hbracket
  · next heq => exact absurd (List.cons.inj heq).1 hbrace
  · next heq => exact absurd (List.cons.inj heq).1 hn
  · next heq => exact absurd (List.cons.inj heq).1 ht
  · next heq => exact absurd (List.cons.inj heq).1 hf
  · rfl

theorem ReadsAs.of_readNumber {cs : List Char} (hstart : StartsNumeral cs) {n : JsonNumber}
    (h : readNumber cs = some (n, [])) : ReadsAs cs (.number n) := by
  obtain ⟨c, ds, rfl, hc⟩ := hstart
  obtain ⟨hblank, hbracket, -⟩ := StartsNumeral.plain hc
  refine ⟨⟨c, ds, rfl, hblank, hbracket⟩, fun fuel rest hrest => ?_⟩
  have hstart : StartsNumeral (c :: ds ++ rest) := ⟨c, ds ++ rest, rfl, hc⟩
  rw [readValue_numeral hstart, hrest.readNumber_append (List.cons_ne_nil _ _), h, Option.map_some, Option.map_some,
    List.nil_append]

/-- A numeral without blanks that is read as a document at all is read as a number, to its end. -/
theorem readNumber_of_read? {text : String} {v : JsonValue} (hstart : StartsNumeral text.toList)
    (hplain : ∀ c ∈ text.toList, isBlank c = false) (h : read? text = some v) :
    ∃ n, v = .number n ∧ readNumber text.toList = some (n, []) := by
  unfold read? at h
  dsimp only at h
  rw [show 2 * text.toList.length + 2 = 2 * text.toList.length + 1 + 1 from rfl, readValue_numeral hstart] at h
  cases hread : readNumber text.toList with
  | none =>
    rw [hread] at h
    cases h
  | some r =>
    rw [hread] at h
    simp only [Option.map_some, Option.bind_eq_bind, Option.bind_some] at h
    split at h
    · next hrest =>
      refine ⟨r.1, (Option.some.inj h).symm, ?_⟩
      -- no blank is left over, so nothing is
      have hempty : r.2 = [] := by
        cases hr : r.2 with
        | nil => rfl
        | cons c cs =>
          have hc := hplain c (mem_of_readNumber hread c (by rw [hr]; exact List.mem_cons_self))
          rw [hr, skipBlanks_cons hc] at hrest
          cases hrest
      rw [← hempty]
    · cases h

/-- The characters of numerals. -/
def isNumeralChar (c : Char) : Bool := c.isDigit || c = '.' || c = 'e' || c = '-' || c = '+'

theorem isBlank_of_isNumeralChar {c : Char} (h : isNumeralChar c = true) : isBlank c = false := by
  by_contra hblank
  rw [Bool.not_eq_false, isBlank] at hblank
  simp only [Bool.or_eq_true, decide_eq_true_eq] at hblank
  rcases hblank with ((rfl | rfl) | rfl) | rfl <;> cases h

theorem isNumeralChar_of_isDigit {c : Char} (h : c.isDigit = true) : isNumeralChar c = true := by
  simp [isNumeralChar, h]

/-- A number in a document is written with the characters of numerals, a digit first. -/
theorem decimalText_plain (d : Decimal) :
    (∃ c ds, decimalText d = c :: ds ∧ c.isDigit = true) ∧ ∀ c ∈ decimalText d, isNumeralChar c = true := by
  have hdigits (n : Nat) : ∀ c ∈ Nat.toDigits 10 n, c.isDigit = true := fun c hc =>
    Nat.isDigit_of_mem_toDigits (by decide) (by decide) hc
  -- whichever layout is chosen, its characters are digits, a point, a sign or an exponent mark
  have hpositional : ∀ c ∈ d.positional, isNumeralChar c = true := fun c hc => by
    rcases (Number.isDecimal_positional d).plain c hc with h | rfl
    · exact isNumeralChar_of_isDigit h
    · rfl
  obtain ⟨c, tail, hhead, hc⟩ := (Number.isDecimal_positional d).head
  unfold decimalText
  dsimp only
  split
  · refine ⟨⟨c, tail ++ ['.', '0'], by rw [hhead]; rfl, hc⟩, List.forall_mem_append.mpr ⟨hpositional, by decide⟩⟩
  split
  · exact ⟨⟨c, tail, hhead, hc⟩, hpositional⟩
  split
  · exact ⟨⟨c, tail, hhead, hc⟩, hpositional⟩
  · obtain ⟨first, rest, hfirst⟩ := List.exists_cons_of_ne_nil (Nat.toDigits_ne_nil (n := d.digits) (b := 10))
    have hchars := hdigits d.digits
    have hpower : ∀ n : Nat, ∀ c ∈ Nat.toDigits 10 n, isNumeralChar c = true := fun n c hc =>
      isNumeralChar_of_isDigit (hdigits n c hc)
    rw [hfirst] at hchars
    have hfirstDigit := hchars first List.mem_cons_self
    rw [Decimal.digitChars, hfirst]
    cases rest with
    | nil =>
      refine ⟨⟨first, _, rfl, hfirstDigit⟩, ?_⟩
      simp only [List.cons_append, List.nil_append, List.forall_mem_cons]
      exact ⟨isNumeralChar_of_isDigit hfirstDigit, rfl, by split <;> rfl, hpower _⟩
    | cons second rest =>
      refine ⟨⟨first, _, rfl, hfirstDigit⟩, ?_⟩
      simp only [List.cons_append, List.forall_mem_cons, List.forall_mem_append]
      exact ⟨isNumeralChar_of_isDigit hfirstDigit, rfl, isNumeralChar_of_isDigit (hchars second (by simp)),
        fun c hc => isNumeralChar_of_isDigit (hchars c (by simp [hc])), rfl, by split <;> rfl, hpower _⟩

theorem floatText_plain {x : Float} (hx : Number.IsFinite x) :
    StartsNumeral (floatText x).toList ∧ ∀ c ∈ (floatText x).toList, isBlank c = false := by
  have hsigned (negative : Bool) {cs : List Char} (hstart : ∃ c ds, cs = c :: ds ∧ c.isDigit = true)
      (hplain : ∀ c ∈ cs, isNumeralChar c = true) :
      StartsNumeral (Number.signed negative cs).toList ∧ ∀ c ∈ (Number.signed negative cs).toList, isBlank c = false := by
    obtain ⟨c, ds, rfl, hc⟩ := hstart
    unfold Number.signed
    rw [String.toList_ofList]
    cases negative with
    | true =>
      refine ⟨⟨'-', c :: ds, rfl, Or.inr rfl⟩, fun d hd => ?_⟩
      rcases List.mem_cons.mp hd with rfl | hd
      · rfl
      · exact isBlank_of_isNumeralChar (hplain d hd)
    | false => exact ⟨⟨c, ds, rfl, Or.inl hc⟩, fun d hd => isBlank_of_isNumeralChar (hplain d hd)⟩
  obtain ⟨negative, m, q, hx⟩ := hx
  unfold floatText
  rw [hx]
  dsimp only
  split
  · exact hsigned negative ⟨'0', ['.', '0'], rfl, rfl⟩ (by decide)
  · exact hsigned negative (decimalText_plain _).1 (decimalText_plain _).2

/-- The digits of a number do not begin with zero, unless it is zero. -/
theorem head?_toDigits_ne {n : Nat} (hn : 0 < n) : (Nat.toDigits 10 n).head? ≠ some '0' := by
  induction n using Nat.strongRecOn with
  | ind n ih =>
    by_cases hlt : n < 10
    · rw [Nat.toDigits_of_lt_base hlt]
      have hall : ∀ k : Fin 10, k.val ≠ 0 → [k.val.digitChar].head? ≠ some '0' := by decide
      exact hall ⟨n, hlt⟩ (Nat.pos_iff_ne_zero.mp hn)
    · rw [Nat.toDigits_of_base_le (by decide) (by omega), List.head?_append]
      obtain ⟨c, cs, hcs⟩ := List.exists_cons_of_ne_nil (Nat.toDigits_ne_nil (n := n / 10) (b := 10))
      have hhead := ih (n / 10) (by omega) (by omega)
      rw [hcs] at hhead ⊢
      exact hhead

/-- **A natural number of 64 bits is read as itself.** -/
theorem readsAs_natural {n : Nat} (hn : n < 2 ^ 64) : ReadsAs (toString n).toList (.number (.natural n)) := by
  have hdigits : ∀ c ∈ Nat.toDigits 10 n, c.isDigit = true := fun c hc =>
    Nat.isDigit_of_mem_toDigits (by decide) (by decide) hc
  have hsplit := Number.takeWhile_isDigit_append [] hdigits (by simp)
  rw [List.append_nil] at hsplit
  have htext : (toString n).toList = Nat.toDigits 10 n := by rw [Nat.toString_eq_repr, Nat.toList_repr]
  obtain ⟨c, cs, hcs⟩ := List.exists_cons_of_ne_nil (Nat.toDigits_ne_nil (n := n) (b := 10))
  have hc : c.isDigit = true := hdigits c (by rw [hcs]; exact List.mem_cons_self)
  rw [htext]
  refine .of_readNumber ⟨c, cs, hcs, Or.inl hc⟩ ?_
  have hminus : c ≠ '-' := by
    rintro rfl
    cases hc
  -- there are digits, and no zero in front of others
  have hzeros : ((Nat.toDigits 10 n).isEmpty ||
      ((Nat.toDigits 10 n).head? = some '0' && (Nat.toDigits 10 n).length ≠ 1)) = false := by
    rw [List.isEmpty_eq_false_iff.mpr Nat.toDigits_ne_nil, Bool.false_or]
    by_cases hzero : n = 0
    · subst hzero
      rfl
    · simp [head?_toDigits_ne (Nat.pos_of_ne_zero hzero)]
  have hvalue : Number.digitsValue (Nat.toDigits 10 n) = n := Nat.ofDigitChars_ten_toDigits
  have hsmall : ¬Nat.pow 2 64 ≤ n := Nat.not_le_of_lt hn
  have hread : readUnsigned false (Nat.toDigits 10 n) = some (.natural n, []) := by
    rw [readUnsigned_eq, hsplit.1, hsplit.2, hzeros]
    simp only [Bool.false_eq_true, if_false, afterDigits, readExponent, Option.map_some, wholeNumber, integerOf, hvalue,
      hsmall]
  rw [hcs, readNumber_of_ne hminus, ← hcs]
  exact hread

/-- **A floating-point number whose text is read is read to its end.** -/
theorem readsAs_float {x : Float} (hx : Number.IsFinite x) {v : JsonValue} (h : read? (floatText x) = some v) :
    ReadsAs (floatText x).toList v := by
  obtain ⟨hstart, hplain⟩ := floatText_plain hx
  obtain ⟨n, rfl, hread⟩ := readNumber_of_read? hstart hplain h
  exact .of_readNumber hstart hread

end SchemeMachine.JsonValue
