import Mathlib.Data.List.Basic
import SchemeMachine.Json.Spelling

/-!
# A text survives its spelling

The spelling of a text in a document stands for that text, and the reader finds its end.

* `decode?_flatMap` reads the spelling of a text, character by character; `text?_ofText` is the same of whole strings.
* `scan?_ofText`: **a spelled text ends at its closing quote**, whatever follows.
-/

namespace SchemeMachine.JsonString

/-! ### One character -/

/-- Four hexadecimal digits of a control character. -/
theorem hexUnit?_hexFour : ∀ n : Fin 32, ∃ a b c d, hexFour n = [a, b, c, d] ∧ hexUnit? a b c d = some n.val := by
  intro n
  have hdigits : ∀ n : Fin 32, hexFour n = ['0', '0', (hexFour n).getD 2 '0', (hexFour n).getD 3 '0'] ∧
      hexUnit? '0' '0' ((hexFour n).getD 2 '0') ((hexFour n).getD 3 '0') = some n.val := by decide
  exact ⟨_, _, _, _, hdigits n⟩

/-- **The ways a character is spelled**: as itself, by a backslash and a letter, or by four digits. -/
theorem escapeChar_cases (c : Char) :
    (escapeChar c = [c] ∧ c ≠ '"' ∧ c ≠ '\\' ∧ ¬c.toNat < 0x20) ∨
      (∃ d, escapeChar c = ['\\', d] ∧ d ≠ 'u' ∧ simpleEscape? d = some c) ∨
      (∃ x y z w, escapeChar c = ['\\', 'u', x, y, z, w] ∧ hexUnit? x y z w = some c.toNat ∧ c.toNat < 0x20) := by
  have hofNat {n : Nat} (h : c.toNat = n) : Char.ofNat n = c := by rw [← h, Char.ofNat_toNat]
  rw [escapeChar]
  -- the characters that have an escape of their own, one after another
  by_cases hquote : c = '"'
  · rw [if_pos hquote]
    exact Or.inr (Or.inl ⟨'"', rfl, by decide, by rw [hquote]; rfl⟩)
  rw [if_neg hquote]
  by_cases hslash : c = '\\'
  · rw [if_pos hslash]
    exact Or.inr (Or.inl ⟨'\\', rfl, by decide, by rw [hslash]; rfl⟩)
  rw [if_neg hslash]
  by_cases hline : c = '\n'
  · rw [if_pos hline]
    exact Or.inr (Or.inl ⟨'n', rfl, by decide, by rw [hline]; rfl⟩)
  rw [if_neg hline]
  by_cases hreturn : c = '\r'
  · rw [if_pos hreturn]
    exact Or.inr (Or.inl ⟨'r', rfl, by decide, by rw [hreturn]; rfl⟩)
  rw [if_neg hreturn]
  by_cases htab : c = '\t'
  · rw [if_pos htab]
    exact Or.inr (Or.inl ⟨'t', rfl, by decide, by rw [htab]; rfl⟩)
  rw [if_neg htab]
  by_cases hback : c.toNat = 8
  · rw [if_pos hback]
    exact Or.inr (Or.inl ⟨'b', rfl, by decide, by rw [← hofNat hback]; rfl⟩)
  rw [if_neg hback]
  by_cases hfeed : c.toNat = 12
  · rw [if_pos hfeed]
    exact Or.inr (Or.inl ⟨'f', rfl, by decide, by rw [← hofNat hfeed]; rfl⟩)
  rw [if_neg hfeed]
  -- other control characters are written by their number
  by_cases hcontrol : c.toNat < 0x20
  · rw [if_pos hcontrol]
    obtain ⟨x, y, z, w, hfour, hunit⟩ := hexUnit?_hexFour ⟨c.toNat, hcontrol⟩
    exact Or.inr (Or.inr ⟨x, y, z, w, congrArg (fun ds => '\\' :: 'u' :: ds) hfour, hunit, hcontrol⟩)
  · rw [if_neg hcontrol]
    exact Or.inl ⟨rfl, hquote, hslash, hcontrol⟩

/-- A digit is spelled as itself. -/
theorem escapeChar_of_isDigit {c : Char} (hc : c.isDigit = true) : escapeChar c = [c] := by
  have hlow : 48 ≤ c.toNat := by
    simp only [Char.isDigit, Bool.and_eq_true, decide_eq_true_eq, ge_iff_le] at hc
    exact hc.1
  have hne (d : Char) (hd : d.isDigit = false) : c ≠ d := by
    rintro rfl
    rw [hd] at hc
    cases hc
  unfold escapeChar
  rw [if_neg (hne _ rfl), if_neg (hne _ rfl), if_neg (hne _ rfl), if_neg (hne _ rfl), if_neg (hne _ rfl),
    if_neg (by omega), if_neg (by omega), if_neg (by omega)]

/-! ### What a spelling stands for -/

theorem decode?_simple {c d : Char} (hd : d ≠ 'u') (hc : simpleEscape? d = some c) (rest : List Char) :
    decode? ('\\' :: d :: rest) = (decode? rest).map (c :: ·) := by
  rw [decode?.eq_def]
  split
  · next h => cases h
  · next h => exact absurd (List.cons.inj (List.cons.inj h).2).1 hd
  · next h =>
    obtain ⟨rfl, rfl⟩ := List.cons.inj (List.cons.inj h).2
    rw [hc]
    cases decode? rest <;> rfl
  · next hne h =>
    obtain ⟨rfl, rfl⟩ := List.cons.inj h
    exact (hne _ _ rfl rfl).elim

theorem decode?_unit {x y z w c : Char} (hunit : hexUnit? x y z w = some c.toNat) (hc : c.toNat < 0x20)
    (rest : List Char) : decode? ('\\' :: 'u' :: x :: y :: z :: w :: rest) = (decode? rest).map (c :: ·) := by
  have hhigh : isHighSurrogate c.toNat = false := by
    simp only [isHighSurrogate, Bool.and_eq_false_iff, decide_eq_false_iff_not]
    omega
  have hlow : isLowSurrogate c.toNat = false := by
    simp only [isLowSurrogate, Bool.and_eq_false_iff, decide_eq_false_iff_not]
    omega
  rw [decode?.eq_def]
  simp only [hunit, Option.bind_eq_bind, Option.bind_some, hhigh, hlow, Bool.false_eq_true, if_false, Char.ofNat_toNat]
  cases decode? rest <;> rfl

/-- **The spelling of a character stands for it.** -/
theorem decode?_escapeChar (c : Char) (rest : List Char) :
    decode? (escapeChar c ++ rest) = (decode? rest).map (c :: ·) := by
  rcases escapeChar_cases c with ⟨h, -, hslash, -⟩ | ⟨d, h, hd, hc⟩ | ⟨x, y, z, w, h, hunit, hc⟩ <;> rw [h]
  · exact decode?_plain hslash rest
  · exact decode?_simple hd hc rest
  · exact decode?_unit hunit hc rest

theorem decode?_flatMap (cs : List Char) : decode? (cs.flatMap escapeChar) = some cs := by
  induction cs with
  | nil => rfl
  | cons c cs ih => rw [List.flatMap_cons, decode?_escapeChar, ih, Option.map_some]

/-- **The string of a text stands for the text.** -/
@[simp] theorem text?_ofText (s : String) : (ofText s).text? = some s := by
  rw [text?, ofText, decode?_flatMap, Option.map_some, String.ofList_toList]

/-! ### The end of a string -/

theorem scanChars?_simple {c d : Char} (hd : d ≠ 'u') (hc : simpleEscape? d = some c) (rest : List Char) :
    scanChars? ('\\' :: d :: rest) = (scanChars? rest).map fun r => ('\\' :: d :: r.1, r.2) := by
  rw [scanChars?.eq_def]
  split
  · next h => cases h
  · next h => exact absurd (List.cons.inj h).1 (by decide)
  · next h => exact absurd (List.cons.inj (List.cons.inj h).2).1 hd
  · next h =>
    obtain ⟨rfl, rfl⟩ := List.cons.inj (List.cons.inj h).2
    rw [hc]
    rfl
  · next hne h =>
    obtain ⟨rfl, rfl⟩ := List.cons.inj h
    exact (hne _ _ rfl rfl).elim

theorem scanChars?_unit {x y z w : Char} {n : Nat} (hunit : hexUnit? x y z w = some n) (rest : List Char) :
    scanChars? ('\\' :: 'u' :: x :: y :: z :: w :: rest) =
      (scanChars? rest).map fun r => ('\\' :: 'u' :: x :: y :: z :: w :: r.1, r.2) := by
  show (if (hexUnit? x y z w).isSome then _ else none) = _
  rw [hunit, if_pos Option.isSome_some]

theorem scanChars?_escapeChar (c : Char) (rest : List Char) :
    scanChars? (escapeChar c ++ rest) = (scanChars? rest).map fun r => (escapeChar c ++ r.1, r.2) := by
  rcases escapeChar_cases c with ⟨h, hquote, hslash, hcontrol⟩ | ⟨d, h, hd, hc⟩ | ⟨x, y, z, w, h, hunit, hc⟩ <;> rw [h]
  · exact scanChars?_plain hquote hslash hcontrol rest
  · exact scanChars?_simple hd hc rest
  · exact scanChars?_unit hunit rest

theorem scanChars?_flatMap (cs rest : List Char) :
    scanChars? (cs.flatMap escapeChar ++ '"' :: rest) = some (cs.flatMap escapeChar, rest) := by
  induction cs with
  | nil => rfl
  | cons c cs ih => rw [List.flatMap_cons, List.append_assoc, scanChars?_escapeChar, ih, Option.map_some]

/-- **A spelled text ends at its closing quote.** -/
theorem scan?_ofText (s : String) (rest : List Char) :
    scan? ((ofText s).spelling ++ '"' :: rest) = some (ofText s, rest) := by
  rw [scan?, ofText, scanChars?_flatMap, Option.map_some]

/-- A text without quotes, backslashes and control characters is its own spelling. -/
theorem spelling_ofText {s : String} (h : ∀ c ∈ s.toList, escapeChar c = [c]) : (ofText s).spelling = s.toList := by
  have hflat : s.toList.flatMap escapeChar = s.toList.flatMap fun c => [c] := List.flatMap_congr h
  rw [ofText, hflat, List.flatMap_singleton']

end SchemeMachine.JsonString
