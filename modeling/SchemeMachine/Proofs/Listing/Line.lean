import Mathlib.Data.List.TakeWhile
import SchemeMachine.Program
import SchemeMachine.Proofs.Names
import SchemeMachine.Proofs.Number.Numeral
import SchemeMachine.Proofs.Number.Text

/-!
# One line of a listing

An instruction is written on a line of its own and read from it. What is read is the instruction that was written,
except for a few operands that are written like an operand of another kind.

* `Text.Line` says that a text stands on one line and is not trimmed.
* `Operand.Written` and `Instruction.Written` say what is known of every operand and instruction that came out of a
  listing or out of the compiler.
* `Operand.Lossy` are the operands that are not read as what they are: infinite numbers, and variables that look like
  labels or handles.
* `Operand.same_classify` and `Instruction.readLine_text` are the results.
-/

namespace SchemeMachine

/-! ### Texts on one line -/

namespace Text

/-- **A text on one line that is not trimmed.** -/
structure Line (cs : List Char) : Prop where
  first : ∀ c ∈ cs.head?, isBlank c = false
  last : ∀ c ∈ cs.getLast?, isBlank c = false
  single : '\n' ∉ cs

/-- A list that starts with nothing to drop stays. -/
theorem dropWhile_eq_self {p : Char → Bool} {cs : List Char} (h : ∀ c ∈ cs.head?, p c = false) : cs.dropWhile p = cs := by
  cases cs with
  | nil => rfl
  | cons c cs => exact List.dropWhile_cons_of_neg (by simp [h c rfl])

theorem Line.trim_eq {cs : List Char} (h : Line cs) : trim cs = cs := by
  have hlast : ∀ c ∈ cs.reverse.head?, isBlank c = false := by
    rw [List.head?_reverse]
    exact h.last
  rw [trim, trimLeft, dropWhile_eq_self h.first, trimRight, dropWhile_eq_self hlast, List.reverse_reverse]

theorem trimRight_initial (cs : List Char) : trimRight cs <+: cs := by
  have hsuffix := List.dropWhile_suffix (l := cs.reverse) isBlank
  rw [← List.reverse_prefix, List.reverse_reverse] at hsuffix
  exact hsuffix

theorem not_blank_of_head?_dropWhile {cs : List Char} {c : Char} (h : c ∈ (cs.dropWhile isBlank).head?) :
    isBlank c = false := by
  have hhead := List.head?_dropWhile_not isBlank cs
  rw [Option.mem_def.mp h] at hhead
  exact hhead

/-- **What is left after trimming is not trimmed again.** -/
theorem line_trim {cs : List Char} (h : '\n' ∉ cs) : Line (trim cs) where
  first := by
    intro c hc
    obtain ⟨rest, hrest⟩ := trimRight_initial (trimLeft cs)
    have hne : trim cs ≠ [] := by
      intro hnil
      rw [hnil] at hc
      cases hc
    have hhead : c ∈ (trimLeft cs).head? := by
      rw [← hrest]
      change c ∈ (trim cs ++ rest).head?
      rw [List.head?_append_of_ne_nil _ hne]
      exact hc
    exact not_blank_of_head?_dropWhile hhead
  last := by
    intro c hc
    rw [trim, trimRight, List.getLast?_reverse] at hc
    exact not_blank_of_head?_dropWhile hc
  single := fun hmem => h ((List.dropWhile_sublist _).subset ((trimRight_initial _).subset hmem))

/-- A line goes on with what does not end it. -/
theorem Line.append {cs ds : List Char} (hcs : Line cs) (hds : Line ds) (hne : cs ≠ []) (hne' : ds ≠ []) (middle : List Char)
    (hmiddle : '\n' ∉ middle) : Line (cs ++ (middle ++ ds)) where
  first := by
    rw [List.head?_append_of_ne_nil _ hne]
    exact hcs.first
  last := by
    rw [List.getLast?_append_of_ne_nil _ (by simp [hne']), List.getLast?_append_of_ne_nil _ hne']
    exact hds.last
  single := by
    simp only [List.mem_append, not_or]
    exact ⟨hcs.single, hmiddle, hds.single⟩

/-- Nothing in a line without blanks is trimmed. -/
theorem line_of_not_blank {cs : List Char} (h : ∀ c ∈ cs, isBlank c = false) : Line cs where
  first c hc := h c (List.mem_of_mem_head? hc)
  last c hc := h c (List.mem_of_mem_getLast? hc)
  single hmem := by cases h _ hmem

/-! ### Lines of a text -/

theorem linesFrom_append {line : List Char} (h : '\n' ∉ line) (acc rest : List Char) :
    linesFrom acc (line ++ rest) = linesFrom (line.reverse ++ acc) rest := by
  induction line generalizing acc with
  | nil => rfl
  | cons c line ih =>
    obtain ⟨hc, hline⟩ := not_or.mp (List.mem_cons.not.mp h)
    rw [List.cons_append, linesFrom, ih hline, List.reverse_cons, List.append_assoc, List.singleton_append]
    exact fun heq => hc heq.symm

/-- **Lines that are written one after the other are read one after the other.** -/
theorem lines_flatMap {ls : List (List Char)} (h : ∀ l ∈ ls, Line l) : lines (ls.flatMap (· ++ ['\n'])) = ls := by
  unfold lines
  induction ls with
  | nil => rfl
  | cons l ls ih =>
    have hl := h l List.mem_cons_self
    have hreturn : l.getLast? ≠ some '\r' := by
      intro heq
      cases hl.last _ heq
    rw [List.flatMap_cons, List.append_assoc, linesFrom_append hl.single, List.append_nil, List.singleton_append, linesFrom,
      List.reverse_reverse, dropReturn, if_neg hreturn, ih fun l' hl' => h l' (List.mem_cons_of_mem l hl')]

theorem not_mem_linesFrom {acc cs line : List Char} (hacc : '\n' ∉ acc) (h : line ∈ linesFrom acc cs) : '\n' ∉ line := by
  fun_induction linesFrom acc cs with
  | case1 acc hempty => cases h
  | case2 acc hempty =>
    rw [List.mem_singleton.mp h, List.mem_reverse]
    exact hacc
  | case3 acc rest ih =>
    rcases List.mem_cons.mp h with rfl | h
    · unfold dropReturn
      split
      · exact fun hmem => hacc (List.mem_reverse.mp (List.mem_of_mem_dropLast hmem))
      · exact fun hmem => hacc (List.mem_reverse.mp hmem)
    · exact ih (List.not_mem_nil) h
  | case4 acc c rest hc ih =>
    refine ih ?_ h
    rintro hmem
    rcases List.mem_cons.mp hmem with heq | hmem
    · exact hc heq.symm
    · exact hacc hmem

theorem not_mem_lines {cs line : List Char} (h : line ∈ lines cs) : '\n' ∉ line :=
  not_mem_linesFrom List.not_mem_nil h

end Text

/-! ### Operands -/

namespace Number

/-- A numeral starts with a sign, a point or a digit. -/
theorem head_of_isNumeral {word : String} (h : isNumeral word = true) {c : Char} (hc : c ∈ word.toList.head?) :
    c = '+' ∨ c = '-' ∨ c = '.' ∨ c.isDigit = true := by
  have hstart := (Bool.and_eq_true_iff.mp h).1
  obtain ⟨cs, hcs⟩ := List.head?_eq_some_iff.mp hc
  rw [hcs] at hstart
  by_cases hplus : c = '+'
  · exact Or.inl hplus
  by_cases hminus : c = '-'
  · exact Or.inr (Or.inl hminus)
  by_cases hpoint : c = '.'
  · exact Or.inr (Or.inr (Or.inl hpoint))
  · simp [hplus, hminus, hpoint] at hstart
    exact Or.inr (Or.inr (Or.inr hstart))

end Number

namespace Token

theorem not_blank_of_isDelimiter {c : Char} (h : isDelimiter c = false) : Text.isBlank c = false :=
  (Bool.or_eq_false_iff.mp h).1

/-- A word stands on a line. -/
theorem IsWord.line {w : String} (h : IsWord w) : Text.Line w.toList :=
  Text.line_of_not_blank fun c hc => not_blank_of_isDelimiter (h.plain c hc)

theorem IsWord.ne_nil {w : String} (h : IsWord w) : w.toList ≠ [] := by
  obtain ⟨c, cs, hcs, -⟩ := h.starts
  rw [hcs]
  exact List.cons_ne_nil c cs

end Token

namespace Operand

/-- A handle fits a machine word. -/
def Fits : Operand → Prop
  | .handle h => h < 2 ^ 64
  | _ => True

/-- **An operand as a listing or the compiler has it.** -/
def Written : Operand → Prop
  | .atom a =>
    match a with
    | .number x => Binary.ofFloat x ≠ .nan
    | .boolean _ => True
    | .symbol s => Text.Line ('\'' :: s.toList)
    | .variable v =>
      Text.Line v.toList ∧ v ≠ "" ∧ v.toList.head? ≠ some '\'' ∧ v ≠ "#t" ∧ v ≠ "#f" ∧ Number.isNumeral v = false ∧
        isKeyword v = false
    | .keyword k => isKeyword k = true
  | .label name => Text.Line ('@' :: name.toList)
  | .handle h => h < 2 ^ 64

/-- **An operand that is written like one of another kind**: an infinite number, a variable that starts with `@`, and
one that is an ampersand with nothing but digits after it that fit a machine word. -/
def Lossy : Operand → Prop
  | .atom (.number x) => ∃ negative, Binary.ofFloat x = .infinite negative
  | .atom (.variable v) =>
    v.toList.head? = some '@' ∨ ∃ digits, v.toList = '&' :: digits ∧ digits ≠ [] ∧ (∀ c ∈ digits, c.isDigit = true) ∧
      Number.digitsValue digits < 2 ^ 64
  | _ => False

theorem handleOf?_eq_some {digits : List Char} {h : Handle} :
    handleOf? digits = some h ↔ digits ≠ [] ∧ (∀ c ∈ digits, c.isDigit = true) ∧ Number.digitsValue digits < 2 ^ 64 ∧
      h = Number.digitsValue digits := by
  have hpow : Nat.pow 2 64 = 2 ^ 64 := rfl
  unfold handleOf?
  rw [hpow]
  split
  · next hok =>
    simp only [Bool.and_eq_true, Bool.not_eq_true', List.isEmpty_eq_false_iff, List.all_eq_true, decide_eq_true_eq] at hok
    rw [Option.some.injEq]
    exact ⟨fun heq => ⟨hok.1.1, hok.1.2, hok.2, heq.symm⟩, fun hall => hall.2.2.2.symm⟩
  · next hnot =>
    refine ⟨nofun, fun hall => absurd ?_ hnot⟩
    simp only [Bool.and_eq_true, Bool.not_eq_true', List.isEmpty_eq_false_iff, List.all_eq_true, decide_eq_true_eq]
    exact ⟨⟨hall.1, hall.2.1⟩, hall.2.2.1⟩

/-- Whether an operand is lossy can be found out by reading it as a handle. -/
instance : DecidablePred Lossy
  | .atom (.number x) =>
    match h : Binary.ofFloat x with
    | .infinite negative => isTrue ⟨negative, h⟩
    | .nan => isFalse fun ⟨_, hx⟩ => by cases h.symm.trans hx
    | .finite .. => isFalse fun ⟨_, hx⟩ => by cases h.symm.trans hx
  | .atom (.variable v) =>
    decidable_of_iff (v.toList.head? = some '@' ∨ ∃ c ∈ v.toList.head?, c = '&' ∧ (handleOf? v.toList.tail).isSome) <| by
      refine or_congr_right ⟨?_, ?_⟩
      · rintro ⟨c, hc, rfl, hhandle⟩
        obtain ⟨h, hh⟩ := Option.isSome_iff_exists.mp hhandle
        obtain ⟨hne, hall, hlt, -⟩ := handleOf?_eq_some.mp hh
        exact ⟨_, (List.cons_head?_tail hc).symm, hne, hall, hlt⟩
      · rintro ⟨digits, hdigits, hne, hall, hlt⟩
        rw [hdigits]
        exact ⟨'&', rfl, rfl, Option.isSome_iff_exists.mpr ⟨_, handleOf?_eq_some.mpr ⟨hne, hall, hlt, rfl⟩⟩⟩
  | .atom (.boolean _) | .atom (.symbol _) | .atom (.keyword _) | .label _ | .handle _ => isFalse id

theorem handleOf?_toDigits {h : Handle} (hh : h < 2 ^ 64) : handleOf? (Nat.toDigits 10 h) = some h := by
  have hvalue : Number.digitsValue (Nat.toDigits 10 h) = h := Nat.ofDigitChars_ten_toDigits
  refine handleOf?_eq_some.mpr ⟨Nat.toDigits_ne_nil, fun c hc => ?_, by rw [hvalue]; exact hh, hvalue.symm⟩
  exact Nat.isDigit_of_mem_toDigits (by decide) (by decide) hc

theorem toList_label (h : Handle) : (Handle.label h).toList = '&' :: Nat.toDigits 10 h := by
  rw [Handle.label, String.toList_append, Names.toString_text]
  simp

/-! ### What a written operand is -/

/-- A word with none of the marks in front is told by what it is. -/
theorem classify_plain {word : String} (h : ∀ c ∈ word.toList.head?, c ≠ '&' ∧ c ≠ '@' ∧ c ≠ '\'') :
    classify word =
      if word = "#t" then .atom (.boolean true)
      else if word = "#f" then .atom (.boolean false)
      else if Number.isNumeral word then
        match Number.read? word with
        | some x => .atom (.number x)
        | none => .atom (.variable word)
      else if isKeyword word then .atom (.keyword word)
      else .atom (.variable word) := by
  unfold classify
  split
  · next digits heq => exact absurd rfl (h '&' (by rw [heq]; rfl)).1
  · next name heq => exact absurd rfl (h '@' (by rw [heq]; rfl)).2.1
  · next name heq => exact absurd rfl (h '\'' (by rw [heq]; rfl)).2.2
  · rfl

theorem classify_number {x : Float} (hx : Number.IsFinite x) :
    classify (Number.display x) = .atom (.number (Number.reread x)) := by
  obtain ⟨hnumeral, hread⟩ := Token.isNumeral_of_wordKind? (Number.isWord_display hx).2
  have hhead : ∀ c ∈ (Number.display x).toList.head?, c ≠ '&' ∧ c ≠ '@' ∧ c ≠ '\'' := by
    intro c hc
    rcases Number.head_of_isNumeral hnumeral hc with rfl | rfl | rfl | hdigit
    · decide
    · decide
    · decide
    · refine ⟨?_, ?_, ?_⟩ <;> rintro rfl <;> cases hdigit
  have hne : ∀ w : String, w.toList.head? = some '#' → Number.display x ≠ w := by
    rintro w hw rfl
    rcases Number.head_of_isNumeral hnumeral hw with h | h | h | h <;> cases h
  rw [classify_plain hhead, if_neg (hne _ rfl), if_neg (hne _ rfl), if_pos hnumeral, hread]

/-- The words for infinite numbers are no numerals. -/
theorem classify_infinite {x : Float} {negative : Bool} (hx : Binary.ofFloat x = .infinite negative) :
    ∃ v, classify (Number.display x) = .atom (.variable v) := by
  unfold Number.display Number.text
  rw [hx]
  cases negative with
  | false => exact ⟨"inf", by decide⟩
  | true => exact ⟨"-inf", by decide⟩

theorem classify_keyword {k : String} (hk : isKeyword k = true) : classify k = .atom (.keyword k) := by
  have hall : ∀ k ∈ keywords, classify k = .atom (.keyword k) := by decide
  exact hall k (List.contains_iff_mem.mp hk)

theorem classify_symbol (s : String) : classify ("'" ++ s) = .atom (.symbol s) := by
  unfold classify
  rw [String.toList_append]
  simp

theorem classify_label (name : String) : classify ("@" ++ name) = .label name := by
  unfold classify
  rw [String.toList_append]
  simp

theorem classify_handle {h : Handle} (hh : h < 2 ^ 64) : classify (Handle.label h) = .handle h := by
  unfold classify
  rw [toList_label]
  simp only [handleOf?_toDigits hh]

/-- A variable that looks like a label or a handle is read as one, any other as a variable. -/
theorem classify_variable {v : String} (hv : (Operand.atom (.variable v)).Written) :
    (¬(Operand.atom (.variable v)).Lossy ∧ classify v = .atom (.variable v)) ∨
      ((Operand.atom (.variable v)).Lossy ∧ ((∃ h, classify v = .handle h) ∨ ∃ name, classify v = .label name)) := by
  obtain ⟨-, -, hquote, htrue, hfalse, hnumeral, hkeyword⟩ := hv
  -- what the first character is decides: an at sign, an ampersand, or neither
  by_cases hat : v.toList.head? = some '@'
  · obtain ⟨name, hname⟩ := List.head?_eq_some_iff.mp hat
    refine Or.inr ⟨Or.inl hat, Or.inr ⟨String.ofList name, ?_⟩⟩
    unfold classify
    rw [hname]
    rfl
  by_cases hampersand : v.toList.head? = some '&'
  · obtain ⟨digits, hdigits⟩ := List.head?_eq_some_iff.mp hampersand
    -- digits of a machine word after the ampersand are a handle
    cases hhandle : handleOf? digits with
    | some h =>
      obtain ⟨hne, hall, hlt, -⟩ := handleOf?_eq_some.mp hhandle
      have hclassify : classify v = .handle h := by
        unfold classify
        rw [hdigits]
        simp only [hhandle]
      exact Or.inr ⟨Or.inr ⟨digits, hdigits, hne, hall, hlt⟩, Or.inl ⟨h, hclassify⟩⟩
    | none =>
      have hclassify : classify v = .atom (.variable v) := by
        unfold classify
        rw [hdigits]
        simp only [hhandle]
      refine Or.inl ⟨?_, hclassify⟩
      rintro (h | ⟨digits', hdigits', hne, hall, hlt⟩)
      · exact hat h
      · obtain rfl : digits = digits' := (List.cons.inj (hdigits.symm.trans hdigits')).2
        rw [handleOf?_eq_some.mpr ⟨hne, hall, hlt, rfl⟩] at hhandle
        cases hhandle
  · refine Or.inl ⟨?_, ?_⟩
    · rintro (h | ⟨digits, hdigits, -⟩)
      · exact hat h
      · exact hampersand (by rw [hdigits]; rfl)
    · have hplain : ∀ c ∈ v.toList.head?, c ≠ '&' ∧ c ≠ '@' ∧ c ≠ '\'' := by
        intro c hc
        refine ⟨?_, ?_, ?_⟩ <;> rintro rfl
        · exact hampersand hc
        · exact hat hc
        · exact hquote hc
      rw [classify_plain hplain, if_neg htrue, if_neg hfalse, if_neg (by simp [hnumeral]), if_neg (by simp [hkeyword])]

/-- **A written operand is read as what it is, unless it is lossy.** -/
theorem same_classify {o : Operand} (ho : o.Written) : (classify o.text).same o = true ↔ ¬o.Lossy := by
  cases o with
  | atom a =>
    cases a with
    | number x =>
      change (classify (Number.display x)).same _ = true ↔ _
      cases hx : Binary.ofFloat x with
      | nan => exact absurd hx ho
      | infinite negative =>
        -- an infinite number is read as a variable
        obtain ⟨v, hv⟩ := classify_infinite hx
        rw [hv]
        exact ⟨nofun, fun h => absurd ⟨negative, hx⟩ h⟩
      | finite negative m q =>
        have hfinite : Number.IsFinite x := ⟨negative, m, q, hx⟩
        rw [classify_number hfinite]
        refine ⟨fun _ => ?_, fun _ => Number.reread_beq hfinite⟩
        rintro ⟨n, hn⟩
        rw [hx] at hn
        cases hn
    | boolean b => cases b <;> exact ⟨fun _ => id, fun _ => rfl⟩
    | symbol s =>
      change (classify ("'" ++ s)).same _ = true ↔ _
      rw [classify_symbol]
      exact ⟨fun _ => id, fun _ => decide_eq_true rfl⟩
    | «variable» v =>
      change (classify v).same _ = true ↔ _
      -- a variable is read as one, or as a handle or a label that it looks like
      rcases classify_variable ho with ⟨hnot, hv⟩ | ⟨hlossy, ⟨h, hv⟩ | ⟨name, hv⟩⟩
      · rw [hv]
        exact ⟨fun _ => hnot, fun _ => decide_eq_true rfl⟩
      · rw [hv]
        exact ⟨nofun, fun h => absurd hlossy h⟩
      · rw [hv]
        exact ⟨nofun, fun h => absurd hlossy h⟩
    | keyword k =>
      change (classify k).same _ = true ↔ _
      rw [classify_keyword ho]
      exact ⟨fun _ => id, fun _ => decide_eq_true rfl⟩
  | label name =>
    change (classify ("@" ++ name)).same _ = true ↔ _
    rw [classify_label]
    exact ⟨fun _ => id, fun _ => decide_eq_true rfl⟩
  | handle h =>
    change (classify (Handle.label h)).same _ = true ↔ _
    rw [classify_handle ho]
    exact ⟨fun _ => id, fun _ => decide_eq_true rfl⟩

/-- **An operand is written on a line.** -/
theorem line_text {o : Operand} (ho : o.Written) : Text.Line o.text.toList ∧ o.text.toList ≠ [] := by
  cases o with
  | atom a =>
    cases a with
    | number x =>
      change Text.Line (Number.display x).toList ∧ (Number.display x).toList ≠ []
      cases hx : Binary.ofFloat x with
      | nan => exact absurd hx ho
      | infinite negative =>
        unfold Number.display Number.text
        rw [hx]
        cases negative with
        | false => exact ⟨Text.line_of_not_blank (by decide), by decide⟩
        | true => exact ⟨Text.line_of_not_blank (by decide), by decide⟩
      | finite negative m q =>
        -- a numeral is one word, and so is a keyword
        have hword := (Number.isWord_display ⟨negative, m, q, hx⟩).1
        exact ⟨hword.line, hword.ne_nil⟩
    | boolean b => cases b <;> exact ⟨Text.line_of_not_blank (by decide), by decide⟩
    | symbol s =>
      have htext : (Operand.atom (.symbol s)).text.toList = '\'' :: s.toList := by
        rw [text, Atom.text, String.toList_append]
        rfl
      rw [htext]
      exact ⟨ho, List.cons_ne_nil _ _⟩
    | «variable» v => exact ⟨ho.1, fun h => ho.2.1 (String.toList_inj.mp h)⟩
    | keyword k =>
      have hword := (Token.isSymbol_of_isKeyword ho).word
      exact ⟨hword.line, hword.ne_nil⟩
  | label name =>
    have htext : (Operand.label name).text.toList = '@' :: name.toList := by
      rw [text, String.toList_append]
      rfl
    rw [htext]
    exact ⟨ho, List.cons_ne_nil _ _⟩
  | handle h =>
    change Text.Line (Handle.label h).toList ∧ (Handle.label h).toList ≠ []
    rw [toList_label]
    refine ⟨Text.line_of_not_blank fun c hc => ?_, List.cons_ne_nil _ _⟩
    rcases List.mem_cons.mp hc with rfl | hc
    · rfl
    · exact Token.not_blank_of_isDelimiter
        (Number.isDigit_plain (Nat.isDigit_of_mem_toDigits (by decide) (by decide) hc)).1

/-- A word that starts with an ampersand or an underscore is neither a numeral nor a keyword. -/
theorem written_marked {word : String} {mark : Char} (hmark : mark = '&' ∨ mark = '_') (hline : Text.Line word.toList)
    (hhead : word.toList.head? = some mark) : (Operand.atom (.variable word)).Written := by
  have hkeywords : ∀ k ∈ "" :: "#t" :: "#f" :: keywords, k.toList.head? ≠ some '&' ∧ k.toList.head? ≠ some '_' := by decide
  have hne : ∀ k ∈ "" :: "#t" :: "#f" :: keywords, word ≠ k := by
    rintro k hk rfl
    obtain ⟨hampersand, hunderscore⟩ := hkeywords word hk
    rcases hmark with rfl | rfl
    · exact hampersand hhead
    · exact hunderscore hhead
  refine ⟨hline, hne _ (by decide), ?_, hne _ (by decide), hne _ (by decide), ?_, ?_⟩
  · rw [hhead]
    rcases hmark with rfl | rfl <;> decide
  · refine Bool.eq_false_iff.mpr fun h => ?_
    rcases hmark with rfl | rfl <;> rcases Number.head_of_isNumeral h hhead with h | h | h | h <;> cases h
  · refine Bool.eq_false_iff.mpr fun h => hne word ?_ rfl
    simp only [List.mem_cons]
    exact Or.inr (Or.inr (Or.inr (List.contains_iff_mem.mp h)))

/-- **What a text is read as can be written.** -/
theorem written_classify {word : String} (hline : Text.Line word.toList) (hne : word ≠ "") : (classify word).Written := by
  unfold classify
  split
  · next digits hdigits =>
    split
    · next h hh =>
      obtain ⟨-, -, hlt, rfl⟩ := handleOf?_eq_some.mp hh
      exact hlt
    · exact written_marked (Or.inl rfl) hline (by rw [hdigits]; rfl)
  · next name hname =>
    rw [hname] at hline
    rw [Written, String.toList_ofList]
    exact hline
  · next name hname =>
    rw [hname] at hline
    change Text.Line ('\'' :: (String.ofList name).toList)
    rw [String.toList_ofList]
    exact hline
  · -- a word without a mark is a constant, a keyword, or else a name
    next hampersand hat hquote =>
    split
    · trivial
    next htrue =>
    split
    · trivial
    next hfalse =>
    split
    · next hnumeral =>
      obtain ⟨x, hx⟩ := Option.isSome_iff_exists.mp (Bool.and_eq_true_iff.mp hnumeral).2
      rw [hx]
      exact Number.ne_nan_of_isNumeral hnumeral hx
    next hnumeral =>
    split
    · next hkeyword => exact hkeyword
    next hkeyword =>
    refine ⟨hline, hne, fun hhead => ?_, htrue, hfalse, Bool.eq_false_iff.mpr hnumeral, Bool.eq_false_iff.mpr hkeyword⟩
    obtain ⟨name, hname⟩ := List.head?_eq_some_iff.mp hhead
    exact hquote name hname

end Operand

/-! ### Instructions -/

namespace Opcode

/-- The name of an operation is a word that starts neither a comment nor a label. -/
theorem mnemonic_plain (o : Opcode) : o.mnemonic.toList ≠ [] ∧ (∀ c ∈ o.mnemonic.toList, Text.isBlank c = false) ∧
    (∀ c ∈ o.mnemonic.toList.head?, c ≠ ';' ∧ c ≠ '@') := by
  cases o <;> decide

theorem ofMnemonic?_mnemonic (o : Opcode) : ofMnemonic? o.mnemonic = some o := by cases o <;> decide

end Opcode

namespace Instruction

/-- The handle of an instruction fits a machine word. -/
def Fits : Instruction → Prop
  | .op _ (some operand) => operand.Fits
  | _ => True

instance : DecidablePred Fits
  | .op _ (some (.handle h)) => inferInstanceAs (Decidable (h < 2 ^ 64))
  | .op _ (some (.atom _)) | .op _ (some (.label _)) | .op _ none | .comment _ | .label _ => isTrue trivial

/-- **An instruction as a listing or the compiler has it.** -/
def Written : Instruction → Prop
  | .comment text => Text.Line (';' :: text.toList)
  | .label name => Text.Line name.toList
  | .op opcode operand => (opcode.takesOperand = true → operand.isSome = true) ∧ ∀ o ∈ operand, o.Written

/-- An instruction with an operand that is written like one of another kind. -/
def Lossy : Instruction → Prop
  | .op _ (some operand) => operand.Lossy
  | _ => False

instance : DecidablePred Lossy
  | .op _ (some operand) => inferInstanceAs (Decidable operand.Lossy)
  | .op _ none | .comment _ | .label _ => isFalse id

/-- **An instruction is written on a line.** -/
theorem line_text {i : Instruction} (hi : i.Written) : Text.Line i.text.toList := by
  cases i with
  | comment text =>
    rw [Instruction.text, String.toList_append]
    exact hi
  | label name =>
    rw [Instruction.text, String.toList_append]
    have hname : Text.Line name.toList := hi
    refine ⟨fun c hc => ?_, fun c hc => ?_, ?_⟩
    · cases hc
      rfl
    · by_cases hnil : name.toList = []
      · rw [hnil] at hc
        cases hc
        rfl
      · rw [List.getLast?_append_of_ne_nil _ hnil] at hc
        exact hname.last c hc
    · rw [List.mem_append, not_or]
      exact ⟨by decide, hname.single⟩
  | op opcode operand =>
    obtain ⟨hne, hplain, -⟩ := opcode.mnemonic_plain
    have hmnemonic := Text.line_of_not_blank hplain
    cases operand with
    | none => exact hmnemonic
    | some o =>
      obtain ⟨hline, hne'⟩ := Operand.line_text (hi.2 o rfl)
      have hboth := hmnemonic.append hline hne hne' [' '] (by decide)
      rw [Instruction.text, String.toList_append, String.toList_append, List.append_assoc]
      exact hboth

/-- What follows the name of an operation is split off at the blank. -/
theorem splitAtBlank_append {cs : List Char} (h : ∀ c ∈ cs, Text.isBlank c = false) (rest : List Char) :
    Text.splitAtBlank (cs ++ ' ' :: rest) = some (cs, rest) := by
  have hcs : ∀ c ∈ cs, (!Text.isBlank c) = true := fun c hc => by rw [h c hc]; rfl
  have hspace : (!Text.isBlank ' ') = false := rfl
  rw [Text.splitAtBlank, List.dropWhile_append_of_pos hcs, List.takeWhile_append_of_pos hcs,
    List.dropWhile_cons_of_neg (by simp [hspace]), List.takeWhile_cons_of_neg (by simp [hspace]), List.append_nil]

theorem splitAtBlank_eq_none {cs : List Char} (h : ∀ c ∈ cs, Text.isBlank c = false) : Text.splitAtBlank cs = none := by
  have hcs : cs.dropWhile (fun c => !Text.isBlank c) = [] := List.dropWhile_eq_nil_iff.mpr fun c hc => by rw [h c hc]; rfl
  rw [Text.splitAtBlank, hcs]

/-- What is split off is part of the text. -/
theorem subset_of_splitAtBlank (cs : List Char) : ((Text.splitAtBlank cs).getD (cs, [])).2 ⊆ cs := by
  have hsuffix := (List.dropWhile_sublist (l := cs) fun c => !Text.isBlank c).subset
  unfold Text.splitAtBlank
  split
  · exact List.nil_subset cs
  · next c rest heq =>
    rw [heq] at hsuffix
    exact fun d hd => hsuffix (List.mem_cons_of_mem c hd)

/-- A line that is no comment and no label is read as an operation. -/
theorem readLine_op (cs : List Char) (hline : Text.Line cs) (hne : cs ≠ []) (hhead : ∀ c ∈ cs.head?, c ≠ ';' ∧ c ≠ '@')
    {name rest : List Char} (hsplit : (Text.splitAtBlank cs).getD (cs, []) = (name, rest)) {opcode : Opcode}
    (hopcode : Opcode.ofMnemonic? (String.ofList name) = some opcode) (n : Nat) :
    readLine n cs = match Text.trim rest with
      | [] => if opcode.takesOperand then .error (.missingArgument opcode n) else .ok (some (.op opcode none))
      | operand => .ok (some (.op opcode (some (Operand.classify (String.ofList operand))))) := by
  unfold readLine
  rw [hline.trim_eq]
  split
  · exact absurd rfl hne
  · next text heq => exact absurd rfl (hhead ';' rfl).1
  · next name heq => exact absurd rfl (hhead '@' rfl).2
  · cases hrest : Text.trim rest with
    | nil => simp only [hsplit, hopcode, hrest]
    | cons c operand => simp only [hsplit, hopcode, hrest]

/-- **A written instruction is read from its line**, and is the same unless it is lossy. -/
theorem readLine_text {i : Instruction} (hi : i.Written) (n : Nat) :
    ∃ j, readLine n i.text.toList = .ok (some j) ∧ (j.same i = true ↔ ¬i.Lossy) := by
  have hline := line_text hi
  cases i with
  | comment text =>
    refine ⟨.comment text, ?_, fun _ => id, fun _ => decide_eq_true rfl⟩
    unfold readLine
    rw [hline.trim_eq, Instruction.text, String.toList_append]
    simp
  | label name =>
    refine ⟨.label name, ?_, fun _ => id, fun _ => decide_eq_true rfl⟩
    have hname : Text.Line name.toList := hi
    unfold readLine
    rw [hline.trim_eq, Instruction.text, String.toList_append]
    simp [hname.trim_eq]
  | op opcode operand =>
    obtain ⟨hne, hplain, hhead⟩ := opcode.mnemonic_plain
    -- the mnemonic has no blank, so that it ends where the operand begins
    have hopcode : Opcode.ofMnemonic? (String.ofList opcode.mnemonic.toList) = some opcode := by
      rw [String.ofList_toList, opcode.ofMnemonic?_mnemonic]
    cases operand with
    | none =>
      have hno : opcode.takesOperand = false := Bool.eq_false_iff.mpr fun h => by cases hi.1 h
      have hread := readLine_op opcode.mnemonic.toList hline hne hhead
        (by rw [splitAtBlank_eq_none hplain]; rfl) hopcode n
      refine ⟨.op opcode none, ?_, fun _ => id, fun _ => decide_eq_true rfl⟩
      rw [Instruction.text, hread, hno]
      rfl
    | some o =>
      have ho := hi.2 o rfl
      obtain ⟨holine, hone⟩ := Operand.line_text ho
      have htext : (Instruction.op opcode (some o)).text.toList = opcode.mnemonic.toList ++ ' ' :: o.text.toList := by
        rw [Instruction.text, String.toList_append, String.toList_append, List.append_assoc]
        rfl
      rw [htext] at hline ⊢
      have hread := readLine_op _ hline (by simp) (by rw [List.head?_append_of_ne_nil _ hne]; exact hhead)
        (by rw [splitAtBlank_append hplain]; rfl) hopcode n
      rw [holine.trim_eq] at hread
      refine ⟨.op opcode (some (Operand.classify o.text)), ?_, ?_⟩
      · rw [hread]
        split
        · next hnil => exact absurd hnil hone
        · rw [String.ofList_toList]
      · simp only [Instruction.same, decide_true, Bool.true_and, Lossy]
        exact Operand.same_classify ho

/-- **What a line is read as can be written.** -/
theorem written_of_readLine {n : Nat} {cs : List Char} {i : Instruction} (hcs : '\n' ∉ cs)
    (h : readLine n cs = .ok (some i)) : i.Written := by
  have htrim := Text.line_trim hcs
  unfold readLine at h
  split at h
  · cases h
  · next text heq =>
    cases h
    rw [heq] at htrim
    rw [Written, String.toList_ofList]
    exact htrim
  · next name heq =>
    cases h
    rw [heq] at htrim
    rw [Written, String.toList_ofList]
    exact Text.line_trim fun hmem => htrim.single (List.mem_cons_of_mem _ hmem)
  · -- what stands behind the opcode is one operand
    dsimp only at h
    split at h
    · cases h
    next opcode hopcode =>
    split at h
    · split at h
      · cases h
      · next hno =>
        cases h
        exact ⟨fun h => absurd h hno, nofun⟩
    · next hne =>
      cases h
      refine ⟨fun _ => rfl, fun o ho => ?_⟩
      cases ho
      have hsubset := subset_of_splitAtBlank (Text.trim cs)
      have hrest := Text.line_trim fun hmem => htrim.single (hsubset hmem)
      rw [← String.toList_ofList (l := Text.trim _)] at hrest
      exact Operand.written_classify hrest fun heq => hne (String.ofList_eq_empty_iff.mp heq)

end Instruction

end SchemeMachine
