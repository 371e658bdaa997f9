import Mathlib.Data.List.Basic
import SchemeMachine.Proofs.Syntax.Sketch
import SchemeMachine.Token.Lexer
import SchemeMachine.Tree.Render

/-!
# What a text is read as

The kinds of the tokens of a text, told character by character from its front, with whatever follows still in place. A
word can thereby not run into what comes after it.

* `Token.Reads` says what a text is read as. There is one lemma for each thing that a text can begin with: a blank, a
  comment, a bracket, a quote, a string, a word.
* `Token.IsSymbol` says of a word that it is read as a symbol. All symbols that come out of a text are such words
  (`Token.isSymbol_of_scan`).
* `Text.reread` is the content of a string that has been written with escapes and read again, `Number.reread` a number
  that has been shown and read again.
-/

namespace SchemeMachine

/-! ### Deciding along a word

Facts about the characters of a word are decided along the word, never by going through all characters there are. -/

namespace Text

variable (P : Char → Prop) [DecidablePred P]

instance (priority := 2000) decidableForallMem (cs : List Char) : Decidable (∀ c ∈ cs, P c) :=
  List.decidableBAll P cs

instance (priority := 2000) decidableExistsMem (cs : List Char) : Decidable (∃ c ∈ cs, P c) :=
  List.decidableBEx P cs

instance (priority := 2000) decidableForallHead (o : Option Char) : Decidable (∀ c ∈ o, P c) :=
  Option.decidableForallMem o

instance (priority := 2000) decidableExistsHead (o : Option Char) : Decidable (∃ c ∈ o, P c) :=
  Option.decidableExistsMem o

end Text

namespace Token

/-- **The kinds of the tokens of a text**, wherever it stands. -/
def Reads (cs : List Char) (kinds : List Kind) : Prop :=
  ∀ p, ∃ tokens, scanFrom p cs = .ok tokens ∧ tokens.map (·.kind) = kinds

/-- What may follow a word: nothing, or a character that ends it. -/
def Delimits (cs : List Char) : Prop := ∀ c ∈ cs.head?, isDelimiter c = true

/-- **A word**: it has a character, the first of which is no control character, and none that ends it. -/
structure IsWord (w : String) : Prop where
  plain : ∀ c ∈ w.toList, isDelimiter c = false
  starts : ∃ c cs, w.toList = c :: cs ∧ Text.isControl c = false

/-- **A word that is read as a symbol.** -/
structure IsSymbol (w : String) : Prop where
  word : IsWord w
  kind : wordKind? w = some (.symbol w)

instance (w : String) : Decidable (IsWord w) :=
  decidable_of_iff ((∀ c ∈ w.toList, isDelimiter c = false) ∧ ∃ c ∈ w.toList.head?, Text.isControl c = false) <| by
    constructor
    · rintro ⟨hplain, c, hc, hcontrol⟩
      obtain ⟨cs, hcs⟩ := List.head?_eq_some_iff.mp hc
      exact ⟨hplain, c, cs, hcs, hcontrol⟩
    · rintro ⟨hplain, c, cs, hcs, hcontrol⟩
      exact ⟨hplain, c, by simp [hcs], hcontrol⟩

instance (w : String) : Decidable (IsSymbol w) :=
  decidable_of_iff (IsWord w ∧ wordKind? w = some (.symbol w)) ⟨fun h => ⟨h.1, h.2⟩, fun h => ⟨h.word, h.kind⟩⟩

variable {c : Char} {cs rest : List Char} {kind : Kind} {kinds : List Kind}

namespace Reads

theorem nil : Reads [] [.endOfText] := fun p => ⟨_, scanFrom.eq_def p [], rfl⟩

theorem blank (h : Reads cs kinds) (hc : Text.isBlank c = true) : Reads (c :: cs) kinds := by
  intro p
  rw [scanFrom_blank hc]
  exact h _

/-- A comment ends with its line. -/
theorem comment (h : Reads rest kinds) {line : List Char} (hline : '\n' ∉ line) :
    Reads (';' :: (line ++ '\n' :: rest)) kinds := by
  have hpos : ∀ d ∈ line, (d != '\n') = true := fun d hd => bne_iff_ne.mpr fun heq => hline (heq ▸ hd)
  have hdrop : (line ++ '\n' :: rest).dropWhile (· != '\n') = '\n' :: rest := by
    rw [List.dropWhile_append_of_pos hpos]
    rfl
  intro p
  rw [scanFrom_comment, hdrop]
  exact (h.blank rfl) _

/-- **One token, then the others.** -/
theorem cons (h : Reads rest kinds) (hc : isDelimiter c = false ∨ (Text.isBlank c = false ∧ c ≠ ';'))
    (hlexeme : ∀ p, ∃ l, lexeme p c cs = .ok l ∧ l.kind = kind ∧ l.rest = rest) : Reads (c :: cs) (kind :: kinds) := by
  have hstart : Text.isBlank c = false ∧ c ≠ ';' := by
    rcases hc with hc | hc
    · simp only [isDelimiter, Bool.or_eq_false_iff, decide_eq_false_iff_not, List.mem_cons, not_or] at hc
      exact ⟨hc.1, hc.2.2.2.2.2.2.1⟩
    · exact hc
  intro p
  obtain ⟨l, hl, hkind, hrest⟩ := hlexeme p
  obtain ⟨tokens, htokens, hkinds⟩ := h (p.advanceAll l.taken)
  refine ⟨⟨l.kind, p.spanTo (p.advanceAll l.taken)⟩ :: tokens, ?_, by rw [List.map_cons, hkind, hkinds]⟩
  rw [scanFrom_lexeme (Bool.eq_false_iff.mp hstart.1) hstart.2 hl, hrest, htokens]
  rfl

theorem «open» (h : Reads cs kinds) : Reads ('(' :: cs) (.open :: kinds) :=
  h.cons (Or.inr (by decide)) fun _ => ⟨_, rfl, rfl, rfl⟩

theorem close (h : Reads cs kinds) : Reads (')' :: cs) (.close :: kinds) :=
  h.cons (Or.inr (by decide)) fun _ => ⟨_, rfl, rfl, rfl⟩

theorem quote (h : Reads cs kinds) : Reads ('\'' :: cs) (.quote :: kinds) :=
  h.cons (Or.inr (by decide)) fun _ => ⟨_, rfl, rfl, rfl⟩

theorem quasiquote (h : Reads cs kinds) : Reads (backquote :: cs) (.quasiquote :: kinds) :=
  h.cons (Or.inr (by decide)) fun _ => ⟨_, rfl, rfl, rfl⟩

theorem unquote (h : Reads cs kinds) : Reads (',' :: cs) (.unquote :: kinds) :=
  h.cons (Or.inr (by decide)) fun _ => ⟨_, rfl, rfl, rfl⟩

theorem space (h : Reads cs kinds) : Reads (' ' :: cs) kinds := h.blank rfl

theorem newline (h : Reads cs kinds) : Reads ('\n' :: cs) kinds := h.blank rfl

/-- **A word ends where a delimiter begins.** -/
theorem word (h : Reads rest kinds) {w : String} (hw : IsWord w) (hkind : wordKind? w = some kind)
    (hrest : Delimits rest) : Reads (w.toList ++ rest) (kind :: kinds) := by
  obtain ⟨c, cs, hcs, hcontrol⟩ := hw.starts
  have hplain := hw.plain
  rw [hcs] at hplain
  have hc : isDelimiter c = false := hplain c List.mem_cons_self
  have htail : ∀ d ∈ cs, (!isDelimiter d) = true := fun d hd => by rw [hplain d (List.mem_cons_of_mem c hd)]; rfl
  have htake : (cs ++ rest).takeWhile (fun d => !isDelimiter d) = cs := by
    rw [List.takeWhile_append_of_pos htail]
    cases rest with
    | nil => exact List.append_nil cs
    | cons d rest => rw [List.takeWhile_cons_of_neg (by rw [hrest d rfl]; decide), List.append_nil]
  have hdrop : (cs ++ rest).dropWhile (fun d => !isDelimiter d) = rest := by
    rw [List.dropWhile_append_of_pos htail]
    cases rest with
    | nil => rfl
    | cons d rest => rw [List.dropWhile_cons_of_neg (by rw [hrest d rfl]; decide)]
  have hofList : String.ofList (c :: cs) = w := by rw [← hcs, String.ofList_toList]
  rw [hcs, List.cons_append]
  refine h.cons (Or.inl hc) fun p => ⟨⟨kind, c :: cs, rest⟩, ?_, rfl, rfl⟩
  -- the characters that stand for themselves end words
  have hnot : ∀ d, isDelimiter d = true → c ≠ d := by
    rintro d hd rfl
    rw [hd] at hc
    cases hc
  rw [lexeme, if_neg (not_or.mpr ⟨hnot _ rfl, hnot _ rfl⟩), if_neg (not_or.mpr ⟨hnot _ rfl, hnot _ rfl⟩),
    if_neg (hnot _ rfl), if_neg (hnot _ rfl), if_neg (hnot _ rfl), if_neg (hnot _ rfl),
    if_neg (by rw [hcontrol]; exact Bool.false_ne_true)]
  simp only [htake, hdrop, hofList, hkind]

theorem symbol (h : Reads rest kinds) {w : String} (hw : IsSymbol w) (hrest : Delimits rest) :
    Reads (w.toList ++ rest) (.symbol w :: kinds) :=
  h.word hw.word hw.kind hrest

end Reads

/-! ### Words out of a text -/

theorem isWord_of_takeWhile {c : Char} (hc : isDelimiter c = false) (hcontrol : Text.isControl c = false)
    (cs : List Char) : IsWord (String.ofList (c :: cs.takeWhile fun d => !isDelimiter d)) := by
  refine ⟨fun d hd => ?_, c, _, String.toList_ofList, hcontrol⟩
  rw [String.toList_ofList] at hd
  rcases List.mem_cons.mp hd with rfl | hd
  · exact hc
  · have hd := List.all_eq_true.mp List.all_takeWhile d hd
    cases hdelimiter : isDelimiter d
    · rfl
    · rw [hdelimiter] at hd
      cases hd

theorem eq_of_wordKind? {word name : String} (h : wordKind? word = some (.symbol name)) : name = word := by
  unfold wordKind? at h
  split at h
  · cases h
  split at h
  · cases h
  split at h
  · obtain ⟨x, -, hx⟩ := Option.map_eq_some_iff.mp h
    cases hx
  split at h
  · cases h
  · cases h
    rfl

/-- A word that is read as a number is a numeral. -/
theorem isNumeral_of_wordKind? {word : String} {x : Float} (h : wordKind? word = some (.number x)) :
    Number.isNumeral word = true ∧ Number.read? word = some x := by
  unfold wordKind? at h
  split at h
  · cases h
  split at h
  · cases h
  split at h
  · next hnumeral =>
    obtain ⟨y, hy, hxy⟩ := Option.map_eq_some_iff.mp h
    cases hxy
    exact ⟨hnumeral, hy⟩
  split at h
  · cases h
  · cases h

/-- A word is a boolean, a number or a symbol. -/
theorem wordKind?_ne_endOfText (word : String) : wordKind? word ≠ some .endOfText := by
  intro hkind
  unfold wordKind? at hkind
  split at hkind
  · cases hkind
  split at hkind
  · cases hkind
  split at hkind
  · obtain ⟨x, -, hx⟩ := Option.map_eq_some_iff.mp hkind
    cases hx
  split at hkind <;> cases hkind

theorem kind_ne_endOfText {p : Position} {c : Char} {cs : List Char} {l : Lexeme} (h : lexeme p c cs = .ok l) :
    l.kind ≠ .endOfText := by
  intro hend
  unfold lexeme at h
  -- parentheses and the marks of quotation
  split at h
  · cases h; cases hend
  split at h
  · cases h; cases hend
  split at h
  · cases h; cases hend
  split at h
  · cases h; cases hend
  split at h
  · cases h; cases hend
  -- a string, and a character that begins nothing
  split at h
  · split at h <;> cases h
    cases hend
  split at h
  · cases h
  dsimp only at h
  split at h
  · cases h
  next kind hkind =>
  cases h
  obtain rfl : kind = .endOfText := hend
  exact wordKind?_ne_endOfText _ hkind

/-- A symbol at the front of a text is a word. -/
theorem isSymbol_of_lexeme {p : Position} (hblank : Text.isBlank c = false) (hsemicolon : c ≠ ';') {l : Lexeme}
    (h : lexeme p c cs = .ok l) {name : String} (hname : l.kind = .symbol name) : IsSymbol name := by
  unfold lexeme at h
  -- the marks and strings are tried before words, and none of them is a symbol
  split at h
  · cases h
    cases hname
  next hopen =>
  split at h
  · cases h
    cases hname
  next hclose =>
  split at h
  · cases h
    cases hname
  next hquote =>
  split at h
  · cases h
    cases hname
  next hquasiquote =>
  split at h
  · cases h
    cases hname
  next hunquote =>
  split at h
  · split at h
    · cases h
    · cases h
      cases hname
  next hstring =>
  split at h
  · cases h
  next hcontrol =>
  dsimp only at h
  split at h
  · cases h
  next kind hkind =>
  cases h
  obtain rfl : kind = .symbol name := hname
  -- what is left is a word: all delimiters have been tried
  have hc : isDelimiter c = false := by
    rw [not_or] at hopen hclose
    simp only [isDelimiter, hblank, Bool.false_or, decide_eq_false_iff_not, List.mem_cons, List.not_mem_nil, or_false,
      not_or]
    exact ⟨hopen.1, hclose.1, hopen.2, hclose.2, hstring, hsemicolon, hquote, hquasiquote, hunquote⟩
  have hword := isWord_of_takeWhile hc (Bool.eq_false_iff.mpr hcontrol) cs
  obtain rfl := eq_of_wordKind? hkind
  exact ⟨hword, hkind⟩

/-- A number at the front of a text is a numeral. -/
theorem exists_numeral_of_lexeme {p : Position} {l : Lexeme} (h : lexeme p c cs = .ok l) {x : Float}
    (hx : l.kind = .number x) : ∃ word, Number.isNumeral word = true ∧ Number.read? word = some x := by
  unfold lexeme at h
  -- only words are numerals; what begins otherwise is excluded
  split at h
  · cases h
    cases hx
  split at h
  · cases h
    cases hx
  split at h
  · cases h
    cases hx
  split at h
  · cases h
    cases hx
  split at h
  · cases h
    cases hx
  split at h
  · split at h
    · cases h
    · cases h
      cases hx
  split at h
  · cases h
  dsimp only at h
  split at h
  · cases h
  next kind hkind =>
  cases h
  obtain rfl : kind = .number x := hx
  exact ⟨_, isNumeral_of_wordKind? hkind⟩

/-- **Every token of a text is read off the front of some part of it**, the last one apart. -/
theorem exists_lexeme_of_scan {p : Position} {tokens : List Token} (h : scanFrom p cs = .ok tokens) :
    ∀ t ∈ tokens, t.kind = .endOfText ∨ ∃ q c cs l, Text.isBlank c = false ∧ c ≠ ';' ∧ lexeme q c cs = .ok l ∧
      l.kind = t.kind := by
  fun_induction scanFrom p cs generalizing tokens with
  | case1 p =>
    cases h
    intro t ht
    rw [List.mem_singleton.mp ht]
    exact Or.inl rfl
  | case2 p c cs hblank ih => exact ih h
  | case3 p cs hblank ih => exact ih h
  | case4 p c cs hblank hsemicolon e he => cases h
  | case5 p c cs hblank hsemicolon l hl q =>
    rename_i ih
    cases hrest : scanFrom q l.rest with
    | error e =>
      rw [hrest] at h
      cases h
    | ok others =>
      rw [hrest] at h
      cases h
      intro t ht
      rcases List.mem_cons.mp ht with rfl | ht
      · exact Or.inr ⟨p, c, cs, l, Bool.eq_false_iff.mpr hblank, hsemicolon, hl, rfl⟩
      · exact ih hrest t ht

/-- **The symbols of a text are words that are read as symbols.** -/
theorem isSymbol_of_scan {p : Position} {tokens : List Token} (h : scanFrom p cs = .ok tokens) :
    ∀ t ∈ tokens, ∀ name, t.kind = .symbol name → IsSymbol name := by
  intro t ht name hname
  rcases exists_lexeme_of_scan h t ht with hend | ⟨q, d, ds, l, hblank, hsemicolon, hl, hkind⟩
  · rw [hend] at hname
    cases hname
  · exact isSymbol_of_lexeme hblank hsemicolon hl (hkind.trans hname)

/-- **The numbers of a text are numerals.** -/
theorem exists_numeral_of_scan {p : Position} {tokens : List Token} (h : scanFrom p cs = .ok tokens) :
    ∀ t ∈ tokens, ∀ x, t.kind = .number x → ∃ word, Number.isNumeral word = true ∧ Number.read? word = some x := by
  intro t ht x hx
  rcases exists_lexeme_of_scan h t ht with hend | ⟨q, d, ds, l, -, -, hl, hkind⟩
  · rw [hend] at hx
    cases hx
  · exact exists_numeral_of_lexeme hl (hkind.trans hx)

/-- Keywords are read as symbols. -/
theorem isSymbol_of_isKeyword {word : String} (h : isKeyword word = true) : IsSymbol word := by
  have hall : ∀ w ∈ keywords, (∀ c ∈ w.toList, isDelimiter c = false) ∧
      (∃ c ∈ w.toList.head?, Text.isControl c = false) ∧ wordKind? w = some (.symbol w) := by
    decide
  obtain ⟨hplain, ⟨c, hc, hcontrol⟩, hkind⟩ := hall word (List.contains_iff_mem.mp h)
  refine ⟨⟨hplain, c, word.toList.tail, ?_, hcontrol⟩, hkind⟩
  exact (List.cons_head?_tail hc).symm

end Token

/-! ### Strings -/

namespace Text

/-- What is left of a character that has been escaped and read again. Of the escapes only four are known, the others are
taken as they stand. -/
def rereadChar (c : Char) : List Char :=
  if c = '"' ∨ c = '\\' ∨ c = '\n' ∨ c = '\t' then [c] else escape c

/-- **The content of a string that has been written and read again.** -/
def reread (s : String) : String := String.ofList (s.toList.flatMap rereadChar)

/-- **A string that survives being written**: every character in it is written as itself or with a known escape. -/
def Survives (s : String) : Prop := ∀ c ∈ s.toList, rereadChar c = [c]

theorem Survives.reread {s : String} (h : Survives s) : reread s = s := by
  have hflat : ∀ cs : List Char, (∀ c ∈ cs, rereadChar c = [c]) → cs.flatMap rereadChar = cs := by
    intro cs
    induction cs with
    | nil => exact fun _ => rfl
    | cons c cs ih =>
      intro hcs
      rw [List.flatMap_cons, hcs c List.mem_cons_self, ih fun d hd => hcs d (List.mem_cons_of_mem c hd)]
      rfl
  rw [Text.reread, hflat _ h, String.ofList_toList]

/-- Characters that mean nothing in a string are read as they are. -/
theorem readString_plain {cs : List Char} (hcs : ∀ c ∈ cs, c ≠ '"' ∧ c ≠ '\\') (rest : List Char) :
    Token.readString (cs ++ rest) =
      (Token.readString rest).map fun r => (cs ++ r.1, cs ++ r.2.1, r.2.2) := by
  induction cs with
  | nil => simp
  | cons c cs ih =>
    obtain ⟨hquote, hbackslash⟩ := hcs c List.mem_cons_self
    have hstep : ∀ tail, Token.readString (c :: tail) =
        (Token.readString tail).map fun r => (c :: r.1, c :: r.2.1, r.2.2) := by
      intro tail
      rw [Token.readString.eq_def]
      split
      · next heq => cases heq
      · next heq => exact absurd (List.cons.inj heq).1 hquote
      · next heq => exact absurd (List.cons.inj heq).1 hbackslash
      · next heq =>
        obtain ⟨rfl, rfl⟩ := List.cons.inj heq
        rw [if_neg hbackslash]
    rw [List.cons_append, hstep, ih fun d hd => hcs d (List.mem_cons_of_mem c hd), Option.map_map]
    rfl

theorem readString_escaped (c : Char) (rest : List Char) :
    Token.readString ('\\' :: c :: rest) =
      (Token.readString rest).map fun r => (Token.unescape c ++ r.1, '\\' :: c :: r.2.1, r.2.2) :=
  rfl

theorem ne_of_mem_toDigits {n : Nat} {c : Char} (h : c ∈ Nat.toDigits 16 n) : c ≠ '"' ∧ c ≠ '\\' := by
  have hdigit : ∀ d : Nat, d.digitChar ≠ '"' ∧ d.digitChar ≠ '\\' := fun d =>
    ⟨Nat.digitChar_ne _ rfl, Nat.digitChar_ne _ rfl⟩
  induction n using Nat.strongRecOn with
  | ind n ih =>
    by_cases hn : n < 16
    · rw [Nat.toDigits_of_lt_base hn, List.mem_singleton] at h
      exact h ▸ hdigit n
    · rw [Nat.toDigits_of_base_le (by omega) (by omega), List.mem_append, List.mem_singleton] at h
      rcases h with h | rfl
      · exact ih (n / 16) (by omega) h
      · exact hdigit _

/-- **A character that has been escaped is read again.** -/
theorem readString_escape (c : Char) (rest : List Char) :
    Token.readString (escape c ++ rest) =
      (Token.readString rest).map fun r => (rereadChar c ++ r.1, escape c ++ r.2.1, r.2.2) := by
  by_cases hquote : c = '"'
  · rw [hquote]
    exact readString_escaped '"' rest
  by_cases hbackslash : c = '\\'
  · rw [hbackslash]
    exact readString_escaped '\\' rest
  by_cases hnewline : c = '\n'
  · rw [hnewline]
    exact readString_escaped 'n' rest
  by_cases htab : c = '\t'
  · rw [htab]
    exact readString_escaped 't' rest
  -- the other escapes are not known, and the backslash stands for itself
  rw [rereadChar, if_neg (by simp only [hquote, hbackslash, hnewline, htab, or_self, not_false_iff]), escape,
    if_neg hquote, if_neg hbackslash, if_neg hnewline]
  split
  · exact readString_escaped 'r' rest
  split
  · exact readString_escaped '0' rest
  split
  · have hplain : ∀ d ∈ '\x7b' :: (Nat.toDigits 16 c.toNat ++ ['\x7d']), d ≠ '"' ∧ d ≠ '\\' := by
      intro d hd
      simp only [List.mem_cons, List.mem_append, List.not_mem_nil, or_false] at hd
      rcases hd with rfl | hd | rfl
      · decide
      · exact ne_of_mem_toDigits hd
      · decide
    have hread := readString_escaped 'u' ('\x7b' :: (Nat.toDigits 16 c.toNat ++ ['\x7d']) ++ rest)
    rw [readString_plain hplain, Option.map_map] at hread
    simp only [List.cons_append, List.nil_append, List.append_assoc] at hread ⊢
    rw [hread]
    rfl
  · have hplain : ∀ d ∈ [c], d ≠ '"' ∧ d ≠ '\\' := by simpa using ⟨hquote, hbackslash⟩
    exact readString_plain hplain rest

theorem readString_flatMap (cs rest : List Char) :
    Token.readString (cs.flatMap escape ++ '"' :: rest) =
      some (cs.flatMap rereadChar, cs.flatMap escape ++ ['"'], rest) := by
  induction cs with
  | nil => rfl
  | cons c cs ih =>
    rw [List.flatMap_cons, List.append_assoc, readString_escape, ih, Option.map_some]
    simp only [List.flatMap_cons, List.append_assoc]

end Text

/-- **A string that is written with quotes is read as one string.** -/
theorem Token.Reads.string {rest : List Char} {kinds : List Token.Kind} (h : Token.Reads rest kinds) (s : String) :
    Token.Reads ((Text.quote s).toList ++ rest) (.string (Text.reread s) :: kinds) := by
  have hquote : (Text.quote s).toList ++ rest = '"' :: (s.toList.flatMap Text.escape ++ '"' :: rest) := by
    rw [Text.quote, String.toList_ofList]
    simp
  rw [hquote]
  refine h.cons (Or.inr (by decide)) fun p =>
    ⟨⟨.string (Text.reread s), '"' :: (s.toList.flatMap Text.escape ++ ['"']), rest⟩, ?_, rfl, rfl⟩
  rw [Token.lexeme, if_neg (by decide), if_neg (by decide), if_neg (by decide), if_neg (by decide), if_neg (by decide),
    if_pos rfl, Text.readString_flatMap]
  rfl

/-! ### Numbers -/

namespace Number

/-- **A number that is neither infinite nor no number at all.** -/
def IsFinite (x : Float) : Prop := ∃ negative m q, Binary.ofFloat x = .finite negative m q

/-- **A number that has been shown and read again.** -/
def reread (x : Float) : Float := (read? (display x)).getD x

/-- A decimal as it is shown: digits, and maybe a point with digits after it. -/
def IsDecimal (cs : List Char) : Prop :=
  ∃ whole fraction, whole ≠ [] ∧ (∀ c ∈ whole, c.isDigit = true) ∧ (∀ c ∈ fraction, c.isDigit = true) ∧
    (cs = whole ∨ cs = whole ++ '.' :: fraction)

theorem isDecimal_positional (d : Decimal) : IsDecimal d.positional := by
  have hdigits : ∀ c ∈ d.digitChars, c.isDigit = true := fun c hc =>
    Nat.isDigit_of_mem_toDigits (by decide) (by decide) hc
  have hzeros : ∀ n, ∀ c ∈ List.replicate n '0', c.isDigit = true := fun n c hc => by
    rw [List.eq_of_mem_replicate hc]
    rfl
  have hne : d.digitChars ≠ [] := Nat.toDigits_ne_nil
  have happend {cs ds : List Char} (hcs : ∀ c ∈ cs, c.isDigit = true) (hds : ∀ c ∈ ds, c.isDigit = true) :
      ∀ c ∈ cs ++ ds, c.isDigit = true := fun c hc => (List.mem_append.mp hc).elim (hcs c) (hds c)
  unfold Decimal.positional
  dsimp only
  split
  · exact ⟨_, [], fun h => hne (List.append_eq_nil_iff.mp h).1, happend hdigits (hzeros _), by simp, Or.inl rfl⟩
  · split
    · next hplaces =>
      refine ⟨_, _, ?_, fun c hc => hdigits c (List.mem_of_mem_take hc), fun c hc => hdigits c (List.mem_of_mem_drop hc),
        Or.inr rfl⟩
      rw [ne_eq, List.take_eq_nil_iff, not_or]
      exact ⟨by omega, hne⟩
    · exact ⟨['0'], _, List.cons_ne_nil _ _, by decide, happend (hzeros _) hdigits, Or.inr rfl⟩

theorem IsDecimal.head {cs : List Char} (h : IsDecimal cs) : ∃ c tail, cs = c :: tail ∧ c.isDigit = true := by
  obtain ⟨whole, fraction, hne, hwhole, -, hcs⟩ := h
  cases whole with
  | nil => exact absurd rfl hne
  | cons c whole =>
    have hc := hwhole c List.mem_cons_self
    rcases hcs with rfl | rfl
    · exact ⟨c, whole, rfl, hc⟩
    · exact ⟨c, whole ++ '.' :: fraction, rfl, hc⟩

theorem IsDecimal.plain {cs : List Char} (h : IsDecimal cs) : ∀ c ∈ cs, c.isDigit = true ∨ c = '.' := by
  obtain ⟨whole, fraction, -, hwhole, hfraction, hcs⟩ := h
  intro c hc
  rcases hcs with rfl | rfl
  · exact Or.inl (hwhole c hc)
  · rcases List.mem_append.mp hc with hc | hc
    · exact Or.inl (hwhole c hc)
    · rcases List.mem_cons.mp hc with rfl | hc
      · exact Or.inr rfl
      · exact Or.inl (hfraction c hc)

/-- A digit neither ends a word nor is it a sign, a point or a control character. -/
theorem isDigit_plain {c : Char} (hc : c.isDigit = true) :
    Token.isDelimiter c = false ∧ Text.isControl c = false ∧ c ≠ '-' ∧ c ≠ '+' ∧ c ≠ '.' ∧ c ≠ '#' ∧
      c.toLower ≠ 'i' ∧ c.toLower ≠ 'n' := by
  have hmem : c ∈ ['0', '1', '2', '3', '4', '5', '6', '7', '8', '9'] := by
    simp only [Char.isDigit, Bool.and_eq_true, decide_eq_true_eq, ge_iff_le] at hc
    have hlow : 48 ≤ c.toNat := hc.1
    have hhigh : c.toNat ≤ 57 := hc.2
    have heq : c = Char.ofNat c.toNat := (Char.ofNat_toNat c).symm
    have hcases : c.toNat = 48 ∨ c.toNat = 49 ∨ c.toNat = 50 ∨ c.toNat = 51 ∨ c.toNat = 52 ∨ c.toNat = 53 ∨
        c.toNat = 54 ∨ c.toNat = 55 ∨ c.toNat = 56 ∨ c.toNat = 57 := by omega
    rcases hcases with h | h | h | h | h | h | h | h | h | h
    all_goals
      rw [heq, h]
      decide
  have hall : ∀ c ∈ ['0', '1', '2', '3', '4', '5', '6', '7', '8', '9'],
      Token.isDelimiter c = false ∧ Text.isControl c = false ∧ c ≠ '-' ∧ c ≠ '+' ∧ c ≠ '.' ∧ c ≠ '#' ∧
        c.toLower ≠ 'i' ∧ c.toLower ≠ 'n' := by decide
  exact hall c hmem

/-- Digits are taken up to what is no digit. -/
theorem takeWhile_isDigit_append {digits : List Char} (tail : List Char)
    (hdigits : ∀ c ∈ digits, c.isDigit = true) (htail : ∀ c ∈ tail.head?, c.isDigit = false) :
    (digits ++ tail).takeWhile Char.isDigit = digits ∧ (digits ++ tail).dropWhile Char.isDigit = tail := by
  rw [List.takeWhile_append_of_pos hdigits, List.dropWhile_append_of_pos hdigits]
  cases tail with
  | nil => exact ⟨List.append_nil _, rfl⟩
  | cons c tail =>
    have hc := htail c rfl
    exact ⟨by rw [List.takeWhile_cons_of_neg (by simp [hc]), List.append_nil],
      List.dropWhile_cons_of_neg (by simp [hc])⟩

theorem readUnsigned?_whole {whole : List Char} (hne : whole ≠ []) (hwhole : ∀ c ∈ whole, c.isDigit = true) :
    readUnsigned? whole = some (ofDecimal (digitsValue whole) 0) := by
  have hread := takeWhile_isDigit_append [] hwhole (by simp)
  rw [List.append_nil] at hread
  simp only [readUnsigned?, hread.1, hread.2, List.isEmpty_eq_false_iff.mpr hne, Bool.false_and, Bool.false_eq_true,
    if_false, readExponent?, Option.map_some, List.append_nil]
  rfl

theorem readUnsigned?_point {whole fraction : List Char} (hne : whole ≠ []) (hwhole : ∀ c ∈ whole, c.isDigit = true)
    (hfraction : ∀ c ∈ fraction, c.isDigit = true) :
    readUnsigned? (whole ++ '.' :: fraction) =
      some (ofDecimal (digitsValue (whole ++ fraction)) (-Int.ofNat fraction.length)) := by
  have hpoint : '.'.isDigit = false := rfl
  have hread := takeWhile_isDigit_append ('.' :: fraction) hwhole (by simp [hpoint])
  have hfrac := takeWhile_isDigit_append [] hfraction (by simp)
  rw [List.append_nil] at hfrac
  simp only [readUnsigned?, hread.1, hread.2, hfrac.1, hfrac.2, List.isEmpty_eq_false_iff.mpr hne, Bool.false_and,
    Bool.false_eq_true, if_false, readExponent?, Option.map_some, Int.zero_sub]

/-- A decimal is read as a number. -/
theorem IsDecimal.readUnsigned? {cs : List Char} (h : IsDecimal cs) : (readUnsigned? cs).isSome = true := by
  obtain ⟨whole, fraction, hne, hwhole, hfraction, rfl | rfl⟩ := h
  · rw [readUnsigned?_whole hne hwhole, Option.isSome_some]
  · rw [readUnsigned?_point hne hwhole hfraction, Option.isSome_some]

/-- A decimal is none of the words for the values that are no decimals. -/
theorem IsDecimal.readWord? {cs : List Char} (h : IsDecimal cs) : readWord? cs = none := by
  obtain ⟨c, tail, hhead, hc⟩ := h.head
  obtain ⟨-, -, -, -, -, -, hi, hn⟩ := isDigit_plain hc
  have hlower : (String.ofList (cs.map Char.toLower)).toList.head? = some c.toLower := by
    rw [String.toList_ofList, hhead]
    rfl
  have hne : ∀ w : String, w.toList.head? ≠ some c.toLower → String.ofList (cs.map Char.toLower) ≠ w :=
    fun w hw heq => hw (heq ▸ hlower)
  unfold Number.readWord?
  dsimp only
  rw [if_neg (not_or.mpr ⟨hne _ ?_, hne _ ?_⟩), if_neg (hne _ ?_)]
  · exact fun h => hn (Option.some.inj h).symm
  · exact fun h => hi (Option.some.inj h).symm
  · exact fun h => hi (Option.some.inj h).symm

/-- A decimal with or without a sign is read as the decimal, negated or not. -/
theorem IsDecimal.read?_signed {cs : List Char} (h : IsDecimal cs) (negative : Bool) :
    read? (signed negative cs) = (Number.readUnsigned? cs).map fun y => if negative then -y else y := by
  obtain ⟨c, tail, hhead, hc⟩ := h.head
  obtain ⟨-, -, hminus, hplus, -⟩ := isDigit_plain hc
  unfold read? signed
  rw [String.toList_ofList]
  cases negative with
  | true => simp only [if_true, h.readWord?]
  | false =>
    simp only [Bool.false_eq_true, if_false]
    split
    · exact absurd (List.cons.inj hhead).1.symm hminus
    · exact absurd (List.cons.inj hhead).1.symm hplus
    · simp only [h.readWord?, Bool.false_eq_true, if_false]

/-- **A finite number is shown as a numeral.** -/
theorem isWord_display {x : Float} (hx : IsFinite x) :
    Token.IsWord (display x) ∧ Token.wordKind? (display x) = some (.number (reread x)) := by
  -- it is a decimal with or without a sign in front
  obtain ⟨negative, cs, hcs, hdecimal⟩ : ∃ negative cs, display x = signed negative cs ∧ IsDecimal cs := by
    obtain ⟨negative, m, q, hx⟩ := hx
    unfold display
    cases m with
    | zero =>
      rw [hx]
      exact ⟨false, ['0'], rfl, ['0'], [], List.cons_ne_nil _ _, by decide, by simp, Or.inl rfl⟩
    | succ m =>
      rw [hx]
      refine ⟨negative, _, ?_, isDecimal_positional (Decimal.shortest .up (m + 1) q)⟩
      simp only [text, hx, Nat.succ_ne_zero, if_false]
  obtain ⟨c, tail, hhead, hc⟩ := hdecimal.head
  obtain ⟨-, hcontrol, hminus, hplus, hpoint, hhash, -⟩ := isDigit_plain hc
  have hplain : ∀ d ∈ cs, Token.isDelimiter d = false := fun d hd => by
    rcases hdecimal.plain d hd with hd | rfl
    · exact (isDigit_plain hd).1
    · rfl
  have htext : (display x).toList = if negative then '-' :: cs else cs := by
    rw [hcs]
    exact String.toList_ofList
  have hsome : (read? (display x)).isSome = true := by
    rw [hcs, hdecimal.read?_signed, Option.isSome_map]
    exact hdecimal.readUnsigned?
  have hnumeral : isNumeral (display x) = true := by
    unfold isNumeral
    rw [hsome, htext]
    cases negative with
    | true => simp [hhead, hpoint, hc]
    | false => simp [hhead, hminus, hplus, hpoint, hc]
  have hstart : ∃ d ds, (display x).toList = d :: ds ∧ Text.isControl d = false ∧ d ≠ '#' := by
    rw [htext]
    cases negative with
    | true => exact ⟨'-', cs, rfl, rfl, by decide⟩
    | false => exact ⟨c, tail, hhead, hcontrol, hhash⟩
  obtain ⟨d, ds, hds, hdcontrol, hdhash⟩ := hstart
  have hne : ∀ w : String, w.toList.head? = some '#' → display x ≠ w := by
    intro w hw heq
    rw [← heq, hds] at hw
    exact hdhash (Option.some.inj hw)
  refine ⟨⟨fun e he => ?_, d, ds, hds, hdcontrol⟩, ?_⟩
  · rw [htext] at he
    cases negative with
    | true =>
      rcases List.mem_cons.mp he with rfl | he
      · rfl
      · exact hplain e he
    | false => exact hplain e he
  · rw [Token.wordKind?, if_neg (not_or.mpr ⟨hne _ rfl, hne _ rfl⟩), if_neg (not_or.mpr ⟨hne _ rfl, hne _ rfl⟩),
      if_pos hnumeral, reread]
    obtain ⟨y, hy⟩ := Option.isSome_iff_exists.mp hsome
    rw [hy]
    rfl

end Number

theorem Token.Reads.number {rest : List Char} {kinds : List Token.Kind} (h : Token.Reads rest kinds) {x : Float}
    (hx : Number.IsFinite x) (hrest : Token.Delimits rest) :
    Token.Reads ((Number.display x).toList ++ rest) (.number (Number.reread x) :: kinds) :=
  h.word (Number.isWord_display hx).1 (Number.isWord_display hx).2 hrest

end SchemeMachine
