import SchemeMachine.Heap
import SchemeMachine.Compilation
import SchemeMachine.Proofs.Syntax.Grammar
import SchemeMachine.Proofs.Syntax.Lexing

/-!
# String literals

A tree, a program and a heap write a string in the same way, between double quotes and with escapes. The text is read as
one string, whatever the string holds. But the reader knows fewer escapes than there are, so that what it reads need not be
what was written.

* `Text.Plain` says of a string that it has no character that is written by its code point.
* `Text.reread_eq_iff`: the plain strings are the ones that come back.
* `Token.IsLiteral` says of a text that it is the literal of a string.
* `Token.isLiteral_written` is the result, for everything that writes strings.
-/

namespace SchemeMachine

namespace Text

/-- **A string without hidden characters**, line feeds and tabs apart, for which the reader has escapes. -/
def Plain (s : String) : Prop := ∀ c ∈ s.toList, isHidden c = true → c = '\n' ∨ c = '\t'

/-! ### The characters that come back -/

/-- A character that is not hidden is written as it is, the quote and the backslash apart. -/
theorem escape_of_not_isHidden {c : Char} (hquote : c ≠ '"') (hbackslash : c ≠ '\\') (h : isHidden c = false) :
    escape c = [c] := by
  -- a letter stands for control characters only
  have hne : ∀ d, isHidden d = true → c ≠ d := by
    rintro d hd rfl
    rw [h] at hd
    cases hd
  have hzero : c.toNat ≠ 0 := fun hzero => hne '\x00' rfl (Char.toNat_inj.mp hzero)
  rw [escape, if_neg hquote, if_neg hbackslash, if_neg (hne _ rfl), if_neg (hne _ rfl), if_neg (hne _ rfl), if_neg hzero,
    if_neg (by rw [h]; exact Bool.false_ne_true)]

/-- The reader has an escape for two of the hidden characters. Of the others it keeps the backslash and more. -/
theorem escape_of_isHidden {c : Char} (hnewline : c ≠ '\n') (htab : c ≠ '\t') (h : isHidden c = true) :
    ∃ d cs, escape c = '\\' :: d :: cs := by
  have hquote : c ≠ '"' := by
    rintro rfl
    cases h
  have hbackslash : c ≠ '\\' := by
    rintro rfl
    cases h
  by_cases hreturn : c = '\r'
  · exact ⟨_, _, by rw [escape, if_neg hquote, if_neg hbackslash, if_neg hnewline, if_pos hreturn]⟩
  by_cases hzero : c.toNat = 0
  · exact ⟨_, _, by
      rw [escape, if_neg hquote, if_neg hbackslash, if_neg hnewline, if_neg hreturn, if_neg htab, if_pos hzero]⟩
  · refine ⟨'u', '\x7b' :: (Nat.toDigits 16 c.toNat ++ ['\x7d']), ?_⟩
    rw [escape, if_neg hquote, if_neg hbackslash, if_neg hnewline, if_neg hreturn, if_neg htab, if_neg hzero, if_pos h]
    rfl

/-- **A character comes back, or it is hidden and a backslash comes in its place.** -/
theorem rereadChar_cases (c : Char) :
    ((isHidden c = true → c = '\n' ∨ c = '\t') ∧ rereadChar c = [c]) ∨
      (isHidden c = true ∧ c ≠ '\n' ∧ c ≠ '\t' ∧ ∃ d cs, rereadChar c = '\\' :: d :: cs) := by
  by_cases hknown : c = '"' ∨ c = '\\' ∨ c = '\n' ∨ c = '\t'
  · refine Or.inl ⟨?_, if_pos hknown⟩
    intro hhidden
    -- neither the quote nor the backslash is hidden
    rcases hknown with rfl | rfl | hknown
    · cases hhidden
    · cases hhidden
    · exact hknown
  · rw [rereadChar, if_neg hknown]
    simp only [not_or] at hknown
    obtain ⟨hquote, hbackslash, hnewline, htab⟩ := hknown
    cases hhidden : isHidden c with
    | false => exact Or.inl ⟨fun h => absurd h Bool.false_ne_true, escape_of_not_isHidden hquote hbackslash hhidden⟩
    | true => exact Or.inr ⟨rfl, hnewline, htab, escape_of_isHidden hnewline htab hhidden⟩

/-! ### The strings that come back -/

/-- Each character is told by what comes back in its place, and takes nothing from the characters after it. -/
theorem flatMap_rereadChar_eq_iff (cs : List Char) :
    cs.flatMap rereadChar = cs ↔ ∀ c ∈ cs, isHidden c = true → c = '\n' ∨ c = '\t' := by
  induction cs with
  | nil =>
    constructor
    · intro _ c hc
      cases hc
    · intro _
      rfl
  | cons c cs ih =>
    rw [List.flatMap_cons, List.forall_mem_cons, ← ih]
    rcases rereadChar_cases c with ⟨hplain, hc⟩ | ⟨hhidden, hnewline, htab, d, ds, hc⟩
    · rw [hc, List.singleton_append, List.cons.injEq]
      constructor
      · intro h
        exact ⟨hplain, h.2⟩
      · intro h
        exact ⟨rfl, h.2⟩
    · rw [hc]
      constructor
      · intro h
        -- the backslash is not hidden
        obtain rfl := (List.cons.inj h).1
        cases hhidden
      · intro h
        exact ((h.1 hhidden).elim hnewline htab).elim

/-- **The plain strings are the ones that come back.** -/
theorem reread_eq_iff (s : String) : reread s = s ↔ Plain s := by
  rw [reread, ← String.toList_inj, String.toList_ofList]
  exact flatMap_rereadChar_eq_iff s.toList

end Text

namespace Token

variable {s text : String}

/-- **A text that is the literal of a string**: it is read as this string, and nothing else is in it. -/
def IsLiteral (text s : String) : Prop :=
  ∃ tokens, scan text = .ok tokens ∧ tokens.map (·.kind) = [.string s, .endOfText]

/-- **A string with escapes is a literal**, of what comes back of the string and of nothing else. -/
theorem isLiteral_quote_iff (s content : String) : IsLiteral (Text.quote s) content ↔ content = Text.reread s := by
  have hreads := Reads.nil.string s
  rw [List.append_nil] at hreads
  obtain ⟨tokens, htokens, hkinds⟩ := hreads {}
  constructor
  · rintro ⟨tokens', htokens', hkinds'⟩
    -- a text has one sequence of tokens
    obtain rfl : tokens = tokens' := Except.ok.inj (htokens.symm.trans htokens')
    rw [hkinds] at hkinds'
    exact (Kind.string.inj (List.cons.inj hkinds').1).symm
  · rintro rfl
    exact ⟨tokens, htokens, hkinds⟩

end Token

/-! ### What writes strings -/

/-- A string in a tree is written with escapes, whatever the variables are called. -/
theorem Tree.render_string {t : Tree} {h : Handle} {parent : Option Handle} {s : String}
    (hs : t.get? h = some (.string parent s)) : t.render h = Text.quote s := by
  rw [Tree.render, Tree.renderWith, Tree.renderNode, hs]

/-- And so is one among the constants of a program. -/
theorem Program.renderConstant_string {p : Program} {h : Handle} {s : String}
    (hs : p.constants.find? h = some (.string s)) : p.renderConstant h = some (Text.quote s) := by
  rw [Program.renderConstant, Program.renderFrom, hs]

/-- And one that a process holds. -/
theorem Heap.source?_string {H : Heap} {h : Handle} {s : String} (hs : H.get? h = some (.string s)) :
    H.source? (.handle h) = some (Text.quote s) := by
  simp only [Heap.source?, Heap.sourceFrom?, hs]

/-- **A string is written as a literal**, in a tree, in a program and in a heap: the text is read as one string and then
ends. What it is read as is the string that was written exactly if that is plain. The escapes of the hidden characters are
not known to the reader, who takes them as they stand. -/
theorem Token.isLiteral_written (s : String) :
    (∀ (t : Tree) (h : Handle) (parent : Option Handle), t.get? h = some (.string parent s) →
      ∀ content, IsLiteral (t.render h) content ↔ content = Text.reread s) ∧
    (∀ (p : Program) (h : Handle), p.constants.find? h = some (.string s) →
      ∃ text, p.renderConstant h = some text ∧ ∀ content, IsLiteral text content ↔ content = Text.reread s) ∧
    (∀ (H : Heap) (h : Handle), H.get? h = some (.string s) →
      ∃ text, H.source? (.handle h) = some text ∧ ∀ content, IsLiteral text content ↔ content = Text.reread s) ∧
    (Text.reread s = s ↔ Text.Plain s) := by
  refine ⟨?_, ?_, ?_, Text.reread_eq_iff s⟩
  · intro t h parent hs content
    rw [Tree.render_string hs]
    exact isLiteral_quote_iff s content
  · intro p h hs
    exact ⟨_, Program.renderConstant_string hs, isLiteral_quote_iff s⟩
  · intro H h hs
    exact ⟨_, Heap.source?_string hs, isLiteral_quote_iff s⟩

/-- A string with a line feed, a quote and a letter above ASCII comes back from the constants of a program. -/
theorem Token.isLiteral_written_lineFeed :
    ∃ p h text, Program.compile "(display \"a\\n\\\"é\")" = .ok p ∧ p.constants.find? h = some (.string "a\n\"é") ∧
      p.renderConstant h = some text ∧ IsLiteral text "a\n\"é" := by
  have hcompiled : (do
      let p ← (Program.compile "(display \"a\\n\\\"é\")").toOption
      return decide (p.constants.find? 2 = some (.string "a\n\"é"))) = some true := by
    decide +kernel
  simp only [Option.bind_eq_bind, Option.pure_def, Option.bind_eq_some_iff, Except.toOption_eq_some, Option.some.injEq,
    decide_eq_true_eq] at hcompiled
  obtain ⟨p, hp, hs⟩ := hcompiled
  obtain ⟨-, hconstant, -, hplain⟩ := isLiteral_written "a\n\"é"
  obtain ⟨text, htext, hliteral⟩ := hconstant p 2 hs
  refine ⟨p, 2, text, hp, hs, htext, (hliteral _).mpr (hplain.mpr ?_).symm⟩
  show ∀ c ∈ ['a', '\n', '"', 'é'], Text.isHidden c = true → c = '\n' ∨ c = '\t'
  decide +kernel

/-- **A carriage return does not come back**: in its place stand a backslash and an r. -/
theorem Token.isLiteral_written_carriageReturn :
    ∃ p h text, Program.compile "(fork '(display \"a\rb\"))" = .ok p ∧ p.constants.find? h = some (.string "a\rb") ∧
      p.renderConstant h = some text ∧ IsLiteral text "a\\rb" ∧ ¬ IsLiteral text "a\rb" := by
  have hcompiled : (do
      let p ← (Program.compile "(fork '(display \"a\rb\"))").toOption
      return decide (p.constants.find? 3 = some (.string "a\rb"))) = some true := by
    decide +kernel
  simp only [Option.bind_eq_bind, Option.pure_def, Option.bind_eq_some_iff, Except.toOption_eq_some, Option.some.injEq,
    decide_eq_true_eq] at hcompiled
  obtain ⟨p, hp, hs⟩ := hcompiled
  have hreread : Text.reread "a\rb" = "a\\rb" := by decide
  refine ⟨p, 3, _, hp, hs, Program.renderConstant_string hs, (isLiteral_quote_iff _ _).mpr hreread.symm, ?_⟩
  rw [isLiteral_quote_iff, hreread]
  decide

end SchemeMachine
