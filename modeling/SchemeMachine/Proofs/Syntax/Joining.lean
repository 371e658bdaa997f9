import SchemeMachine.Proofs.Syntax.Depth
import SchemeMachine.Proofs.Syntax.Shift

/-!
# One text below the other

The forms of a text that stands below another one come after the forms of that one. The parser is at the start of a form where
the first text ends, has looked at nothing of what comes then, and reads the second text as it would by itself, some lines
further down. So it also fails as it would by itself.

* `Form.shift` and `ParseError.shift` say what is moved further down.
* `Grammar.program_eq_parse`: fuel that is enough may be more than enough.
* `Form.parse_append` and `Form.parse_shift` are the two halves of the argument, `Form.parse_append_shift` is the result.
-/

namespace SchemeMachine

variable (σ : Shift)

/-- A form further down. -/
def Form.shift (f : Form) : Form := f.mapSpans (Span.shift σ)

/-- Forms further down. -/
def Form.shiftAll (fs : List Form) : List Form := mapSpansAll (Span.shift σ) fs

/-- A fault further down, if it has a place. -/
def ParseError.shift : ParseError → ParseError
  | .unexpected found expected line col => .unexpected found expected (line + σ.lines) col
  | .unexpectedEnd => .unexpectedEnd
  | .malformed form reason line col => .malformed form reason (line + σ.lines) col
  | .unquoteOutsideQuasiquote line col => .unquoteOutsideQuasiquote (line + σ.lines) col

theorem ParseError.place?_shift (e : ParseError) :
    (e.shift σ).place? = e.place?.map fun p => (p.1 + σ.lines, p.2) := by
  cases e <;> rfl

/-- Places compare if the second is the first one moved down. -/
def Comparison.moved : Comparison where
  left := Span.shift σ
  right := id
  merge := by
    rintro a b c d rfl rfl
    exact (Span.merge_shift σ a c).symm

theorem ParseError.eq_shift_of_sameFault {e e' : ParseError} (h : (Comparison.moved σ).SameFault e e') :
    e' = e.shift σ := by
  have hplace : ∀ {s s' : Span}, (Comparison.moved σ).Same s s' → s' = s.shift σ := Eq.symm
  cases h with
  | unexpectedEnd => rfl
  | unexpected _ _ h => rw [hplace h]; rfl
  | malformed _ _ h => rw [hplace h]; rfl
  | unquoteOutsideQuasiquote h => rw [hplace h]; rfl

/-- The last token of a text, and it alone, is the end. -/
theorem Token.exists_last_of_scan {source : String} {tokens : List Token} (h : scan source = .ok tokens) :
    ∃ words last, tokens = words ++ [last] ∧ last.kind = .endOfText ∧ ∀ t ∈ words, t.kind ≠ .endOfText := by
  have htiled : Tiled [] source.toList tokens := tiled_of_scanFrom h
  obtain ⟨words, htokens, hwords⟩ := htiled.exists_last
  exact ⟨words, _, htokens, rfl, hwords⟩

namespace Grammar

/-- **Fuel that is enough may be more than enough.** -/
theorem program_eq_parse {fuel : Nat} {tokens : List Token} (h : 4 * tokens.length + 4 ≤ fuel) :
    program fuel tokens = Form.parse tokens := by
  have hlevels : ∀ fuel, reader fuel = Reader.next^[fuel] (reader 0) := by
    intro fuel
    induction fuel with
    | zero => rfl
    | succ fuel ih => rw [reader_succ, ih, Function.iterate_succ_apply']
  have hiterate := (reader 0).iterate_program h
  rwa [← hlevels] at hiterate

variable {words : List Token} {last : Token}

/-- Tokens with something else in the place of the end of the text. -/
theorem follows_append (hwords : ∀ t ∈ words, t.kind ≠ .endOfText) (hlast : last.kind = .endOfText)
    (more : List Token) : Follows .exact more False (words ++ [last]) (words ++ more) := by
  induction words with
  | nil => exact .stop hlast False.elim
  | cons t words ih =>
    refine .cons rfl (hwords t List.mem_cons_self) rfl (ih fun u hu => ?_)
    exact hwords u (List.mem_cons_of_mem t hu)

/-- The same tokens further down. -/
theorem follows_shift (hwords : ∀ t ∈ words, t.kind ≠ .endOfText) (hlast : last.kind = .endOfText) :
    Follows (.moved σ) [last.shift σ] True (words ++ [last]) ((words ++ [last]).map (Token.shift σ)) := by
  induction words with
  | nil => exact .stop hlast fun _ => ⟨hlast, rfl⟩
  | cons t words ih =>
    refine .cons rfl (hwords t List.mem_cons_self) rfl (ih fun u hu => ?_)
    exact hwords u (List.mem_cons_of_mem t hu)

end Grammar

namespace Form

open Grammar

variable {words : List Token} {last : Token}

/-- **What comes in the place of the end of a program is read after it.** -/
theorem parse_append {forms : List Form} (hwords : ∀ t ∈ words, t.kind ≠ .endOfText) (hlast : last.kind = .endOfText)
    (h : parse (words ++ [last]) = .ok forms) (more : List Token) :
    parse (words ++ more) = (parse more).map (forms ++ ·) := by
  -- more fuel than either text, or both of them together, could need
  obtain ⟨extra, hwhole, hmore, hfirst⟩ : ∃ extra, 4 * (words ++ more).length + 4 ≤ extra + forms.length ∧
      4 * more.length + 4 ≤ extra ∧ 4 * (words ++ [last]).length + 4 ≤ extra + forms.length := by
    refine ⟨4 * (words.length + more.length) + 8, ?_, by omega, ?_⟩
    · rw [List.length_append]
      omega
    · rw [List.length_append, List.length_singleton]
      omega
  obtain ⟨forms', hmatches, hforms'⟩ := program_follows (follows_append hwords hlast more) h hfirst
  have hsame : forms' = forms := by
    have heq : mapSpansAll id forms = mapSpansAll id forms' := hmatches
    rw [mapSpansAll_id, mapSpansAll_id] at heq
    exact heq.symm
  rwa [program_eq_parse hwhole, program_eq_parse hmore, hsame] at hforms'

/-- **A program is read further down as it is read above**, or fails there for the same reason. -/
theorem parse_shift (hwords : ∀ t ∈ words, t.kind ≠ .endOfText) (hlast : last.kind = .endOfText) :
    parse ((words ++ [last]).map (Token.shift σ)) =
      ((parse (words ++ [last])).map (shiftAll σ)).mapError (ParseError.shift σ) := by
  have hfollows := follows_shift σ hwords hlast
  cases h : parse (words ++ [last]) with
  | ok forms =>
    have hlength := length_lt_of_program h
    obtain ⟨extra, hextra⟩ : ∃ extra, 4 * (words ++ [last]).length + 4 = extra + 1 + forms.length :=
      ⟨4 * (words ++ [last]).length + 4 - forms.length - 1, by omega⟩
    obtain ⟨forms', hmatches, hforms'⟩ := program_follows hfollows h hextra.le
    have hend : program (extra + 1) [last.shift σ] = .ok [] := program_of_atEnd hlast
    have hsame : forms' = shiftAll σ forms := by
      have heq : shiftAll σ forms = mapSpansAll id forms' := hmatches
      rw [mapSpansAll_id] at heq
      exact heq.symm
    rw [hend, ← hextra, hsame] at hforms'
    rw [parse, List.length_map, hforms']
    exact congrArg Except.ok (List.append_nil _)
  | error e =>
    obtain ⟨e', he', hsame⟩ := program_fault_follows hfollows trivial h
    rw [parse, List.length_map, he', ParseError.eq_shift_of_sameFault σ hsame]
    rfl

/-- **The forms of two texts, one below the other**: those of the first, and then those of the second, further down. -/
theorem parse_append_shift {s₁ s₂ : String} {tokens others : List Token} {forms : List Form} (h₁ : Token.scan s₁ = .ok tokens)
    (hforms : parse tokens = .ok forms) (h₂ : Token.scan s₂ = .ok others) :
    parse (tokens.dropLast ++ others.map (Token.shift σ)) =
      ((parse others).map fun fs => forms ++ shiftAll σ fs).mapError (ParseError.shift σ) := by
  obtain ⟨words, last, rfl, hlast, hwords⟩ := Token.exists_last_of_scan h₁
  obtain ⟨words', last', rfl, hlast', hwords'⟩ := Token.exists_last_of_scan h₂
  rw [List.dropLast_concat, parse_append hwords hlast hforms, parse_shift σ hwords' hlast']
  cases parse (words' ++ [last']) <;> rfl

end Form

end SchemeMachine
