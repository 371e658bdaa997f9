import SchemeMachine.Proofs.Syntax.Rereading

/-!
# A text that stands elsewhere

A text that is read after another one gives tokens of the same kinds, in other places, and forms that differ in their
spans alone.

* `Token.reads_of_scanFrom`: the kinds of the tokens of a text do not depend on where it stands.
* `ParseError.unplaced` is a fault without its place.
* `Grammar.program_again` and `Grammar.program_fault`: a program is read again from tokens of the same kinds, and what is no
  program is none again.
* `Tree.parse_in_front` is the result for a program after a term.
-/

namespace SchemeMachine

namespace Token

/-- Where a token stands matters to errors alone. -/
theorem lexeme_elsewhere {p : Position} {c : Char} {cs : List Char} {l : Lexeme} (h : lexeme p c cs = .ok l)
    (q : Position) : lexeme q c cs = .ok l := by
  unfold lexeme at h ⊢
  split_ifs at h ⊢ <;> try exact h
  · cases hstring : readString cs with
    | none =>
      rw [hstring] at h
      cases h
    | some _ =>
      rw [hstring] at h
      exact h
  · dsimp only at h ⊢
    generalize wordKind? _ = kind at h
    cases kind with
    | none => cases h
    | some _ => exact h

/-- **The kinds of the tokens of a text do not depend on where it stands.** -/
theorem reads_of_scanFrom {p : Position} {cs : List Char} {tokens : List Token} (h : scanFrom p cs = .ok tokens) :
    Reads cs (tokens.map (·.kind)) := by
  fun_induction scanFrom p cs generalizing tokens with
  | case1 p =>
    cases h
    exact .nil
  | case2 p c cs hblank ih => exact (ih h).blank hblank
  | case3 p cs hblank ih =>
    intro q
    rw [scanFrom_comment]
    exact ih h _
  | case4 p c cs hblank hc e he =>
    cases h
  | case5 p c cs hblank hc l hl q =>
    rename_i ih
    cases hrest : scanFrom q l.rest with
    | error e =>
      rw [hrest] at h
      cases h
    | ok rest =>
      rw [hrest] at h
      cases h
      have hstart : Text.isBlank c = false ∧ c ≠ ';' := ⟨Bool.eq_false_iff.mpr hblank, hc⟩
      exact (ih hrest).cons (Or.inr hstart) fun p => ⟨l, lexeme_elsewhere hl p, rfl, rfl⟩

end Token

/-- **The fault without its place.** -/
def ParseError.unplaced : ParseError → ParseError
  | .unexpected found expected _ _ => .unexpected found expected 0 0
  | .unexpectedEnd => .unexpectedEnd
  | .malformed form reason _ _ => .malformed form reason 0 0
  | .unquoteOutsideQuasiquote _ _ => .unquoteOutsideQuasiquote 0 0

namespace Grammar

open Form

/-- A form that is the same but for its places. -/
def Matches (f g : Form) : Prop := g.unplaced = f.unplaced

/-- Tokens of the same kinds, in other places. -/
def Alike (ts ts' : List Token) : Prop := ts'.map (·.kind) = ts.map (·.kind)

theorem Alike.length {ts ts' : List Token} (h : Alike ts ts') : ts'.length = ts.length := by
  have hlength := congrArg List.length h
  rwa [List.length_map, List.length_map] at hlength

/-- Tokens of the same kinds compare if their places are left out, up to the end of the text in both. -/
theorem Alike.follows {ts ts' : List Token} (h : Alike ts ts') : ∃ more, AtEnd more ∧ Follows .blind more True ts ts' := by
  induction ts generalizing ts' with
  | nil =>
    obtain rfl : ts' = [] := List.map_eq_nil_iff.mp h
    exact ⟨[], rfl, .stop rfl fun _ => ⟨rfl, rfl⟩⟩
  | cons t ts ih =>
    obtain ⟨t', rest, rfl, hkind, hrest⟩ := List.map_eq_cons_iff.mp h
    by_cases hend : t.kind = .endOfText
    · have hend' : AtEnd (t' :: rest) := hkind.trans hend
      exact ⟨t' :: rest, hend', .stop hend fun _ => ⟨hend', rfl⟩⟩
    · obtain ⟨more, hmore, hfollows⟩ := ih hrest
      exact ⟨more, hmore, .cons hkind hend rfl hfollows⟩

/-- **A program is read again** from tokens of the same kinds. -/
theorem program_again {fuel fuel' : Nat} {ts ts' : List Token} {forms : List Form} (hfuel : fuel ≤ fuel')
    (h : Alike ts ts') (hforms : program fuel ts = .ok forms) :
    ∃ forms', program fuel' ts' = .ok forms' ∧ unplacedAll forms' = unplacedAll forms := by
  obtain ⟨more, hmore, hfollows⟩ := h.follows
  -- what the forms leave of the fuel is enough for the end of the text
  have hlength := length_lt_of_program hforms
  obtain ⟨extra, rfl⟩ : ∃ extra, fuel' = extra + 1 + forms.length := ⟨fuel' - forms.length - 1, by omega⟩
  obtain ⟨forms', hmatches, hforms'⟩ := program_follows hfollows hforms hfuel
  rw [program_of_atEnd hmore] at hforms'
  refine ⟨forms', hforms'.trans (congrArg Except.ok (List.append_nil forms')), ?_⟩
  rw [← mapSpansAll_unplaced forms', ← mapSpansAll_unplaced forms]
  exact hmatches.symm

theorem unplaced_of_sameFault {e e' : ParseError} (h : Comparison.blind.SameFault e e') : e'.unplaced = e.unplaced := by
  cases h <;> rfl

/-- **A program that is not read** is not read from tokens of the same kinds either, for the same reason. -/
theorem program_fault {fuel : Nat} {ts ts' : List Token} {e : ParseError} (h : Alike ts ts')
    (he : program fuel ts = .error e) : ∃ e', program fuel ts' = .error e' ∧ e'.unplaced = e.unplaced := by
  obtain ⟨more, -, hfollows⟩ := h.follows
  obtain ⟨e', he', hsame⟩ := program_fault_follows hfollows trivial he
  exact ⟨e', he', unplaced_of_sameFault hsame⟩

end Grammar

open Form in
/-- **A program with a term in front of it** is read as the term and the program. -/
theorem Tree.parse_in_front {x : Term} (hx : x.Readable .code) {source : String} {tokens : List Token} {forms : List Form}
    (hscan : Token.scan source = .ok tokens) (hforms : Form.parse tokens = .ok forms) :
    ∃ forms', Tree.parse (x.text false ++ " " ++ source) = .ok (ofForms forms') ∧
      sketchAll forms' = x.echo :: sketchAll forms ∧ (PlainAll forms → PlainAll forms') ∧ LegalAll .code forms' := by
  have hreads : Token.Reads (x.text false ++ " " ++ source).toList (x.kinds false ++ tokens.map (·.kind)) := by
    have hrest := (Token.reads_of_scanFrom hscan).space
    have hall := Term.spells_text x hx _ _ (Token.Spells.delimits_space _) hrest
    simpa [Term.isQuotedMode] using hall
  obtain ⟨ts, hts, hkinds⟩ := hreads {}
  have hlength : ts.length = (x.kinds false).length + tokens.length := by
    have hlengths := congrArg List.length hkinds
    simpa using hlengths
  obtain ⟨kind, others, hfirst, -, hend⟩ := x.exists_kinds false
  have hpositive : 0 < (x.kinds false).length := by
    rw [hfirst]
    exact Nat.succ_pos _
  -- what is left after the term has the tokens of the program, in other places
  have hgives : Grammar.Gives (Grammar.expr (4 * ts.length + 3) .code ts) x.echo _ :=
    Grammar.expr_kinds x hx hkinds (by simp only [Term.isQuotedMode]; omega)
  obtain ⟨f, rest, hexpr, hrest, hsketch, hplain⟩ := hgives
  obtain ⟨fs, hfs, hsame⟩ := Grammar.program_again (by omega : 4 * tokens.length + 4 ≤ 4 * ts.length + 3) hrest hforms
  have hnext : Grammar.nextKind ts ≠ .endOfText := by
    rw [hfirst] at hkinds
    obtain ⟨span, tail, rfl, -⟩ := Grammar.exists_token hkinds
    exact hend
  have hparse : Form.parse ts = .ok (f :: fs) := by
    rw [Form.parse, Grammar.program, if_neg hnext]
    simp only [hexpr, hfs, bind, Except.bind, pure, Except.pure]
  refine ⟨f :: fs, parse_eq_ok.mpr ⟨ts, f :: fs, hts, hparse, rfl⟩, ?_, fun h => ⟨hplain, h.of_unplacedAll hsame⟩,
    Form.legal_parse hparse⟩
  rw [sketchAll, hsketch, sketchAll_of_unplacedAll hsame]

end SchemeMachine
