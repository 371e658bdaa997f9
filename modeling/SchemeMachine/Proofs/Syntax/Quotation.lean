import SchemeMachine.Proofs.Syntax.Printing
import SchemeMachine.Proofs.Syntax.Unfolding

/-!
# Code that is quoted

A text can be read as code, or behind a quote as data. The data can be written as source text again, and that text is code
too: it compiles to the same program as the text that was quoted.

* `Token.IsForm` is a text of one parenthesised form that survives being written.
* `Form.IsQuoted` are the data that a text is behind a quote.
* `Program.compile_quoted` is the result.
-/

namespace SchemeMachine

open Token (Kind PortableAll Reads Unfolds)
open Grammar (nextKind expr)

/-- **A text of one parenthesised form**, every token of which survives being written. -/
def Token.IsForm (source : String) : Prop :=
  ∃ tokens f, Token.scan source = .ok tokens ∧ (∀ t ∈ tokens, t.kind.Portable) ∧ nextKind tokens = .open ∧
    Form.parse tokens = .ok [f]

/-- **The data that a text is behind a quote**, as a sketch. -/
def Form.IsQuoted (source : String) (x : Term) : Prop :=
  ∃ tokens f, Token.scan ("'" ++ source) = .ok tokens ∧ Form.parse tokens = .ok [f] ∧ f.sketch = x

/-- A program of one form. -/
theorem Form.parse_eq_singleton {tokens : List Token} {f : Form} :
    Form.parse tokens = .ok [f] ↔ nextKind tokens ≠ .endOfText ∧
      ∃ rest, expr (4 * tokens.length + 3) .code tokens = .ok (f, rest) ∧ nextKind rest = .endOfText := by
  rw [Form.parse, Grammar.program]
  by_cases hend : nextKind tokens = .endOfText
  · simp [hend]
  · rw [if_neg hend]
    refine ⟨fun h => ⟨hend, ?_⟩, ?_⟩
    · obtain ⟨⟨first, rest⟩, hfirst, h⟩ := Except.bind_eq_ok.mp h
      obtain ⟨others, hothers, h⟩ := Except.bind_eq_ok.mp h
      cases h
      refine ⟨rest, hfirst, ?_⟩
      -- nothing is read after the form
      by_contra hmore
      rw [Grammar.program, if_neg hmore] at hothers
      obtain ⟨_, -, hothers⟩ := Except.bind_eq_ok.mp hothers
      obtain ⟨_, -, hothers⟩ := Except.bind_eq_ok.mp hothers
      cases hothers
    · rintro ⟨-, rest, hf, hrest⟩
      refine Except.bind_eq_ok.mpr ⟨_, hf, Except.bind_eq_ok.mpr ⟨[], ?_, rfl⟩⟩
      rw [Grammar.program, if_pos hrest]

/-- The forms of a program that passes the analysis define variables only. -/
theorem Form.definiteAll_of_analyse {forms : List Form} (hl : LegalAll .code forms) {t : Tree}
    (h : (Tree.ofForms forms).analyse = .ok t) : DefiniteAll forms := by
  obtain ⟨body, strays, hholds, hbecome, hanalysed⟩ := Tree.holds_ofForms hl
  obtain ⟨hbody, hstrays⟩ := (hholds.exists_analyse_iff hanalysed).mp ⟨t, h⟩
  refine definiteAll_of_sketch forms ?_ ?_
  · rw [← hbecome.sketch]
    exact (Term.definiteAll_blankAll body).mpr hbody
  · rw [← hbecome.lost]
    exact (Term.definiteAll_blankAll strays).mpr hstrays

/-- **What a text in parentheses is behind a quote**: a list that can be written, and is then read as the tokens of the
text, with their abbreviations spelled out. -/
theorem Form.IsQuoted.unfolds {source : String} {x : Term} {tokens : List Token} (hx : Form.IsQuoted source x)
    (hscan : Token.scan source = .ok tokens) (hportable : ∀ t ∈ tokens, t.kind.Portable) (hopen : nextKind tokens = .open) :
    (∃ items, x = .application 0 .quote items) ∧ x.Readable .quoted ∧
      Unfolds 0 0 [] (tokens.map (·.kind)) (x.kinds true ++ [.endOfText]) := by
  obtain ⟨ts, f, hts, hf, rfl⟩ := hx
  -- the tokens behind the quote are those of the text, in other places
  obtain ⟨ts', hts', hkinds⟩ := (Token.reads_of_scanFrom hscan).quote {}
  have hsame : ts' = ts := by
    have heq := hts'.symm.trans (show Token.scanFrom {} ('\'' :: source.toList) = .ok ts by simpa [Token.scan] using hts)
    cases heq
    rfl
  subst hsame
  obtain ⟨s₁, ts₁, rfl, hts₁⟩ := Grammar.exists_token hkinds
  obtain ⟨s₀, htokens⟩ := Grammar.exists_of_nextKind hopen (by decide)
  rw [htokens, List.map_cons] at hts₁
  obtain ⟨s₂, ts₂, rfl, hts₂⟩ := Grammar.exists_token hts₁
  have hall : PortableAll ts₂ := by
    intro t ht
    refine ⟨Token.wordedAll_scan hts (Token.isSymbol_of_scan hts) t (List.mem_cons_of_mem _ (List.mem_cons_of_mem _ ht)), ?_⟩
    obtain ⟨t', ht', heq⟩ := List.mem_map.mp (hts₂ ▸ List.mem_map_of_mem ht)
    rw [← heq]
    exact hportable t' (List.mem_of_mem_tail ht')
  obtain ⟨-, rest, hread, hrest⟩ := Form.parse_eq_singleton.mp hf
  have hlist : ∃ fuel s, Grammar.list fuel .quote .quoted s ts₂ = .ok (f, rest) := ⟨_, _, hread⟩
  obtain ⟨fuel, s, hlist⟩ := hlist
  have hwritten := (Grammar.spellsAt _).list hall hlist
  refine ⟨?_, hwritten.readable, ?_⟩
  · cases fuel with
    | zero => cases hlist
    | succ fuel =>
      obtain ⟨⟨⟨items, close⟩, ts₃⟩, -, h⟩ := Except.bind_eq_ok.mp hlist
      cases h
      exact ⟨_, rfl⟩
  have hunfolds := hwritten.unfolds (p := 0) (.ended ?_)
  · rw [htokens, List.map_cons, ← hts₂]
    exact hunfolds
  · cases rest with
    | nil => rfl
    | cons t rest => exact hrest

/-- What a text in parentheses is behind a quote, wherever it stands in a tree. -/
theorem Form.IsQuoted.exists_list {source : String} {x : Term} (hx : Form.IsQuoted source x.blank)
    (hsource : Token.IsForm source) : (∃ h items, x = .application h .quote items) ∧ x.Readable .quoted := by
  obtain ⟨tokens, f, hscan, hportable, hopen, -⟩ := hsource
  obtain ⟨⟨items, hitems⟩, hreadable, -⟩ := hx.unfolds hscan hportable hopen
  refine ⟨?_, (Term.readable_blank x).mp hreadable⟩
  cases x with
  | application h quotation items =>
    cases hitems
    exact ⟨h, items, rfl⟩
  | _ => cases hitems

/-- **Quoted code is the code that was quoted**: the data that a text is behind a quote, written as source text, compile to
the program of the text. -/
theorem Program.compile_quoted {source : String} {x : Term} {program : Program} (hsource : Token.IsForm source)
    (hx : Form.IsQuoted source x) (hprogram : Program.compile source = .ok program) :
    Program.compile (x.text true) = .ok { program with sourceHash := SchemeMachine.sourceHash (x.text true) } := by
  obtain ⟨tokens, f, hscan, hportable, hopen, hf⟩ := hsource
  obtain ⟨-, hreadable, hunfolds⟩ := hx.unfolds hscan hportable hopen
  -- the program of the text
  obtain ⟨t, ht, hprogram⟩ := Except.bind_eq_ok.mp hprogram
  obtain ⟨u, hu, hprogram⟩ := Except.bind_eq_ok.mp hprogram
  obtain ⟨compiled, hcompiled, hprogram⟩ := Except.bind_eq_ok.mp hprogram
  cases hprogram
  obtain ⟨tokens', forms, hscan', hforms, rfl⟩ := Tree.parse_eq_ok.mp ht
  cases hscan.symm.trans hscan'
  cases hf.symm.trans hforms
  have hlegal := Form.legal_parse hf
  obtain ⟨-, rest, hread, hrest⟩ := Form.parse_eq_singleton.mp hf
  -- the text of the data is read as a form that is the same but for its places
  obtain ⟨ts, hts, hkinds⟩ := Term.spells_text x hreadable [] [.endOfText] nofun .nil {}
  rw [List.append_nil] at hts
  have hspread : Grammar.Spread 0 0 [] tokens ts := by
    rw [Grammar.Spread, hkinds]
    exact hunfolds
  have hdefinite : f.Definite := (Form.definiteAll_of_analyse hlegal hu).1
  obtain ⟨g, rest', hread', hg, hspread', -⟩ := (Grammar.againAt _).expr (by decide) hread hdefinite hspread
    (show 4 * ts.length ≤ 4 * ts.length + 3 by omega)
  have hforms' : Form.parse ts = .ok [g] := by
    refine Form.parse_eq_singleton.mpr ⟨?_, rest', hread', ?_⟩
    · exact hspread.nextKind_ne (by decide) (by rw [hopen]; decide)
    · rcases hspread'.nextKind with heq | ⟨hmark, -⟩
      · rw [heq, hrest]
      · rw [hrest] at hmark
        cases hmark
  have hsame : Tree.ofForms [g] = (Tree.ofForms [f]).respan (Tree.ofForms [g]).spans :=
    Tree.ofForms_unplaced hlegal (Form.legal_parse hforms') (congrArg (· :: []) hg)
  -- so its tree differs in the places of the nodes only
  refine Except.bind_eq_ok.mpr ⟨_, Tree.parse_eq_ok.mpr ⟨ts, [g], ?_, hforms', rfl⟩, ?_⟩
  · simpa [Token.scan, Term.isQuotedMode] using hts
  · rw [hsame]
    refine Except.bind_eq_ok.mpr ⟨_, Tree.analyse_respan _ hu, ?_⟩
    exact Except.bind_eq_ok.mpr ⟨_, Tree.compile_respan _ hcompiled, rfl⟩

end SchemeMachine
