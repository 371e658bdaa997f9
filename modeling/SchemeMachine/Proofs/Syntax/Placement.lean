import SchemeMachine.Proofs.Syntax.Analysis
import SchemeMachine.Proofs.Syntax.Places

/-!
# Code does not depend on its layout

Blanks, comments and the shape of brackets are gone once a text has been cut into tokens; what is left of the layout are the
places of the tokens. Texts whose tokens are of the same kinds have the same program, or none for the same reason. That is
followed through the stages: the forms are the same but for their places, their trees have the same nodes, and neither the
analysis nor the lowering looks at anything else.

* `CompileError.unplaced` is a fault without its place, and `Together` compares what two runs come to.
* `Tree.parse_together`, `Tree.analyse_together` and `Tree.compile_together` follow two texts through the stages.
* `Program.compile_of_kinds` is the result.
-/

namespace SchemeMachine

/-- **The fault without its place.** -/
def Token.LexError.unplaced : Token.LexError → Token.LexError
  | .unexpectedChar c _ _ => .unexpectedChar c 0 0
  | .unterminatedString _ _ => .unterminatedString 0 0
  | .invalidLiteral word _ _ => .invalidLiteral word 0 0

/-- **The fault without its place.** -/
def AnalysisError.unplaced : AnalysisError → AnalysisError
  | .defineTarget _ => .defineTarget .unplaced

/-- **The fault without its place**: the stage, what is wrong there, and the words that the message quotes. -/
def CompileError.unplaced : CompileError → CompileError
  | .lex e => .lex e.unplaced
  | .parse e => .parse e.unplaced
  | .analysis e => .analysis e.unplaced
  | .lower e => .lower e.unplaced
  | .label e => .label e
  | .link e => .link e

/-- **Computations that go together**: both answer, as `R` says, or both fail, for the same reason. -/
inductive Together {α β : Type} (R : α → β → Prop) : Except CompileError α → Except CompileError β → Prop
  | ok {a : α} {b : β} (h : R a b) : Together R (.ok a) (.ok b)
  | error {e e' : CompileError} (h : e'.unplaced = e.unplaced) : Together R (.error e) (.error e')

/-- One computation after the other. -/
theorem Together.bind {α β γ δ : Type} {R : α → β → Prop} {S : γ → δ → Prop} {x : Except CompileError α}
    {y : Except CompileError β} {k : α → Except CompileError γ} {l : β → Except CompileError δ} (h : Together R x y)
    (hk : ∀ a b, R a b → Together S (k a) (l b)) : Together S (x >>= k) (y >>= l) := by
  cases h with
  | ok h => exact hk _ _ h
  | error h => exact .error h

/-! ### The stages -/

namespace Tree

variable {t : Tree} (spans : Table Handle Span) {e : CompileError}

/-- A tree that differs from another in the places of its nodes. -/
def Moved (t u : Tree) : Prop := ∃ spans, u = t.respan spans

/-- **Texts whose tokens are of the same kinds** are read as trees with the same nodes. -/
theorem parse_together {source source' : String} {tokens tokens' : List Token}
    (hscan : Token.scan source = .ok tokens) (hscan' : Token.scan source' = .ok tokens')
    (hkinds : Grammar.Alike tokens tokens') : Together Moved (parse source) (parse source') := by
  have hparse : ∀ {source tokens}, Token.scan source = .ok tokens →
      parse source = (Form.parse tokens).mapError .parse >>= fun forms => .ok (ofForms forms) := by
    intro source tokens h
    rw [parse, h]
    rfl
  -- as many tokens, and so as much fuel
  have hfuel : Form.parse tokens' = Grammar.program (4 * tokens.length + 4) tokens' := by rw [Form.parse, hkinds.length]
  rw [hparse hscan, hparse hscan', hfuel]
  cases hforms : Form.parse tokens with
  | error e =>
    obtain ⟨e', he', hsame⟩ := Grammar.program_fault hkinds hforms
    rw [he']
    exact .error (congrArg CompileError.parse hsame)
  | ok forms =>
    obtain ⟨forms', hforms', hmatches⟩ := Grammar.program_again (Nat.le_refl _) hkinds hforms
    have hlegal' := Form.legal_parse (hfuel.trans hforms')
    rw [hforms']
    exact .ok ⟨_, ofForms_unplaced (Form.legal_parse hforms) hlegal' hmatches⟩

/-- The only fault that the analysis finds is a definition of something that is no variable. -/
theorem exists_of_analyse (h : t.analyse = .error e) : ∃ s, e = .analysis (.defineTarget s) := by
  unfold analyse at h
  split at h
  · cases h
  · next _ fault _ =>
    obtain ⟨s⟩ := fault
    cases h
    exact ⟨s, rfl⟩

/-- **The analysis of a tree goes as it does in other places.** -/
theorem analyse_together : Together Moved t.analyse (t.respan spans).analyse := by
  cases hanalysed : t.analyse with
  | ok t' =>
    rw [analyse_respan spans hanalysed]
    exact .ok ⟨spans, rfl⟩
  | error e =>
    cases hother : (t.respan spans).analyse with
    | ok t' =>
      -- moved back, the tree would be analysed
      have hback := analyse_respan t.spans hother
      rw [show (t.respan spans).respan t.spans = t from rfl, hanalysed] at hback
      cases hback
    | error e' =>
      obtain ⟨s, rfl⟩ := exists_of_analyse hanalysed
      obtain ⟨s', rfl⟩ := exists_of_analyse hother
      exact .error rfl

/-- **The program of a tree is made as it is in other places**; where labels clash, they clash in any place. -/
theorem compile_together : Together Eq t.compile (t.respan spans).compile := by
  unfold compile
  cases hprogram : Program.ofTree t with
  | error fault =>
    obtain ⟨fault', hfault', hsame⟩ := Program.ofTree_of_spans_fault spans hprogram
    rw [respan, hfault']
    exact .error (congrArg CompileError.lower hsame)
  | ok p =>
    rw [respan, Program.ofTree_of_spans spans hprogram]
    have hself : ∀ x : Except CompileError Program, Together Eq x x := by
      intro x
      cases x with
      | ok p => exact .ok rfl
      | error e => exact .error rfl
    exact hself _

end Tree

/-! ### Texts -/

/-- **Code does not depend on its layout.** Texts whose tokens are of the same kinds have the same program but for the hash of
the text, or no program for the same reason. -/
theorem Program.compile_of_kinds {source source' : String} {tokens tokens' : List Token}
    (hscan : Token.scan source = .ok tokens) (hscan' : Token.scan source' = .ok tokens')
    (hkinds : tokens'.map (·.kind) = tokens.map (·.kind)) :
    (∃ e e', compile source = .error e ∧ compile source' = .error e' ∧ e'.unplaced = e.unplaced) ∨
      ∃ p p', compile source = .ok p ∧ compile source' = .ok p' ∧
        p' = { p with sourceHash := SchemeMachine.sourceHash source' } := by
  have htogether : Together (fun p p' => p' = { p with sourceHash := SchemeMachine.sourceHash source' })
      (compile source) (compile source') := by
    -- parse, analyse, lower: each stage hands on a tree that differs in its places alone
    refine (Tree.parse_together hscan hscan' hkinds).bind ?_
    rintro t _ ⟨spans, rfl⟩
    refine (Tree.analyse_together spans).bind ?_
    rintro t _ ⟨spans, rfl⟩
    refine (Tree.compile_together spans).bind ?_
    rintro p _ rfl
    exact .ok rfl
  generalize compile source = x at htogether ⊢
  generalize compile source' = y at htogether ⊢
  cases htogether with
  | ok h => exact .inr ⟨_, _, rfl, rfl, h⟩
  | error h => exact .inl ⟨_, _, rfl, rfl, h⟩

/-- Brackets of another shape, a comment and a line break: the programs are the same but for the hash. -/
theorem Program.compile_of_kinds_brackets :
    ∃ tokens tokens', Token.scan "(define (f x) x)" = .ok tokens ∧
      Token.scan "[define(f x); the identity\n x]" = .ok tokens' ∧ tokens'.map (·.kind) = tokens.map (·.kind) ∧
      ∃ p p', compile "(define (f x) x)" = .ok p ∧ compile "[define(f x); the identity\n x]" = .ok p' ∧
        p' = { p with sourceHash := SchemeMachine.sourceHash "[define(f x); the identity\n x]" } := by
  have hscan : Token.scan "(define (f x) x)" = .ok [⟨.open, 0, 1, 1, 1⟩, ⟨.symbol "define", 1, 7, 1, 2⟩,
      ⟨.open, 8, 9, 1, 9⟩, ⟨.symbol "f", 9, 10, 1, 10⟩, ⟨.symbol "x", 11, 12, 1, 12⟩, ⟨.close, 12, 13, 1, 13⟩,
      ⟨.symbol "x", 14, 15, 1, 15⟩, ⟨.close, 15, 16, 1, 16⟩, ⟨.endOfText, 16, 16, 1, 17⟩] := by decide +kernel
  have hscan' : Token.scan "[define(f x); the identity\n x]" = .ok [⟨.open, 0, 1, 1, 1⟩, ⟨.symbol "define", 1, 7, 1, 2⟩,
      ⟨.open, 7, 8, 1, 8⟩, ⟨.symbol "f", 8, 9, 1, 9⟩, ⟨.symbol "x", 10, 11, 1, 11⟩, ⟨.close, 11, 12, 1, 12⟩,
      ⟨.symbol "x", 28, 29, 2, 2⟩, ⟨.close, 29, 30, 2, 3⟩, ⟨.endOfText, 30, 30, 2, 4⟩] := by decide +kernel
  have hcompiled : (compile "(define (f x) x)").toOption.isSome = true := by decide +kernel
  refine ⟨_, _, hscan, hscan', rfl, ?_⟩
  -- the first text has a program, so both have
  rcases compile_of_kinds hscan hscan' rfl with ⟨e, e', he, -, -⟩ | hsame
  · rw [he] at hcompiled
    cases hcompiled
  · exact hsame

end SchemeMachine
