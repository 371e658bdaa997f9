import SchemeMachine.Proofs.Syntax.Phrase

/-!
# Every phrase is read

The parser reads whatever the grammar allows. The proof is by induction on the phrase, with whatever follows it still in
place, and four units of fuel are enough for each token.

* `Grammar.ReadsAs` says what it is to read a phrase of each sort. There is one lemma for each rule of the grammar.
* `Grammar.Phrase.read` puts them together.
* `Grammar.program_ok_iff_phrase` adds the other direction: a whole text is read just if it is a phrase.
-/

namespace SchemeMachine

namespace Grammar

open Token (Kind)

variable {ts : List Token} {ks more : List Kind}

/-! ### Each phrase is read -/

/-- **What it is to read a phrase**, whatever comes after it: with enough fuel there is an answer, and nothing but the phrase
has been taken. -/
def ReadsAs : Category → List Kind → Prop
  | .one mode, ks => ∀ ts more fuel, ts.map (·.kind) = ks ++ more → 4 * ks.length ≤ fuel →
    ∃ f rest, expr fuel mode ts = .ok (f, rest) ∧ rest.map (·.kind) = more
  | .many mode, ks => ∀ ts more fuel, ts.map (·.kind) = ks ++ .close :: more → 4 * ks.length + 2 ≤ fuel →
    ∃ items close rest, sequence fuel mode ts = .ok ((items, close), rest) ∧ rest.map (·.kind) = more ∧
      (items = [] → ks = [])
  | .bindings, ks => ∀ ts more fuel, ts.map (·.kind) = ks ++ .close :: more → 4 * ks.length + 2 ≤ fuel →
    ∃ pairs rest, bindings fuel ts = .ok (pairs, rest) ∧ rest.map (·.kind) = more
  | .clauses, ks => ∀ ts more fuel, ts.map (·.kind) = ks ++ .close :: more → 4 * ks.length + 2 ≤ fuel →
    ∃ cs rest, clauses fuel ts = .ok (cs, rest) ∧ rest.map (·.kind) = more ∧ (cs = [] → ks = [])

/-- The rest of a form in code is read. -/
def ReadsInside (inner : List Kind) : Prop :=
  ∀ s ts more fuel, ts.map (·.kind) = inner ++ .close :: more → 4 * inner.length + 3 ≤ fuel →
    ∃ f rest, compound (fuel + 1) s ts = .ok (f, rest) ∧ rest.map (·.kind) = more

namespace ReadsAs

variable {mode : Mode} {ks others body items : List Kind}

theorem atom {k : Kind} (hk : k.isAtom) : ReadsAs (.one mode) [k] := by
  intro ts more fuel hts hfuel
  rw [List.length_singleton] at hfuel
  obtain ⟨fuel, rfl⟩ := Nat.exists_eq_add_of_le' (by omega : 1 ≤ fuel)
  obtain ⟨span, rest, rfl, hrest⟩ := exists_token hts
  cases k <;> cases hk <;> exact ⟨_, rest, rfl, hrest⟩

theorem list {quotation : Quotation} {s : Span} {ts : List Token} {more : List Kind} {fuel : Nat}
    (h : ReadsAs (.many mode) items) (hts : ts.map (·.kind) = items ++ .close :: more)
    (hfuel : 4 * items.length + 2 ≤ fuel) :
    ∃ f rest, Grammar.list (fuel + 1) quotation mode s ts = .ok (f, rest) ∧ rest.map (·.kind) = more := by
  obtain ⟨forms, close, rest, hread, hrest, -⟩ := h ts more fuel hts hfuel
  exact ⟨_, rest, Except.bind_eq_ok.mpr ⟨_, hread, rfl⟩, hrest⟩

theorem nested (name : String) (s : Span) {ts : List Token} {more : List Kind} {fuel : Nat}
    (h : ReadsAs (.one mode) ks) (hts : ts.map (·.kind) = ks ++ more) (hfuel : 4 * ks.length ≤ fuel) :
    ∃ f rest, Grammar.nested (fuel + 1) mode name s ts = .ok (f, rest) ∧ rest.map (·.kind) = more := by
  obtain ⟨form, rest, hread, hrest⟩ := h ts more fuel hts hfuel
  exact ⟨_, rest, Except.bind_eq_ok.mpr ⟨_, hread, rfl⟩, hrest⟩

/-- Something quoted is read as it is anywhere else in its mode, but for what becomes of a list. -/
theorem datum (quotation : Quotation) (s : Span) {ts : List Token} {more : List Kind} {fuel : Nat}
    (h : ReadsAs (.one (quotedIn quotation)) ks) (hts : ts.map (·.kind) = ks ++ more) (hfuel : 4 * ks.length ≤ fuel) :
    ∃ f rest, Grammar.datum (fuel + 1) quotation s ts = .ok (f, rest) ∧ rest.map (·.kind) = more := by
  unfold Grammar.datum
  dsimp only
  split
  -- a list is read by itself, so that its node is of this quotation and not a quoted one
  · next here rest =>
    obtain ⟨f, rest', hread, hrest'⟩ := h _ more (fuel + 1) hts (by omega)
    have hlist : Grammar.list fuel .quote (quotedIn quotation) here rest = .ok (f, rest') := by
      cases quotation <;> exact hread
    cases fuel with
    | zero => simp [Grammar.list] at hlist
    | succ fuel =>
      obtain ⟨⟨⟨forms, close⟩, ts'⟩, hforms, heq⟩ := Except.bind_eq_ok.mp hlist
      cases heq
      exact ⟨_, rest', Except.bind_eq_ok.mpr ⟨_, hforms, rfl⟩, hrest'⟩
  · exact h _ more fuel hts hfuel

/-- A form in code is read if the rest of it is. -/
theorem enclosed {inner : List Kind} (h : ReadsInside inner) : ReadsAs (.one .code) (enclosed inner) := by
  intro ts more fuel hts hfuel
  rw [length_enclosed] at hfuel
  obtain ⟨fuel, rfl⟩ := Nat.exists_eq_add_of_le' (by omega : 2 ≤ fuel)
  rw [enclosed_append] at hts
  obtain ⟨span, rest, rfl, hrest⟩ := exists_token hts
  exact h span rest more fuel hrest (by omega)

theorem quote (h : ReadsAs (.one .quoted) ks) : ReadsAs (.one .code) (.quote :: ks) := by
  intro ts more fuel hts hfuel
  rw [List.length_cons] at hfuel
  obtain ⟨fuel, rfl⟩ := Nat.exists_eq_add_of_le' (by omega : 2 ≤ fuel)
  obtain ⟨span, rest, rfl, hrest⟩ := exists_token hts
  exact datum .quote span h hrest (by omega)

theorem quasiquote (h : ReadsAs (.one .template) ks) : ReadsAs (.one .code) (.quasiquote :: ks) := by
  intro ts more fuel hts hfuel
  rw [List.length_cons] at hfuel
  obtain ⟨fuel, rfl⟩ := Nat.exists_eq_add_of_le' (by omega : 2 ≤ fuel)
  obtain ⟨span, rest, rfl, hrest⟩ := exists_token hts
  exact datum .quasiquote span h hrest (by omega)

theorem data (hmode : mode ≠ .code) (h : ReadsAs (.many mode) items) : ReadsAs (.one mode) (Grammar.enclosed items) := by
  intro ts more fuel hts hfuel
  rw [length_enclosed] at hfuel
  obtain ⟨fuel, rfl⟩ := Nat.exists_eq_add_of_le' (by omega : 2 ≤ fuel)
  rw [enclosed_append] at hts
  obtain ⟨span, rest, rfl, hrest⟩ := exists_token hts
  cases mode with
  | code => exact absurd rfl hmode
  | quoted => exact list h hrest (by omega)
  | template => exact list h hrest (by omega)

theorem marked {k : Kind} (hmode : mode ≠ .code) (hk : k = .quote ∨ k = .quasiquote ∨ k = .unquote ∧ mode = .quoted)
    (h : ReadsAs (.one mode) ks) : ReadsAs (.one mode) (k :: ks) := by
  intro ts more fuel hts hfuel
  rw [List.length_cons] at hfuel
  obtain ⟨fuel, rfl⟩ := Nat.exists_eq_add_of_le' (by omega : 2 ≤ fuel)
  obtain ⟨span, rest, rfl, hrest⟩ := exists_token hts
  -- the mark becomes the word that is its name
  have hread := fun name => nested name span h hrest (by omega : 4 * ks.length ≤ fuel)
  cases mode with
  | code => exact absurd rfl hmode
  | quoted => rcases hk with rfl | rfl | ⟨rfl, -⟩ <;> exact hread _
  | template =>
    rcases hk with rfl | rfl | ⟨-, hquoted⟩
    · exact hread _
    · exact hread _
    · cases hquoted

theorem hole (h : ReadsAs (.one .code) ks) : ReadsAs (.one .template) (.unquote :: ks) := by
  intro ts more fuel hts hfuel
  rw [List.length_cons] at hfuel
  obtain ⟨fuel, rfl⟩ := Nat.exists_eq_add_of_le' (by omega : 1 ≤ fuel)
  obtain ⟨span, rest, rfl, hrest⟩ := exists_token hts
  obtain ⟨inner, rest', hread, hrest'⟩ := h rest more fuel hrest (by omega)
  exact ⟨_, rest', Except.bind_eq_ok.mpr ⟨_, hread, rfl⟩, hrest'⟩

theorem nil : ReadsAs (.many mode) [] := by
  intro ts more fuel hts hfuel
  obtain ⟨fuel, rfl⟩ := Nat.exists_eq_add_of_le' (by omega : 1 ≤ fuel)
  obtain ⟨span, rest, rfl, hrest⟩ := exists_token hts
  exact ⟨[], span, rest, rfl, hrest, fun _ => rfl⟩

/-- An expression comes first where tokens begin with one. -/
theorem sequence_eq {ts : List Token} {more : List Kind} (h : Phrase (.one mode) ks) (hts : ts.map (·.kind) = ks ++ more)
    (fuel : Nat) : sequence (fuel + 1) mode ts = (do
      let (first, ts) ← expr fuel mode ts
      let ((others, close), ts) ← sequence fuel mode ts
      return ((first :: others, close), ts)) := by
  obtain ⟨k, ks, rfl⟩ := List.exists_cons_of_ne_nil h.ne_nil
  obtain ⟨span, rest, rfl, -⟩ := exists_token hts
  -- neither of the tokens at which a sequence stops begins an expression
  have hclose : k ≠ .close := by
    rintro rfl
    cases h with
    | atom hk => cases hk
    | marked hmode hk h => rcases hk with hk | hk | ⟨hk, -⟩ <;> cases hk
  have hend : k ≠ .endOfText := by
    rintro rfl
    exact h.endOfText_notMem List.mem_cons_self
  rw [sequence]
  split
  · next heq => exact absurd heq hclose
  · next heq => exact absurd heq hend
  · rfl

theorem cons (hphrase : Phrase (.one mode) ks) (h : ReadsAs (.one mode) ks) (hothers : ReadsAs (.many mode) others) :
    ReadsAs (.many mode) (ks ++ others) := by
  intro ts more fuel hts hfuel
  -- the first expression has a token, which pays for the level
  have hlength := List.length_pos_of_ne_nil hphrase.ne_nil
  rw [List.length_append] at hfuel
  obtain ⟨fuel, rfl⟩ := Nat.exists_eq_add_of_le' (by omega : 1 ≤ fuel)
  rw [List.append_assoc] at hts
  obtain ⟨first, rest, hfirst, hrest⟩ := h ts _ fuel hts (by omega)
  obtain ⟨forms, close, rest', hforms, hrest', -⟩ := hothers rest more fuel hrest (by omega)
  refine ⟨first :: forms, close, rest', ?_, hrest', nofun⟩
  rw [sequence_eq hphrase hts]
  exact Except.bind_eq_ok.mpr ⟨_, hfirst, Except.bind_eq_ok.mpr ⟨_, hforms, rfl⟩⟩

theorem unbound : ReadsAs .bindings [] := by
  intro ts more fuel hts hfuel
  obtain ⟨fuel, rfl⟩ := Nat.exists_eq_add_of_le' (by omega : 1 ≤ fuel)
  obtain ⟨span, rest, rfl, hrest⟩ := exists_token hts
  exact ⟨[], rest, rfl, hrest⟩

theorem binding (name : String) (h : ReadsAs (.one .code) ks) (hothers : ReadsAs .bindings others) :
    ReadsAs .bindings (Grammar.enclosed (.symbol name :: ks) ++ others) := by
  intro ts more fuel hts hfuel
  rw [List.length_append, length_enclosed, List.length_cons] at hfuel
  obtain ⟨fuel, rfl⟩ := Nat.exists_eq_add_of_le' (by omega : 1 ≤ fuel)
  rw [List.append_assoc, enclosed_append] at hts
  obtain ⟨span, ts₁, rfl, hts₁⟩ := exists_token hts
  obtain ⟨span₁, ts₂, rfl, hts₂⟩ := exists_token hts₁
  -- between the parentheses: the name, and the expression up to the closing one
  obtain ⟨initial, ts₃, hinitial, hts₃⟩ := h ts₂ _ fuel hts₂ (by omega)
  obtain ⟨span₃, ts₄, rfl, hts₄⟩ := exists_token hts₃
  obtain ⟨pairs, rest, hpairs, hrest⟩ := hothers ts₄ more fuel hts₄ (by omega)
  refine ⟨(name, initial) :: pairs, rest, ?_, hrest⟩
  rw [bindings, if_neg (by simp [nextKind])]
  refine Except.bind_eq_ok.mpr ⟨_, expect_eq_ok.mpr rfl, ?_⟩
  refine Except.bind_eq_ok.mpr ⟨_, expectSymbol_eq_ok.mpr ⟨_, rfl⟩, ?_⟩
  refine Except.bind_eq_ok.mpr ⟨_, hinitial, ?_⟩
  refine Except.bind_eq_ok.mpr ⟨_, expect_eq_ok.mpr rfl, ?_⟩
  exact Except.bind_eq_ok.mpr ⟨_, hpairs, rfl⟩

theorem unconditional : ReadsAs .clauses [] := by
  intro ts more fuel hts hfuel
  obtain ⟨fuel, rfl⟩ := Nat.exists_eq_add_of_le' (by omega : 1 ≤ fuel)
  obtain ⟨span, rest, rfl, hrest⟩ := exists_token hts
  exact ⟨[], rest, rfl, hrest, fun _ => rfl⟩

/-- A clause is read once its test is. -/
theorem clause_of_condition (test : List Kind) (htest : ∀ ts more fuel, ts.map (·.kind) = test ++ more →
      4 * test.length + 1 ≤ fuel → ∃ form rest, condition fuel ts = .ok (form, rest) ∧ rest.map (·.kind) = more)
    (hbody : ReadsAs (.many .code) body) (hne : body ≠ []) (hothers : ReadsAs .clauses others) :
    ReadsAs .clauses (Grammar.enclosed (test ++ body) ++ others) := by
  intro ts more fuel hts hfuel
  rw [List.length_append, length_enclosed, List.length_append] at hfuel
  obtain ⟨fuel, rfl⟩ := Nat.exists_eq_add_of_le' (by omega : 1 ≤ fuel)
  rw [List.append_assoc, enclosed_append, List.append_assoc] at hts
  obtain ⟨span, ts₁, rfl, hts₁⟩ := exists_token hts
  obtain ⟨form, ts₂, hform, hts₂⟩ := htest ts₁ _ fuel hts₁ (by omega)
  obtain ⟨forms, close, ts₃, hforms, hts₃, hempty⟩ := hbody ts₂ _ fuel hts₂ (by omega)
  obtain ⟨cs, rest, hcs, hrest, -⟩ := hothers ts₃ more fuel hts₃ (by omega)
  have hfull : forms.isEmpty = false := by
    rw [List.isEmpty_eq_false_iff]
    exact fun hnil => hne (hempty hnil)
  refine ⟨⟨span, form, forms⟩ :: cs, rest, ?_, hrest, nofun⟩
  rw [clauses, if_neg (by simp [nextKind])]
  refine Except.bind_eq_ok.mpr ⟨_, expect_eq_ok.mpr rfl, ?_⟩
  refine Except.bind_eq_ok.mpr ⟨_, hform, ?_⟩
  refine Except.bind_eq_ok.mpr ⟨_, hforms, ?_⟩
  simp only [hfull]
  exact Except.bind_eq_ok.mpr ⟨_, hcs, rfl⟩

theorem otherwise (hbody : ReadsAs (.many .code) body) (hne : body ≠ []) (hothers : ReadsAs .clauses others) :
    ReadsAs .clauses (Grammar.enclosed (.symbol "else" :: body) ++ others) := by
  refine clause_of_condition [.symbol "else"] ?_ hbody hne hothers
  intro ts more fuel hts hfuel
  obtain ⟨fuel, rfl⟩ := Nat.exists_eq_add_of_le' (by omega : 1 ≤ fuel)
  obtain ⟨span, rest, rfl, hrest⟩ := exists_token hts
  exact ⟨none, rest, rfl, hrest⟩

theorem clause {test : List Kind} (hphrase : Phrase (.one .code) test) (htest : ReadsAs (.one .code) test)
    (hhead : test.head? ≠ some (.symbol "else")) (hbody : ReadsAs (.many .code) body) (hne : body ≠ [])
    (hothers : ReadsAs .clauses others) : ReadsAs .clauses (Grammar.enclosed (test ++ body) ++ others) := by
  refine clause_of_condition test ?_ hbody hne hothers
  intro ts more fuel hts hfuel
  obtain ⟨fuel, rfl⟩ := Nat.exists_eq_add_of_le' (by omega : 1 ≤ fuel)
  obtain ⟨form, rest, hform, hrest⟩ := htest ts more fuel hts (by omega)
  obtain ⟨k, ks, rfl⟩ := List.exists_cons_of_ne_nil hphrase.ne_nil
  obtain ⟨span, ts', rfl, -⟩ := exists_token hts
  -- the test is not taken for an `else`
  have hother : nextSymbol? (⟨k, span⟩ :: ts') ≠ some "else" := fun hword => hhead (by
    obtain ⟨_, heq⟩ := exists_of_nextSymbol? hword
    cases heq
    rfl)
  refine ⟨some form, rest, ?_, hrest⟩
  rw [condition, if_neg hother]
  exact Except.bind_eq_ok.mpr ⟨_, hform, rfl⟩

end ReadsAs

namespace ReadsInside

variable {body items pairs : List Kind}

/-- A body that is not empty is read. -/
theorem body_reads {ts : List Token} {more : List Kind} {fuel : Nat} (hbody : ReadsAs (.many .code) body) (hne : body ≠ [])
    (hts : ts.map (·.kind) = body ++ .close :: more) (hfuel : 4 * body.length + 2 ≤ fuel) :
    ∃ forms close rest, sequence fuel .code ts = .ok ((forms, close), rest) ∧ rest.map (·.kind) = more ∧
      ∀ form s, requireBody form s forms = .ok () := by
  obtain ⟨forms, close, rest, hread, hrest, hempty⟩ := hbody ts more fuel hts hfuel
  refine ⟨forms, close, rest, hread, hrest, fun form s => ?_⟩
  have hfull : forms.isEmpty = false := by
    rw [List.isEmpty_eq_false_iff]
    exact fun hnil => hne (hempty hnil)
  rw [requireBody, hfull]
  rfl

theorem lambda (names : List String) (hbody : ReadsAs (.many .code) body) (hne : body ≠ []) :
    ReadsInside (.symbol "lambda" :: enclosed (names.map .symbol) ++ body) := by
  intro s ts more fuel hts hfuel
  simp only [List.cons_append, List.append_assoc, enclosed_append] at hts
  simp only [List.length_cons, List.length_append, length_enclosed, List.length_map] at hfuel
  obtain ⟨span, ts₁, rfl, hts₁⟩ := exists_token hts
  obtain ⟨span₁, ts₂, rfl, hts₂⟩ := exists_token hts₁
  obtain ⟨ts₃, hnames, hts₃⟩ := parameters_kinds hts₂
  obtain ⟨forms, close, rest, hforms, hrest, hrequire⟩ := body_reads hbody hne hts₃ (by omega : _ ≤ fuel)
  refine ⟨.lambda (s.merge close) names forms, rest, ?_, hrest⟩
  rw [compound]
  refine (if_pos rfl).trans ?_
  refine Except.bind_eq_ok.mpr ⟨_, hnames, ?_⟩
  refine Except.bind_eq_ok.mpr ⟨_, hforms, ?_⟩
  exact Except.bind_eq_ok.mpr ⟨_, hrequire _ _, rfl⟩

theorem procedure (name : String) (names : List String) (hbody : ReadsAs (.many .code) body) (hne : body ≠ []) :
    ReadsInside (.symbol "define" :: enclosed (.symbol name :: names.map .symbol) ++ body) := by
  intro s ts more fuel hts hfuel
  simp only [List.cons_append, List.append_assoc, enclosed_append] at hts
  simp only [List.length_cons, List.length_append, length_enclosed, List.length_map] at hfuel
  obtain ⟨span, ts₁, rfl, hts₁⟩ := exists_token hts
  obtain ⟨span₁, ts₂, rfl, hts₂⟩ := exists_token hts₁
  obtain ⟨span₂, ts₃, rfl, hts₃⟩ := exists_token hts₂
  obtain ⟨ts₄, hnames, hts₄⟩ := parameters_kinds hts₃
  obtain ⟨forms, close, rest, hforms, hrest, hrequire⟩ := body_reads hbody hne hts₄ (by omega : _ ≤ fuel)
  refine ⟨.procedure s (s.merge close) name names forms, rest, ?_, hrest⟩
  rw [compound]
  refine (if_pos rfl).trans ?_
  refine Except.bind_eq_ok.mpr ⟨_, expectSymbol_eq_ok.mpr ⟨_, rfl⟩, ?_⟩
  refine Except.bind_eq_ok.mpr ⟨_, hnames, ?_⟩
  refine Except.bind_eq_ok.mpr ⟨_, hforms, ?_⟩
  exact Except.bind_eq_ok.mpr ⟨_, hrequire _ _, rfl⟩

theorem define (hitems : ReadsAs (.many .code) items) (hhead : items.head? ≠ some .open) :
    ReadsInside (.symbol "define" :: items) := by
  intro s ts more fuel hts hfuel
  rw [List.length_cons] at hfuel
  obtain ⟨span, ts₁, rfl, hts₁⟩ := exists_token hts
  -- no parenthesis follows, so this is no procedure
  have hopen : nextKind ts₁ ≠ .open := mt (nextKind_eq_iff hts₁ (by nofun)).mp hhead
  obtain ⟨forms, close, rest, hforms, hrest, -⟩ := hitems ts₁ more fuel hts₁ (by omega)
  refine ⟨.group .code (s.merge close) (.atom (.keyword "define") :: forms), rest, ?_, hrest⟩
  rw [compound]
  refine (if_neg hopen).trans ?_
  exact Except.bind_eq_ok.mpr ⟨_, hforms, rfl⟩

theorem letIn (name : Option String) (hpairs : ReadsAs .bindings pairs) (hbody : ReadsAs (.many .code) body)
    (hne : body ≠ []) : ReadsInside (.symbol "let" :: (name.map .symbol).toList ++ enclosed pairs ++ body) := by
  intro s ts more fuel hts hfuel
  simp only [List.cons_append, List.append_assoc, enclosed_append] at hts
  simp only [List.length_cons, List.length_append, length_enclosed] at hfuel
  obtain ⟨span, ts₁, rfl, hts₁⟩ := exists_token hts
  -- with or without a name, the bindings begin with a parenthesis
  obtain ⟨span₂, ts₂, hopen, hts₂⟩ : ∃ span₂ ts₂,
      (if (nextSymbol? ts₁).isSome then ts₁.tail else ts₁) = ⟨.open, span₂⟩ :: ts₂ ∧
        ts₂.map (·.kind) = pairs ++ .close :: (body ++ .close :: more) := by
    cases name with
    | none =>
      obtain ⟨span₂, ts₂, rfl, hts₂⟩ := exists_token hts₁
      exact ⟨span₂, ts₂, rfl, hts₂⟩
    | some name =>
      obtain ⟨span₁, ts', rfl, hts'⟩ := exists_token hts₁
      obtain ⟨span₂, ts₂, rfl, hts₂⟩ := exists_token hts'
      exact ⟨span₂, ts₂, rfl, hts₂⟩
  obtain ⟨bound, ts₃, hbound, hts₃⟩ := hpairs ts₂ _ fuel hts₂ (by omega)
  obtain ⟨forms, close, rest, hforms, hrest, hrequire⟩ := body_reads hbody hne hts₃ (by omega : _ ≤ fuel)
  refine ⟨.letIn s (s.merge close) (nextSymbol? ts₁) (bound.map (·.1)) (bound.map (·.2)) forms, rest, ?_, hrest⟩
  rw [compound]
  refine Except.bind_eq_ok.mpr ⟨_, expect_eq_ok.mpr hopen, ?_⟩
  refine Except.bind_eq_ok.mpr ⟨_, hbound, ?_⟩
  refine Except.bind_eq_ok.mpr ⟨_, hforms, ?_⟩
  exact Except.bind_eq_ok.mpr ⟨_, hrequire _ _, rfl⟩

theorem cond {cs : List Kind} (hcs : ReadsAs .clauses cs) (hne : cs ≠ []) : ReadsInside (.symbol "cond" :: cs) := by
  intro s ts more fuel hts hfuel
  rw [List.length_cons] at hfuel
  obtain ⟨span, ts₁, rfl, hts₁⟩ := exists_token hts
  obtain ⟨read, rest, hread, hrest, hempty⟩ := hcs ts₁ more fuel hts₁ (by omega)
  cases read with
  | nil => exact absurd (hempty rfl) hne
  | cons c read =>
    refine ⟨.clause c.span c.test c.body (chain read), rest, ?_, hrest⟩
    rw [compound]
    exact Except.bind_eq_ok.mpr ⟨_, hread, rfl⟩

theorem quotation {ks : List Kind} (h : ReadsAs (.one .quoted) ks) : ReadsInside (.symbol "quote" :: ks) := by
  intro s ts more fuel hts hfuel
  rw [List.length_cons] at hfuel
  obtain ⟨fuel, rfl⟩ := Nat.exists_eq_add_of_le' (by omega : 1 ≤ fuel)
  obtain ⟨span, ts₁, rfl, hts₁⟩ := exists_token hts
  obtain ⟨form, ts₂, hform, hts₂⟩ := ReadsAs.datum .quote s h hts₁ (by omega : _ ≤ fuel)
  obtain ⟨span₂, rest, rfl, hrest⟩ := exists_token hts₂
  refine ⟨form, rest, ?_, hrest⟩
  rw [compound]
  refine Except.bind_eq_ok.mpr ⟨_, hform, ?_⟩
  exact Except.bind_eq_ok.mpr ⟨_, expect_eq_ok.mpr rfl, rfl⟩

theorem application (hitems : ReadsAs (.many .code) items)
    (hhead : ∀ word ∈ reserved, items.head? ≠ some (.symbol word)) : ReadsInside items := by
  intro s ts more fuel hts hfuel
  obtain ⟨fuel, rfl⟩ := Nat.exists_eq_add_of_le' (by omega : 1 ≤ fuel)
  -- no reserved word comes first, so this is no other form
  have hother : ∀ word ∈ reserved, nextSymbol? ts ≠ some word := fun word hword heq =>
    hhead word hword ((nextSymbol?_eq_iff hts (by nofun)).mp heq)
  rw [compound_eq hother]
  exact hitems.list hts (by omega)

end ReadsInside

/-- **Every phrase is read**, by induction on the phrase. -/
theorem Phrase.read {c : Category} {ks : List Kind} (h : Phrase c ks) : ReadsAs c ks := by
  induction h with
  | atom hk => exact .atom hk
  | quote _ ih => exact .quote ih
  | quasiquote _ ih => exact .quasiquote ih
  | lambda names _ hne ih => exact .enclosed (.lambda names ih hne)
  | procedure name names _ hne ih => exact .enclosed (.procedure name names ih hne)
  | define _ hhead ih => exact .enclosed (.define ih hhead)
  | letIn name _ _ hne ihpairs ihbody => exact .enclosed (.letIn name ihpairs ihbody hne)
  | cond _ hne ih => exact .enclosed (.cond ih hne)
  | quotation _ ih => exact .enclosed (.quotation ih)
  | application _ hhead ih => exact .enclosed (.application ih hhead)
  | list hmode _ ih => exact .data hmode ih
  | marked hmode hk _ ih => exact .marked hmode hk ih
  | hole _ ih => exact .hole ih
  | nil => exact .nil
  | cons h _ ih ihothers => exact .cons h ih ihothers
  | unbound => exact .unbound
  | binding name _ _ ih ihothers => exact .binding name ih ihothers
  | unconditional => exact .unconditional
  | otherwise _ hne _ ihbody ihothers => exact .otherwise ihbody hne ihothers
  | clause htest hhead _ hne _ ihtest ihbody ihothers => exact .clause htest ihtest hhead ihbody hne ihothers

/-! ### Programs -/

/-- **A phrase up to the end of the text is read as a program.** -/
theorem program_of_phrase {fuel : Nat} (h : Phrase (.many .code) ks) (hts : ts.map (·.kind) = ks ++ .endOfText :: more)
    (hfuel : 4 * ks.length < fuel) : ∃ forms, program fuel ts = .ok forms := by
  generalize hc : Category.many .code = c at h
  induction h generalizing ts fuel with
  | nil =>
    obtain ⟨fuel, rfl⟩ := Nat.exists_eq_add_of_le' (by omega : 1 ≤ fuel)
    obtain ⟨span, rest, rfl, -⟩ := exists_token hts
    exact ⟨[], rfl⟩
  | cons h _ _ ih =>
    cases hc
    have hlength := List.length_pos_of_ne_nil h.ne_nil
    rw [List.length_append] at hfuel
    obtain ⟨fuel, rfl⟩ := Nat.exists_eq_add_of_le' (by omega : 1 ≤ fuel)
    rw [List.append_assoc] at hts
    obtain ⟨first, rest, hfirst, hrest⟩ := h.read ts _ fuel hts (by omega)
    obtain ⟨forms, hforms⟩ := ih hrest (by omega : _ < fuel) rfl
    obtain ⟨k, ks, rfl⟩ := List.exists_cons_of_ne_nil h.ne_nil
    obtain ⟨span, ts', rfl, -⟩ := exists_token hts
    -- the text does not end where an expression begins
    have hend : nextKind (⟨k, span⟩ :: ts') ≠ .endOfText := fun heq =>
      h.endOfText_notMem (heq ▸ List.mem_cons_self)
    refine ⟨first :: forms, ?_⟩
    rw [program, if_neg hend]
    exact Except.bind_eq_ok.mpr ⟨_, hfirst, Except.bind_eq_ok.mpr ⟨_, hforms, rfl⟩⟩
  | _ => cases hc

/-- **Just the phrases are read**, where the text ends after its last token. -/
theorem program_ok_iff_phrase {fuel : Nat} (hts : ts.map (·.kind) = ks ++ [.endOfText]) (hks : .endOfText ∉ ks)
    (hfuel : 4 * ks.length < fuel) : (∃ forms, program fuel ts = .ok forms) ↔ Phrase (.many .code) ks := by
  refine ⟨fun ⟨forms, h⟩ => ?_, fun h => program_of_phrase h hts hfuel⟩
  obtain ⟨ks', tail, hks', htail, hphrase⟩ := phrase_of_program h
  rw [hts] at hks'
  cases tail with
  | nil =>
    -- a phrase does not take the end of the text
    rw [List.append_nil] at hks'
    exact absurd (hks' ▸ List.mem_append_right _ List.mem_cons_self) hphrase.endOfText_notMem
  | cons k tail =>
    cases htail
    obtain ⟨rfl, -⟩ := (List.append_cons_inj_of_notMem hks List.not_mem_nil).mp hks'
    exact hphrase

end Grammar

end SchemeMachine
