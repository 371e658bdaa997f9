import SchemeMachine.Proofs.Syntax.Analysis
import SchemeMachine.Proofs.Syntax.Recognition

/-!
# How deep the parser goes

The functions of the parser have fuel, and where it is out they answer as if the text had ended. That answer is never seen:
with four units for each token, no call is made that has none left. To say so, the recursion is opened.

* `Grammar.Reader` is a family of functions in the place of the parser's, and `Grammar.Reader.next` one level of the
  recursion: what the functions of the parser answer if their calls are answered by the given family.
* `Grammar.reader_succ`: the parser with one more unit of fuel is the next level above it.
* `Grammar.Reader.iterate_program`: so many levels above any family, the answer is the parser's. It depends on nothing that
  the family answers.
-/

namespace SchemeMachine

/-- Computations go on alike after the same result. -/
theorem Except.bind_eq_bind {ε α β : Type} {x y : Except ε α} {f g : α → Except ε β} (h : x = y)
    (hnext : ∀ a, y = .ok a → f a = g a) : x >>= f = y >>= g := by
  subst h
  cases x with
  | ok a => exact hnext a rfl
  | error e => rfl

namespace Grammar

open Token (Kind)

/-! ### One level of the recursion -/

/-- Functions in the place of the parser's. -/
structure Reader where
  expr : Mode → List Token → Except ParseError (Form × List Token)
  datum : Quotation → Span → List Token → Except ParseError (Form × List Token)
  nested : Mode → String → Span → List Token → Except ParseError (Form × List Token)
  list : Quotation → Mode → Span → List Token → Except ParseError (Form × List Token)
  sequence : Mode → List Token → Except ParseError ((List Form × Span) × List Token)
  compound : Span → List Token → Except ParseError (Form × List Token)
  bindings : List Token → Except ParseError (List (String × Form) × List Token)
  clauses : List Token → Except ParseError (List Clause × List Token)
  condition : List Token → Except ParseError (Option Form × List Token)
  program : List Token → Except ParseError (List Form)

/-- The parser with some fuel. -/
def reader (fuel : Nat) : Reader where
  expr := expr fuel
  datum := datum fuel
  nested := nested fuel
  list := list fuel
  sequence := sequence fuel
  compound := compound fuel
  bindings := bindings fuel
  clauses := clauses fuel
  condition := condition fuel
  program := program fuel

/-- **One level of the recursion**: what the functions of the parser answer if all calls that they make are answered by
`r`. -/
def Reader.next (r : Reader) : Reader where
  expr
    | _, [] => .error .unexpectedEnd
    | mode, t :: ts =>
      match t.kind with
      | .number x => .ok (.atom (.number x), ts)
      | .boolean b => .ok (.atom (.boolean b), ts)
      | .string s => .ok (.string t.span s, ts)
      | .symbol name => .ok (word mode name, ts)
      | .quote =>
        match mode with
        | .code => r.datum .quote t.span ts
        | .quoted | .template => r.nested mode "quote" t.span ts
      | .quasiquote =>
        match mode with
        | .code => r.datum .quasiquote t.span ts
        | .quoted | .template => r.nested mode "quasiquote" t.span ts
      | .unquote =>
        match mode with
        | .code => .error (.unquoteOutsideQuasiquote t.span.line t.span.col)
        | .quoted => r.nested mode "unquote" t.span ts
        | .template => do
          let (inner, ts) ← r.expr .code ts
          return (.group .unquote t.span [inner], ts)
      | .open =>
        match mode with
        | .code => r.compound t.span ts
        | .quoted | .template => r.list .quote mode t.span ts
      | .close => .error (unexpected t "expression")
      | .endOfText => .error .unexpectedEnd
  datum quotation s ts :=
    match ts with
    | ⟨.open, here⟩ :: rest => r.list quotation (quotedIn quotation) (here.merge s) rest
    | _ => r.expr (quotedIn quotation) ts
  nested mode name s ts := do
    let (inner, ts) ← r.expr mode ts
    return (.group .quote s [.atom (.symbol name), inner], ts)
  list quotation mode s ts := do
    let ((items, close), ts) ← r.sequence mode ts
    return (.group quotation (s.merge close) items, ts)
  sequence mode ts :=
    match nextKind ts with
    | .close => .ok (([], nextSpan ts), ts.tail)
    | .endOfText => .error .unexpectedEnd
    | _ => do
      let (first, ts) ← r.expr mode ts
      let ((others, close), ts) ← r.sequence mode ts
      return ((first :: others, close), ts)
  compound s ts :=
    match nextSymbol? ts with
    | some "lambda" =>
      if nextKind ts.tail = .open then do
        let (names, ts) ← parameters ts.tail.tail
        let ((body, close), ts) ← r.sequence .code ts
        requireBody "lambda" s body
        return (.lambda (s.merge close) names body, ts)
      else .error (malformed "lambda" "expected a parameter list" (nextSpan ts.tail))
    | some "define" =>
      if nextKind ts.tail = .open then do
        let (name, ts) ← expectSymbol "function name" ts.tail.tail
        let (names, ts) ← parameters ts
        let ((body, close), ts) ← r.sequence .code ts
        requireBody "define" s body
        return (.procedure s (s.merge close) name names body, ts)
      else do
        let ((items, close), ts) ← r.sequence .code ts.tail
        return (.group .code (s.merge close) (.atom (.keyword "define") :: items), ts)
    | some "let" => do
      let name := nextSymbol? ts.tail
      let (_, ts) ← expect .open (if name.isSome then ts.tail.tail else ts.tail)
      let (pairs, ts) ← r.bindings ts
      let ((body, close), ts) ← r.sequence .code ts
      requireBody "let" s body
      return (.letIn s (s.merge close) name (pairs.map (·.1)) (pairs.map (·.2)) body, ts)
    | some "cond" => do
      let (cs, ts) ← r.clauses ts.tail
      match chain cs with
      | none => throw (malformed "cond" "no clauses" s)
      | some form => return (form, ts)
    | some "quote" => do
      let (form, ts) ← r.datum .quote s ts.tail
      let (_, ts) ← expect .close ts
      return (form, ts)
    | _ => r.list .code .code s ts
  bindings ts :=
    if nextKind ts = .close then .ok ([], ts.tail)
    else do
      let (_, ts) ← expect .open ts
      let (name, ts) ← expectSymbol "binding name" ts
      let (initial, ts) ← r.expr .code ts
      let (_, ts) ← expect .close ts
      let (others, ts) ← r.bindings ts
      return ((name, initial) :: others, ts)
  clauses ts :=
    if nextKind ts = .close then .ok ([], ts.tail)
    else do
      let s := nextSpan ts
      let (_, ts) ← expect .open ts
      let (test, ts) ← r.condition ts
      let ((body, _), ts) ← r.sequence .code ts
      if body.isEmpty then throw (malformed "cond" "clause without a body" s)
      let (others, ts) ← r.clauses ts
      return (⟨s, test, body⟩ :: others, ts)
  condition ts :=
    if nextSymbol? ts = some "else" then .ok (none, ts.tail)
    else do
      let (test, ts) ← r.expr .code ts
      return (some test, ts)
  program ts :=
    if nextKind ts = .endOfText then .ok []
    else do
      let (first, ts) ← r.expr .code ts
      let others ← r.program ts
      return first :: others

/-- **The parser is its recursion**: with one more unit of fuel it goes one level deeper. -/
theorem reader_succ (fuel : Nat) : reader (fuel + 1) = (reader fuel).next := by
  have hexpr : expr (fuel + 1) = (reader fuel).next.expr := by
    funext mode ts
    cases ts <;> rfl
  simp only [reader, hexpr, Reader.next]
  rfl

/-! ### What is left is less -/

section Lengths

variable {C : List Kind → Prop} {ts rest : List Token} {fuel : Nat}

theorem Takes.length_lt {mode : Mode} (h : Takes (Phrase (.one mode)) ts rest) : rest.length < ts.length := by
  obtain ⟨ks, hks, hphrase⟩ := h
  have hpos := List.length_pos_of_ne_nil hphrase.ne_nil
  have hlength := congrArg List.length hks
  simp only [List.length_map, List.length_append] at hlength
  omega

theorem TakesUpTo.length_lt (h : TakesUpTo C ts rest) : rest.length < ts.length := by
  obtain ⟨ks, hks, -⟩ := h
  have hlength := congrArg List.length hks
  simp only [List.length_map, List.length_append, List.length_cons] at hlength
  omega

theorem length_of_condition {test : Option Form} (h : condition fuel ts = .ok (test, rest)) : rest.length < ts.length := by
  obtain ⟨ks, hks, htest⟩ := (takesAt fuel).condition h
  rcases htest with rfl | ⟨hphrase, -⟩
  · have hlength := congrArg List.length hks
    simp only [List.length_map, List.length_append, List.length_cons, List.length_nil] at hlength
    omega
  · exact Takes.length_lt ⟨ks, hks, hphrase⟩

theorem length_of_parameters {names : List String} (h : parameters ts = .ok (names, rest)) : rest.length < ts.length := by
  have hlength := congrArg List.length (takes_parameters h)
  simp only [List.length_map, List.length_append, List.length_cons] at hlength
  omega

theorem length_of_expect {k : Kind} {s : Span} (h : expect k ts = .ok (s, rest)) : rest.length < ts.length := by
  rw [expect_eq_ok.mp h]
  exact Nat.lt_succ_self _

theorem length_of_expectSymbol {role name : String} (h : expectSymbol role ts = .ok (name, rest)) :
    rest.length < ts.length := by
  obtain ⟨s, rfl⟩ := expectSymbol_eq_ok.mp h
  exact Nat.lt_succ_self _

theorem length_tail_le (ts : List Token) : ts.tail.length ≤ ts.length := List.length_tail ▸ Nat.sub_le _ _

end Lengths

/-! ### Levels that are not reached -/

/-- **The family answers as the parser does** with this much fuel, wherever the fuel is enough. Each call of a function on
`n` tokens goes through at most four levels before there are fewer of them, and which of the four it is at can be told from
the function. -/
structure AgreesAt (fuel : Nat) (r : Reader) : Prop where
  expr : ∀ mode ts, 4 * ts.length + 1 ≤ fuel → r.expr mode ts = expr fuel mode ts
  datum : ∀ quotation s ts, 4 * ts.length + 2 ≤ fuel → r.datum quotation s ts = datum fuel quotation s ts
  nested : ∀ mode name s ts, 4 * ts.length + 2 ≤ fuel → r.nested mode name s ts = nested fuel mode name s ts
  list : ∀ quotation mode s ts, 4 * ts.length + 3 ≤ fuel → r.list quotation mode s ts = list fuel quotation mode s ts
  sequence : ∀ mode ts, 4 * ts.length + 2 ≤ fuel → r.sequence mode ts = sequence fuel mode ts
  compound : ∀ s ts, 4 * ts.length + 4 ≤ fuel → r.compound s ts = compound fuel s ts
  bindings : ∀ ts, 4 * ts.length + 1 ≤ fuel → r.bindings ts = bindings fuel ts
  clauses : ∀ ts, 4 * ts.length + 1 ≤ fuel → r.clauses ts = clauses fuel ts
  condition : ∀ ts, 4 * ts.length + 2 ≤ fuel → r.condition ts = condition fuel ts
  program : ∀ ts, 4 * ts.length + 2 ≤ fuel → r.program ts = program fuel ts

/-- Without fuel, it is enough for nothing. -/
theorem agreesAt_zero (r : Reader) : AgreesAt 0 r := by
  constructor <;> intros <;> omega

namespace AgreesAt

variable {fuel : Nat} {r : Reader} {ts : List Token} {s : Span}

theorem expr_succ (h : AgreesAt fuel r) (mode : Mode) (hfuel : 4 * ts.length + 1 ≤ fuel + 1) :
    r.next.expr mode ts = (reader fuel).next.expr mode ts := by
  cases ts with
  | nil => rfl
  | cons t ts =>
    -- a token is taken before anything is called
    rw [List.length_cons] at hfuel
    dsimp only [Reader.next, reader]
    rw [h.datum _ _ _ (by omega), h.datum _ _ _ (by omega), h.nested _ _ _ _ (by omega), h.nested _ _ _ _ (by omega),
      h.nested _ _ _ _ (by omega), h.compound _ _ (by omega), h.list _ _ _ _ (by omega), h.expr _ _ (by omega)]

theorem datum_succ (h : AgreesAt fuel r) (quotation : Quotation) (hfuel : 4 * ts.length + 2 ≤ fuel + 1) :
    r.next.datum quotation s ts = (reader fuel).next.datum quotation s ts := by
  dsimp only [Reader.next, reader]
  split
  · rw [List.length_cons] at hfuel
    exact h.list _ _ _ _ (by omega)
  · exact h.expr _ _ (by omega)

theorem sequence_succ (h : AgreesAt fuel r) (mode : Mode) (hfuel : 4 * ts.length + 2 ≤ fuel + 1) :
    r.next.sequence mode ts = (reader fuel).next.sequence mode ts := by
  dsimp only [Reader.next, reader]
  split
  · rfl
  · rfl
  · refine Except.bind_eq_bind (h.expr _ _ (by omega)) ?_
    rintro ⟨first, ts₁⟩ hfirst
    dsimp only
    have hlength := ((takesAt fuel).expr hfirst).length_lt
    rw [h.sequence _ _ (by omega)]

theorem bindings_succ (h : AgreesAt fuel r) (hfuel : 4 * ts.length + 1 ≤ fuel + 1) :
    r.next.bindings ts = (reader fuel).next.bindings ts := by
  dsimp only [Reader.next, reader]
  split
  · rfl
  · refine Except.bind_eq_bind rfl ?_
    rintro ⟨_, ts₁⟩ hopen
    dsimp only
    have h₁ := length_of_expect hopen
    refine Except.bind_eq_bind rfl ?_
    rintro ⟨name, ts₂⟩ hname
    dsimp only
    have h₂ := length_of_expectSymbol hname
    refine Except.bind_eq_bind (h.expr _ _ (by omega)) ?_
    rintro ⟨initial, ts₃⟩ hinitial
    dsimp only
    have h₃ := ((takesAt fuel).expr hinitial).length_lt
    refine Except.bind_eq_bind rfl ?_
    rintro ⟨_, ts₄⟩ hclose
    dsimp only
    have h₄ := length_of_expect hclose
    rw [h.bindings _ (by omega)]

theorem clauses_succ (h : AgreesAt fuel r) (hfuel : 4 * ts.length + 1 ≤ fuel + 1) :
    r.next.clauses ts = (reader fuel).next.clauses ts := by
  dsimp only [Reader.next, reader]
  split
  · rfl
  · refine Except.bind_eq_bind rfl ?_
    rintro ⟨_, ts₁⟩ hopen
    dsimp only
    have h₁ := length_of_expect hopen
    refine Except.bind_eq_bind (h.condition _ (by omega)) ?_
    rintro ⟨test, ts₂⟩ htest
    dsimp only
    have h₂ := length_of_condition htest
    refine Except.bind_eq_bind (h.sequence _ _ (by omega)) ?_
    rintro ⟨⟨body, close⟩, ts₃⟩ hbody
    dsimp only
    have h₃ := ((takesAt fuel).sequence hbody).length_lt
    rw [h.clauses _ (by omega)]

theorem condition_succ (h : AgreesAt fuel r) (hfuel : 4 * ts.length + 2 ≤ fuel + 1) :
    r.next.condition ts = (reader fuel).next.condition ts := by
  dsimp only [Reader.next, reader]
  rw [h.expr _ _ (by omega)]

theorem compound_succ (h : AgreesAt fuel r) (hfuel : 4 * ts.length + 4 ≤ fuel + 1) :
    r.next.compound s ts = (reader fuel).next.compound s ts := by
  have htail := length_tail_le ts
  have htail' := length_tail_le ts.tail
  dsimp only [Reader.next, reader]
  split
  -- `lambda`
  · split
    · refine Except.bind_eq_bind rfl ?_
      rintro ⟨names, ts₁⟩ hnames
      dsimp only
      have h₁ := length_of_parameters hnames
      rw [h.sequence _ _ (by omega)]
    · rfl
  -- `define`
  · split
    · refine Except.bind_eq_bind rfl ?_
      rintro ⟨name, ts₁⟩ hname
      dsimp only
      have h₁ := length_of_expectSymbol hname
      refine Except.bind_eq_bind rfl ?_
      rintro ⟨names, ts₂⟩ hnames
      dsimp only
      have h₂ := length_of_parameters hnames
      rw [h.sequence _ _ (by omega)]
    · rw [h.sequence _ _ (by omega)]
  -- `let`
  · refine Except.bind_eq_bind rfl ?_
    rintro ⟨_, ts₁⟩ hopen
    dsimp only
    have h₁ := length_of_expect hopen
    have hskip : (if (nextSymbol? ts.tail).isSome then ts.tail.tail else ts.tail).length ≤ ts.length := by
      split <;> omega
    refine Except.bind_eq_bind (h.bindings _ (by omega)) ?_
    rintro ⟨pairs, ts₂⟩ hpairs
    dsimp only
    have h₂ := ((takesAt fuel).bindings hpairs).length_lt
    rw [h.sequence _ _ (by omega)]
  -- `cond`, `quote` and applications take nothing before they call
  · rw [h.clauses _ (by omega)]
  · rw [h.datum _ _ _ (by omega)]
  · exact h.list _ _ _ _ (by omega)

theorem program_succ (h : AgreesAt fuel r) (hfuel : 4 * ts.length + 2 ≤ fuel + 1) :
    r.next.program ts = (reader fuel).next.program ts := by
  dsimp only [Reader.next, reader]
  split
  · rfl
  · refine Except.bind_eq_bind (h.expr _ _ (by omega)) ?_
    rintro ⟨first, ts₁⟩ hfirst
    dsimp only
    have hlength := ((takesAt fuel).expr hfirst).length_lt
    rw [h.program _ (by omega)]

end AgreesAt

/-- So many levels above any family, it answers as the parser does. -/
theorem agreesAt_iterate (r : Reader) (fuel : Nat) : AgreesAt fuel (Reader.next^[fuel] r) := by
  induction fuel with
  | zero => exact agreesAt_zero r
  | succ fuel ih =>
    rw [Function.iterate_succ_apply']
    -- both families are the next level above families that agree
    have hreader : ∀ {α : Type} (f : Reader → α), f (reader (fuel + 1)) = f (reader fuel).next := fun f =>
      congrArg f (reader_succ fuel)
    constructor
    case expr => exact fun mode ts hfuel => (ih.expr_succ mode hfuel).trans (hreader (·.expr mode ts)).symm
    case datum => exact fun q s ts hfuel => (ih.datum_succ q hfuel).trans (hreader (·.datum q s ts)).symm
    case nested =>
      intro mode name s ts hfuel
      refine Eq.trans ?_ (hreader (·.nested mode name s ts)).symm
      dsimp only [Reader.next, reader]
      rw [ih.expr _ _ (by omega)]
    case list =>
      intro q mode s ts hfuel
      refine Eq.trans ?_ (hreader (·.list q mode s ts)).symm
      dsimp only [Reader.next, reader]
      rw [ih.sequence _ _ (by omega)]
    case sequence => exact fun mode ts hfuel => (ih.sequence_succ mode hfuel).trans (hreader (·.sequence mode ts)).symm
    case compound => exact fun s ts hfuel => (ih.compound_succ hfuel).trans (hreader (·.compound s ts)).symm
    case bindings => exact fun ts hfuel => (ih.bindings_succ hfuel).trans (hreader (·.bindings ts)).symm
    case clauses => exact fun ts hfuel => (ih.clauses_succ hfuel).trans (hreader (·.clauses ts)).symm
    case condition => exact fun ts hfuel => (ih.condition_succ hfuel).trans (hreader (·.condition ts)).symm
    case program => exact fun ts hfuel => (ih.program_succ hfuel).trans (hreader (·.program ts)).symm

/-- **The recursion of the parser ends**: four levels for each token and four more above any family of functions, no answer
of that family is left in what is read. -/
theorem Reader.iterate_program (r : Reader) {fuel : Nat} {tokens : List Token} (hfuel : 4 * tokens.length + 4 ≤ fuel) :
    (Reader.next^[fuel] r).program tokens = Form.parse tokens := by
  obtain ⟨more, rfl⟩ : ∃ more, fuel = (4 * tokens.length + 4) + more := ⟨_, (Nat.add_sub_cancel' hfuel).symm⟩
  -- the levels that are too many are part of the family below
  rw [Function.iterate_add_apply]
  exact (agreesAt_iterate _ _).program tokens (by omega)

end Grammar

/-! ### Texts -/

namespace Token

/-- **The last token of a text is the only one that ends it.** -/
theorem kinds_of_scanFrom {p : Position} {cs : List Char} {tokens : List Token} (h : scanFrom p cs = .ok tokens) :
    ∃ kinds, tokens.map (·.kind) = kinds ++ [.endOfText] ∧ .endOfText ∉ kinds := by
  fun_induction scanFrom p cs generalizing tokens with
  | case1 p =>
    cases h
    exact ⟨[], rfl, List.not_mem_nil⟩
  | case2 p c cs hblank ih => exact ih h
  | case3 p cs hblank ih => exact ih h
  | case4 p c cs hblank hsemicolon e he => cases h
  | case5 p c cs hblank hsemicolon l hl q =>
    rename_i ih
    cases hrest : scanFrom q l.rest with
    | error e =>
      rw [hrest] at h
      cases h
    | ok others =>
      rw [hrest] at h
      cases h
      obtain ⟨kinds, hkinds, hend⟩ := ih hrest
      refine ⟨l.kind :: kinds, by simp [hkinds], ?_⟩
      rw [List.mem_cons, not_or]
      exact ⟨(kind_ne_endOfText hl).symm, hend⟩

end Token

/-- **Just the phrases of the grammar are read.** For the tokens of any text, the parser comes to an end: its recursion goes
down at most four levels for each token and four more, whatever is put in the place of what would come below. And there is a
tree just if the tokens before the end of the text are expressions in code. -/
theorem Tree.parse_ok_iff_phrase {source : String} {tokens : List Token} (h : Token.scan source = .ok tokens) :
    (∀ fuel, Grammar.reader (fuel + 1) = (Grammar.reader fuel).next) ∧
    (∀ r fuel, 4 * tokens.length + 4 ≤ fuel → (Grammar.Reader.next^[fuel] r).program tokens = Form.parse tokens) ∧
    ∃ kinds, tokens.map (·.kind) = kinds ++ [.endOfText] ∧ .endOfText ∉ kinds ∧
      ((∃ t, Tree.parse source = .ok t) ↔ Grammar.Phrase (.many .code) kinds) := by
  obtain ⟨kinds, hkinds, hend⟩ := Token.kinds_of_scanFrom h
  refine ⟨Grammar.reader_succ, fun r fuel hfuel => r.iterate_program hfuel, kinds, hkinds, hend, ?_⟩
  -- only the end of the text is no part of a phrase
  have hlength : tokens.length = kinds.length + 1 := by
    rw [← List.length_map, hkinds, List.length_append]
    rfl
  have hparse : (∃ t, Tree.parse source = .ok t) ↔ ∃ forms, Form.parse tokens = .ok forms := by
    constructor
    · rintro ⟨t, ht⟩
      obtain ⟨tokens', forms, htokens', hforms, -⟩ := Tree.parse_eq_ok.mp ht
      cases h.symm.trans htokens'
      exact ⟨forms, hforms⟩
    · rintro ⟨forms, hforms⟩
      exact ⟨_, Tree.parse_eq_ok.mpr ⟨tokens, forms, h, hforms, rfl⟩⟩
  exact hparse.trans (Grammar.program_ok_iff_phrase hkinds hend (by omega))

/-- A template with a hole, in which something is quoted: it is a phrase, as there is a tree. -/
theorem Tree.parse_ok_iff_phrase_hole :
    ∃ tokens kinds, Token.scan "\x60(a ,(f 'x))" = .ok tokens ∧ tokens.length = 11 ∧
      (∀ fuel, 48 ≤ fuel → (Grammar.Reader.next^[fuel] (Grammar.reader 0)).program tokens = Form.parse tokens) ∧
      tokens.map (·.kind) = kinds ++ [.endOfText] ∧ Grammar.Phrase (.many .code) kinds := by
  have hscan : Token.scan "\x60(a ,(f 'x))" = .ok [⟨.quasiquote, 0, 1, 1, 1⟩, ⟨.open, 1, 2, 1, 2⟩,
      ⟨.symbol "a", 2, 3, 1, 3⟩, ⟨.unquote, 4, 5, 1, 5⟩, ⟨.open, 5, 6, 1, 6⟩, ⟨.symbol "f", 6, 7, 1, 7⟩,
      ⟨.quote, 8, 9, 1, 9⟩, ⟨.symbol "x", 9, 10, 1, 10⟩, ⟨.close, 10, 11, 1, 11⟩, ⟨.close, 11, 12, 1, 12⟩,
      ⟨.endOfText, 12, 12, 1, 13⟩] := by decide +kernel
  obtain ⟨-, hends, kinds, hkinds, -, hphrase⟩ := Tree.parse_ok_iff_phrase hscan
  refine ⟨_, kinds, hscan, rfl, fun fuel hfuel => hends _ fuel hfuel, hkinds, hphrase.mp ?_⟩
  exact ⟨_, Tree.parse_eq_ok.mpr ⟨_, _, hscan, rfl, rfl⟩⟩

end SchemeMachine
