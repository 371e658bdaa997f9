import SchemeMachine.Proofs.Number.Numeral
import SchemeMachine.Proofs.Syntax.Spelling
import SchemeMachine.Proofs.Syntax.Sketch

/-!
# The words of a program

A form is put together from the words of its text. The parser takes a word for a keyword, a variable or a symbol by
where it stands, and the forms that it makes start with the words that it looks at.

* `Token.Kind.Worded` says what words and numbers a text can have; `P` is what is known of its words.
* `Form.Spelt` says what is known of the words in a form that the parser reads.
* `Grammar.SpeltAt` says it of all functions of the parser at one fuel, `Form.spelt_parse` of a program.
-/

namespace SchemeMachine

open Token (IsSymbol Kind)

variable {P : String → Prop}

namespace Token

/-- **What a token of a text is**: a symbol is a word, and a number is one. -/
def Kind.Worded (P : String → Prop) : Kind → Prop
  | .number x => Binary.ofFloat x ≠ .nan
  | .symbol name => P name
  | _ => True

/-- What the tokens of a text are. -/
def WordedAll (P : String → Prop) (ts : List Token) : Prop := ∀ t ∈ ts, t.kind.Worded P

theorem wordedAll_scan {source : String} {tokens : List Token} (h : scan source = .ok tokens)
    (hsymbols : ∀ t ∈ tokens, ∀ name, t.kind = .symbol name → P name) : WordedAll P tokens := by
  intro t ht
  cases hkind : t.kind with
  | number x =>
    obtain ⟨word, hnumeral, hread⟩ := exists_numeral_of_scan h t ht x hkind
    exact Number.ne_nan_of_isNumeral hnumeral hread
  | symbol name => exact hsymbols t ht name hkind
  | _ => trivial

theorem WordedAll.tail {ts : List Token} (h : WordedAll P ts) : WordedAll P ts.tail := fun t ht => h t (List.mem_of_mem_tail ht)

theorem WordedAll.of_cons {t : Token} {ts : List Token} (h : WordedAll P (t :: ts)) : WordedAll P ts := h.tail

end Token

open Token (WordedAll)

/-- **What the atoms of a text are.** -/
def Atom.Spelt (P : String → Prop) : Atom → Prop
  | .number x => Binary.ofFloat x ≠ .nan
  | .boolean _ => True
  | .symbol s => P s
  | .variable v => P v ∧ isKeyword v = false
  | .keyword k => isKeyword k = true

namespace Form

/-- What an application starts with: no keyword that starts a form of its own, and after `define` nothing that is written
with a parenthesis. -/
def HeadSpelt : List Form → Prop
  | .atom (.keyword word) :: rest =>
    word ≠ "lambda" ∧ word ≠ "let" ∧ word ≠ "cond" ∧ word ≠ "quote" ∧
      (word = "define" → ∀ f ∈ rest.head?, f.sketch.opens = false)
  | _ => True

mutual

/-- **What the words of a form are.** Names may be keywords, but no variable that is used is one. -/
def Spelt (P : String → Prop) : Form → Prop
  | .atom a => a.Spelt P
  | .string _ _ => True
  | .group quotation _ items => (quotation = .code → HeadSpelt items) ∧ SpeltAll P items
  | .lambda _ parameters body => (∀ p ∈ parameters, P p) ∧ body ≠ [] ∧ SpeltAll P body
  | .procedure _ _ name parameters body => P name ∧ (∀ p ∈ parameters, P p) ∧ body ≠ [] ∧ SpeltAll P body
  | .letIn _ _ name names initials body =>
    (∀ n ∈ name, P n) ∧ (∀ n ∈ names, P n) ∧ SpeltAll P initials ∧ body ≠ [] ∧ SpeltAll P body
  | .clause _ test body rest => SpeltOption P test ∧ SpeltAll P body ∧ SpeltOption P rest

/-- What the words of several forms are. -/
def SpeltAll (P : String → Prop) : List Form → Prop
  | [] => True
  | f :: fs => Spelt P f ∧ SpeltAll P fs

/-- What the words of a form are that may be missing. -/
def SpeltOption (P : String → Prop) : Option Form → Prop
  | none => True
  | some f => Spelt P f

end

theorem mem_of_mem_distinct {names : List String} {name : String} (h : name ∈ distinct names) : name ∈ names := by
  have hfold : ∀ seen : List String,
      name ∈ names.foldl (fun seen name => if name ∈ seen then seen else seen ++ [name]) seen →
      name ∈ seen ∨ name ∈ names := by
    clear h
    induction names with
    | nil => exact fun seen h => Or.inl h
    | cons other names ih =>
      intro seen h
      rcases ih _ h with h | h
      · dsimp only at h
        split at h
        · exact Or.inl h
        · rcases List.mem_append.mp h with h | h
          · exact Or.inl h
          · exact Or.inr (List.mem_singleton.mp h ▸ List.mem_cons_self)
      · exact Or.inr (List.mem_cons_of_mem other h)
  exact (hfold [] h).resolve_left nofun

/-- Data do not begin with a parenthesis of code. -/
theorem Legal.opens_eq_false {f : Form} (hf : f.Legal .data) : f.sketch.opens = false := by
  cases f with
  | group quotation s items =>
    cases quotation with
    | code => cases hf.1
    | quote => rfl
    | quasiquote => cases hf.1
    | unquote => rfl
  | atom a => rfl
  | string s content => rfl
  | lambda s parameters body => cases hf.1
  | procedure s lambdaSpan name parameters body => cases hf.1
  | letIn s bodySpan name names initials body => cases hf.1
  | clause s test body rest => cases hf.1

/-- Data are no keyword. -/
theorem Legal.ne_keyword {f : Form} (hf : f.Legal .data) (word : String) : f ≠ .atom (.keyword word) := by
  rintro rfl
  rcases hf with h | h <;> cases h

end Form

namespace Grammar

open Form

/-! ### The first token of a form -/

variable {fuel : Nat} {ts rest : List Token} {f : Form}

/-- What follows a quote in code is a list or read as data. -/
theorem datum_cases {quotation : Quotation} {s : Span} (h : datum fuel quotation s ts = .ok (f, rest)) :
    (∃ s' items, f = .group quotation s' items) ∨ f.Legal .data := by
  cases fuel with
  | zero => cases h
  | succ fuel =>
    simp only [datum] at h
    split at h
    · obtain ⟨s', items, rfl, -⟩ := (legalAt fuel).list h
      exact Or.inl ⟨s', items, rfl⟩
    · have hlegal := (legalAt fuel).expr h
      split at hlegal <;> exact Or.inr hlegal

theorem datum_ne_keyword {quotation : Quotation} {s : Span} {word : String} :
    datum fuel quotation s ts ≠ .ok (.atom (.keyword word), rest) := by
  intro h
  rcases datum_cases h with ⟨s', items, heq⟩ | hlegal
  · cases heq
  · exact hlegal.ne_keyword word rfl

theorem compound_ne_keyword {s : Span} {word : String} : compound fuel s ts ≠ .ok (.atom (.keyword word), rest) := by
  intro h
  cases fuel with
  | zero => cases h
  | succ fuel =>
    -- what a form is read as begins with something else than a word, by the shape of each
    have hlegal := legalAt fuel
    simp only [compound] at h
    split at h
    · split at h
      · obtain ⟨⟨names, ts'⟩, -, h⟩ := Except.bind_eq_ok.mp h
        obtain ⟨body, close, heq, -⟩ := hlegal.body_of_bind (fun body close => .lambda (s.merge close) names body) h
        cases heq
      · cases h
    · split at h
      · obtain ⟨⟨name, ts'⟩, -, h⟩ := Except.bind_eq_ok.mp h
        obtain ⟨⟨names, ts''⟩, -, h⟩ := Except.bind_eq_ok.mp h
        obtain ⟨body, close, heq, -⟩ :=
          hlegal.body_of_bind (fun body close => .procedure s (s.merge close) name names body) h
        cases heq
      · obtain ⟨_, -, h⟩ := Except.bind_eq_ok.mp h
        cases h
    · obtain ⟨⟨_, ts'⟩, -, h⟩ := Except.bind_eq_ok.mp h
      obtain ⟨⟨pairs, ts''⟩, -, h⟩ := Except.bind_eq_ok.mp h
      obtain ⟨body, close, heq, -⟩ := hlegal.body_of_bind (fun body close =>
        .letIn s (s.merge close) (nextSymbol? ts.tail) (pairs.map (·.1)) (pairs.map (·.2)) body) h
      cases heq
    · obtain ⟨⟨cs, ts'⟩, -, h⟩ := Except.bind_eq_ok.mp h
      cases cs with
      | nil => cases h
      | cons c cs => cases h
    · obtain ⟨⟨form, ts'⟩, hform, h⟩ := Except.bind_eq_ok.mp h
      obtain ⟨_, -, h⟩ := Except.bind_eq_ok.mp h
      cases h
      exact datum_ne_keyword hform
    · obtain ⟨s', items, heq, -⟩ := hlegal.list h
      cases heq

/-- **A keyword that is read is the next token.** -/
theorem nextSymbol?_of_keyword {word : String} (h : expr fuel .code ts = .ok (.atom (.keyword word), rest)) :
    nextSymbol? ts = some word := by
  cases fuel with
  | zero => cases h
  | succ fuel =>
    cases ts with
    | nil => cases h
    | cons t ts =>
      simp only [expr] at h
      split at h
      · cases h
      · cases h
      · cases h
      · next name hkind =>
        -- only a symbol is read as a word of code
        have hnext : nextSymbol? (t :: ts) = some name := by
          rw [nextSymbol?, show nextKind (t :: ts) = t.kind from rfl, hkind]
        rw [hnext]
        simp only [Grammar.word, Except.ok.injEq, Prod.mk.injEq, Form.atom.injEq] at h
        split at h
        · cases h.1
          rfl
        · cases h.1
      · exact absurd h datum_ne_keyword
      · exact absurd h datum_ne_keyword
      · cases h
      · exact absurd h compound_ne_keyword
      · cases h
      · cases h

/-- **What is not written with a parenthesis does not open one.** -/
theorem opens_eq_false (h : expr fuel .code ts = .ok (f, rest)) (hnext : nextKind ts ≠ .open) : f.sketch.opens = false := by
  cases fuel with
  | zero => cases h
  | succ fuel =>
    cases ts with
    | nil => cases h
    | cons t ts =>
      have hdatum : ∀ {quotation}, quotation ≠ .code → datum fuel quotation t.span ts = .ok (f, rest) →
          f.sketch.opens = false := by
        intro quotation hcode h
        rcases datum_cases h with ⟨s', items, rfl⟩ | hlegal
        · cases quotation with
          | code => exact absurd rfl hcode
          | _ => rfl
        · exact hlegal.opens_eq_false
      simp only [expr] at h
      split at h
      · cases h; rfl
      · cases h; rfl
      · cases h; rfl
      · cases h; rfl
      · exact hdatum (by decide) h
      · exact hdatum (by decide) h
      · cases h
      · next hopen => exact absurd hopen hnext
      · cases h
      · cases h

/-- The words that start a form of its own. -/
def reserved : List String := ["lambda", "define", "let", "cond", "quote"]

/-- The head of an application that does not start a form of its own. -/
theorem headSpelt_of_sequence {items : List Form} {close : Span}
    (h : sequence fuel .code ts = .ok ((items, close), rest))
    (hnext : ∀ word ∈ reserved, nextSymbol? ts ≠ some word) : HeadSpelt items := by
  unfold HeadSpelt
  split
  · next word others =>
    have hword : nextSymbol? ts = some word := by
      cases fuel with
      | zero => cases h
      | succ fuel =>
        simp only [sequence] at h
        split at h
        · cases h
        · cases h
        · obtain ⟨⟨first, ts'⟩, hfirst, h⟩ := Except.bind_eq_ok.mp h
          obtain ⟨_, -, h⟩ := Except.bind_eq_ok.mp h
          cases h
          exact nextSymbol?_of_keyword hfirst
    have hne : ∀ w ∈ reserved, word ≠ w := by
      rintro w hw rfl
      exact hnext word hw hword
    exact ⟨hne _ (by decide), hne _ (by decide), hne _ (by decide), hne _ (by decide),
      fun heq => absurd heq (hne _ (by decide))⟩
  · trivial

/-- What follows `define` where no parenthesis does. -/
theorem opens_of_sequence {items : List Form} {close : Span} (h : sequence fuel .code ts = .ok ((items, close), rest))
    (hnext : nextKind ts ≠ .open) : ∀ f ∈ items.head?, f.sketch.opens = false := by
  cases fuel with
  | zero => cases h
  | succ fuel =>
    simp only [sequence] at h
    split at h
    · cases h; simp
    · cases h
    · obtain ⟨⟨first, ts'⟩, hfirst, h⟩ := Except.bind_eq_ok.mp h
      obtain ⟨_, -, h⟩ := Except.bind_eq_ok.mp h
      cases h
      rintro f hf
      cases hf
      exact opens_eq_false hfirst hnext

/-! ### Every form that is read -/

/-- **The words of whatever is read with this much fuel.** -/
structure SpeltAt (P : String → Prop) (fuel : Nat) : Prop where
  expr : ∀ {mode ts f rest}, WordedAll P ts → expr fuel mode ts = .ok (f, rest) → f.Spelt P ∧ WordedAll P rest
  datum : ∀ {quotation s ts f rest}, quotation ≠ .code → WordedAll P ts → datum fuel quotation s ts = .ok (f, rest) →
    f.Spelt P ∧ WordedAll P rest
  nested : ∀ {mode name s ts f rest}, P name → WordedAll P ts → nested fuel mode name s ts = .ok (f, rest) →
    f.Spelt P ∧ WordedAll P rest
  list : ∀ {quotation mode s ts f rest}, WordedAll P ts → list fuel quotation mode s ts = .ok (f, rest) →
    ∃ s' items, f = .group quotation s' items ∧ SpeltAll P items ∧ WordedAll P rest ∧
      (mode = .code → (∀ word ∈ reserved, nextSymbol? ts ≠ some word) → HeadSpelt items)
  sequence : ∀ {mode ts items close rest}, WordedAll P ts → sequence fuel mode ts = .ok ((items, close), rest) →
    SpeltAll P items ∧ WordedAll P rest
  compound : ∀ {s ts f rest}, WordedAll P ts → compound fuel s ts = .ok (f, rest) → f.Spelt P ∧ WordedAll P rest
  bindings : ∀ {ts pairs rest}, WordedAll P ts → bindings fuel ts = .ok (pairs, rest) →
    (∀ n ∈ pairs.map (·.1), P n) ∧ SpeltAll P (pairs.map (·.2)) ∧ WordedAll P rest
  clauses : ∀ {ts cs rest}, WordedAll P ts → clauses fuel ts = .ok (cs, rest) → SpeltOption P (chain cs) ∧ WordedAll P rest
  condition : ∀ {ts test rest}, WordedAll P ts → condition fuel ts = .ok (test, rest) → SpeltOption P test ∧ WordedAll P rest

theorem speltAt_zero : SpeltAt P 0 := by
  constructor
  case expr => intro mode ts f rest _ h; simp [Grammar.expr] at h
  case datum => intro q s ts f rest _ _ h; simp [Grammar.datum] at h
  case nested => intro mode name s ts f rest _ _ h; simp [Grammar.nested] at h
  case list => intro q mode s ts f rest _ h; simp [Grammar.list] at h
  case sequence => intro mode ts items close rest _ h; simp [Grammar.sequence] at h
  case compound => intro s ts f rest _ h; simp [Grammar.compound] at h
  case bindings => intro ts pairs rest _ h; simp [Grammar.bindings] at h
  case clauses => intro ts cs rest _ h; simp [Grammar.clauses] at h
  case condition => intro ts test rest _ h; simp [Grammar.condition] at h

theorem expect_worded {kind : Kind} {s : Span} (hts : WordedAll P ts) (h : expect kind ts = .ok (s, rest)) : WordedAll P rest := by
  cases ts with
  | nil => cases h
  | cons t ts =>
    simp only [expect] at h
    split at h
    · cases h; exact hts.of_cons
    · cases h

theorem expectSymbol_worded {role name : String} (hts : WordedAll P ts) (h : expectSymbol role ts = .ok (name, rest)) :
    P name ∧ WordedAll P rest := by
  cases ts with
  | nil => cases h
  | cons t ts =>
    simp only [expectSymbol] at h
    split at h
    · next hkind =>
      cases h
      have ht := hts t List.mem_cons_self
      rw [hkind] at ht
      exact ⟨ht, hts.of_cons⟩
    · cases h

theorem parameters_worded {names : List String} (hts : WordedAll P ts) (h : parameters ts = .ok (names, rest)) :
    (∀ p ∈ names, P p) ∧ WordedAll P rest := by
  induction ts generalizing names with
  | nil => cases h
  | cons t ts ih =>
    simp only [parameters] at h
    split at h
    · cases h; exact ⟨nofun, hts.of_cons⟩
    · next name hkind =>
      obtain ⟨⟨names', ts'⟩, hnames, h⟩ := Except.bind_eq_ok.mp h
      cases h
      obtain ⟨hall, hrest⟩ := ih hts.of_cons hnames
      have ht := hts t List.mem_cons_self
      rw [hkind] at ht
      exact ⟨List.forall_mem_cons.mpr ⟨ht, hall⟩, hrest⟩
    · cases h

theorem nextSymbol?_worded (hts : WordedAll P ts) : ∀ name ∈ nextSymbol? ts, P name := by
  intro name hname
  cases ts with
  | nil => cases hname
  | cons t ts =>
    have ht := hts t List.mem_cons_self
    rw [nextSymbol?, show nextKind (t :: ts) = t.kind from rfl] at hname
    split at hname
    · next hkind =>
      cases hname
      rwa [hkind] at ht
    · cases hname

namespace SpeltAt

theorem expr_succ (hquote : P "quote" ∧ P "quasiquote" ∧ P "unquote") (ih : SpeltAt P fuel) {mode : Mode} (hts : WordedAll P ts)
    (h : Grammar.expr (fuel + 1) mode ts = .ok (f, rest)) : f.Spelt P ∧ WordedAll P rest := by
  cases ts with
  | nil => simp [Grammar.expr] at h
  | cons t ts =>
    have ht := hts t List.mem_cons_self
    have hrest := hts.of_cons
    simp only [Grammar.expr] at h
    split at h
    · next x hkind =>
      cases h
      rw [hkind] at ht
      exact ⟨ht, hrest⟩
    · cases h; exact ⟨trivial, hrest⟩
    · cases h; exact ⟨trivial, hrest⟩
    · next name hkind =>
      cases h
      rw [hkind] at ht
      refine ⟨?_, hrest⟩
      -- a symbol of code is a keyword or a variable; in data it is itself
      cases mode with
      | code =>
        simp only [word]
        split
        · next hkeyword => exact hkeyword
        · next hkeyword => exact ⟨ht, Bool.eq_false_iff.mpr hkeyword⟩
      | quoted => exact ht
      | template => exact ht
    · -- only in code does a mark begin data; elsewhere it is a list that begins with its name
      cases mode with
      | code => exact ih.datum (by decide) hrest h
      | quoted => exact ih.nested hquote.1 hrest h
      | template => exact ih.nested hquote.1 hrest h
    · cases mode with
      | code => exact ih.datum (by decide) hrest h
      | quoted => exact ih.nested hquote.2.1 hrest h
      | template => exact ih.nested hquote.2.1 hrest h
    · cases mode with
      | code => cases h
      | quoted => exact ih.nested hquote.2.2 hrest h
      | template =>
        obtain ⟨⟨inner, ts'⟩, hinner, h⟩ := Except.bind_eq_ok.mp h
        cases h
        obtain ⟨hspelt, hworded⟩ := ih.expr hrest hinner
        exact ⟨⟨by simp, hspelt, trivial⟩, hworded⟩
    · cases mode with
      | code => exact ih.compound hrest h
      | quoted =>
        obtain ⟨s', items, rfl, hspelt, hworded, -⟩ := ih.list hrest h
        exact ⟨⟨by simp, hspelt⟩, hworded⟩
      | template =>
        obtain ⟨s', items, rfl, hspelt, hworded, -⟩ := ih.list hrest h
        exact ⟨⟨by simp, hspelt⟩, hworded⟩
    · cases h
    · cases h

theorem datum_succ (ih : SpeltAt P fuel) {quotation : Quotation} {s : Span} (hq : quotation ≠ .code) (hts : WordedAll P ts)
    (h : Grammar.datum (fuel + 1) quotation s ts = .ok (f, rest)) : f.Spelt P ∧ WordedAll P rest := by
  simp only [Grammar.datum] at h
  split at h
  · obtain ⟨s', items, rfl, hspelt, hworded, -⟩ := ih.list hts.of_cons h
    exact ⟨⟨fun hcode => absurd hcode hq, hspelt⟩, hworded⟩
  · exact ih.expr hts h

theorem sequence_succ (ih : SpeltAt P fuel) {mode : Mode} {items : List Form} {close : Span} (hts : WordedAll P ts)
    (h : Grammar.sequence (fuel + 1) mode ts = .ok ((items, close), rest)) : SpeltAll P items ∧ WordedAll P rest := by
  simp only [Grammar.sequence] at h
  split at h
  · cases h; exact ⟨trivial, hts.tail⟩
  · cases h
  · obtain ⟨⟨first, ts'⟩, hfirst, h⟩ := Except.bind_eq_ok.mp h
    obtain ⟨⟨⟨others, close'⟩, ts''⟩, hothers, h⟩ := Except.bind_eq_ok.mp h
    cases h
    obtain ⟨hspelt, hworded⟩ := ih.expr hts hfirst
    obtain ⟨hspelts, hworded'⟩ := ih.sequence hworded hothers
    exact ⟨⟨hspelt, hspelts⟩, hworded'⟩

/-- A body that has been checked is what was read, and is not empty. -/
theorem body_of_bind (ih : SpeltAt P fuel) {form : String} {s : Span} (hts : WordedAll P ts) (make : List Form → Span → Form)
    (h : (do
      let read ← Grammar.sequence fuel .code ts
      requireBody form s read.1.1
      return (make read.1.1 read.1.2, read.2) : Except ParseError (Form × List Token)) = .ok (f, rest)) :
    ∃ body close, f = make body close ∧ body ≠ [] ∧ SpeltAll P body ∧ WordedAll P rest := by
  obtain ⟨⟨⟨body, close⟩, ts'⟩, hbody, h⟩ := Except.bind_eq_ok.mp h
  obtain ⟨_, hfull, h⟩ := Except.bind_eq_ok.mp h
  cases h
  obtain ⟨hspelt, hworded⟩ := ih.sequence hts hbody
  refine ⟨body, close, rfl, ?_, hspelt, hworded⟩
  rintro rfl
  cases hfull

theorem compound_succ (ih : SpeltAt P fuel) {s : Span} (hts : WordedAll P ts)
    (h : Grammar.compound (fuel + 1) s ts = .ok (f, rest)) : f.Spelt P ∧ WordedAll P rest := by
  have htail := hts.tail
  -- one word that a compound form can begin with after the other
  simp only [Grammar.compound] at h
  split at h
  · split at h
    · obtain ⟨⟨names, ts'⟩, hnames, h⟩ := Except.bind_eq_ok.mp h
      obtain ⟨hall, hworded⟩ := parameters_worded htail.tail hnames
      obtain ⟨body, close, rfl, hne, hbody, hrest⟩ :=
        ih.body_of_bind hworded (fun body close => .lambda (s.merge close) names body) h
      exact ⟨⟨hall, hne, hbody⟩, hrest⟩
    · cases h
  · split at h
    · obtain ⟨⟨name, ts'⟩, hname, h⟩ := Except.bind_eq_ok.mp h
      obtain ⟨⟨names, ts''⟩, hnames, h⟩ := Except.bind_eq_ok.mp h
      obtain ⟨hsymbol, hworded⟩ := expectSymbol_worded htail.tail hname
      obtain ⟨hall, hworded⟩ := parameters_worded hworded hnames
      obtain ⟨body, close, rfl, hne, hbody, hrest⟩ :=
        ih.body_of_bind hworded (fun body close => .procedure s (s.merge close) name names body) h
      exact ⟨⟨hsymbol, hall, hne, hbody⟩, hrest⟩
    · next hopen =>
      obtain ⟨⟨⟨items, close⟩, ts'⟩, hitems, h⟩ := Except.bind_eq_ok.mp h
      cases h
      obtain ⟨hspelt, hworded⟩ := ih.sequence htail hitems
      refine ⟨⟨fun _ => ⟨by decide, by decide, by decide, by decide, fun _ => ?_⟩, rfl, hspelt⟩, hworded⟩
      exact opens_of_sequence hitems hopen
  · obtain ⟨⟨_, ts'⟩, hopen, h⟩ := Except.bind_eq_ok.mp h
    obtain ⟨⟨pairs, ts''⟩, hpairs, h⟩ := Except.bind_eq_ok.mp h
    have hopened : WordedAll P ts' := by
      refine expect_worded ?_ hopen
      split
      · exact htail.tail
      · exact htail
    obtain ⟨hnames, hinitials, hworded⟩ := ih.bindings hopened hpairs
    obtain ⟨body, close, rfl, hne, hbody, hrest⟩ := ih.body_of_bind hworded (fun body close =>
      .letIn s (s.merge close) (nextSymbol? ts.tail) (pairs.map (·.1)) (pairs.map (·.2)) body) h
    exact ⟨⟨nextSymbol?_worded htail, hnames, hinitials, hne, hbody⟩, hrest⟩
  · obtain ⟨⟨cs, ts'⟩, hcs, h⟩ := Except.bind_eq_ok.mp h
    obtain ⟨hchain, hworded⟩ := ih.clauses htail hcs
    dsimp only at h
    split at h
    · cases h
    · next form hform =>
      cases h
      rw [hform] at hchain
      exact ⟨hchain, hworded⟩
  · obtain ⟨⟨form, ts'⟩, hform, h⟩ := Except.bind_eq_ok.mp h
    obtain ⟨⟨_, ts''⟩, hclose, h⟩ := Except.bind_eq_ok.mp h
    cases h
    obtain ⟨hspelt, hworded⟩ := ih.datum (by decide) htail hform
    exact ⟨hspelt, expect_worded hworded hclose⟩
  · next hlambda hdefine hlet hcond hquote =>
    -- any other list: its head is none of these words
    obtain ⟨s', items, rfl, hspelt, hworded, hhead⟩ := ih.list hts h
    refine ⟨⟨fun _ => hhead rfl ?_, hspelt⟩, hworded⟩
    intro word hword heq
    simp only [reserved, List.mem_cons, List.not_mem_nil, or_false] at hword
    rcases hword with rfl | rfl | rfl | rfl | rfl
    · exact hlambda heq
    · exact hdefine heq
    · exact hlet heq
    · exact hcond heq
    · exact hquote heq

theorem bindings_succ (ih : SpeltAt P fuel) {pairs : List (String × Form)} (hts : WordedAll P ts)
    (h : Grammar.bindings (fuel + 1) ts = .ok (pairs, rest)) :
    (∀ n ∈ pairs.map (·.1), P n) ∧ SpeltAll P (pairs.map (·.2)) ∧ WordedAll P rest := by
  simp only [Grammar.bindings] at h
  split at h
  · cases h; exact ⟨by simp, trivial, hts.tail⟩
  · obtain ⟨⟨_, ts₁⟩, hopen, h⟩ := Except.bind_eq_ok.mp h
    obtain ⟨⟨name, ts₂⟩, hname, h⟩ := Except.bind_eq_ok.mp h
    obtain ⟨⟨initial, ts₃⟩, hinitial, h⟩ := Except.bind_eq_ok.mp h
    obtain ⟨⟨_, ts₄⟩, hclose, h⟩ := Except.bind_eq_ok.mp h
    obtain ⟨⟨others, ts₅⟩, hothers, h⟩ := Except.bind_eq_ok.mp h
    cases h
    obtain ⟨hsymbol, hworded⟩ := expectSymbol_worded (expect_worded hts hopen) hname
    obtain ⟨hspelt, hworded⟩ := ih.expr hworded hinitial
    obtain ⟨hnames, hinitials, hrest⟩ := ih.bindings (expect_worded hworded hclose) hothers
    exact ⟨List.forall_mem_cons.mpr ⟨hsymbol, hnames⟩, ⟨hspelt, hinitials⟩, hrest⟩

theorem clauses_succ (ih : SpeltAt P fuel) {cs : List Clause} (hts : WordedAll P ts)
    (h : Grammar.clauses (fuel + 1) ts = .ok (cs, rest)) : SpeltOption P (chain cs) ∧ WordedAll P rest := by
  simp only [Grammar.clauses] at h
  split at h
  · cases h; exact ⟨trivial, hts.tail⟩
  · obtain ⟨⟨_, ts₁⟩, hopen, h⟩ := Except.bind_eq_ok.mp h
    obtain ⟨⟨test, ts₂⟩, htest, h⟩ := Except.bind_eq_ok.mp h
    obtain ⟨⟨⟨body, _⟩, ts₃⟩, hbody, h⟩ := Except.bind_eq_ok.mp h
    dsimp only at h
    split at h
    · cases h
    · obtain ⟨⟨others, ts₄⟩, hothers, h⟩ := Except.bind_eq_ok.mp h
      cases h
      obtain ⟨hspelt, hworded⟩ := ih.condition (expect_worded hts hopen) htest
      obtain ⟨hspelts, hworded⟩ := ih.sequence hworded hbody
      obtain ⟨hchain, hrest⟩ := ih.clauses hworded hothers
      exact ⟨⟨hspelt, hspelts, hchain⟩, hrest⟩

theorem condition_succ (ih : SpeltAt P fuel) {test : Option Form} (hts : WordedAll P ts)
    (h : Grammar.condition (fuel + 1) ts = .ok (test, rest)) : SpeltOption P test ∧ WordedAll P rest := by
  simp only [Grammar.condition] at h
  split at h
  · cases h; exact ⟨trivial, hts.tail⟩
  · obtain ⟨⟨form, ts'⟩, hform, h⟩ := Except.bind_eq_ok.mp h
    cases h
    exact ih.expr hts hform

end SpeltAt

theorem speltAt (hquote : P "quote" ∧ P "quasiquote" ∧ P "unquote") (fuel : Nat) : SpeltAt P fuel := by
  induction fuel with
  | zero => exact speltAt_zero
  | succ fuel ih =>
    refine ⟨ih.expr_succ hquote, ih.datum_succ, fun hname hts h => ?_, fun hts h => ?_, ih.sequence_succ, ih.compound_succ,
      ih.bindings_succ, ih.clauses_succ, ih.condition_succ⟩
    · simp only [Grammar.nested] at h
      obtain ⟨⟨inner, ts'⟩, hinner, h⟩ := Except.bind_eq_ok.mp h
      cases h
      obtain ⟨hspelt, hworded⟩ := ih.expr hts hinner
      exact ⟨⟨by simp, hname, hspelt, trivial⟩, hworded⟩
    · simp only [Grammar.list] at h
      obtain ⟨⟨⟨items, close⟩, ts'⟩, hitems, h⟩ := Except.bind_eq_ok.mp h
      cases h
      obtain ⟨hspelt, hworded⟩ := ih.sequence hts hitems
      refine ⟨_, items, rfl, hspelt, hworded, ?_⟩
      rintro rfl hnext
      exact headSpelt_of_sequence hitems hnext

theorem spelt_program (hquote : P "quote" ∧ P "quasiquote" ∧ P "unquote") {forms : List Form} (hts : WordedAll P ts) (h : program fuel ts = .ok forms) : SpeltAll P forms := by
  induction fuel generalizing ts forms with
  | zero => simp [program] at h
  | succ fuel ih =>
    simp only [program] at h
    split at h
    · cases h; trivial
    · obtain ⟨⟨first, ts'⟩, hfirst, h⟩ := Except.bind_eq_ok.mp h
      obtain ⟨others, hothers, h⟩ := Except.bind_eq_ok.mp h
      cases h
      obtain ⟨hspelt, hworded⟩ := (speltAt hquote fuel).expr hts hfirst
      exact ⟨hspelt, ih hworded hothers⟩

end Grammar

/-- **The words of the forms that a text is parsed to** are those of the text, apart from the three that abbreviations stand
for. -/
theorem Form.spelt_parse_of {source : String} {tokens : List Token} {forms : List Form}
    (hquote : P "quote" ∧ P "quasiquote" ∧ P "unquote") (hscan : Token.scan source = .ok tokens)
    (hsymbols : ∀ t ∈ tokens, ∀ name, t.kind = .symbol name → P name) (h : Form.parse tokens = .ok forms) :
    Form.SpeltAll P forms :=
  Grammar.spelt_program hquote (Token.wordedAll_scan hscan hsymbols) h

theorem Form.spelt_parse {source : String} {tokens : List Token} {forms : List Form}
    (hscan : Token.scan source = .ok tokens) (h : Form.parse tokens = .ok forms) : Form.SpeltAll IsSymbol forms :=
  Form.spelt_parse_of ⟨Token.isSymbol_of_isKeyword rfl, Token.isSymbol_of_isKeyword rfl, Token.isSymbol_of_isKeyword rfl⟩
    hscan (Token.isSymbol_of_scan hscan) h

end SchemeMachine
