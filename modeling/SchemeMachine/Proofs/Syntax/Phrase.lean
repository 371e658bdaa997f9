import SchemeMachine.Proofs.Syntax.Reading
import SchemeMachine.Proofs.Syntax.Unfolding

/-!
# The grammar

The language that the parser reads, given by itself: an inductive relation between the kinds of some tokens and what they
may be taken for. It knows no fuel, no places and no order in which to look at the tokens.

* `Grammar.Phrase` is the grammar. Code, quoted data and templates are three sorts of expressions, and which of the forms in
  code a parenthesis begins is told by the token after it.
* `Grammar.TakesAt` says of a fuel that what each function of the parser takes with it is a phrase. The functions call each
  other with less fuel, so all of them are followed at once, by induction on the fuel.
* `Grammar.phrase_of_program` is the result for a program.
-/

namespace SchemeMachine

namespace Grammar

open Token (Kind)

/-! ### Phrases -/

/-- A list in parentheses. -/
def enclosed (ks : List Kind) : List Kind := .open :: (ks ++ [.close])

@[simp] theorem enclosed_append (ks more : List Kind) : enclosed ks ++ more = .open :: (ks ++ .close :: more) := by
  simp [enclosed]

@[simp] theorem length_enclosed (ks : List Kind) : (enclosed ks).length = ks.length + 2 := by simp [enclosed]

/-- The sorts of phrases. -/
inductive Category where
  /-- An expression. -/
  | one (mode : Mode)
  /-- Any number of expressions. -/
  | many (mode : Mode)
  /-- Any number of bindings of a `let`. -/
  | bindings
  /-- Any number of clauses of a `cond`. -/
  | clauses

/-- **The grammar**: what tokens of these kinds are. At least one expression is any number of them that make up some token,
as no expression is empty. -/
inductive Phrase : Category → List Kind → Prop
  | atom {mode : Mode} {k : Kind} (hk : k.isAtom) : Phrase (.one mode) [k]
  -- code
  | quote {ks : List Kind} (h : Phrase (.one .quoted) ks) : Phrase (.one .code) (.quote :: ks)
  | quasiquote {ks : List Kind} (h : Phrase (.one .template) ks) : Phrase (.one .code) (.quasiquote :: ks)
  | lambda (names : List String) {body : List Kind} (hbody : Phrase (.many .code) body) (hne : body ≠ []) :
      Phrase (.one .code) (enclosed (.symbol "lambda" :: enclosed (names.map .symbol) ++ body))
  | procedure (name : String) (names : List String) {body : List Kind} (hbody : Phrase (.many .code) body)
      (hne : body ≠ []) :
      Phrase (.one .code) (enclosed (.symbol "define" :: enclosed (.symbol name :: names.map .symbol) ++ body))
  | define {items : List Kind} (hitems : Phrase (.many .code) items) (hhead : items.head? ≠ some .open) :
      Phrase (.one .code) (enclosed (.symbol "define" :: items))
  | letIn (name : Option String) {pairs body : List Kind} (hpairs : Phrase .bindings pairs)
      (hbody : Phrase (.many .code) body) (hne : body ≠ []) :
      Phrase (.one .code) (enclosed (.symbol "let" :: (name.map .symbol).toList ++ enclosed pairs ++ body))
  | cond {cs : List Kind} (hcs : Phrase .clauses cs) (hne : cs ≠ []) : Phrase (.one .code) (enclosed (.symbol "cond" :: cs))
  | quotation {ks : List Kind} (h : Phrase (.one .quoted) ks) : Phrase (.one .code) (enclosed (.symbol "quote" :: ks))
  | application {items : List Kind} (hitems : Phrase (.many .code) items)
      (hhead : ∀ word ∈ reserved, items.head? ≠ some (.symbol word)) : Phrase (.one .code) (enclosed items)
  -- data, quoted or in a template
  | list {mode : Mode} {items : List Kind} (hmode : mode ≠ .code) (hitems : Phrase (.many mode) items) :
      Phrase (.one mode) (enclosed items)
  | marked {mode : Mode} {k : Kind} {ks : List Kind} (hmode : mode ≠ .code)
      (hk : k = .quote ∨ k = .quasiquote ∨ k = .unquote ∧ mode = .quoted) (h : Phrase (.one mode) ks) :
      Phrase (.one mode) (k :: ks)
  | hole {ks : List Kind} (h : Phrase (.one .code) ks) : Phrase (.one .template) (.unquote :: ks)
  -- several expressions
  | nil {mode : Mode} : Phrase (.many mode) []
  | cons {mode : Mode} {ks others : List Kind} (h : Phrase (.one mode) ks) (hothers : Phrase (.many mode) others) :
      Phrase (.many mode) (ks ++ others)
  -- bindings
  | unbound : Phrase .bindings []
  | binding (name : String) {ks others : List Kind} (h : Phrase (.one .code) ks) (hothers : Phrase .bindings others) :
      Phrase .bindings (enclosed (.symbol name :: ks) ++ others)
  -- clauses
  | unconditional : Phrase .clauses []
  | otherwise {body others : List Kind} (hbody : Phrase (.many .code) body) (hne : body ≠ [])
      (hothers : Phrase .clauses others) : Phrase .clauses (enclosed (.symbol "else" :: body) ++ others)
  | clause {test body others : List Kind} (htest : Phrase (.one .code) test) (hhead : test.head? ≠ some (.symbol "else"))
      (hbody : Phrase (.many .code) body) (hne : body ≠ []) (hothers : Phrase .clauses others) :
      Phrase .clauses (enclosed (test ++ body) ++ others)

/-- An expression has a token. -/
theorem Phrase.ne_nil {mode : Mode} {ks : List Kind} (h : Phrase (.one mode) ks) : ks ≠ [] := by
  cases h <;> exact List.cons_ne_nil _ _

/-! ### The next token -/

variable {ts rest : List Token} {ks more : List Kind} {k : Kind}

/-- What the next token is when some tokens are followed by one of a known kind. -/
theorem nextKind_append (h : ts.map (·.kind) = ks ++ k :: more) : nextKind ts = ks.headD k := by
  cases ts with
  | nil => cases ks <;> cases h
  | cons t ts => cases ks <;> exact (List.cons.inj h).1

theorem nextKind_eq_iff {k' : Kind} (h : ts.map (·.kind) = ks ++ k :: more) (hne : k' ≠ k) :
    nextKind ts = k' ↔ ks.head? = some k' := by
  rw [nextKind_append h]
  cases ks with
  | nil => exact ⟨fun heq => absurd heq.symm hne, nofun⟩
  | cons k₁ ks => simp

theorem nextSymbol?_eq_iff {word : String} (h : ts.map (·.kind) = ks ++ k :: more) (hk : ∀ name, k ≠ .symbol name) :
    nextSymbol? ts = some word ↔ ks.head? = some (.symbol word) := by
  rw [← nextKind_eq_iff h (hk word).symm, nextSymbol?]
  cases nextKind ts <;> simp

/-! ### What is taken is a phrase -/

/-- **What has been taken** up to `rest`: tokens of kinds that are as `C` says. -/
def Takes (C : List Kind → Prop) (ts rest : List Token) : Prop :=
  ∃ ks, ts.map (·.kind) = ks ++ rest.map (·.kind) ∧ C ks

/-- The same where a closing parenthesis has been taken after them. -/
def TakesUpTo (C : List Kind → Prop) (ts rest : List Token) : Prop :=
  ∃ ks, ts.map (·.kind) = ks ++ .close :: rest.map (·.kind) ∧ C ks

/-- The mode in which something quoted is read. -/
def quotedIn (quotation : Quotation) : Mode := if quotation = .quasiquote then .template else .quoted

/-- What may be the test of a clause. -/
def IsTest (ks : List Kind) : Prop :=
  ks = [.symbol "else"] ∨ Phrase (.one .code) ks ∧ ks.head? ≠ some (.symbol "else")

/-- **Whatever is taken with this much fuel is a phrase.** -/
structure TakesAt (fuel : Nat) : Prop where
  expr : ∀ {mode ts f rest}, expr fuel mode ts = .ok (f, rest) → Takes (Phrase (.one mode)) ts rest
  datum : ∀ {quotation s ts f rest}, datum fuel quotation s ts = .ok (f, rest) →
    Takes (Phrase (.one (quotedIn quotation))) ts rest
  nested : ∀ {mode name s ts f rest}, nested fuel mode name s ts = .ok (f, rest) → Takes (Phrase (.one mode)) ts rest
  list : ∀ {quotation mode s ts f rest}, list fuel quotation mode s ts = .ok (f, rest) →
    TakesUpTo (Phrase (.many mode)) ts rest
  sequence : ∀ {mode ts items close rest}, sequence fuel mode ts = .ok ((items, close), rest) →
    TakesUpTo (fun ks => Phrase (.many mode) ks ∧ (ks = [] → items = [])) ts rest
  compound : ∀ {s ts f rest}, compound fuel s ts = .ok (f, rest) →
    TakesUpTo (fun ks => Phrase (.one .code) (enclosed ks)) ts rest
  bindings : ∀ {ts pairs rest}, bindings fuel ts = .ok (pairs, rest) → TakesUpTo (Phrase .bindings) ts rest
  clauses : ∀ {ts cs rest}, clauses fuel ts = .ok (cs, rest) →
    TakesUpTo (fun ks => Phrase .clauses ks ∧ (ks = [] → cs = [])) ts rest
  condition : ∀ {ts test rest}, condition fuel ts = .ok (test, rest) → Takes IsTest ts rest

theorem takesAt_zero : TakesAt 0 := by
  constructor
  case expr => intro mode ts f rest h; simp [Grammar.expr] at h
  case datum => intro q s ts f rest h; simp [Grammar.datum] at h
  case nested => intro mode name s ts f rest h; simp [Grammar.nested] at h
  case list => intro q mode s ts f rest h; simp [Grammar.list] at h
  case sequence => intro mode ts items close rest h; simp [Grammar.sequence] at h
  case compound => intro s ts f rest h; simp [Grammar.compound] at h
  case bindings => intro ts pairs rest h; simp [Grammar.bindings] at h
  case clauses => intro ts cs rest h; simp [Grammar.clauses] at h
  case condition => intro ts test rest h; simp [Grammar.condition] at h

/-- Parameters are symbols. -/
theorem takes_parameters {ts rest : List Token} {names : List String} (h : parameters ts = .ok (names, rest)) :
    ts.map (·.kind) = names.map .symbol ++ .close :: rest.map (·.kind) := by
  induction ts generalizing names with
  | nil => simp [parameters] at h
  | cons t ts ih =>
    simp only [parameters] at h
    split at h
    · next hclose => cases h; simp [hclose]
    · next name hname =>
      obtain ⟨⟨names', rest'⟩, hnames, h⟩ := Except.bind_eq_ok.mp h
      cases h
      simp [hname, ih hnames]
    · cases h

theorem takes_nil {ts : List Token} (h : nextKind ts = .close) : ts.map (·.kind) = .close :: ts.tail.map (·.kind) := by
  obtain ⟨s, hts⟩ := exists_of_nextKind h nofun
  rw [hts]
  rfl

theorem takes_expect {k : Kind} {s : Span} (h : expect k ts = .ok (s, rest)) :
    ts.map (·.kind) = k :: rest.map (·.kind) := by
  rw [expect_eq_ok.mp h]
  rfl

theorem takes_word {word : String} (h : nextSymbol? ts = some word) :
    ts.map (·.kind) = .symbol word :: ts.tail.map (·.kind) := by
  obtain ⟨s, hts⟩ := exists_of_nextSymbol? h
  rw [hts]
  rfl

theorem takes_symbol {role name : String} (h : expectSymbol role ts = .ok (name, rest)) :
    ts.map (·.kind) = .symbol name :: rest.map (·.kind) := by
  obtain ⟨s, rfl⟩ := expectSymbol_eq_ok.mp h
  rfl

theorem ne_nil_of_requireBody {form : String} {s : Span} {body : List Form} {u : Unit}
    (h : requireBody form s body = .ok u) : body ≠ [] := by
  rintro rfl
  cases h

namespace TakesAt

variable {fuel : Nat}

theorem expr_succ (ih : TakesAt fuel) {mode : Mode} {f : Form} (h : Grammar.expr (fuel + 1) mode ts = .ok (f, rest)) :
    Takes (Phrase (.one mode)) ts rest := by
  cases ts with
  | nil => simp [Grammar.expr] at h
  | cons t ts =>
    simp only [Grammar.expr] at h
    have hatom : t.kind.isAtom → ts = rest → Takes (Phrase (.one mode)) (t :: ts) rest := by
      rintro hk rfl
      exact ⟨[t.kind], rfl, .atom hk⟩
    -- a mark and the phrase after it
    have hmark : ∀ {m}, Takes (Phrase (.one m)) ts rest → (∀ ks, Phrase (.one m) ks → Phrase (.one mode) (t.kind :: ks)) →
        Takes (Phrase (.one mode)) (t :: ts) rest := by
      rintro m ⟨ks, hks, hphrase⟩ hstep
      exact ⟨t.kind :: ks, by simp [hks], hstep ks hphrase⟩
    -- a parenthesis and what is in it
    have hopen : ∀ {C}, t.kind = .open → TakesUpTo C ts rest → (∀ ks, C ks → Phrase (.one mode) (enclosed ks)) →
        Takes (Phrase (.one mode)) (t :: ts) rest := by
      rintro C hk ⟨ks, hks, hphrase⟩ hstep
      exact ⟨enclosed ks, by simp [enclosed, hk, hks], hstep ks hphrase⟩
    split at h
    -- atoms: numbers, booleans, strings and words
    · next hk => cases h; exact hatom (by rw [hk]; rfl) rfl
    · next hk => cases h; exact hatom (by rw [hk]; rfl) rfl
    · next hk => cases h; exact hatom (by rw [hk]; rfl) rfl
    · next hk => cases h; exact hatom (by rw [hk]; rfl) rfl
    -- in code a mark opens data, within data it is one more item
    · next hk =>
      cases mode with
      | code => exact hmark (ih.datum h) fun ks hks => hk ▸ .quote hks
      | quoted => exact hmark (ih.nested h) fun ks hks => .marked (by simp) (.inl hk) hks
      | template => exact hmark (ih.nested h) fun ks hks => .marked (by simp) (.inl hk) hks
    · next hk =>
      cases mode with
      | code => exact hmark (ih.datum h) fun ks hks => hk ▸ .quasiquote hks
      | quoted => exact hmark (ih.nested h) fun ks hks => .marked (by simp) (.inr (.inl hk)) hks
      | template => exact hmark (ih.nested h) fun ks hks => .marked (by simp) (.inr (.inl hk)) hks
    -- a comma is a fault in code, and the way back to code in a template
    · next hk =>
      cases mode with
      | code => cases h
      | quoted => exact hmark (ih.nested h) fun ks hks => .marked (by simp) (.inr (.inr ⟨hk, rfl⟩)) hks
      | template =>
        obtain ⟨⟨inner, ts'⟩, hinner, h⟩ := Except.bind_eq_ok.mp h
        cases h
        exact hmark (ih.expr hinner) fun ks hks => hk ▸ .hole hks
    -- a parenthesis
    · next hk =>
      cases mode with
      | code => exact hopen hk (ih.compound h) fun ks hks => hks
      | quoted => exact hopen hk (ih.list h) fun ks hks => .list (by simp) hks
      | template => exact hopen hk (ih.list h) fun ks hks => .list (by simp) hks
    -- neither a closing parenthesis nor the end of the text begins anything
    · cases h
    · cases h

theorem datum_succ (ih : TakesAt fuel) {quotation : Quotation} {s : Span} {f : Form}
    (h : Grammar.datum (fuel + 1) quotation s ts = .ok (f, rest)) : Takes (Phrase (.one (quotedIn quotation))) ts rest := by
  unfold Grammar.datum at h
  dsimp only at h
  split at h
  · obtain ⟨ks, hks, hphrase⟩ := ih.list h
    have hmode : quotedIn quotation ≠ .code := by
      unfold quotedIn
      split <;> nofun
    exact ⟨enclosed ks, by simp [enclosed, hks], .list hmode hphrase⟩
  · exact ih.expr h

theorem nested_succ (ih : TakesAt fuel) {mode : Mode} {name : String} {s : Span} {f : Form}
    (h : Grammar.nested (fuel + 1) mode name s ts = .ok (f, rest)) : Takes (Phrase (.one mode)) ts rest := by
  simp only [Grammar.nested] at h
  obtain ⟨⟨inner, ts'⟩, hinner, h⟩ := Except.bind_eq_ok.mp h
  cases h
  exact ih.expr hinner

theorem list_succ (ih : TakesAt fuel) {quotation : Quotation} {mode : Mode} {s : Span} {f : Form}
    (h : Grammar.list (fuel + 1) quotation mode s ts = .ok (f, rest)) : TakesUpTo (Phrase (.many mode)) ts rest := by
  simp only [Grammar.list] at h
  obtain ⟨⟨⟨items, close⟩, ts'⟩, hitems, h⟩ := Except.bind_eq_ok.mp h
  cases h
  obtain ⟨ks, hks, hphrase, -⟩ := ih.sequence hitems
  exact ⟨ks, hks, hphrase⟩

theorem sequence_succ (ih : TakesAt fuel) {mode : Mode} {items : List Form} {close : Span}
    (h : Grammar.sequence (fuel + 1) mode ts = .ok ((items, close), rest)) :
    TakesUpTo (fun ks => Phrase (.many mode) ks ∧ (ks = [] → items = [])) ts rest := by
  simp only [Grammar.sequence] at h
  split at h
  · next hclose =>
    cases h
    exact ⟨[], takes_nil hclose, .nil, fun _ => rfl⟩
  · cases h
  · obtain ⟨⟨first, ts'⟩, hfirst, h⟩ := Except.bind_eq_ok.mp h
    obtain ⟨⟨⟨others, close'⟩, ts''⟩, hothers, h⟩ := Except.bind_eq_ok.mp h
    cases h
    obtain ⟨ks, hks, hphrase⟩ := ih.expr hfirst
    obtain ⟨ks', hks', hphrases, -⟩ := ih.sequence hothers
    exact ⟨ks ++ ks', by simp [hks, hks'], .cons hphrase hphrases,
      fun hnil => absurd (List.append_eq_nil_iff.mp hnil).1 hphrase.ne_nil⟩

theorem bindings_succ (ih : TakesAt fuel) {pairs : List (String × Form)}
    (h : Grammar.bindings (fuel + 1) ts = .ok (pairs, rest)) : TakesUpTo (Phrase .bindings) ts rest := by
  simp only [Grammar.bindings] at h
  split at h
  · next hclose =>
    cases h
    exact ⟨[], takes_nil hclose, .unbound⟩
  · obtain ⟨⟨_, ts₁⟩, hopen, h⟩ := Except.bind_eq_ok.mp h
    obtain ⟨⟨name, ts₂⟩, hname, h⟩ := Except.bind_eq_ok.mp h
    obtain ⟨⟨initial, ts₃⟩, hinitial, h⟩ := Except.bind_eq_ok.mp h
    obtain ⟨⟨_, ts₄⟩, hclose, h⟩ := Except.bind_eq_ok.mp h
    obtain ⟨⟨others, ts₅⟩, hothers, h⟩ := Except.bind_eq_ok.mp h
    cases h
    obtain ⟨ks, hks, hphrase⟩ := ih.expr hinitial
    obtain ⟨ks', hks', hphrases⟩ := ih.bindings hothers
    refine ⟨enclosed (.symbol name :: ks) ++ ks', ?_, .binding name hphrase hphrases⟩
    simp [enclosed, takes_expect hopen, takes_symbol hname, hks, takes_expect hclose, hks']

theorem condition_succ (ih : TakesAt fuel) {test : Option Form}
    (h : Grammar.condition (fuel + 1) ts = .ok (test, rest)) : Takes IsTest ts rest := by
  simp only [Grammar.condition] at h
  split at h
  · next helse =>
    cases h
    exact ⟨[.symbol "else"], takes_word helse, .inl rfl⟩
  · next helse =>
    obtain ⟨⟨form, ts'⟩, hform, h⟩ := Except.bind_eq_ok.mp h
    cases h
    obtain ⟨ks, hks, hphrase⟩ := ih.expr hform
    refine ⟨ks, hks, .inr ⟨hphrase, fun hhead => helse ?_⟩⟩
    -- a test whose first token is `else` would have been taken for the word
    obtain ⟨k, ks, rfl⟩ := List.exists_cons_of_ne_nil hphrase.ne_nil
    cases hhead
    obtain ⟨s, ts', rfl, -⟩ := exists_token hks
    rfl

theorem clauses_succ (ih : TakesAt fuel) {cs : List Clause} (h : Grammar.clauses (fuel + 1) ts = .ok (cs, rest)) :
    TakesUpTo (fun ks => Phrase .clauses ks ∧ (ks = [] → cs = [])) ts rest := by
  simp only [Grammar.clauses] at h
  split at h
  · next hclose =>
    cases h
    exact ⟨[], takes_nil hclose, .unconditional, fun _ => rfl⟩
  · obtain ⟨⟨_, ts₁⟩, hopen, h⟩ := Except.bind_eq_ok.mp h
    obtain ⟨⟨test, ts₂⟩, htest, h⟩ := Except.bind_eq_ok.mp h
    obtain ⟨⟨⟨body, close⟩, ts₃⟩, hbody, h⟩ := Except.bind_eq_ok.mp h
    split at h
    · obtain ⟨_, hthrow, -⟩ := Except.bind_eq_ok.mp h
      cases hthrow
    · next hne =>
      obtain ⟨⟨others, ts₄⟩, hothers, h⟩ := Except.bind_eq_ok.mp h
      cases h
      obtain ⟨ks, hks, htested⟩ := ih.condition htest
      obtain ⟨ks', hks', hphrases, hempty⟩ := ih.sequence hbody
      obtain ⟨ks'', hks'', hclauses, -⟩ := ih.clauses hothers
      -- a clause without a body has been refused
      have hbodyne : ks' ≠ [] := fun hnil => hne (by rw [hempty hnil]; rfl)
      refine ⟨enclosed (ks ++ ks') ++ ks'', ?_, ?_, by simp [enclosed]⟩
      · simp [enclosed, takes_expect hopen, hks, hks', hks'']
      · rcases htested with rfl | ⟨hphrase, hhead⟩
        · exact .otherwise hphrases hbodyne hclauses
        · exact .clause hphrase hhead hphrases hbodyne hclauses

theorem compound_succ (ih : TakesAt fuel) {s : Span} {f : Form} (h : Grammar.compound (fuel + 1) s ts = .ok (f, rest)) :
    TakesUpTo (fun ks => Phrase (.one .code) (enclosed ks)) ts rest := by
  -- a body that is not empty
  have hbody : ∀ {form body close ts' u}, Grammar.sequence fuel .code ts' = .ok ((body, close), rest) →
      requireBody form s body = .ok u → TakesUpTo (fun ks => Phrase (.many .code) ks ∧ ks ≠ []) ts' rest := by
    intro form body close ts' u hsequence hrequire
    obtain ⟨ks, hks, hphrases, hempty⟩ := ih.sequence hsequence
    exact ⟨ks, hks, hphrases, fun hnil => ne_nil_of_requireBody hrequire (hempty hnil)⟩
  rw [Grammar.compound] at h
  split at h
  -- `lambda`: parameters and a body
  · next hword =>
    split at h
    · next hopen =>
      obtain ⟨⟨names, ts₁⟩, hnames, h⟩ := Except.bind_eq_ok.mp h
      obtain ⟨⟨⟨body, close⟩, ts₂⟩, hsequence, h⟩ := Except.bind_eq_ok.mp h
      obtain ⟨u, hrequire, h⟩ := Except.bind_eq_ok.mp h
      cases h
      obtain ⟨ks, hks, hphrases, hne⟩ := hbody hsequence hrequire
      obtain ⟨s', hparameters⟩ := exists_of_nextKind hopen (by simp)
      refine ⟨_, ?_, .lambda names hphrases hne⟩
      rw [takes_word hword, hparameters]
      simp [enclosed, takes_parameters hnames, hks]
    · cases h
  -- `define`: a procedure if a parenthesis follows, else whatever comes up to the closing one
  · next hword =>
    split at h
    · next hopen =>
      obtain ⟨⟨name, ts₁⟩, hname, h⟩ := Except.bind_eq_ok.mp h
      obtain ⟨⟨names, ts₂⟩, hnames, h⟩ := Except.bind_eq_ok.mp h
      obtain ⟨⟨⟨body, close⟩, ts₃⟩, hsequence, h⟩ := Except.bind_eq_ok.mp h
      obtain ⟨u, hrequire, h⟩ := Except.bind_eq_ok.mp h
      cases h
      obtain ⟨ks, hks, hphrases, hne⟩ := hbody hsequence hrequire
      obtain ⟨s', hparameters⟩ := exists_of_nextKind hopen (by simp)
      refine ⟨_, ?_, .procedure name names hphrases hne⟩
      rw [takes_word hword, hparameters]
      simp [enclosed, takes_symbol hname, takes_parameters hnames, hks]
    · next hopen =>
      obtain ⟨⟨⟨items, close⟩, ts₁⟩, hsequence, h⟩ := Except.bind_eq_ok.mp h
      cases h
      obtain ⟨ks, hks, hphrases, -⟩ := ih.sequence hsequence
      have hhead : ks.head? ≠ some .open := mt (nextKind_eq_iff hks (by simp)).mpr hopen
      refine ⟨_, ?_, .define hphrases hhead⟩
      rw [takes_word hword, hks]
      rfl
  -- `let`, with or without a name
  · next hword =>
    obtain ⟨⟨_, ts₁⟩, hopen, h⟩ := Except.bind_eq_ok.mp h
    obtain ⟨⟨pairs, ts₂⟩, hpairs, h⟩ := Except.bind_eq_ok.mp h
    obtain ⟨⟨⟨body, close⟩, ts₃⟩, hsequence, h⟩ := Except.bind_eq_ok.mp h
    obtain ⟨u, hrequire, h⟩ := Except.bind_eq_ok.mp h
    cases h
    obtain ⟨ks, hks, hphrases, hne⟩ := hbody hsequence hrequire
    obtain ⟨ks', hks', hbindings⟩ := ih.bindings hpairs
    refine ⟨_, ?_, .letIn (nextSymbol? ts.tail) hbindings hphrases hne⟩
    rw [takes_word hword]
    cases hname : nextSymbol? ts.tail with
    | none =>
      simp only [hname, Option.isSome_none, Bool.false_eq_true, if_false] at hopen
      rw [takes_expect hopen, hks', hks]
      simp [enclosed]
    | some name =>
      simp only [hname, Option.isSome_some, if_true] at hopen
      rw [takes_word hname, takes_expect hopen, hks', hks]
      simp [enclosed]
  -- `cond`: no clauses make no chain
  · next hword =>
    obtain ⟨⟨cs, ts₁⟩, hclauses, h⟩ := Except.bind_eq_ok.mp h
    obtain ⟨ks, hks, hphrases, hempty⟩ := ih.clauses hclauses
    dsimp only at h
    split at h
    · cases h
    · next form hchain =>
      cases h
      refine ⟨_, ?_, .cond hphrases fun hnil => ?_⟩
      · rw [takes_word hword, hks]
        rfl
      · rw [hempty hnil] at hchain
        cases hchain
  -- `quote`, written out
  · next hword =>
    obtain ⟨⟨form, ts₁⟩, hdatum, h⟩ := Except.bind_eq_ok.mp h
    obtain ⟨⟨_, ts₂⟩, hclose, h⟩ := Except.bind_eq_ok.mp h
    cases h
    obtain ⟨ks, hks, hphrase⟩ := ih.datum hdatum
    refine ⟨_, ?_, .quotation hphrase⟩
    rw [takes_word hword, hks, takes_expect hclose]
    rfl
  -- anything else is an application, and its first word is none of those above
  · next hlambda hdefine hlet hcond hquote =>
    obtain ⟨ks, hks, hphrases⟩ := ih.list h
    refine ⟨ks, hks, .application hphrases fun word hword hhead => ?_⟩
    have hnext := (nextSymbol?_eq_iff hks (by simp)).mpr hhead
    simp only [reserved, List.mem_cons, List.not_mem_nil, or_false] at hword
    rcases hword with rfl | rfl | rfl | rfl | rfl
    · exact hlambda hnext
    · exact hdefine hnext
    · exact hlet hnext
    · exact hcond hnext
    · exact hquote hnext

end TakesAt

theorem takesAt : (fuel : Nat) → TakesAt fuel
  | 0 => takesAt_zero
  | fuel + 1 =>
    have ih := takesAt fuel
    { expr := ih.expr_succ
      datum := ih.datum_succ
      nested := ih.nested_succ
      list := ih.list_succ
      sequence := ih.sequence_succ
      compound := ih.compound_succ
      bindings := ih.bindings_succ
      clauses := ih.clauses_succ
      condition := ih.condition_succ }

/-- No phrase reaches past the end of the text. -/
theorem Phrase.endOfText_notMem {c : Category} (h : Phrase c ks) : .endOfText ∉ ks := by
  induction h with
  -- the only rules with a token that they do not spell out
  | atom hk => rintro (_ | ⟨_, ⟨⟩⟩); cases hk
  | marked hmode hk h ih => rcases hk with rfl | rfl | ⟨rfl, -⟩ <;> simpa using ih
  | _ => simp_all [enclosed]

/-- **A program that is read is a phrase** up to its end. -/
theorem phrase_of_program {fuel : Nat} {forms : List Form} (h : program fuel ts = .ok forms) :
    ∃ ks tail, ts.map (·.kind) = ks ++ tail ∧ tail.headD .endOfText = .endOfText ∧ Phrase (.many .code) ks := by
  induction fuel generalizing ts forms with
  | zero => cases h
  | succ fuel ih =>
    rw [program] at h
    split at h
    · next hend => exact ⟨[], ts.map (·.kind), rfl, by cases ts <;> exact hend, .nil⟩
    · obtain ⟨⟨first, ts'⟩, hfirst, h⟩ := Except.bind_eq_ok.mp h
      obtain ⟨others, hothers, h⟩ := Except.bind_eq_ok.mp h
      obtain ⟨ks, hks, hphrase⟩ := (takesAt fuel).expr hfirst
      obtain ⟨ks', tail, hks', htail, hphrases⟩ := ih hothers
      exact ⟨ks ++ ks', tail, by rw [hks, hks', List.append_assoc], htail, .cons hphrase hphrases⟩

end Grammar

end SchemeMachine
