import SchemeMachine.Grammar
import SchemeMachine.Proofs.Syntax.Term

/-!
# What the parser reads is legal

A form that the parser reads as code is legal code, and one that it reads as quoted data or as a template is
legal data. The functions of the parser call each other with less fuel, so all of them are followed at
once, by induction on the fuel.

* `Grammar.LegalAt` says of a fuel that what each function reads with it is legal.
* `Form.legal_parse` is the result for a program.
-/

namespace SchemeMachine

/-- A computation that ends well has passed its first step. -/
theorem Except.bind_eq_ok {ε α β : Type} {x : Except ε α} {f : α → Except ε β} {b : β} :
    (x >>= f) = .ok b ↔ ∃ a, x = .ok a ∧ f a = .ok b := by
  cases x with
  | ok a => simp [bind, Except.bind]
  | error e => simp [bind, Except.bind]

/-- A computation that fails does so in its first step or after it. -/
theorem Except.bind_eq_error {ε α β : Type} {x : Except ε α} {f : α → Except ε β} {e : ε} :
    (x >>= f) = .error e ↔ x = .error e ∨ ∃ a, x = .ok a ∧ f a = .error e := by
  cases x with
  | ok a => simp [bind, Except.bind]
  | error e' => simp [bind, Except.bind]

/-- A computation that ends well has a result. -/
theorem Except.toOption_eq_some {ε α : Type} {x : Except ε α} {a : α} : x.toOption = some a ↔ x = .ok a := by
  cases x <;> simp [Except.toOption]

namespace Form

/-- Legal data may stand in code. -/
theorem Legal.toCode {layer : Layer} {f : Form} (hf : f.Legal layer) : f.Legal .code := by
  cases f with
  | atom a => exact Or.inl rfl
  | string s content => trivial
  | group quotation s items =>
    cases quotation with
    | code => exact ⟨rfl, hf.2⟩
    | quote => exact hf
    | quasiquote => exact ⟨rfl, hf.2⟩
    | unquote => exact hf
  | lambda s parameters body => exact ⟨rfl, hf.2⟩
  | procedure s lambdaSpan name parameters body => exact ⟨rfl, hf.2⟩
  | letIn s bodySpan name names initials body => exact ⟨rfl, hf.2⟩
  | clause s test body rest => exact ⟨rfl, hf.2⟩

end Form

namespace Grammar

open Form

/-- What is read in a mode. -/
def Mode.layer : Mode → Layer
  | .code => .code
  | .quoted | .template => .data

/-- A clause of legal code. -/
def Clause.Legal (c : Clause) : Prop := LegalOption c.test ∧ LegalAll .code c.body

theorem legal_chain {cs : List Clause} (hcs : ∀ c ∈ cs, c.Legal) : LegalOption (chain cs) := by
  induction cs with
  | nil => trivial
  | cons c cs ih =>
    obtain ⟨htest, hbody⟩ := hcs c List.mem_cons_self
    exact ⟨rfl, htest, hbody, ih fun d hd => hcs d (List.mem_cons_of_mem c hd)⟩

/-- **Whatever is read with this much fuel is legal.** -/
structure LegalAt (fuel : Nat) : Prop where
  expr : ∀ {mode ts f rest}, expr fuel mode ts = .ok (f, rest) → f.Legal mode.layer
  datum : ∀ {quotation s ts f rest}, quotation = .quote ∨ quotation = .quasiquote →
    datum fuel quotation s ts = .ok (f, rest) → f.Legal .code
  nested : ∀ {mode name s ts f rest}, mode.layer = .data →
    nested fuel mode name s ts = .ok (f, rest) → f.Legal .data
  list : ∀ {quotation mode s ts f rest}, list fuel quotation mode s ts = .ok (f, rest) →
    ∃ s' items, f = .group quotation s' items ∧ LegalAll mode.layer items
  sequence : ∀ {mode ts items close rest}, sequence fuel mode ts = .ok ((items, close), rest) →
    LegalAll mode.layer items
  compound : ∀ {s ts f rest}, compound fuel s ts = .ok (f, rest) → f.Legal .code
  bindings : ∀ {ts pairs rest}, bindings fuel ts = .ok (pairs, rest) → LegalAll .code (pairs.map (·.2))
  clauses : ∀ {ts cs rest}, clauses fuel ts = .ok (cs, rest) → ∀ c ∈ cs, c.Legal
  condition : ∀ {ts test rest}, condition fuel ts = .ok (test, rest) → LegalOption test

theorem legalAt_zero : LegalAt 0 := by
  constructor
  case expr => intro mode ts f rest h; simp [Grammar.expr] at h
  case datum => intro q s ts f rest _ h; simp [Grammar.datum] at h
  case nested => intro mode name s ts f rest _ h; simp [Grammar.nested] at h
  case list => intro q mode s ts f rest h; simp [Grammar.list] at h
  case sequence => intro mode ts items close rest h; simp [Grammar.sequence] at h
  case compound => intro s ts f rest h; simp [Grammar.compound] at h
  case bindings => intro ts pairs rest h; simp [Grammar.bindings] at h
  case clauses => intro ts cs rest h; simp [Grammar.clauses] at h
  case condition => intro ts test rest h; simp [Grammar.condition] at h

namespace LegalAt

variable {fuel : Nat}

theorem expr_succ (ih : LegalAt fuel) {mode : Mode} {ts rest : List Token} {f : Form}
    (h : Grammar.expr (fuel + 1) mode ts = .ok (f, rest)) : f.Legal mode.layer := by
  -- one kind of token after the other, in the order of the parser
  cases ts with
  | nil => simp [Grammar.expr] at h
  | cons t ts =>
    simp only [Grammar.expr] at h
    split at h
    · cases h; exact Or.inr rfl
    · cases h; exact Or.inr rfl
    · cases h; trivial
    · cases h
      cases mode with
      | code => exact Or.inl rfl
      | quoted => exact Or.inr rfl
      | template => exact Or.inr rfl
    · cases mode with
      | code => exact ih.datum (Or.inl rfl) h
      | quoted => exact ih.nested rfl h
      | template => exact ih.nested rfl h
    · cases mode with
      | code => exact ih.datum (Or.inr rfl) h
      | quoted => exact ih.nested rfl h
      | template => exact ih.nested rfl h
    · cases mode with
      | code => cases h
      | quoted => exact ih.nested rfl h
      | template =>
        obtain ⟨⟨inner, ts'⟩, hinner, h⟩ := Except.bind_eq_ok.mp h
        cases h
        exact ⟨rfl, ih.expr hinner, trivial⟩
    · cases mode with
      | code => exact ih.compound h
      | quoted =>
        obtain ⟨s', items, rfl, hitems⟩ := ih.list h
        exact hitems
      | template =>
        obtain ⟨s', items, rfl, hitems⟩ := ih.list h
        exact hitems
    · cases h
    · cases h

theorem datum_succ (ih : LegalAt fuel) {quotation : Quotation} {s : Span} {ts rest : List Token} {f : Form}
    (hq : quotation = .quote ∨ quotation = .quasiquote)
    (h : Grammar.datum (fuel + 1) quotation s ts = .ok (f, rest)) : f.Legal .code := by
  simp only [Grammar.datum] at h
  split at h
  · obtain ⟨s', items, rfl, hitems⟩ := ih.list h
    rcases hq with rfl | rfl
    · exact hitems
    · exact ⟨rfl, hitems⟩
  · exact (ih.expr h).toCode

theorem sequence_succ (ih : LegalAt fuel) {mode : Mode} {ts rest : List Token} {items : List Form} {close : Span}
    (h : Grammar.sequence (fuel + 1) mode ts = .ok ((items, close), rest)) : LegalAll mode.layer items := by
  simp only [Grammar.sequence] at h
  split at h
  · cases h; trivial
  · cases h
  · obtain ⟨⟨first, ts'⟩, hfirst, h⟩ := Except.bind_eq_ok.mp h
    obtain ⟨⟨⟨others, close'⟩, ts''⟩, hothers, h⟩ := Except.bind_eq_ok.mp h
    cases h
    exact ⟨ih.expr hfirst, ih.sequence hothers⟩

/-- A body that has been checked is what was read. -/
theorem body_of_bind (ih : LegalAt fuel) {form : String} {s : Span} {ts rest : List Token} {f : Form}
    (make : List Form → Span → Form)
    (h : (do
      let read ← Grammar.sequence fuel .code ts
      requireBody form s read.1.1
      return (make read.1.1 read.1.2, read.2) : Except ParseError (Form × List Token)) = .ok (f, rest)) :
    ∃ body close, f = make body close ∧ LegalAll .code body := by
  obtain ⟨⟨⟨body, close⟩, ts'⟩, hbody, h⟩ := Except.bind_eq_ok.mp h
  obtain ⟨_, -, h⟩ := Except.bind_eq_ok.mp h
  cases h
  exact ⟨body, close, rfl, ih.sequence hbody⟩

theorem compound_succ (ih : LegalAt fuel) {s : Span} {ts rest : List Token} {f : Form}
    (h : Grammar.compound (fuel + 1) s ts = .ok (f, rest)) : f.Legal .code := by
  simp only [Grammar.compound] at h
  split at h
  · split at h
    · obtain ⟨⟨names, ts'⟩, -, h⟩ := Except.bind_eq_ok.mp h
      -- a form that takes a body is legal as its body is
      obtain ⟨body, close, rfl, hbody⟩ :=
        ih.body_of_bind (fun body close => .lambda (s.merge close) names body) h
      exact ⟨rfl, hbody⟩
    · cases h
  · split at h
    · obtain ⟨⟨name, ts'⟩, -, h⟩ := Except.bind_eq_ok.mp h
      obtain ⟨⟨names, ts''⟩, -, h⟩ := Except.bind_eq_ok.mp h
      obtain ⟨body, close, rfl, hbody⟩ :=
        ih.body_of_bind (fun body close => .procedure s (s.merge close) name names body) h
      exact ⟨rfl, hbody⟩
    · obtain ⟨⟨⟨items, close⟩, ts'⟩, hitems, h⟩ := Except.bind_eq_ok.mp h
      cases h
      exact ⟨rfl, Or.inl rfl, ih.sequence hitems⟩
  · obtain ⟨⟨_, ts'⟩, -, h⟩ := Except.bind_eq_ok.mp h
    obtain ⟨⟨pairs, ts''⟩, hpairs, h⟩ := Except.bind_eq_ok.mp h
    obtain ⟨body, close, rfl, hbody⟩ :=
      ih.body_of_bind (fun body close =>
        .letIn s (s.merge close) (nextSymbol? ts.tail) (pairs.map (·.1)) (pairs.map (·.2)) body) h
    exact ⟨rfl, ih.bindings hpairs, hbody⟩
  · obtain ⟨⟨cs, ts'⟩, hcs, h⟩ := Except.bind_eq_ok.mp h
    have hchain := legal_chain (ih.clauses hcs)
    dsimp only at h
    split at h
    · cases h
    · next form hform =>
      cases h
      rw [hform] at hchain
      exact hchain
  · obtain ⟨⟨form, ts'⟩, hform, h⟩ := Except.bind_eq_ok.mp h
    obtain ⟨⟨_, ts''⟩, -, h⟩ := Except.bind_eq_ok.mp h
    cases h
    exact ih.datum (Or.inl rfl) hform
  · obtain ⟨s', items, rfl, hitems⟩ := ih.list h
    exact ⟨rfl, hitems⟩

theorem bindings_succ (ih : LegalAt fuel) {ts rest : List Token} {pairs : List (String × Form)}
    (h : Grammar.bindings (fuel + 1) ts = .ok (pairs, rest)) : LegalAll .code (pairs.map (·.2)) := by
  simp only [Grammar.bindings] at h
  split at h
  · cases h; trivial
  · obtain ⟨⟨_, ts₁⟩, -, h⟩ := Except.bind_eq_ok.mp h
    obtain ⟨⟨name, ts₂⟩, -, h⟩ := Except.bind_eq_ok.mp h
    obtain ⟨⟨initial, ts₃⟩, hinitial, h⟩ := Except.bind_eq_ok.mp h
    obtain ⟨⟨_, ts₄⟩, -, h⟩ := Except.bind_eq_ok.mp h
    obtain ⟨⟨others, ts₅⟩, hothers, h⟩ := Except.bind_eq_ok.mp h
    cases h
    exact ⟨ih.expr hinitial, ih.bindings hothers⟩

theorem clauses_succ (ih : LegalAt fuel) {ts rest : List Token} {cs : List Clause}
    (h : Grammar.clauses (fuel + 1) ts = .ok (cs, rest)) : ∀ c ∈ cs, c.Legal := by
  simp only [Grammar.clauses] at h
  split at h
  · cases h; simp
  · obtain ⟨⟨_, ts₁⟩, -, h⟩ := Except.bind_eq_ok.mp h
    obtain ⟨⟨test, ts₂⟩, htest, h⟩ := Except.bind_eq_ok.mp h
    obtain ⟨⟨⟨body, _⟩, ts₃⟩, hbody, h⟩ := Except.bind_eq_ok.mp h
    dsimp only at h
    split at h
    · cases h
    · obtain ⟨⟨others, ts₄⟩, hothers, h⟩ := Except.bind_eq_ok.mp h
      cases h
      intro c hc
      rcases List.mem_cons.mp hc with rfl | hc
      · exact ⟨ih.condition htest, ih.sequence hbody⟩
      · exact ih.clauses hothers c hc

theorem condition_succ (ih : LegalAt fuel) {ts rest : List Token} {test : Option Form}
    (h : Grammar.condition (fuel + 1) ts = .ok (test, rest)) : LegalOption test := by
  simp only [Grammar.condition] at h
  split at h
  · cases h; trivial
  · obtain ⟨⟨form, ts'⟩, hform, h⟩ := Except.bind_eq_ok.mp h
    cases h
    exact ih.expr hform

end LegalAt

theorem legalAt (fuel : Nat) : LegalAt fuel := by
  induction fuel with
  | zero => exact legalAt_zero
  | succ fuel ih =>
    refine ⟨ih.expr_succ, ih.datum_succ, fun hmode h => ?_, fun h => ?_, ih.sequence_succ, ih.compound_succ,
      ih.bindings_succ, ih.clauses_succ, ih.condition_succ⟩
    · simp only [Grammar.nested] at h
      obtain ⟨⟨inner, ts'⟩, hinner, h⟩ := Except.bind_eq_ok.mp h
      cases h
      exact ⟨Or.inr rfl, hmode ▸ ih.expr hinner, trivial⟩
    · simp only [Grammar.list] at h
      obtain ⟨⟨⟨items, close⟩, ts'⟩, hitems, h⟩ := Except.bind_eq_ok.mp h
      cases h
      exact ⟨_, items, rfl, ih.sequence hitems⟩

theorem legal_program {fuel : Nat} {ts : List Token} {forms : List Form}
    (h : program fuel ts = .ok forms) : LegalAll .code forms := by
  induction fuel generalizing ts forms with
  | zero => simp [program] at h
  | succ fuel ih =>
    simp only [program] at h
    split at h
    · cases h; trivial
    · obtain ⟨⟨first, ts'⟩, hfirst, h⟩ := Except.bind_eq_ok.mp h
      obtain ⟨others, hothers, h⟩ := Except.bind_eq_ok.mp h
      cases h
      exact ⟨(legalAt fuel).expr hfirst, ih hothers⟩

end Grammar

/-- **What a text is parsed to is legal code.** -/
theorem Form.legal_parse {tokens : List Token} {forms : List Form} (h : Form.parse tokens = .ok forms) :
    Form.LegalAll .code forms :=
  Grammar.legal_program h

end SchemeMachine
