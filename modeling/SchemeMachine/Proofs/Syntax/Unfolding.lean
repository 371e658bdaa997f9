import SchemeMachine.Proofs.Syntax.Abbreviation

/-!
# Code with its abbreviations spelled out
-/

namespace SchemeMachine

/-! ### Definitions -/

namespace Form

mutual

/-- **Everything that a form defines is a variable**, also in the clauses that are dropped. -/
def Definite : Form → Prop
  | .atom _ => True
  | .string _ _ => True
  | .group quotation _ items => Term.Targets quotation (sketchAll items) ∧ DefiniteAll items
  | .lambda _ _ body => DefiniteAll body
  | .procedure _ _ _ _ body => DefiniteAll body
  | .letIn _ _ _ _ initials body => DefiniteAll initials ∧ DefiniteAll body
  | .clause _ test body rest => DefiniteOption test ∧ DefiniteAll body ∧ DefiniteOption rest

/-- Everything that several forms define is a variable. -/
def DefiniteAll : List Form → Prop
  | [] => True
  | f :: fs => Definite f ∧ DefiniteAll fs

/-- Everything that a form that may be missing defines is a variable. -/
def DefiniteOption : Option Form → Prop
  | none => True
  | some f => Definite f

end

open Term (Targets)

theorem definiteAll_of_sketchSequence {xs : List Term} (h : (sketchSequence xs).Definite) : Term.DefiniteAll xs := by
  unfold sketchSequence at h
  split at h
  · exact ⟨h, trivial⟩
  · exact h.2.2

mutual

/-- What a form defines can be told from its sketch and those of the clauses that are dropped. -/
theorem definite_of_sketch : (f : Form) → f.sketch.Definite → Term.DefiniteAll (sketchAll f.dropped) → f.Definite
  | .atom _, _, _ => trivial
  | .string _ _, _, _ => trivial
  | .group _ _ items, h, hd => ⟨h.1, definiteAll_of_sketch items h.2 hd⟩
  | .lambda _ _ body, h, hd => definiteAll_of_sketch body h hd
  | .procedure _ _ _ _ body, h, hd => definiteAll_of_sketch body h.2.2.2.1 hd
  | .letIn _ _ name _ initials body, h, hd => by
    rw [dropped, sketchAll_append, Term.definiteAll_append] at hd
    -- with a name, both parts stand inside the lambda that defines it
    have hparts : Term.DefiniteAll (sketchAll initials) ∧ Term.DefiniteAll (sketchAll body) := by
      cases name with
      | none => exact ⟨h.2.2, h.2.1⟩
      | some name => exact ⟨h.2.1.2.1.2.2, h.2.1.1.2.2.2.1⟩
    exact ⟨definiteAll_of_sketch initials hparts.1 hd.1, definiteAll_of_sketch body hparts.2 hd.2⟩
  | .clause _ test body rest, h, hd => by
    simp only [dropped, sketchAll_append, Term.definiteAll_append] at hd
    obtain ⟨hlast, htest, hbody, hrest⟩ := hd
    cases test with
    | none =>
      refine ⟨trivial, definiteAll_of_sketch body (definiteAll_of_sketchSequence h) hbody, ?_⟩
      cases rest with
      | none => trivial
      | some rest => exact definite_of_sketch rest hlast.1 hrest
    | some test =>
      refine ⟨definite_of_sketch test h.2.2.1 htest,
        definiteAll_of_sketch body (definiteAll_of_sketchSequence h.2.2.2.1) hbody, ?_⟩
      cases rest with
      | none => trivial
      | some rest => exact definite_of_sketch rest h.2.2.2.2.1 hrest

theorem definiteAll_of_sketch : (fs : List Form) → Term.DefiniteAll (sketchAll fs) →
    Term.DefiniteAll (sketchAll (droppedAll fs)) → DefiniteAll fs
  | [], _, _ => trivial
  | f :: fs, h, hd => by
    rw [droppedAll, sketchAll_append, Term.definiteAll_append] at hd
    exact ⟨definite_of_sketch f h.1 hd.1, definiteAll_of_sketch fs h.2 hd.2⟩

end

/-- Data are no variable. -/
theorem Legal.sketch_ne_variable {f : Form} (hf : f.Legal .data) (name : String) : f.sketch ≠ .atom (.variable name) := by
  cases f with
  | atom a =>
    rintro heq
    cases heq
    rcases hf with h | h <;> cases h
  | string s content => nofun
  | group quotation s items => nofun
  | lambda s parameters body => nofun
  | procedure s s' name parameters body => nofun
  | letIn s s' name names initials body => cases hf.1
  | clause s test body rest => cases hf.1

end Form

namespace Grammar

open Form
open Token (Unfolds Kind)

/-! ### Single tokens -/

/-- Tokens with their abbreviations spelled out, in other places. -/
def Spread (due pending : Nat) (outer : List Nat) (ts ts' : List Token) : Prop :=
  Unfolds due pending outer (ts.map (·.kind)) (ts'.map (·.kind))

section Tokens

variable {p d : Nat} {outer : List Nat} {ts ts' rest : List Token} {s : Span}

theorem Spread.atom {k : Kind} (hk : k.isAtom) (h : Spread 0 p outer (⟨k, s⟩ :: ts) ts') :
    ∃ s' rest', ts' = ⟨k, s'⟩ :: rest' ∧ Spread p 0 outer ts rest' := by
  rw [Spread, List.map_cons] at h
  generalize hks : ts'.map (·.kind) = ks at h
  cases h with
  | ended h => cases k <;> cases hk <;> cases h
  | atom _ h =>
    obtain ⟨s', rest', rfl, rfl⟩ := exists_token hks
    exact ⟨s', rest', rfl, h⟩
  | mark h => cases k <;> cases hk <;> cases h
  | «open» => cases hk
  | close => cases hk

theorem Spread.mark {k : Kind} {word : String} (hk : k.mark? = some word) (h : Spread 0 p outer (⟨k, s⟩ :: ts) ts') :
    ∃ s₁ s₂ rest', ts' = ⟨.open, s₁⟩ :: ⟨.symbol word, s₂⟩ :: rest' ∧ Spread 0 (p + 1) outer ts rest' := by
  rw [Spread, List.map_cons] at h
  generalize hks : ts'.map (·.kind) = ks at h
  cases h with
  | ended h => cases k <;> cases hk <;> cases h
  | atom h => cases k <;> cases hk <;> cases h
  | mark hk' h =>
    cases hk.symm.trans hk'
    obtain ⟨s₁, rest₁, rfl, hrest₁⟩ := exists_token hks
    obtain ⟨s₂, rest', rfl, rfl⟩ := exists_token hrest₁
    exact ⟨s₁, s₂, rest', rfl, h⟩
  | «open» => cases hk
  | close => cases hk

theorem Spread.open (h : Spread 0 p outer (⟨.open, s⟩ :: ts) ts') :
    ∃ s' rest', ts' = ⟨.open, s'⟩ :: rest' ∧ Spread 0 0 (p :: outer) ts rest' := by
  rw [Spread, List.map_cons] at h
  generalize hks : ts'.map (·.kind) = ks at h
  cases h with
  | ended h => cases h
  | atom h => cases h
  | mark h => cases h
  | «open» h =>
    obtain ⟨s', rest', rfl, rfl⟩ := exists_token hks
    exact ⟨s', rest', rfl, h⟩

theorem Spread.close (h : Spread 0 0 (p :: outer) (⟨.close, s⟩ :: ts) ts') :
    ∃ s' rest', ts' = ⟨.close, s'⟩ :: rest' ∧ Spread p 0 outer ts rest' := by
  rw [Spread, List.map_cons] at h
  generalize hks : ts'.map (·.kind) = ks at h
  cases h with
  | atom h => cases h
  | mark h => cases h
  | close h =>
    obtain ⟨s', rest', rfl, rfl⟩ := exists_token hks
    exact ⟨s', rest', rfl, h⟩

theorem Spread.due (h : Spread (d + 1) 0 outer ts ts') :
    ∃ s' rest', ts' = ⟨.close, s'⟩ :: rest' ∧ Spread d 0 outer ts rest' := by
  rw [Spread] at h
  generalize hks : ts'.map (·.kind) = ks at h
  cases h with
  | due h =>
    obtain ⟨s', rest', rfl, rfl⟩ := exists_token hks
    exact ⟨s', rest', rfl, h⟩

/-- **The next token** is the same, unless an abbreviation is spelled out there. -/
theorem Spread.nextKind (h : Spread 0 p outer ts ts') :
    nextKind ts' = nextKind ts ∨ (nextKind ts).mark?.isSome ∧ nextKind ts' = .open := by
  have hhead : ∀ ts : List Token, Grammar.nextKind ts = (ts.map (·.kind)).headD .endOfText := by
    intro ts
    cases ts <;> rfl
  rw [hhead, hhead]
  rw [Spread] at h
  generalize ts.map (·.kind) = ks at h
  generalize ts'.map (·.kind) = ks' at h
  cases h with
  | ended h => exact Or.inl h.symm
  | atom => exact Or.inl rfl
  | mark hk => exact Or.inr ⟨Option.isSome_of_mem hk, rfl⟩
  | «open» => exact Or.inl rfl
  | close => exact Or.inl rfl

theorem Spread.nextSymbol? (h : Spread 0 p outer ts ts') : nextSymbol? ts' = nextSymbol? ts := by
  unfold Grammar.nextSymbol?
  rcases h.nextKind with heq | ⟨hmark, hopen⟩
  · rw [heq]
  · rw [hopen]
    generalize Grammar.nextKind ts = k at hmark
    cases k <;> first | rfl | cases hmark

theorem Spread.nextKind_ne (h : Spread 0 p outer ts ts') {k : Kind} (hk : k ≠ .open) (hne : Grammar.nextKind ts ≠ k) :
    Grammar.nextKind ts' ≠ k := by
  rcases h.nextKind with heq | ⟨-, hopen⟩
  · rwa [heq]
  · rw [hopen]
    exact hk.symm

/-- The next token, if it is not the end of the text. -/
theorem exists_of_nextKind {k : Kind} (h : nextKind ts = k) (hk : k ≠ .endOfText) :
    ∃ s, ts = ⟨k, s⟩ :: ts.tail := by
  cases ts with
  | nil => exact absurd h.symm hk
  | cons t ts =>
    obtain ⟨kind, span⟩ := t
    cases h
    exact ⟨span, rfl⟩

theorem exists_of_nextSymbol? {name : String} (h : nextSymbol? ts = some name) :
    ∃ s, ts = ⟨.symbol name, s⟩ :: ts.tail := by
  unfold nextSymbol? at h
  split at h
  · next name' heq =>
    cases h
    exact exists_of_nextKind heq nofun
  · cases h

/-- The name of a `let`, which may be missing, stands in both. -/
theorem Spread.skipName (h : Spread 0 0 outer ts ts') :
    Spread 0 0 outer (if (Grammar.nextSymbol? ts).isSome then ts.tail else ts)
      (if (Grammar.nextSymbol? ts').isSome then ts'.tail else ts') ∧
    (if (Grammar.nextSymbol? ts').isSome then ts'.tail else ts').length ≤ ts'.length := by
  rw [h.nextSymbol?]
  cases hname : Grammar.nextSymbol? ts with
  | none => exact ⟨h, Nat.le_refl _⟩
  | some name =>
    obtain ⟨s, hts⟩ := exists_of_nextSymbol? hname
    rw [hts] at h
    obtain ⟨s', rest', rfl, hrest⟩ := h.atom rfl
    exact ⟨hrest, Nat.le_succ _⟩

theorem expect_eq_ok {k : Kind} : expect k ts = .ok (s, rest) ↔ ts = ⟨k, s⟩ :: rest := by
  cases ts with
  | nil => exact ⟨nofun, nofun⟩
  | cons t ts =>
    obtain ⟨kind, span⟩ := t
    rw [expect]
    by_cases hkind : kind = k
    · subst hkind
      simp
    · rw [if_neg hkind]
      refine ⟨by simp, fun heq => ?_⟩
      cases heq
      exact absurd rfl hkind

theorem expectSymbol_eq_ok {role name : String} :
    expectSymbol role ts = .ok (name, rest) ↔ ∃ s, ts = ⟨.symbol name, s⟩ :: rest := by
  cases ts with
  | nil => exact ⟨nofun, nofun⟩
  | cons t ts =>
    obtain ⟨kind, span⟩ := t
    cases kind with
    | symbol word => simp [expectSymbol]
    | _ => simp [expectSymbol]

end Tokens

/-! ### Reading again -/

/-- **What is read again**: an answer as `R` says. The tokens that are left are those that were left before, spelled out, and
are fewer than those that were given. -/
def Rereads {α : Type} (result : Except ParseError (α × List Token)) (R : α → Prop) (p : Nat) (outer : List Nat)
    (rest ts' : List Token) : Prop :=
  ∃ a rest', result = .ok (a, rest') ∧ R a ∧ Spread p 0 outer rest rest' ∧ rest'.length < ts'.length

theorem rereads_parameters {p : Nat} {outer : List Nat} {ts ts' rest : List Token} {names : List String}
    (h : parameters ts = .ok (names, rest)) (hs : Spread 0 0 (p :: outer) ts ts') :
    Rereads (parameters ts') (· = names) p outer rest ts' := by
  induction ts generalizing ts' names with
  | nil => cases h
  | cons t ts ih =>
    obtain ⟨kind, span⟩ := t
    cases kind with
    | close =>
      cases h
      obtain ⟨s', rest', rfl, hrest⟩ := hs.close
      exact ⟨[], rest', rfl, rfl, hrest, Nat.lt_succ_self _⟩
    | symbol name =>
      obtain ⟨⟨others, ts₁⟩, hothers, h⟩ := Except.bind_eq_ok.mp h
      cases h
      obtain ⟨s', rest', rfl, hrest⟩ := hs.atom rfl
      obtain ⟨others', rest'', hread, hnames, hspread, hlength⟩ := ih hothers hrest
      refine ⟨name :: others', rest'', ?_, congrArg (name :: ·) hnames, hspread, Nat.lt_succ_of_lt hlength⟩
      exact Except.bind_eq_ok.mpr ⟨_, hread, rfl⟩
    | _ => cases h

/-- **Whatever is read with this much fuel is read again** where abbreviations are spelled out. Four steps for each token
are enough. -/
structure AgainAt (n : Nat) : Prop where
  expr : ∀ {mode ts f rest p outer ts' fuel}, mode ≠ .template → expr n mode ts = .ok (f, rest) → f.Definite →
    Spread 0 p outer ts ts' → 4 * ts'.length ≤ fuel → Rereads (expr fuel mode ts') (Matches f) p outer rest ts'
  datum : ∀ {s ts f rest p outer ts' fuel} (s' : Span), datum n .quote s ts = .ok (f, rest) → f.Definite →
    Spread 0 p outer ts ts' → 4 * ts'.length + 1 ≤ fuel → Rereads (datum fuel .quote s' ts') (Matches f) p outer rest ts'
  nested : ∀ {word s ts f rest p outer ts' fuel} (s' s₂ : Span), nested n .quoted word s ts = .ok (f, rest) → f.Definite → Spread 0 (p + 1) outer ts ts' → 4 * ts'.length + 3 ≤ fuel →
    Rereads (list fuel .quote .quoted s' (⟨.symbol word, s₂⟩ :: ts')) (Matches f) p outer rest ts'
  list : ∀ {quotation mode s ts f rest p outer ts' fuel} (s' : Span), mode ≠ .template →
    list n quotation mode s ts = .ok (f, rest) → f.Definite → Spread 0 0 (p :: outer) ts ts' → 4 * ts'.length + 2 ≤ fuel →
    Rereads (list fuel quotation mode s' ts') (Matches f) p outer rest ts'
  sequence : ∀ {mode ts items close rest p outer ts' fuel}, mode ≠ .template →
    sequence n mode ts = .ok ((items, close), rest) → DefiniteAll items → Spread 0 0 (p :: outer) ts ts' →
    4 * ts'.length + 1 ≤ fuel →
    Rereads (sequence fuel mode ts') (fun r => unplacedAll r.1 = unplacedAll items) p outer rest ts'
  compound : ∀ {s ts f rest p outer ts' fuel} (s' : Span), compound n s ts = .ok (f, rest) → f.Definite →
    Spread 0 0 (p :: outer) ts ts' → 4 * ts'.length + 3 ≤ fuel →
    Rereads (compound fuel s' ts') (Matches f) p outer rest ts'
  bindings : ∀ {ts pairs rest p outer ts' fuel}, bindings n ts = .ok (pairs, rest) → DefiniteAll (pairs.map (·.2)) →
    Spread 0 0 (p :: outer) ts ts' → 4 * ts'.length + 1 ≤ fuel → Rereads (bindings fuel ts')
      (fun r => r.map (·.1) = pairs.map (·.1) ∧ unplacedAll (r.map (·.2)) = unplacedAll (pairs.map (·.2))) p outer rest ts'
  clauses : ∀ {ts cs rest p outer ts' fuel}, clauses n ts = .ok (cs, rest) → DefiniteOption (chain cs) →
    Spread 0 0 (p :: outer) ts ts' → 4 * ts'.length + 1 ≤ fuel →
    Rereads (clauses fuel ts') (fun r => unplacedOption (chain r) = unplacedOption (chain cs)) p outer rest ts'
  condition : ∀ {ts test rest outer ts' fuel}, condition n ts = .ok (test, rest) → DefiniteOption test →
    Spread 0 0 outer ts ts' → 4 * ts'.length + 1 ≤ fuel →
    Rereads (condition fuel ts') (fun r => unplacedOption r = unplacedOption test) 0 outer rest ts'

namespace AgainAt

theorem zero : AgainAt 0 := by
  constructor
  case expr => intro mode ts f rest p outer ts' fuel _ h; simp [Grammar.expr] at h
  case datum => intro s ts f rest p outer ts' fuel s' h; simp [Grammar.datum] at h
  case nested => intro word s ts f rest p outer ts' fuel s' s₂ h; simp [Grammar.nested] at h
  case list => intro q mode s ts f rest p outer ts' fuel s' _ h; simp [Grammar.list] at h
  case sequence => intro mode ts items close rest p outer ts' fuel _ h; simp [Grammar.sequence] at h
  case compound => intro s ts f rest p outer ts' fuel s' h; simp [Grammar.compound] at h
  case bindings => intro ts pairs rest p outer ts' fuel h; simp [Grammar.bindings] at h
  case clauses => intro ts cs rest p outer ts' fuel h; simp [Grammar.clauses] at h
  case condition => intro ts test rest outer ts' fuel h; simp [Grammar.condition] at h

variable {n fuel p : Nat} {outer : List Nat} {ts ts' rest : List Token} {f : Form}

/-- A token that is an expression by itself. -/
theorem rereads_atom {mode : Mode} {k : Kind} {s : Span} (hk : k.isAtom)
    (h : Grammar.expr (n + 1) mode (⟨k, s⟩ :: ts) = .ok (f, rest)) (hs : Spread 0 p outer (⟨k, s⟩ :: ts) ts')
    (hfuel : 4 * ts'.length ≤ fuel) : Rereads (Grammar.expr fuel mode ts') (Matches f) p outer rest ts' := by
  obtain ⟨s', rest', rfl, hrest⟩ := hs.atom hk
  rw [List.length_cons] at hfuel
  obtain ⟨fuel, rfl⟩ : ∃ j, fuel = j + 1 := ⟨fuel - 1, by omega⟩
  cases k <;> cases hk <;> cases h <;> exact ⟨_, rest', rfl, rfl, hrest, Nat.lt_succ_self _⟩

theorem expr_succ (ih : AgainAt n) {mode : Mode} (hmode : mode ≠ .template)
    (h : Grammar.expr (n + 1) mode ts = .ok (f, rest)) (hf : f.Definite) (hs : Spread 0 p outer ts ts')
    (hfuel : 4 * ts'.length ≤ fuel) : Rereads (Grammar.expr fuel mode ts') (Matches f) p outer rest ts' := by
  cases ts with
  | nil => simp [Grammar.expr] at h
  | cons t ts =>
    obtain ⟨kind, span⟩ := t
    -- an abbreviation inside quoted data
    have hnested : ∀ {word}, kind.mark? = some word → mode = .quoted → Grammar.nested n mode word span ts = .ok (f, rest) →
        Rereads (Grammar.expr fuel mode ts') (Matches f) p outer rest ts' := by
      rintro word hk rfl h
      obtain ⟨s₁, s₂, rest', rfl, hrest⟩ := hs.mark hk
      simp only [List.length_cons] at hfuel
      obtain ⟨fuel, rfl⟩ : ∃ j, fuel = j + 1 := ⟨fuel - 1, by omega⟩
      obtain ⟨g, rest'', hread, hg, hspread, hlength⟩ := ih.nested s₁ s₂ h hf hrest (by omega : _ ≤ fuel)
      exact ⟨g, rest'', hread, hg, hspread, by simp only [List.length_cons]; omega⟩
    cases kind with
    | number x => exact rereads_atom rfl h hs hfuel
    | boolean b => exact rereads_atom rfl h hs hfuel
    | string content => exact rereads_atom rfl h hs hfuel
    | symbol name => exact rereads_atom rfl h hs hfuel
    | quote =>
      cases mode with
      | code =>
        obtain ⟨s₁, s₂, rest', rfl, hrest⟩ := hs.mark rfl
        simp only [List.length_cons] at hfuel
        obtain ⟨fuel, rfl⟩ : ∃ j, fuel = j + 2 := ⟨fuel - 2, by omega⟩
        obtain ⟨g, rest'', hread, hg, hspread, hlength⟩ := ih.datum s₁ h hf hrest (by omega : _ ≤ fuel)
        obtain ⟨s₃, rest₃, rfl, hclosed⟩ := hspread.due
        refine ⟨g, rest₃, ?_, hg, hclosed, by simp only [List.length_cons] at hlength ⊢; omega⟩
        change Grammar.compound (fuel + 1) s₁ (⟨.symbol "quote", s₂⟩ :: rest') = _
        rw [Grammar.compound]
        exact Except.bind_eq_ok.mpr ⟨_, hread, Except.bind_eq_ok.mpr ⟨_, expect_eq_ok.mpr rfl, rfl⟩⟩
      | quoted => exact hnested rfl rfl h
      | template => exact absurd rfl hmode
    | unquote =>
      cases mode with
      | code => cases h
      | quoted => exact hnested rfl rfl h
      | template => exact absurd rfl hmode
    | quasiquote =>
      rw [Spread, List.map_cons] at hs
      generalize ts'.map (·.kind) = ks at hs
      cases hs with
      | ended h => cases h
      | atom h => cases h
      | mark h => cases h
    | «open» =>
      obtain ⟨s', rest', rfl, hrest⟩ := hs.open
      simp only [List.length_cons] at hfuel
      obtain ⟨fuel, rfl⟩ : ∃ j, fuel = j + 1 := ⟨fuel - 1, by omega⟩
      cases mode with
      | code =>
        obtain ⟨g, rest'', hread, hg, hspread, hlength⟩ := ih.compound s' h hf hrest (by omega : _ ≤ fuel)
        exact ⟨g, rest'', hread, hg, hspread, Nat.lt_succ_of_lt hlength⟩
      | quoted =>
        obtain ⟨g, rest'', hread, hg, hspread, hlength⟩ := ih.list s' hmode h hf hrest (by omega : _ ≤ fuel)
        exact ⟨g, rest'', hread, hg, hspread, Nat.lt_succ_of_lt hlength⟩
      | template => exact absurd rfl hmode
    | close => cases h
    | endOfText => cases h

theorem list_succ (ih : AgainAt n) {quotation : Quotation} {mode : Mode} {s : Span} (s' : Span) (hmode : mode ≠ .template)
    (h : Grammar.list (n + 1) quotation mode s ts = .ok (f, rest)) (hf : f.Definite) (hs : Spread 0 0 (p :: outer) ts ts')
    (hfuel : 4 * ts'.length + 2 ≤ fuel) : Rereads (Grammar.list fuel quotation mode s' ts') (Matches f) p outer rest ts' := by
  obtain ⟨fuel, rfl⟩ : ∃ j, fuel = j + 1 := ⟨fuel - 1, by omega⟩
  simp only [Grammar.list] at h
  obtain ⟨⟨⟨items, close⟩, ts₁⟩, hitems, h⟩ := Except.bind_eq_ok.mp h
  cases h
  obtain ⟨⟨items', close'⟩, rest', hread, heq, hspread, hlength⟩ := ih.sequence hmode hitems hf.2 hs (by omega : _ ≤ fuel)
  refine ⟨.group quotation (s'.merge close') items', rest', ?_, ?_, hspread, hlength⟩
  · exact Except.bind_eq_ok.mpr ⟨_, hread, rfl⟩
  · exact congrArg (Form.group quotation .unplaced) heq

/-- An expression begins with a token of its own. -/
theorem nextKind_of_expr {mode : Mode} (h : Grammar.expr n mode ts = .ok (f, rest)) :
    nextKind ts ≠ .close ∧ nextKind ts ≠ .endOfText := by
  cases n with
  | zero => simp [Grammar.expr] at h
  | succ n =>
    cases ts with
    | nil => simp [Grammar.expr] at h
    | cons t ts =>
      obtain ⟨kind, span⟩ := t
      constructor <;> rintro rfl <;> cases h

theorem nested_succ (ih : AgainAt n) {word : String} {s : Span} (s' s₂ : Span)
    (h : Grammar.nested (n + 1) .quoted word s ts = .ok (f, rest)) (hf : f.Definite) (hs : Spread 0 (p + 1) outer ts ts')
    (hfuel : 4 * ts'.length + 3 ≤ fuel) :
    Rereads (Grammar.list fuel .quote .quoted s' (⟨.symbol word, s₂⟩ :: ts')) (Matches f) p outer rest ts' := by
  obtain ⟨fuel, rfl⟩ : ∃ j, fuel = j + 3 := ⟨fuel - 3, by omega⟩
  simp only [Grammar.nested] at h
  obtain ⟨⟨inner, ts₁⟩, hinner, h⟩ := Except.bind_eq_ok.mp h
  cases h
  obtain ⟨g, rest', hread, hg, hspread, hlength⟩ := ih.expr (by decide) hinner hf.2.2.1 hs (by omega : _ ≤ fuel)
  obtain ⟨s₃, rest₃, rfl, hclosed⟩ := hspread.due
  obtain ⟨fuel, rfl⟩ : ∃ j, fuel = j + 1 := ⟨fuel - 1, by omega⟩
  obtain ⟨hclose, hend⟩ := nextKind_of_expr hinner
  -- the word, the expression and the parenthesis that is due
  have hsequence : Grammar.sequence (fuel + 2) .quoted ts' = .ok (([g], s₃), rest₃) := by
    unfold Grammar.sequence
    split
    · next heq => exact absurd heq (hs.nextKind_ne (by decide) hclose)
    · next heq => exact absurd heq (hs.nextKind_ne (by decide) hend)
    · exact Except.bind_eq_ok.mpr ⟨_, hread, Except.bind_eq_ok.mpr ⟨_, rfl, rfl⟩⟩
  have hword : Grammar.sequence (fuel + 3) .quoted (⟨.symbol word, s₂⟩ :: ts') =
      .ok (([.atom (.symbol word), g], s₃), rest₃) :=
    Except.bind_eq_ok.mpr ⟨(.atom (.symbol word), ts'), rfl, Except.bind_eq_ok.mpr ⟨_, hsequence, rfl⟩⟩
  refine ⟨.group .quote (s'.merge s₃) [.atom (.symbol word), g], rest₃, Except.bind_eq_ok.mpr ⟨_, hword, rfl⟩, ?_, hclosed, ?_⟩
  · exact congrArg (fun x => Form.group .quote .unplaced [.atom (.symbol word), x]) hg
  · rw [List.length_cons] at hlength
    omega

theorem sequence_succ (ih : AgainAt n) {mode : Mode} {items : List Form} {close : Span} (hmode : mode ≠ .template)
    (h : Grammar.sequence (n + 1) mode ts = .ok ((items, close), rest)) (hf : DefiniteAll items)
    (hs : Spread 0 0 (p :: outer) ts ts') (hfuel : 4 * ts'.length + 1 ≤ fuel) :
    Rereads (Grammar.sequence fuel mode ts') (fun r => unplacedAll r.1 = unplacedAll items) p outer rest ts' := by
  obtain ⟨fuel, rfl⟩ : ∃ j, fuel = j + 1 := ⟨fuel - 1, by omega⟩
  simp only [Grammar.sequence] at h
  split at h
  · next hclose =>
    cases h
    obtain ⟨span, hts⟩ := exists_of_nextKind hclose (by simp)
    rw [hts] at hs
    obtain ⟨s', rest', rfl, hrest⟩ := hs.close
    exact ⟨([], s'), rest', rfl, rfl, hrest, Nat.lt_succ_self _⟩
  · cases h
  · next hclose hend =>
    obtain ⟨⟨first, ts₁⟩, hfirst, h⟩ := Except.bind_eq_ok.mp h
    obtain ⟨⟨⟨others, close'⟩, ts₂⟩, hothers, h⟩ := Except.bind_eq_ok.mp h
    cases h
    -- the first form is spread over the text, and the others follow in what is left
    obtain ⟨g, rest', hread, hg, hspread, hlength⟩ := ih.expr hmode hfirst hf.1 hs (by omega : _ ≤ fuel)
    obtain ⟨⟨gs, close''⟩, rest'', hreads, hgs, hspread', hlength'⟩ :=
      ih.sequence hmode hothers hf.2 hspread (by omega : _ ≤ fuel)
    refine ⟨(g :: gs, close''), rest'', ?_, ?_, hspread', by omega⟩
    · unfold Grammar.sequence
      split
      · next heq => exact absurd heq (hs.nextKind_ne (by decide) hclose)
      · next heq => exact absurd heq (hs.nextKind_ne (by decide) hend)
      · exact Except.bind_eq_ok.mpr ⟨_, hread, Except.bind_eq_ok.mpr ⟨_, hreads, rfl⟩⟩
    · exact congrArg₂ List.cons hg hgs

/-- Where a list stands matters to its span alone. -/
theorem list_elsewhere {quotation : Quotation} {mode : Mode} {s : Span} (s' : Span)
    (h : Grammar.list n quotation mode s ts = .ok (f, rest)) :
    ∃ g, Grammar.list n quotation mode s' ts = .ok (g, rest) ∧ g.unplaced = f.unplaced := by
  cases n with
  | zero => simp [Grammar.list] at h
  | succ n =>
    simp only [Grammar.list] at h
    obtain ⟨⟨⟨items, close⟩, ts₁⟩, hitems, h⟩ := Except.bind_eq_ok.mp h
    cases h
    exact ⟨.group quotation (s'.merge close) items, Except.bind_eq_ok.mpr ⟨_, hitems, rfl⟩, rfl⟩

/-- Where no list begins, quoted data are read like any expression. -/
theorem datum_eq_expr {s : Span} (h : nextKind ts ≠ .open) :
    Grammar.datum (n + 1) .quote s ts = Grammar.expr n .quoted ts := by
  unfold Grammar.datum
  dsimp only
  split
  · exact absurd rfl h
  · rfl

theorem datum_succ (ih : AgainAt n) {s : Span} (s' : Span) (h : Grammar.datum (n + 1) .quote s ts = .ok (f, rest))
    (hf : f.Definite) (hs : Spread 0 p outer ts ts') (hfuel : 4 * ts'.length + 1 ≤ fuel) :
    Rereads (Grammar.datum fuel .quote s' ts') (Matches f) p outer rest ts' := by
  obtain ⟨fuel, rfl⟩ : ∃ j, fuel = j + 1 := ⟨fuel - 1, by omega⟩
  by_cases hopen : nextKind ts = .open
  · obtain ⟨span, hts⟩ := exists_of_nextKind hopen (by decide)
    rw [hts] at hs h
    obtain ⟨s₁, rest', rfl, hrest⟩ := hs.open
    simp only [List.length_cons] at hfuel
    obtain ⟨g, rest'', hread, hg, hspread, hlength⟩ := ih.list (s₁.merge s') (by decide) h hf hrest (by omega : _ ≤ fuel)
    exact ⟨g, rest'', hread, hg, hspread, Nat.lt_succ_of_lt hlength⟩
  · rw [datum_eq_expr hopen] at h
    by_cases hopen' : nextKind ts' = .open
    · -- an abbreviation that is spelled out is a list where there was none
      obtain ⟨s₁, hts'⟩ := exists_of_nextKind hopen' (by decide)
      obtain ⟨g, rest'', hread, hg, hspread, hlength⟩ := ih.expr (by decide) h hf hs (by omega : _ ≤ fuel + 1)
      rw [hts'] at hread
      obtain ⟨g', hread', hg'⟩ := list_elsewhere (s₁.merge s') hread
      rw [hts']
      exact ⟨g', rest'', hread', hg'.trans hg, hspread, hts' ▸ hlength⟩
    · rw [datum_eq_expr hopen']
      exact ih.expr (by decide) h hf hs (by omega)

theorem bindings_succ (ih : AgainAt n) {pairs : List (String × Form)} (h : Grammar.bindings (n + 1) ts = .ok (pairs, rest))
    (hf : DefiniteAll (pairs.map (·.2))) (hs : Spread 0 0 (p :: outer) ts ts') (hfuel : 4 * ts'.length + 1 ≤ fuel) :
    Rereads (Grammar.bindings fuel ts') (fun r => r.map (·.1) = pairs.map (·.1) ∧
      unplacedAll (r.map (·.2)) = unplacedAll (pairs.map (·.2))) p outer rest ts' := by
  obtain ⟨fuel, rfl⟩ : ∃ j, fuel = j + 1 := ⟨fuel - 1, by omega⟩
  simp only [Grammar.bindings] at h
  split at h
  · next hclose =>
    cases h
    obtain ⟨span, hts⟩ := exists_of_nextKind hclose (by simp)
    rw [hts] at hs
    obtain ⟨s', rest', rfl, hrest⟩ := hs.close
    exact ⟨[], rest', rfl, ⟨rfl, rfl⟩, hrest, Nat.lt_succ_self _⟩
  · next hclose =>
    obtain ⟨⟨_, ts₁⟩, hopen, h⟩ := Except.bind_eq_ok.mp h
    obtain ⟨⟨name, ts₂⟩, hname, h⟩ := Except.bind_eq_ok.mp h
    obtain ⟨⟨initial, ts₃⟩, hinitial, h⟩ := Except.bind_eq_ok.mp h
    obtain ⟨⟨_, ts₄⟩, hclosed, h⟩ := Except.bind_eq_ok.mp h
    obtain ⟨⟨others, ts₅⟩, hothers, h⟩ := Except.bind_eq_ok.mp h
    cases h
    -- the parentheses are spread as before, so that the same one comes next
    have hnext := hs.nextKind_ne (by decide) hclose
    obtain rfl := expect_eq_ok.mp hopen
    obtain ⟨_, rfl⟩ := expectSymbol_eq_ok.mp hname
    obtain rfl := expect_eq_ok.mp hclosed
    obtain ⟨s₁, rest₁, rfl, hs₁⟩ := hs.open
    obtain ⟨s₂, rest₂, rfl, hs₂⟩ := hs₁.atom rfl
    simp only [List.length_cons] at hfuel
    obtain ⟨g, rest₃, hread, hg, hs₃, hlength⟩ := ih.expr (by decide) hinitial hf.1 hs₂ (by omega : _ ≤ fuel)
    obtain ⟨s₄, rest₄, rfl, hs₄⟩ := hs₃.close
    rw [List.length_cons] at hlength
    obtain ⟨gs, rest₅, hreads, hgs, hs₅, hlength'⟩ := ih.bindings hothers hf.2 hs₄ (by omega : _ ≤ fuel)
    refine ⟨(name, g) :: gs, rest₅, ?_, ⟨?_, ?_⟩, hs₅, by simp only [List.length_cons]; omega⟩
    · unfold Grammar.bindings
      rw [if_neg hnext]
      refine Except.bind_eq_ok.mpr ⟨_, expect_eq_ok.mpr rfl, Except.bind_eq_ok.mpr ⟨_, expectSymbol_eq_ok.mpr ⟨_, rfl⟩, ?_⟩⟩
      refine Except.bind_eq_ok.mpr ⟨_, hread, Except.bind_eq_ok.mpr ⟨_, expect_eq_ok.mpr rfl, ?_⟩⟩
      exact Except.bind_eq_ok.mpr ⟨_, hreads, rfl⟩
    · exact congrArg (name :: ·) hgs.1
    · exact congrArg₂ List.cons hg hgs.2

theorem condition_succ (ih : AgainAt n) {test : Option Form} (h : Grammar.condition (n + 1) ts = .ok (test, rest))
    (hf : DefiniteOption test) (hs : Spread 0 0 outer ts ts') (hfuel : 4 * ts'.length + 1 ≤ fuel) :
    Rereads (Grammar.condition fuel ts') (fun r => unplacedOption r = unplacedOption test) 0 outer rest ts' := by
  obtain ⟨fuel, rfl⟩ : ∃ j, fuel = j + 1 := ⟨fuel - 1, by omega⟩
  have hnext := hs.nextSymbol?
  simp only [Grammar.condition] at h
  split at h
  · next helse =>
    cases h
    obtain ⟨span, hts⟩ := exists_of_nextSymbol? helse
    rw [hts] at hs
    obtain ⟨s', rest', rfl, hrest⟩ := hs.atom rfl
    exact ⟨none, rest', rfl, rfl, hrest, Nat.lt_succ_self _⟩
  · next helse =>
    obtain ⟨⟨form, ts₁⟩, hform, h⟩ := Except.bind_eq_ok.mp h
    cases h
    obtain ⟨g, rest', hread, hg, hspread, hlength⟩ := ih.expr (by decide) hform hf hs (by omega : _ ≤ fuel)
    refine ⟨some g, rest', ?_, congrArg some hg, hspread, hlength⟩
    unfold Grammar.condition
    rw [hnext, if_neg helse]
    exact Except.bind_eq_ok.mpr ⟨_, hread, rfl⟩

theorem clauses_succ (ih : AgainAt n) {cs : List Clause} (h : Grammar.clauses (n + 1) ts = .ok (cs, rest))
    (hf : DefiniteOption (chain cs)) (hs : Spread 0 0 (p :: outer) ts ts') (hfuel : 4 * ts'.length + 1 ≤ fuel) :
    Rereads (Grammar.clauses fuel ts') (fun r => unplacedOption (chain r) = unplacedOption (chain cs)) p outer rest ts' := by
  obtain ⟨fuel, rfl⟩ : ∃ j, fuel = j + 1 := ⟨fuel - 1, by omega⟩
  simp only [Grammar.clauses] at h
  split at h
  · next hclose =>
    cases h
    obtain ⟨span, hts⟩ := exists_of_nextKind hclose (by simp)
    rw [hts] at hs
    obtain ⟨s', rest', rfl, hrest⟩ := hs.close
    exact ⟨[], rest', rfl, rfl, hrest, Nat.lt_succ_self _⟩
  · next hclose =>
    obtain ⟨⟨_, ts₁⟩, hopen, h⟩ := Except.bind_eq_ok.mp h
    obtain ⟨⟨test, ts₂⟩, htest, h⟩ := Except.bind_eq_ok.mp h
    obtain ⟨⟨⟨body, _⟩, ts₃⟩, hbody, h⟩ := Except.bind_eq_ok.mp h
    dsimp only at h
    split at h
    · cases h
    next hfull =>
    obtain ⟨⟨others, ts₄⟩, hothers, h⟩ := Except.bind_eq_ok.mp h
    cases h
    -- the spread text holds the same clause, and what follows it is shorter
    have hnext := hs.nextKind_ne (by decide) hclose
    obtain rfl := expect_eq_ok.mp hopen
    obtain ⟨s₁, rest₁, rfl, hs₁⟩ := hs.open
    simp only [List.length_cons] at hfuel
    obtain ⟨test', rest₂, hread, htest', hs₂, hlength⟩ := ih.condition htest hf.1 hs₁ (by omega : _ ≤ fuel)
    obtain ⟨⟨body', close'⟩, rest₃, hreads, hbody', hs₃, hlength'⟩ :=
      ih.sequence (by decide) hbody hf.2.1 hs₂ (by omega : _ ≤ fuel)
    obtain ⟨others', rest₄, hclauses, hothers', hs₄, hlength''⟩ := ih.clauses hothers hf.2.2 hs₃ (by omega : _ ≤ fuel)
    refine ⟨⟨s₁, test', body'⟩ :: others', rest₄, ?_, ?_, hs₄, by simp only [List.length_cons]; omega⟩
    · unfold Grammar.clauses
      rw [if_neg hnext]
      refine Except.bind_eq_ok.mpr ⟨_, expect_eq_ok.mpr rfl, Except.bind_eq_ok.mpr ⟨_, hread, ?_⟩⟩
      refine Except.bind_eq_ok.mpr ⟨_, hreads, ?_⟩
      dsimp only
      rw [isEmpty_of_unplacedAll hbody', if_neg hfull]
      exact Except.bind_eq_ok.mpr ⟨_, hclauses, rfl⟩
    · simp only [chain, unplacedOption, unplaced, htest', hbody', hothers']

/-- A body is read again, and is not empty again. -/
theorem body (ih : AgainAt n) {form : String} {s : Span} {body : List Form} {close : Span} (s' : Span)
    (h : Grammar.sequence n .code ts = .ok ((body, close), rest)) (hfull : requireBody form s body = .ok ())
    (hf : DefiniteAll body) (hs : Spread 0 0 (p :: outer) ts ts') (hfuel : 4 * ts'.length + 1 ≤ fuel) :
    ∃ body' close' rest', Grammar.sequence fuel .code ts' = .ok ((body', close'), rest') ∧
      requireBody form s' body' = .ok () ∧ unplacedAll body' = unplacedAll body ∧ Spread p 0 outer rest rest' ∧
      rest'.length < ts'.length := by
  obtain ⟨⟨body', close'⟩, rest', hread, hbody, hspread, hlength⟩ := ih.sequence (by decide) h hf hs hfuel
  refine ⟨body', close', rest', hread, ?_, hbody, hspread, hlength⟩
  unfold requireBody at hfull ⊢
  rw [isEmpty_of_unplacedAll hbody]
  split at hfull
  · cases hfull
  · next hne => rw [if_neg hne]

/-- What is quoted in code is no variable. -/
theorem head_of_quote {items : List Form} {close : Span} (h : Grammar.sequence n .code ts = .ok ((items, close), rest))
    (hquote : (nextKind ts).mark?.isSome) (name : String) : (sketchAll items).head? ≠ some (.atom (.variable name)) := by
  cases n with
  | zero => simp [Grammar.sequence] at h
  | succ n =>
    simp only [Grammar.sequence] at h
    split at h
    · next heq => rw [heq] at hquote; cases hquote
    · cases h
    · obtain ⟨⟨first, ts₁⟩, hfirst, h⟩ := Except.bind_eq_ok.mp h
      obtain ⟨⟨⟨others, close'⟩, ts₂⟩, -, h⟩ := Except.bind_eq_ok.mp h
      cases h
      intro heq
      -- what begins with a mark is data, and no variable
      have hvariable : first.sketch = .atom (.variable name) := Option.some.inj heq
      cases n with
      | zero => simp [Grammar.expr] at hfirst
      | succ n =>
        cases ts with
        | nil => cases hfirst
        | cons t ts =>
          obtain ⟨kind, span⟩ := t
          cases kind with
          | quote =>
            rcases datum_cases hfirst with ⟨s, items, rfl⟩ | hlegal
            · cases hvariable
            · exact hlegal.sketch_ne_variable name hvariable
          | unquote => cases hfirst
          | _ => cases hquote

/-! #### Forms that start with a word -/

theorem lambda_succ (ih : AgainAt n) {s s₀ : Span} (s' s₁ : Span)
    (h : Grammar.compound (n + 1) s (⟨.symbol "lambda", s₀⟩ :: ts) = .ok (f, rest)) (hf : f.Definite)
    (hs : Spread 0 0 (p :: outer) ts ts') (hfuel : 4 * ts'.length ≤ fuel) :
    Rereads (Grammar.compound (fuel + 1) s' (⟨.symbol "lambda", s₁⟩ :: ts')) (Matches f) p outer rest ts' := by
  change (if nextKind ts = .open then _ else _) = _ at h
  split at h
  · next hopen =>
    obtain ⟨s₂, hts⟩ := exists_of_nextKind hopen (by decide)
    obtain ⟨⟨names, ts₂⟩, hnames, h⟩ := Except.bind_eq_ok.mp h
    obtain ⟨⟨⟨body, close⟩, ts₃⟩, hbody, h⟩ := Except.bind_eq_ok.mp h
    obtain ⟨_, hfull, h⟩ := Except.bind_eq_ok.mp h
    cases h
    rw [hts] at hs
    obtain ⟨s₃, rest₁, rfl, hs₁⟩ := hs.open
    simp only [List.length_cons] at hfuel
    obtain ⟨names', rest₂, hread, rfl, hs₂, hlength⟩ := rereads_parameters hnames hs₁
    obtain ⟨body', close', rest₃, hreads, hfull', hbody', hs₃, hlength'⟩ := ih.body s' hbody hfull hf hs₂ (by omega : _ ≤ fuel)
    refine ⟨.lambda (s'.merge close') names' body', rest₃, ?_, ?_, hs₃, by simp only [List.length_cons]; omega⟩
    · rw [Grammar.compound]
      exact Except.bind_eq_ok.mpr ⟨_, hread, Except.bind_eq_ok.mpr ⟨_, hreads, Except.bind_eq_ok.mpr ⟨_, hfull', rfl⟩⟩⟩
    · exact congrArg (Form.lambda .unplaced names') hbody'
  · cases h

theorem define_succ (ih : AgainAt n) {s s₀ : Span} (s' s₁ : Span)
    (h : Grammar.compound (n + 1) s (⟨.symbol "define", s₀⟩ :: ts) = .ok (f, rest)) (hf : f.Definite)
    (hs : Spread 0 0 (p :: outer) ts ts') (hfuel : 4 * ts'.length + 1 ≤ fuel) :
    Rereads (Grammar.compound (fuel + 1) s' (⟨.symbol "define", s₁⟩ :: ts')) (Matches f) p outer rest ts' := by
  change (if nextKind ts = .open then _ else _) = _ at h
  split at h
  · next hopen =>
    obtain ⟨s₂, hts⟩ := exists_of_nextKind hopen (by decide)
    obtain ⟨⟨name, ts₁⟩, hname, h⟩ := Except.bind_eq_ok.mp h
    obtain ⟨⟨names, ts₂⟩, hnames, h⟩ := Except.bind_eq_ok.mp h
    obtain ⟨⟨⟨body, close⟩, ts₃⟩, hbody, h⟩ := Except.bind_eq_ok.mp h
    obtain ⟨_, hfull, h⟩ := Except.bind_eq_ok.mp h
    cases h
    obtain ⟨s₃, hts₁⟩ := expectSymbol_eq_ok.mp hname
    rw [hts, show ts.tail = _ from hts₁] at hs
    obtain ⟨s₄, rest₁, rfl, hs₁⟩ := hs.open
    obtain ⟨s₅, rest₂, rfl, hs₂⟩ := hs₁.atom rfl
    simp only [List.length_cons] at hfuel
    obtain ⟨names', rest₃, hread, rfl, hs₃, hlength⟩ := rereads_parameters hnames hs₂
    obtain ⟨body', close', rest₄, hreads, hfull', hbody', hs₄, hlength'⟩ := ih.body s' hbody hfull hf hs₃ (by omega : _ ≤ fuel)
    refine ⟨.procedure s' (s'.merge close') name names' body', rest₄, ?_, ?_, hs₄, by simp only [List.length_cons]; omega⟩
    · rw [Grammar.compound]
      refine Except.bind_eq_ok.mpr ⟨_, expectSymbol_eq_ok.mpr ⟨_, rfl⟩, Except.bind_eq_ok.mpr ⟨_, hread, ?_⟩⟩
      exact Except.bind_eq_ok.mpr ⟨_, hreads, Except.bind_eq_ok.mpr ⟨_, hfull', rfl⟩⟩
    · exact congrArg (Form.procedure .unplaced .unplaced name names') hbody'
  · next hopen =>
    obtain ⟨⟨⟨items, close⟩, ts₁⟩, hitems, h⟩ := Except.bind_eq_ok.mp h
    cases h
    -- a variable comes next, so nothing is spelled out there
    have hopen' : nextKind ts' ≠ .open := by
      rcases hs.nextKind with heq | ⟨hmark, -⟩
      · rwa [heq]
      · obtain ⟨name, hname⟩ := hf.1 rfl rfl
        refine absurd ?_ (head_of_quote hitems hmark name)
        rwa [List.head?_eq_getElem?]
    obtain ⟨⟨items', close'⟩, rest', hread, hitems', hs', hlength⟩ :=
      ih.sequence (by decide) hitems hf.2.2 hs (by omega : _ ≤ fuel)
    refine ⟨.group .code (s'.merge close') (.atom (.keyword "define") :: items'), rest', ?_, ?_, hs', hlength⟩
    · have hcompound : Grammar.compound (fuel + 1) s' (⟨.symbol "define", s₁⟩ :: ts') = _ := if_neg hopen'
      rw [hcompound]
      exact Except.bind_eq_ok.mpr ⟨_, hread, rfl⟩
    · exact congrArg (fun fs => Form.group .code .unplaced (.atom (.keyword "define") :: fs)) hitems'

theorem let_succ (ih : AgainAt n) {s s₀ : Span} (s' s₁ : Span)
    (h : Grammar.compound (n + 1) s (⟨.symbol "let", s₀⟩ :: ts) = .ok (f, rest)) (hf : f.Definite)
    (hs : Spread 0 0 (p :: outer) ts ts') (hfuel : 4 * ts'.length ≤ fuel) :
    Rereads (Grammar.compound (fuel + 1) s' (⟨.symbol "let", s₁⟩ :: ts')) (Matches f) p outer rest ts' := by
  rw [Grammar.compound] at h
  obtain ⟨⟨_, ts₁⟩, hopen, h⟩ := Except.bind_eq_ok.mp h
  obtain ⟨⟨pairs, ts₂⟩, hpairs, h⟩ := Except.bind_eq_ok.mp h
  obtain ⟨⟨⟨body, close⟩, ts₃⟩, hbody, h⟩ := Except.bind_eq_ok.mp h
  obtain ⟨_, hfull, h⟩ := Except.bind_eq_ok.mp h
  cases h
  have hname := hs.nextSymbol?
  obtain ⟨hafter, hshorter⟩ := hs.skipName
  rw [show (if (nextSymbol? ts).isSome then ts.tail else ts) = _ from expect_eq_ok.mp hopen] at hafter
  obtain ⟨s₂, rest₁, hrest₁, hs₁⟩ := hafter.open
  rw [hrest₁, List.length_cons] at hshorter
  obtain ⟨pairs', rest₂, hread, hpairs', hs₂, hlength⟩ := ih.bindings hpairs hf.1 hs₁ (by omega : _ ≤ fuel)
  obtain ⟨body', close', rest₃, hreads, hfull', hbody', hs₃, hlength'⟩ := ih.body s' hbody hfull hf.2 hs₂ (by omega : _ ≤ fuel)
  refine ⟨.letIn s' (s'.merge close') (nextSymbol? ts') (pairs'.map (·.1)) (pairs'.map (·.2)) body', rest₃, ?_, ?_, hs₃, by omega⟩
  · rw [Grammar.compound]
    refine Except.bind_eq_ok.mpr ⟨_, expect_eq_ok.mpr hrest₁, Except.bind_eq_ok.mpr ⟨_, hread, ?_⟩⟩
    exact Except.bind_eq_ok.mpr ⟨_, hreads, Except.bind_eq_ok.mpr ⟨_, hfull', rfl⟩⟩
  · simp only [Matches, unplaced, hname, List.tail_cons, hpairs'.1, hpairs'.2, hbody']

theorem cond_succ (ih : AgainAt n) {s s₀ : Span} (s' s₁ : Span)
    (h : Grammar.compound (n + 1) s (⟨.symbol "cond", s₀⟩ :: ts) = .ok (f, rest)) (hf : f.Definite)
    (hs : Spread 0 0 (p :: outer) ts ts') (hfuel : 4 * ts'.length + 1 ≤ fuel) :
    Rereads (Grammar.compound (fuel + 1) s' (⟨.symbol "cond", s₁⟩ :: ts')) (Matches f) p outer rest ts' := by
  rw [Grammar.compound] at h
  obtain ⟨⟨cs, ts₁⟩, hclauses, h⟩ := Except.bind_eq_ok.mp h
  dsimp only at h
  split at h
  · cases h
  · next form hchain =>
    cases h
    have hdefinite : DefiniteOption (chain cs) := by
      rw [hchain]
      exact hf
    obtain ⟨cs', rest', hread, hcs', hs', hlength⟩ := ih.clauses hclauses hdefinite hs hfuel
    rw [hchain] at hcs'
    -- the clauses that are read again make a chain as well, and the same one
    obtain ⟨form', hform', heq⟩ : ∃ form', chain cs' = some form' ∧ Matches f form' := by
      cases hchain' : chain cs' with
      | none =>
        rw [hchain'] at hcs'
        cases hcs'
      | some form' =>
        rw [hchain'] at hcs'
        exact ⟨form', rfl, Option.some.inj hcs'⟩
    refine ⟨form', rest', ?_, heq, hs', hlength⟩
    rw [Grammar.compound]
    refine Except.bind_eq_ok.mpr ⟨_, hread, ?_⟩
    dsimp only
    rw [hform']
    rfl

theorem quote_succ (ih : AgainAt n) {s s₀ : Span} (s' s₁ : Span)
    (h : Grammar.compound (n + 1) s (⟨.symbol "quote", s₀⟩ :: ts) = .ok (f, rest)) (hf : f.Definite)
    (hs : Spread 0 0 (p :: outer) ts ts') (hfuel : 4 * ts'.length + 1 ≤ fuel) :
    Rereads (Grammar.compound (fuel + 1) s' (⟨.symbol "quote", s₁⟩ :: ts')) (Matches f) p outer rest ts' := by
  rw [Grammar.compound] at h
  obtain ⟨⟨form, ts₁⟩, hform, h⟩ := Except.bind_eq_ok.mp h
  obtain ⟨⟨_, ts₂⟩, hclose, h⟩ := Except.bind_eq_ok.mp h
  cases h
  obtain rfl := expect_eq_ok.mp hclose
  obtain ⟨g, rest₁, hread, hg, hs₁, hlength⟩ := ih.datum s' hform hf hs hfuel
  obtain ⟨s₂, rest₂, rfl, hs₂⟩ := hs₁.close
  refine ⟨g, rest₂, ?_, hg, hs₂, by simp only [List.length_cons] at hlength; omega⟩
  rw [Grammar.compound]
  exact Except.bind_eq_ok.mpr ⟨_, hread, Except.bind_eq_ok.mpr ⟨_, expect_eq_ok.mpr rfl, rfl⟩⟩

/-- **A form in code**, by the word that it starts with. -/
theorem compound_succ (ih : AgainAt n) {s : Span} (s' : Span) (h : Grammar.compound (n + 1) s ts = .ok (f, rest))
    (hf : f.Definite) (hs : Spread 0 0 (p :: outer) ts ts') (hfuel : 4 * ts'.length + 3 ≤ fuel) :
    Rereads (Grammar.compound fuel s' ts') (Matches f) p outer rest ts' := by
  obtain ⟨fuel, rfl⟩ : ∃ j, fuel = j + 1 := ⟨fuel - 1, by omega⟩
  -- a form of its own starts with the same word
  have hstart : ∀ {word : String}, nextSymbol? ts = some word →
      (∀ s₀ s₁ rest', Grammar.compound (n + 1) s (⟨.symbol word, s₀⟩ :: ts.tail) = .ok (f, rest) →
        Spread 0 0 (p :: outer) ts.tail rest' → 4 * rest'.length + 1 ≤ fuel →
        Rereads (Grammar.compound (fuel + 1) s' (⟨.symbol word, s₁⟩ :: rest')) (Matches f) p outer rest rest') →
      Rereads (Grammar.compound (fuel + 1) s' ts') (Matches f) p outer rest ts' := by
    intro word hword hform
    obtain ⟨s₀, hts⟩ := exists_of_nextSymbol? hword
    rw [hts] at hs h
    obtain ⟨s₁, rest₁, rfl, hs₁⟩ := hs.atom rfl
    rw [List.length_cons] at hfuel
    obtain ⟨g, rest₂, hread, hg, hspread, hlength⟩ := hform s₀ s₁ rest₁ h hs₁ (by omega)
    exact ⟨g, rest₂, hread, hg, hspread, Nat.lt_succ_of_lt hlength⟩
  have hcases := h
  simp only [Grammar.compound] at hcases
  split at hcases
  · next hword => exact hstart hword fun _ s₁ _ h hs hfuel => ih.lambda_succ s' s₁ h hf hs (Nat.le_of_succ_le hfuel)
  · next hword => exact hstart hword fun _ s₁ _ h hs hfuel => ih.define_succ s' s₁ h hf hs hfuel
  · next hword => exact hstart hword fun _ s₁ _ h hs hfuel => ih.let_succ s' s₁ h hf hs (Nat.le_of_succ_le hfuel)
  · next hword => exact hstart hword fun _ s₁ _ h hs hfuel => ih.cond_succ s' s₁ h hf hs hfuel
  · next hword => exact hstart hword fun _ s₁ _ h hs hfuel => ih.quote_succ s' s₁ h hf hs hfuel
  · next hlambda hdefine hlet hcond hquote =>
    have hother : ∀ word ∈ ["lambda", "define", "let", "cond", "quote"], nextSymbol? ts' ≠ some word := by
      rw [hs.nextSymbol?]
      simp only [List.forall_mem_cons, List.not_mem_nil, false_implies, implies_true, and_true]
      exact ⟨hlambda, hdefine, hlet, hcond, hquote⟩
    rw [compound_eq hother]
    exact ih.list s' (by decide) hcases hf hs (by omega)

end AgainAt

/-- **Code is read again where its abbreviations are spelled out.** -/
theorem againAt (n : Nat) : AgainAt n := by
  induction n with
  | zero => exact .zero
  | succ n ih =>
    constructor
    case expr => exact fun hmode h hf hs hfuel => ih.expr_succ hmode h hf hs hfuel
    case datum => exact fun s' h hf hs hfuel => ih.datum_succ s' h hf hs hfuel
    case nested => exact fun s' s₂ h hf hs hfuel => ih.nested_succ s' s₂ h hf hs hfuel
    case list => exact fun s' hmode h hf hs hfuel => ih.list_succ s' hmode h hf hs hfuel
    case sequence => exact fun hmode h hf hs hfuel => ih.sequence_succ hmode h hf hs hfuel
    case compound => exact fun s' h hf hs hfuel => ih.compound_succ s' h hf hs hfuel
    case bindings => exact fun h hf hs hfuel => ih.bindings_succ h hf hs hfuel
    case clauses => exact fun h hf hs hfuel => ih.clauses_succ h hf hs hfuel
    case condition => exact fun h hf hs hfuel => ih.condition_succ h hf hs hfuel

end Grammar

end SchemeMachine
