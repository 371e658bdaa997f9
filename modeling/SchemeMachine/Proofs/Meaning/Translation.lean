import SchemeMachine.Proofs.Lowering.Compiled
import SchemeMachine.Proofs.Meaning.Evaluator
import SchemeMachine.Proofs.Syntax.Declaration

/-!
# The pieces of an expression

How the expressions of the core are compiled: `Compiles` relates an expression to its piece, among the lambdas around it.
It is what remains of parsing, scope analysis and lowering for what is proved about runs.

* `Spelt` is the name that a variable has in the code.
* `Compiles` is about expressions, `CompilesForms` about bodies, `CompilesCode` about the code of a lambda, which has a
  block of its own.
* `Compiles.of_lowers` derives it from `Lowers`, for terms that have been respelled by scope, and `Tree.compilesCode` is
  the result for the program of a tree.
-/

namespace SchemeMachine

open Expression

namespace Meaning

/-- **The name that a variable has in the code**: that of its binder, if it has one. A name without a binder stays as it
is, or is taken for one of the top lambda if a form that was dropped defines it. -/
def Spelt (scopes : Term.Chain) (name spelling : String) : Prop :=
  match scopes.binder? name with
  | some M => spelling = Tree.scopedName M name
  | none => isOrdinary name = true ∧ (spelling = name ∨ spelling = Tree.scopedName Tree.top name)

section

variable (t : Tree) (K : Table Handle Constant) (blocks : List Block)

mutual

/-- **The piece of an expression** in the lambda `M`, with the lambdas around it and their names. The flag says whether
the expression is in tail position; calls may be marked as tail calls there only. -/
inductive Compiles : (M : Handle) → (scopes : Term.Chain) → (tail : Bool) → Expression → Piece → Prop
  | literal {M : Handle} {scopes : Term.Chain} {tail : Bool} {x : Term} (hx : x.isData = true) (hk : x.Kept K) :
      Compiles M scopes tail (.literal x) (.push x.child.operand)
  | variable {M : Handle} {scopes : Term.Chain} {tail : Bool} {name spelling : String}
      (hname : Spelt scopes name spelling) : Compiles M scopes tail (.variable name) (.load spelling)
  | primitive {M : Handle} {scopes : Term.Chain} {tail : Bool} {word : String}
      (hword : word ∈ arithmeticWords ++ operationWords) :
      Compiles M scopes tail (.primitive word) (.push (.atom (.keyword word)))
  | lambda {M N : Handle} {scopes : Term.Chain} {tail : Bool} {parameters names : List String}
      {body : List Expression} (hin : t.Inside M N) (hcode : CompilesCode scopes N parameters names body) :
      Compiles M scopes tail (.lambda N parameters names body) (.closure N)
  | call {M : Handle} {scopes : Term.Chain} {tail marked : Bool} {name spelling : String}
      {operands : List Expression} {ps : List Piece} (hmark : marked = true → tail = true)
      (hname : Spelt scopes name spelling) (hargs : CompilesAll M scopes operands ps) :
      Compiles M scopes tail (.call (.variable name) operands) (.call marked (.atom (.variable spelling)) ps)
  | lambdaCall {M N : Handle} {scopes : Term.Chain} {tail marked : Bool} {parameters names : List String}
      {body operands : List Expression} {ps : List Piece} (hmark : marked = true → tail = true) (hin : t.Inside M N)
      (hcode : CompilesCode scopes N parameters names body) (hargs : CompilesAll M scopes operands ps) :
      Compiles M scopes tail (.call (.lambda N parameters names body) operands)
        (.call marked (.label (Handle.label N)) ps)
  | computedCall {M : Handle} {scopes : Term.Chain} {tail marked : Bool} {n : Nat} {operator : Expression}
      {operands : List Expression} {ps : List Piece} (hmark : marked = true → tail = true)
      (hoperator : ∀ name, operator ≠ .variable name) (hargs : CompilesAll M scopes (operator :: operands) ps) :
      Compiles M scopes tail (.call operator operands) (.computedCall marked n ps)
  | define {M : Handle} {scopes : Term.Chain} {tail : Bool} {name : String} {right : Expression} {p : Piece}
      (hname : scopes.binder? name = some M) (hright : CompilesRight M scopes right p) :
      Compiles M scopes tail (.define name right) (.assignment .store (Tree.scopedName M name) p)
  | assign {M : Handle} {scopes : Term.Chain} {tail : Bool} {name spelling : String} {right : Expression} {p : Piece}
      (hname : Spelt scopes name spelling) (hright : CompilesRight M scopes right p) :
      Compiles M scopes tail (.assign name right) (.assignment .set spelling p)
  | conditional {M : Handle} {scopes : Term.Chain} {tail : Bool} {n : Nat} {test yes no : Expression} {p q r : Piece}
      (htest : Compiles M scopes false test p) (hyes : Compiles M scopes tail yes q)
      (hno : Compiles M scopes tail no r) : Compiles M scopes tail (.conditional test yes no) (.conditional n p q r)
  | sequence {M : Handle} {scopes : Term.Chain} {tail : Bool} {forms : List Expression} {ps : List Piece} {p : Piece}
      (hforms : CompilesForms M scopes tail forms ps p) : Compiles M scopes tail (.sequence forms) (.body ps p)
  | display {M : Handle} {scopes : Term.Chain} {tail : Bool} {e : Expression} {p : Piece}
      (he : Compiles M scopes false e p) : Compiles M scopes tail (.operation "display" [e]) (.display p)
  | newline {M : Handle} {scopes : Term.Chain} {tail : Bool} : Compiles M scopes tail (.operation "newline" []) .newline
  | arithmeticNone {M : Handle} {scopes : Term.Chain} {tail : Bool} {word : String} {x : Float}
      (hword : word = "+" ∧ x = 0.0 ∨ word = "*" ∧ x = 1.0) :
      Compiles M scopes tail (.arithmetic word []) (.push (.atom (.number x)))
  | arithmeticNeutral {M : Handle} {scopes : Term.Chain} {tail : Bool} {word : String} {op : Opcode} {x : Float}
      {e : Expression} {p : Piece} (hop : arithmeticOf? word = some op) (hneutral : neutralOf? op = some x)
      (he : Compiles M scopes false e p) :
      Compiles M scopes tail (.arithmetic word [e]) (.arithmetic op (.push (.atom (.number x))) [p])
  | arithmetic {M : Handle} {scopes : Term.Chain} {tail : Bool} {word : String} {op : Opcode} {first : Expression}
      {rest : List Expression} {p : Piece} {ps : List Piece} (hop : arithmeticOf? word = some op) (hpow : op ≠ .pow)
      (hsingle : rest = [] → op = .add ∨ op = .mul) (hfirst : Compiles M scopes false first p)
      (hrest : CompilesAll M scopes rest ps) :
      Compiles M scopes tail (.arithmetic word (first :: rest)) (.arithmetic op p ps)
  | operation {M : Handle} {scopes : Term.Chain} {tail : Bool} {word : String} {op : Opcode}
      {operands : List Expression} {ps : List Piece} (hop : fixedOf? word = some (op, operands.length))
      (hargs : CompilesAll M scopes operands ps) :
      Compiles M scopes tail (.operation word operands) (.primitive op ps)

/-- Expressions in no tail position and their pieces. -/
inductive CompilesAll : (M : Handle) → (scopes : Term.Chain) → List Expression → List Piece → Prop
  | nil {M : Handle} {scopes : Term.Chain} : CompilesAll M scopes [] []
  | cons {M : Handle} {scopes : Term.Chain} {e : Expression} {es : List Expression} {p : Piece} {ps : List Piece}
      (he : Compiles M scopes false e p) (hes : CompilesAll M scopes es ps) : CompilesAll M scopes (e :: es) (p :: ps)

/-- The right side of a definition or an assignment: a lambda stays a label. -/
inductive CompilesRight : (M : Handle) → (scopes : Term.Chain) → Expression → Piece → Prop
  | lambda {M N : Handle} {scopes : Term.Chain} {parameters names : List String} {body : List Expression}
      (hin : t.Inside M N) (hcode : CompilesCode scopes N parameters names body) :
      CompilesRight M scopes (.lambda N parameters names body) (.push (.label (Handle.label N)))
  | other {M : Handle} {scopes : Term.Chain} {e : Expression} {p : Piece} (he : Compiles M scopes false e p) :
      CompilesRight M scopes e p

/-- **The pieces of a body**, the last one apart. -/
inductive CompilesForms : (M : Handle) → (scopes : Term.Chain) → (tail : Bool) → List Expression → List Piece →
    Piece → Prop
  | empty {M : Handle} {scopes : Term.Chain} {tail : Bool} :
      CompilesForms M scopes tail [] [] (.push (.atom (.boolean false)))
  | last {M : Handle} {scopes : Term.Chain} {tail : Bool} {e : Expression} {p : Piece}
      (he : Compiles M scopes tail e p) : CompilesForms M scopes tail [e] [] p
  | skip {M : Handle} {scopes : Term.Chain} {tail : Bool} {e e' : Expression} {es : List Expression} {ps : List Piece}
      {p : Piece} (he : e.isLiteral = true) (hes : CompilesForms M scopes tail (e' :: es) ps p) :
      CompilesForms M scopes tail (e :: e' :: es) ps p
  | form {M : Handle} {scopes : Term.Chain} {tail : Bool} {e e' : Expression} {es : List Expression} {q : Piece}
      {ps : List Piece} {p : Piece} (he : Compiles M scopes false e q)
      (hes : CompilesForms M scopes tail (e' :: es) ps p) : CompilesForms M scopes tail (e :: e' :: es) (q :: ps) p

/-- **The code of a lambda**, which stands in a block. -/
inductive CompilesCode : (scopes : Term.Chain) → (N : Handle) → (parameters names : List String) →
    (body : List Expression) → Prop
  | block {scopes : Term.Chain} {b : Block} {parameters names : List String} {body : List Expression}
      {ps : List Piece} {last : Piece} (hb : b ∈ blocks)
      (hparameters : b.parameters = parameters.map (Tree.scopedName b.handle)) (hnames : ∀ x ∈ parameters, x ∈ names)
      (hbody : b.body = .body ps last)
      (hforms : CompilesForms b.handle ((b.handle, names) :: scopes) true body ps last) :
      CompilesCode scopes b.handle parameters names body

end

end

end Meaning

/-! ### Reading terms and trees -/

namespace Term

/-- **Induction on terms**, with the parts of a term given by membership. -/
theorem induct {P : Term → Prop} (atom : ∀ a, P (.atom a)) (string : ∀ h content, P (.string h content))
    (lambda : ∀ h parameters body, (∀ x ∈ body, P x) → P (.lambda h parameters body))
    (application : ∀ h quotation items, (∀ x ∈ items, P x) → P (.application h quotation items)) (x : Term) : P x := by
  cases x with
  | atom a => exact atom a
  | string h content => exact string h content
  | lambda h parameters body => exact lambda h parameters body fun y _ => induct atom string lambda application y
  | application h quotation items =>
    exact application h quotation items fun y _ => induct atom string lambda application y

mutual

/-- Data have no names that scope analysis could change. -/
theorem respell_of_isData {inner : Handle → String → String} {outer : String → String} {chain : Chain} :
    (x : Term) → x.isData = true → x.respell inner outer chain = x
  | .atom a, h => by
    cases a with
    | «variable» name => cases h
    | _ => rfl
  | .string _ _, _ => rfl
  | .lambda _ _ _, h => nomatch h
  | .application _ quotation items, h => by
    cases quotation with
    | quote => rw [respell, respellAll_of_isData items h]
    | _ => cases h

theorem respellAll_of_isData {inner : Handle → String → String} {outer : String → String} {chain : Chain} :
    (xs : List Term) → isDataAll xs = true → respellAll inner outer chain xs = xs
  | [], _ => rfl
  | x :: xs, h => by
    rw [isDataAll, Bool.and_eq_true] at h
    rw [respellAll, respell_of_isData x h.1, respellAll_of_isData xs h.2]

end

section Respelled

variable {inner : Handle → String → String} {outer : String → String} {chain : Chain} {x : Term} {xs : List Term}

theorem respellAll_eq_nil : respellAll inner outer chain xs = [] ↔ xs = [] := by
  cases xs <;> simp [respellAll]

theorem respellAll_eq_cons {y : Term} {ys : List Term} :
    respellAll inner outer chain xs = y :: ys ↔
      ∃ x xs', xs = x :: xs' ∧ x.respell inner outer chain = y ∧ respellAll inner outer chain xs' = ys := by
  cases xs <;> simp [respellAll]

theorem respell_eq_keyword {word : String} :
    x.respell inner outer chain = .atom (.keyword word) ↔ x = .atom (.keyword word) := by
  cases x with
  | atom a => cases a <;> simp [respell]
  | _ => simp [respell]

theorem respell_eq_variable {w : String} :
    x.respell inner outer chain = .atom (.variable w) ↔
      ∃ v, x = .atom (.variable v) ∧ chain.spell inner outer v = w := by
  cases x with
  | atom a => cases a <;> simp [respell]
  | _ => simp [respell]

theorem respell_eq_lambda {N : Handle} {parameters : List String} {body : List Term} :
    x.respell inner outer chain = .lambda N parameters body ↔ ∃ ps body', x = .lambda N ps body' ∧
      ps.map (inner N) = parameters ∧ respellAll inner outer (chain.enter N ps body') body' = body := by
  cases x with
  | atom a => cases a <;> simp [respell]
  | lambda h ps body' =>
    simp only [respell, lambda.injEq]
    constructor
    · rintro ⟨rfl, rfl, rfl⟩
      exact ⟨ps, body', ⟨rfl, rfl, rfl⟩, rfl, rfl⟩
    · rintro ⟨_, _, ⟨rfl, rfl, rfl⟩, rfl, rfl⟩
      exact ⟨rfl, rfl, rfl⟩
  | _ => simp [respell]

theorem respell_eq_application {h : Handle} {quotation : Quotation} {items : List Term} :
    x.respell inner outer chain = .application h quotation items ↔
      ∃ items', x = .application h quotation items' ∧ respellAll inner outer chain items' = items := by
  cases x with
  | atom a => cases a <;> simp [respell]
  | _ => simp [respell]; try tauto

end Respelled

end Term

namespace Meaning

/-! ### From terms -/

/-- What respelling makes of a name is its name in the code. -/
theorem spelt_spell {chain : Term.Chain} {tops names : List String} {name : String} (hname : isOrdinary name = true)
    (htops : ∀ w ∈ names, w ∈ tops) :
    Spelt (chain ++ [(Tree.top, names)]) name
      (chain.spell Tree.scopedName (Tree.outermost tops Tree.scopedName id) name) := by
  unfold Spelt
  induction chain with
  | nil =>
    by_cases hmem : name ∈ names
    · simp [Term.Chain.binder?, Term.Chain.spell, Tree.outermost, hmem, htops name hmem]
    · by_cases htop : name ∈ tops <;>
        simp [Term.Chain.binder?, Term.Chain.spell, Tree.outermost, hmem, htop, hname]
  | cons frame chain ih =>
    obtain ⟨M, bound⟩ := frame
    by_cases hmem : name ∈ bound
    · simp [Term.Chain.binder?, Term.Chain.spell, hmem]
    · simpa [Term.Chain.binder?, Term.Chain.spell, hmem] using ih

section

variable {t : Tree} {roots : List Term} {p : Program} {blocks : List Block} {tops names : List String}

/-- How names are respelled in a program whose top lambda binds `tops`. -/
def topmost (tops : List String) : String → String := Tree.outermost tops Tree.scopedName id

/-- The lambdas around a term, the top one among them. -/
abbrev scopesOf (names : List String) (chain : Term.Chain) : Term.Chain := chain ++ [(Tree.top, names)]

variable (t p blocks tops names) in
/-- **A term is compiled as the expression that it is**, wherever it stands. -/
def Translates (x : Term) : Prop :=
  ∀ ⦃e : Expression⦄ ⦃chain : Term.Chain⦄ ⦃M : Handle⦄ ⦃bound : List String⦄ ⦃tail : Bool⦄ ⦃q : Piece⦄
    ⦃parent : Option Handle⦄, x.expression? = some e → (scopesOf names chain).head? = some (M, bound) →
    (∀ w ∈ x.defined, w ∈ bound) → (x.respell Tree.scopedName (topmost tops) chain).Placed t parent →
    Lowers t p.constants M tail (x.respell Tree.scopedName (topmost tops) chain) q →
    Compiles t p.constants blocks M (scopesOf names chain) tail e q

variable {chain : Term.Chain} {M : Handle} {bound : List String} {parent : Option Handle} {xs : List Term}
  {es : List Expression}

theorem CompilesAll.of_lowers (hxs : ∀ x ∈ xs, Translates t p blocks tops names x) {qs : List Piece}
    (he : Term.expressions? xs = some es) (hhead : (scopesOf names chain).head? = some (M, bound))
    (hdefined : ∀ w ∈ Term.definedAll xs, w ∈ bound)
    (hplaced : Term.PlacedAll t parent (Term.respellAll Tree.scopedName (topmost tops) chain xs))
    (hl : LowersAll t p.constants M (Term.respellAll Tree.scopedName (topmost tops) chain xs) qs) :
    CompilesAll t p.constants blocks M (scopesOf names chain) es qs := by
  induction xs generalizing es qs with
  | nil =>
    cases he
    cases hl
    exact .nil
  | cons x xs ih =>
    obtain ⟨e, es, hfirst, hes, rfl⟩ := Term.expressions?_cons.mp he
    cases hl with
    | cons hx hrest =>
      refine .cons (hxs x List.mem_cons_self hfirst hhead (fun w hw => hdefined w (List.mem_append_left _ hw)) hplaced.1 hx) ?_
      exact ih (fun y hy => hxs y (List.mem_cons_of_mem x hy)) hes (fun w hw => hdefined w (List.mem_append_right _ hw))
        hplaced.2 hrest

/-- A literal is one before and after its names are respelled. -/
theorem isLiteral_of_respell {x : Term} {e : Expression} (he : x.expression? = some e)
    (h : (x.respell Tree.scopedName (topmost tops) chain).isLiteral = true) : e.isLiteral = true := by
  cases x with
  | atom a =>
    cases a with
    | «variable» name => cases h
    | keyword word =>
      simp only [Term.expression?, Option.ite_none_right_eq_some, Option.some.injEq] at he
      obtain ⟨-, rfl⟩ := he
      rfl
    | _ =>
      cases he
      rfl
  | string h content =>
    cases he
    rfl
  | lambda => cases h
  | application k quotation items =>
    cases quotation with
    | quote =>
      simp only [Term.expression?, Option.ite_none_right_eq_some, Option.some.injEq] at he
      obtain ⟨-, rfl⟩ := he
      rfl
    | _ => cases h

theorem CompilesForms.of_lowers (hxs : ∀ x ∈ xs, Translates t p blocks tops names x) {tail : Bool} {qs : List Piece}
    {q : Piece} (he : Term.expressions? xs = some es) (hhead : (scopesOf names chain).head? = some (M, bound))
    (hdefined : ∀ w ∈ Term.definedAll xs, w ∈ bound)
    (hplaced : Term.PlacedAll t parent (Term.respellAll Tree.scopedName (topmost tops) chain xs))
    (hl : LowersForms t p.constants M tail (Term.respellAll Tree.scopedName (topmost tops) chain xs) qs q) :
    CompilesForms t p.constants blocks M (scopesOf names chain) tail es qs q := by
  induction xs generalizing es qs with
  | nil =>
    cases he
    cases hl
    exact .empty
  | cons x xs ih =>
    obtain ⟨e, es, hfirst, hes, rfl⟩ := Term.expressions?_cons.mp he
    have hx : ∀ {flag : Bool} {r : Piece}, Lowers t p.constants M flag (x.respell Tree.scopedName (topmost tops) chain) r →
        Compiles t p.constants blocks M (scopesOf names chain) flag e r := fun hr =>
      hxs x List.mem_cons_self hfirst hhead (fun w hw => hdefined w (List.mem_append_left _ hw)) hplaced.1 hr
    have hrest : ∀ {rs : List Piece}, LowersForms t p.constants M tail
        (Term.respellAll Tree.scopedName (topmost tops) chain xs) rs q →
        CompilesForms t p.constants blocks M (scopesOf names chain) tail es rs q := fun hr =>
      ih (fun y hy => hxs y (List.mem_cons_of_mem x hy)) hes (fun w hw => hdefined w (List.mem_append_right _ hw))
        hplaced.2 hr
    cases xs with
    | nil =>
      cases hes
      cases hl with
      | last hr => exact .last (hx hr)
    | cons y ys =>
      obtain ⟨e', es', -, -, rfl⟩ := Term.expressions?_cons.mp hes
      cases hl with
      | skip hliteral hr => exact .skip (isLiteral_of_respell hfirst hliteral) (hrest hr)
      | form _ hr hr' => exact .form (hx hr) (hrest hr')

/-- **The body of a lambda is compiled in the lambda's block.** -/
theorem CompilesCode.of_placed (hp : p.Compiled t roots blocks) {N : Handle} {parameters : List String}
    {scopes : Term.Chain} (hscopes : scopesOf names chain = (N, parameters ++ Term.definedAll xs) :: scopes)
    (hxs : ∀ x ∈ xs, Translates t p blocks tops names x) (he : Term.expressions? xs = some es)
    (hplaced : (Term.lambda N (parameters.map (Tree.scopedName N))
      (Term.respellAll Tree.scopedName (topmost tops) chain xs)).Placed t parent) :
    CompilesCode t p.constants blocks scopes N parameters (parameters ++ Term.definedAll xs) es := by
  obtain ⟨hnode, hbody⟩ := hplaced
  obtain ⟨b, hb, rfl⟩ := hp.exists_block hnode
  obtain ⟨body, hblock⟩ := hp.blocks b hb
  obtain ⟨parent', hnode'⟩ := hblock.node
  obtain ⟨ps, last, hpiece, hforms⟩ := hblock.lowered
  have hsame := hnode'.symm.trans hnode
  simp only [Option.some.injEq, Node.lambda.injEq] at hsame
  obtain ⟨-, hparameters, hchildren⟩ := hsame
  obtain rfl := Term.PlacedAll.unique hblock.sits.placed hbody hchildren
  refine .block hb hparameters (fun w hw => List.mem_append_left _ hw) hpiece (hscopes ▸ ?_)
  exact CompilesForms.of_lowers hxs he (by rw [hscopes, List.head?_cons]) (fun w hw => List.mem_append_right _ hw) hbody
    hforms

theorem CompilesRight.of_lowers (hp : p.Compiled t roots blocks) {x : Term} {e : Expression} {q : Piece}
    (hx : Translates t p blocks tops names x)
    (hbody : ∀ N parameters body, x = .lambda N parameters body → ∀ y ∈ body, Translates t p blocks tops names y)
    (he : x.expression? = some e) (hhead : (scopesOf names chain).head? = some (M, bound))
    (hdefined : ∀ w ∈ x.defined, w ∈ bound) (hplaced : (x.respell Tree.scopedName (topmost tops) chain).Placed t parent)
    (hl : LowersRight t p.constants M (x.respell Tree.scopedName (topmost tops) chain) q) :
    CompilesRight t p.constants blocks M (scopesOf names chain) e q := by
  generalize hy : x.respell Tree.scopedName (topmost tops) chain = y at hl hplaced
  cases hl with
  | other _ hq => exact .other (hx he hhead hdefined (hy ▸ hplaced) (hy ▸ hq))
  | lambda hin =>
    obtain ⟨parameters, body, rfl, rfl, rfl⟩ := Term.respell_eq_lambda.mp hy
    simp only [Term.expression?, Option.bind_eq_bind, Option.bind_eq_some_iff, Option.ite_none_right_eq_some,
      Option.some.injEq] at he
    obtain ⟨es, hes, -, rfl⟩ := he
    exact .lambda hin (.of_placed hp rfl (hbody _ _ _ rfl) hes hplaced)

/-! ### Applications -/

/-- The operation of an arithmetic keyword, with the expression that the keyword makes. -/
theorem ofForm?_arithmetic {word : String} {op : Opcode} {e : Expression} (hop : arithmeticOf? word = some op)
    (he : ofForm? word es = some e) : op ≠ .pow ∧ e = .arithmetic word es := by
  unfold arithmeticOf? at hop
  split at hop <;> cases hop <;> simp_all [ofForm?, arithmeticWords, operationWords]

theorem ofForm?_operation {word : String} {op : Opcode} {n : Nat} {e : Expression} (hop : fixedOf? word = some (op, n))
    (he : ofForm? word es = some e) : e = .operation word es := by
  unfold fixedOf? at hop
  split at hop <;> cases hop <;> simp_all [ofForm?, arithmeticWords, operationWords]

/-- What is respelled to one term is one term. -/
theorem respellAll_eq_single {y : Term} (h : Term.respellAll Tree.scopedName (topmost tops) chain xs = [y]) :
    ∃ x, xs = [x] ∧ x.respell Tree.scopedName (topmost tops) chain = y := by
  obtain ⟨x, xs', rfl, hx, hxs⟩ := Term.respellAll_eq_cons.mp h
  rw [Term.respellAll_eq_nil.mp hxs]
  exact ⟨x, rfl, hx⟩

/-- Two terms, the one on the left is respelled to a variable. -/
theorem respellAll_eq_target {w : String} {y : Term}
    (h : Term.respellAll Tree.scopedName (topmost tops) chain xs = [.atom (.variable w), y]) :
    ∃ v x, xs = [.atom (.variable v), x] ∧ chain.spell Tree.scopedName (topmost tops) v = w ∧
      x.respell Tree.scopedName (topmost tops) chain = y := by
  obtain ⟨x, xs', rfl, hx, hxs⟩ := Term.respellAll_eq_cons.mp h
  obtain ⟨v, rfl, hv⟩ := Term.respell_eq_variable.mp hx
  obtain ⟨x', rfl, hx'⟩ := respellAll_eq_single hxs
  exact ⟨v, x', rfl, hv, hx'⟩

/-- The expressions of a target and the term behind it. -/
theorem expressions?_target {v : String} {x : Term} :
    Term.expressions? [.atom (.variable v), x] = some es ↔
      isOrdinary v = true ∧ ∃ e, x.expression? = some e ∧ es = [.variable v, e] := by
  constructor
  · intro h
    obtain ⟨_, _, hv, hrest, rfl⟩ := Term.expressions?_cons.mp h
    obtain ⟨e, he, rfl⟩ := Term.expressions?_single hrest
    simp only [Term.expression?, Option.ite_none_right_eq_some, Option.some.injEq] at hv
    obtain ⟨hv, rfl⟩ := hv
    exact ⟨hv, e, he, rfl⟩
  · rintro ⟨hv, e, he, rfl⟩
    exact Term.expressions?_cons.mpr ⟨_, _, by simp [Term.expression?, hv], Term.expressions?_cons.mpr ⟨e, [], he, rfl, rfl⟩, rfl⟩

/-- An application is no variable. -/
theorem ne_variable_of_application {h : Handle} {quotation : Quotation} {e : Expression}
    (he : (Term.application h quotation xs).expression? = some e) (name : String) : e ≠ .variable name := by
  rintro rfl
  cases quotation with
  | quote => simp [Term.expression?] at he
  | code =>
    cases xs with
    | nil => simp [Term.expression?] at he
    | cons x xs =>
      by_cases hx : ∃ word, x = .atom (.keyword word)
      · obtain ⟨word, rfl⟩ := hx
        obtain ⟨es, -, he⟩ := Term.expression?_form.mp he
        unfold ofForm? at he
        split at he <;> first | cases he | skip
        split at he
        · cases he
        · split at he <;> cases he
      · obtain ⟨_, _, -, -, he⟩ := (Term.expression?_call fun word hword => hx ⟨word, hword⟩).mp he
        cases he
  | _ => cases he

/-- A name that the lambda around binds is called after that lambda. -/
theorem binder?_of_head {v : String} (hhead : (scopesOf names chain).head? = some (M, bound)) (hv : v ∈ bound) :
    (scopesOf names chain).binder? v = some M := by
  cases hscopes : scopesOf names chain with
  | nil =>
    rw [hscopes] at hhead
    cases hhead
  | cons frame outer =>
    rw [hscopes] at hhead
    cases hhead
    simp [Term.Chain.binder?, hv]

theorem Spelt.eq_of_binder {scopes : Term.Chain} {name spelling : String} (h : Spelt scopes name spelling)
    (hb : scopes.binder? name = some M) : spelling = Tree.scopedName M name := by
  unfold Spelt at h
  rwa [hb] at h

variable (t p blocks tops names chain M) in
/-- **The parts of an application are compiled**, in tail position or not, as operands, as a body, and on the right of a
definition. The lambda around binds what the application defines. -/
structure Parts (items : List Term) : Prop where
  one : ∀ {x : Term} {e : Expression} {tail : Bool} {q : Piece}, x ∈ items → x.expression? = some e →
    Lowers t p.constants M tail (x.respell Tree.scopedName (topmost tops) chain) q →
    Compiles t p.constants blocks M (scopesOf names chain) tail e q
  operands : ∀ {xs : List Term} {es : List Expression} {qs : List Piece}, xs <:+ items → Term.expressions? xs = some es →
    LowersAll t p.constants M (Term.respellAll Tree.scopedName (topmost tops) chain xs) qs →
    CompilesAll t p.constants blocks M (scopesOf names chain) es qs
  forms : ∀ {xs : List Term} {es : List Expression} {tail : Bool} {qs : List Piece} {q : Piece}, xs <:+ items →
    Term.expressions? xs = some es →
    LowersForms t p.constants M tail (Term.respellAll Tree.scopedName (topmost tops) chain xs) qs q →
    CompilesForms t p.constants blocks M (scopesOf names chain) tail es qs q
  right : ∀ {x : Term} {e : Expression} {q : Piece}, x ∈ items → x.expression? = some e →
    LowersRight t p.constants M (x.respell Tree.scopedName (topmost tops) chain) q →
    CompilesRight t p.constants blocks M (scopesOf names chain) e q
  code : ∀ {N : Handle} {parameters : List String} {body : List Term} {es : List Expression},
    .lambda N parameters body ∈ items → Term.expressions? body = some es →
    CompilesCode t p.constants blocks (scopesOf names chain) N parameters (parameters ++ Term.definedAll body) es
  binder : ∀ w ∈ Term.definition .code items, (scopesOf names chain).binder? w = some M

theorem Parts.of_translates (hp : p.Compiled t roots blocks) {items : List Term}
    (hitems : ∀ x ∈ items, Translates t p blocks tops names x)
    (hbodies : ∀ x ∈ items, ∀ N parameters body, x = .lambda N parameters body →
      ∀ y ∈ body, Translates t p blocks tops names y) (hhead : (scopesOf names chain).head? = some (M, bound))
    (hdefinition : ∀ w ∈ Term.definition .code items, w ∈ bound) (hdefined : ∀ x ∈ items, ∀ w ∈ x.defined, w ∈ bound)
    (hplaced : ∀ x ∈ items, (x.respell Tree.scopedName (topmost tops) chain).Placed t parent) :
    Parts t p blocks tops names chain M items := by
  -- what holds of every item holds of the items from some place on
  have hdefinedAll : ∀ {xs : List Term}, xs <:+ items → ∀ w ∈ Term.definedAll xs, w ∈ bound := by
    intro xs hxs w hw
    rw [Term.definedAll_eq] at hw
    obtain ⟨x, hx, hw⟩ := List.mem_flatMap.mp hw
    exact hdefined x (hxs.subset hx) w hw
  have hplacedAll : ∀ {xs : List Term}, xs <:+ items →
      Term.PlacedAll t parent (Term.respellAll Tree.scopedName (topmost tops) chain xs) := by
    intro xs hxs
    rw [Term.respellAll_eq]
    refine Term.placedAll_iff.mpr fun y hy => ?_
    obtain ⟨x, hx, rfl⟩ := List.mem_map.mp hy
    exact hplaced x (hxs.subset hx)
  exact {
    one := fun hx he hq => hitems _ hx he hhead (hdefined _ hx) (hplaced _ hx) hq
    operands := fun hxs hes hqs =>
      .of_lowers (fun x hx => hitems x (hxs.subset hx)) hes hhead (hdefinedAll hxs) (hplacedAll hxs) hqs
    forms := fun hxs hes hqs =>
      .of_lowers (fun x hx => hitems x (hxs.subset hx)) hes hhead (hdefinedAll hxs) (hplacedAll hxs) hqs
    right := fun hx he hq => .of_lowers hp (hitems _ hx) (hbodies _ hx) he hhead (hdefined _ hx) (hplaced _ hx) hq
    code := fun hx hes => .of_placed hp rfl (hbodies _ hx _ _ _ rfl) hes (hplaced _ hx)
    binder := fun w hw => binder?_of_head hhead (hdefinition w hw) }

/-- **Calls are compiled**: of a variable, of a lambda, and of what another application yields. -/
theorem Parts.call {h : Handle} {x : Term} {e : Expression} {tail : Bool} {q : Piece}
    (hparts : Parts t p blocks tops names chain M (x :: xs)) (htops : ∀ w ∈ names, w ∈ tops)
    (hx : ∀ word, x ≠ .atom (.keyword word)) (he : (Term.application h .code (x :: xs)).expression? = some e)
    (hl : Lowers t p.constants M tail (.application h .code (x.respell Tree.scopedName (topmost tops) chain ::
      Term.respellAll Tree.scopedName (topmost tops) chain xs)) q) :
    Compiles t p.constants blocks M (scopesOf names chain) tail e q := by
  obtain ⟨f, fs, hf, hfs, rfl⟩ := (Term.expression?_call hx).mp he
  have hall : ∀ {qs : List Piece}, LowersAll t p.constants M (Term.respellAll Tree.scopedName (topmost tops) chain xs) qs →
      CompilesAll t p.constants blocks M (scopesOf names chain) fs qs := hparts.operands (List.suffix_cons _ _) hfs
  generalize hy : x.respell Tree.scopedName (topmost tops) chain = y at hl
  generalize Term.respellAll Tree.scopedName (topmost tops) chain xs = ys at hl hall
  -- respelling keeps the kind of the operator, and thereby the kind of the call
  cases hl with
  | call hmark hargs =>
    obtain ⟨v, rfl, rfl⟩ := Term.respell_eq_variable.mp hy
    simp only [Term.expression?, Option.ite_none_right_eq_some, Option.some.injEq] at hf
    obtain ⟨hv, rfl⟩ := hf
    exact .call hmark (spelt_spell hv htops) (hall hargs)
  | lambdaCall hmark hin hargs =>
    obtain ⟨parameters, body, rfl, rfl, rfl⟩ := Term.respell_eq_lambda.mp hy
    simp only [Term.expression?, Option.bind_eq_bind, Option.bind_eq_some_iff, Option.ite_none_right_eq_some,
      Option.some.injEq] at hf
    obtain ⟨es, hes, -, rfl⟩ := hf
    exact .lambdaCall hmark hin (hparts.code List.mem_cons_self hes) (hall hargs)
  | computedCall hmark hargs =>
    obtain ⟨inner, rfl, rfl⟩ := Term.respell_eq_application.mp hy
    cases hargs with
    | cons hoperator hargs =>
      rw [← hy] at hoperator
      exact .computedCall hmark (ne_variable_of_application hf)
        (.cons (hparts.one List.mem_cons_self hf hoperator) (hall hargs))
  | _ => exact absurd (Term.respell_eq_keyword.mp hy) (hx _)

/-- **Forms are compiled**, those of the core. -/
theorem Parts.form {h : Handle} {word : String} {e : Expression} {tail : Bool} {q : Piece}
    (hparts : Parts t p blocks tops names chain M (.atom (.keyword word) :: xs)) (htops : ∀ w ∈ names, w ∈ tops)
    (hes : Term.expressions? xs = some es) (he : ofForm? word es = some e)
    (hl : Lowers t p.constants M tail (.application h .code (.atom (.keyword word) ::
      Term.respellAll Tree.scopedName (topmost tops) chain xs)) q) :
    Compiles t p.constants blocks M (scopesOf names chain) tail e q := by
  generalize hxs : Term.respellAll Tree.scopedName (topmost tops) chain xs = ys at hl
  cases hl with
  | define hright =>
    obtain ⟨v, x, rfl, hv, rfl⟩ := respellAll_eq_target hxs
    obtain ⟨hordinary, f, hf, rfl⟩ := expressions?_target.mp hes
    cases he
    have hbinder := hparts.binder v List.mem_cons_self
    obtain ⟨-, rfl⟩ := Tree.scopedName_inj (hv.symm.trans ((spelt_spell hordinary htops).eq_of_binder hbinder))
    exact .define hbinder (hparts.right (by simp) hf hright)
  | assign hright =>
    obtain ⟨v, x, rfl, rfl, rfl⟩ := respellAll_eq_target hxs
    obtain ⟨hordinary, f, hf, rfl⟩ := expressions?_target.mp hes
    cases he
    exact .assign (spelt_spell hordinary htops) (hparts.right (by simp) hf hright)
  | conditional htest hyes hno =>
    obtain ⟨x, xs, rfl, rfl, hrest⟩ := Term.respellAll_eq_cons.mp hxs
    obtain ⟨y, xs, rfl, rfl, hlast⟩ := Term.respellAll_eq_cons.mp hrest
    obtain ⟨z, rfl, rfl⟩ := respellAll_eq_single hlast
    obtain ⟨f, _, hf, hgs, rfl⟩ := Term.expressions?_cons.mp hes
    obtain ⟨g, _, hg, hks, rfl⟩ := Term.expressions?_cons.mp hgs
    obtain ⟨k, hk, rfl⟩ := Term.expressions?_single hks
    cases he
    exact .conditional (hparts.one (by simp) hf htest) (hparts.one (by simp) hg hyes) (hparts.one (by simp) hk hno)
  | conditionalShort htest hyes =>
    obtain ⟨x, xs, rfl, rfl, hlast⟩ := Term.respellAll_eq_cons.mp hxs
    obtain ⟨y, rfl, rfl⟩ := respellAll_eq_single hlast
    obtain ⟨f, _, hf, hgs, rfl⟩ := Term.expressions?_cons.mp hes
    obtain ⟨g, hg, rfl⟩ := Term.expressions?_single hgs
    cases he
    exact .conditional (hparts.one (by simp) hf htest) (hparts.one (by simp) hg hyes)
      (.literal (x := .atom (.boolean false)) rfl trivial)
  | sequence hforms =>
    subst hxs
    cases he
    exact .sequence (hparts.forms (List.suffix_cons _ _) hes hforms)
  | display hx =>
    obtain ⟨x, rfl, rfl⟩ := respellAll_eq_single hxs
    obtain ⟨f, hf, rfl⟩ := Term.expressions?_single hes
    cases he
    exact .display (hparts.one (by simp) hf hx)
  | newline =>
    obtain rfl := Term.respellAll_eq_nil.mp hxs
    cases hes
    cases he
    exact .newline
  | arithmeticNone hword =>
    obtain rfl := Term.respellAll_eq_nil.mp hxs
    cases hes
    rcases hword with ⟨rfl, rfl⟩ | ⟨rfl, rfl⟩
    · cases he
      exact .arithmeticNone (.inl ⟨rfl, rfl⟩)
    · cases he
      exact .arithmeticNone (.inr ⟨rfl, rfl⟩)
  | arithmeticNeutral hop hneutral hx =>
    obtain ⟨x, rfl, rfl⟩ := respellAll_eq_single hxs
    obtain ⟨-, rfl⟩ := ofForm?_arithmetic hop he
    obtain ⟨f, hf, rfl⟩ := Term.expressions?_single hes
    exact .arithmeticNeutral hop hneutral (hparts.one (by simp) hf hx)
  | arithmetic hop hsingle hx hrest =>
    obtain ⟨x, xs, rfl, rfl, rfl⟩ := Term.respellAll_eq_cons.mp hxs
    obtain ⟨hpow, rfl⟩ := ofForm?_arithmetic hop he
    obtain ⟨f, fs, hf, hfs, rfl⟩ := Term.expressions?_cons.mp hes
    refine .arithmetic hop hpow (fun hnil => hsingle ?_) (hparts.one (by simp) hf hx)
      (hparts.operands ((List.suffix_cons _ _).trans (List.suffix_cons _ _)) hfs hrest)
    subst hnil
    rw [List.length_eq_zero_iff.mp (Term.length_expressions? hfs), Term.respellAll]
  | primitive hop hargs =>
    subst hxs
    obtain rfl := ofForm?_operation hop he
    have hlength : (Term.respellAll Tree.scopedName (topmost tops) chain xs).length = es.length := by
      rw [Term.respellAll_eq, List.length_map, Term.length_expressions? hes]
    exact .operation (hlength ▸ hop) (hparts.operands (List.suffix_cons _ _) hes hargs)
  -- the other forms are not of the core
  | @connectiveNone _ conjunction | @connective _ conjunction =>
    cases conjunction <;> exact absurd (ofForm?_word he) (by decide)
  | callWithContinuation | callLambdaWithContinuation | fork => exact absurd (ofForm?_word he) (by decide)
  | declaration hword => rcases hword with rfl | rfl <;> exact absurd (ofForm?_word he) (by decide)

/-- **Applications.** -/
theorem Translates.application (hp : p.Compiled t roots blocks) (htops : ∀ w ∈ names, w ∈ tops) {h : Handle}
    {quotation : Quotation} {items : List Term} (hitems : ∀ x ∈ items, Translates t p blocks tops names x)
    (hbodies : ∀ x ∈ items, ∀ N parameters body, x = .lambda N parameters body →
      ∀ y ∈ body, Translates t p blocks tops names y) :
    Translates t p blocks tops names (.application h quotation items) := by
  -- data are constants; code is a form, if it begins with a keyword, and a call otherwise
  intro e chain M bound tail q parent he hhead hdefined hplaced hl
  cases quotation with
  | quasiquote => cases he
  | unquote => cases he
  | quote =>
    simp only [Term.expression?, Option.ite_none_right_eq_some, Option.some.injEq] at he
    obtain ⟨hdata, rfl⟩ := he
    rw [Term.respell, Term.respellAll_of_isData items hdata] at hl
    cases hl with
    | quote hk => exact .literal (x := .application h .quote items) hdata hk
  | code =>
    obtain ⟨hdefinition, hdefined⟩ : (∀ w ∈ Term.definition .code items, w ∈ bound) ∧
        ∀ w ∈ Term.definedAll items, w ∈ bound := List.forall_mem_append.mp hdefined
    rw [Term.respell] at hl hplaced
    rw [Term.definedAll_eq] at hdefined
    rw [Term.respellAll_eq] at hplaced
    have hparts : Parts t p blocks tops names chain M items :=
      .of_translates hp hitems hbodies hhead hdefinition
        (fun x hx w hw => hdefined w (List.mem_flatMap.mpr ⟨x, hx, hw⟩))
        (fun x hx => Term.placedAll_iff.mp hplaced.2 _ (List.mem_map.mpr ⟨x, hx, rfl⟩))
    cases items with
    | nil => simp [Term.expression?] at he
    | cons x xs =>
      by_cases hx : ∃ word, x = .atom (.keyword word)
      · obtain ⟨word, rfl⟩ := hx
        obtain ⟨es, hes, he⟩ := Term.expression?_form.mp he
        exact hparts.form htops hes he hl
      · exact hparts.call htops (fun word hword => hx ⟨word, hword⟩) he hl

/-- **Every term is compiled as the expression that it is.** -/
theorem translates (hp : p.Compiled t roots blocks) (htops : ∀ w ∈ names, w ∈ tops) (x : Term) :
    Translates t p blocks tops names x := by
  -- a lambda at the head of a call or on the right of a definition is compiled by way of its body
  suffices h : Translates t p blocks tops names x ∧ ∀ N parameters body, x = .lambda N parameters body →
      ∀ y ∈ body, Translates t p blocks tops names y from h.1
  induction x using Term.induct with
  | atom a =>
    refine ⟨?_, fun _ _ _ h => by cases h⟩
    intro e chain M bound tail q parent he hhead hdefined hplaced hl
    cases a with
    | «variable» name =>
      simp only [Term.expression?, Option.ite_none_right_eq_some, Option.some.injEq] at he
      obtain ⟨hname, rfl⟩ := he
      cases hl with
      | «variable» => exact .variable (spelt_spell hname htops)
      | literal h => cases h
    | keyword word =>
      simp only [Term.expression?, Option.ite_none_right_eq_some, Option.some.injEq] at he
      obtain ⟨hword, rfl⟩ := he
      cases hl with
      | keyword => exact .primitive hword
      | literal h => cases h
    | _ =>
      cases he
      cases hl with
      | literal h => exact .literal (x := .atom _) h trivial
  | string h content =>
    refine ⟨?_, fun _ _ _ h => by cases h⟩
    intro e chain M bound tail q parent he hhead hdefined hplaced hl
    cases he
    cases hl with
    | string hk => exact .literal (x := .string h content) rfl hk
  | lambda h parameters body ih =>
    refine ⟨?_, ?_⟩
    · intro e chain M bound tail q parent he hhead hdefined hplaced hl
      simp only [Term.expression?, Option.bind_eq_bind, Option.bind_eq_some_iff, Option.ite_none_right_eq_some,
        Option.some.injEq] at he
      obtain ⟨es, hes, -, rfl⟩ := he
      cases hl with
      | lambda hin => exact .lambda hin (.of_placed hp rfl (fun y hy => (ih y hy).1) hes hplaced)
    · rintro _ _ _ ⟨⟩ y hy
      exact (ih y hy).1
  | application h quotation items ih =>
    exact ⟨.application hp htops (fun x hx => (ih x hx).1) fun x hx => (ih x hx).2,
      fun _ _ _ h => by cases h⟩

end

/-! ### Programs -/

end Meaning

namespace Tree

variable {t t' : Tree}

theorem mapM_child {α : Type} {f : Child → Option α} {g : Term → α} {xs : List Term} (h : ∀ x ∈ xs, f x.child = some (g x)) :
    (xs.map Term.child).mapM f = some (xs.map g) := by
  induction xs with
  | nil => rfl
  | cons x xs ih =>
    rw [List.map_cons, List.mapM_cons, h x List.mem_cons_self, ih fun y hy => h y (List.mem_cons_of_mem x hy)]
    rfl

/-- **A tree is read as the terms that it holds.** -/
theorem term?_of_placed {x : Term} {parent : Option Handle} {fuel : Nat} (hx : x.Placed t parent)
    (hfuel : x.handles.length < fuel) : t.term? fuel x.child = some x := by
  obtain ⟨fuel, rfl⟩ := Nat.exists_eq_succ_of_ne_zero (Nat.ne_of_gt (Nat.lt_of_le_of_lt (Nat.zero_le _) hfuel))
  induction x using Term.induct generalizing parent fuel with
  | atom a => rfl
  | string h content =>
    rw [Term.child, term?, show t.get? h = _ from hx]
  | _ h _ xs ih =>
    rw [Term.child, term?, hx.1]
    dsimp only
    rw [mapM_child (g := id) fun y hy => ?_, List.map_id]
    · rfl
    · have hle := (Term.handles_sublist hy).length_le
      rw [Term.handles, List.length_cons] at hfuel
      obtain ⟨fuel, rfl⟩ : ∃ n, fuel = n + 1 := ⟨fuel - 1, by omega⟩
      exact ih y hy (Term.placedAll_iff.mp hx.2 y hy) fuel (by omega)

/-- **The expression of a tree** is that of the program that it holds. -/
theorem Holds.expression?_eq {body strays : List Term} (hh : t.Holds (.lambda Tree.top [] body :: strays)) :
    t.expression? = (Term.lambda Tree.top [] body).expression? := by
  have hfuel : (Term.lambda Tree.top [] body).handles.length < t.size + 1 := by
    have hlength := hh.handles.length_eq
    rw [Term.handlesAll, List.length_append, List.length_range] at hlength
    omega
  have hterm := term?_of_placed hh.placed.1 hfuel
  rw [expression?, show t.term? _ (.node Tree.top) = _ from hterm, Option.bind_some]

end Tree

/-- No expression declares a native library. -/
theorem Term.declared_of_expression? {x : Term} {e : Expression} (he : x.expression? = some e) : x.declared = none := by
  cases hd : x.declared with
  | none => rfl
  | some library =>
    obtain ⟨h, quotation, rfl⟩ := Term.declared_eq_some.mp hd
    cases quotation with
    | code =>
      obtain ⟨fs, -, he⟩ := Term.expression?_form.mp he
      simp [ofForm?, arithmeticWords, operationWords] at he
    | _ => cases he

namespace Meaning

variable {t : Tree} {source : String} {p : Program}

/-- **The program of a source text declares no natives** if it is an expression. -/
theorem natives_compile {e : Expression} (ht : Tree.parse source = .ok t) (he : t.expression? = some e)
    (hp : Program.compile source = .ok p) : p.natives = {} := by
  obtain ⟨u, hu, hp⟩ := Except.bind_eq_ok.mp hp
  cases ht.symm.trans hu
  obtain ⟨t', hanalyse, hp⟩ := Except.bind_eq_ok.mp hp
  obtain ⟨program, hprogram, hp⟩ := Except.bind_eq_ok.mp hp
  cases hp
  obtain ⟨tokens, forms, -, hforms, rfl⟩ := Tree.parse_eq_ok.mp ht
  have hlegal := Form.legal_parse hforms
  -- no form at the top declares a library
  obtain ⟨body, strays, hholds, hbecome, -⟩ := Tree.holds_ofForms hlegal
  rw [hholds.expression?_eq] at he
  simp only [Term.expression?, Option.bind_eq_bind, Option.bind_eq_some_iff] at he
  obtain ⟨es, hes, -⟩ := he
  have hnone : (Form.sketchAll forms).filterMap Term.declared = [] := by
    rw [← hbecome.sketch, Term.blankAll_eq, List.filterMap_map, List.filterMap_eq_nil_iff]
    intro x hx
    obtain ⟨f, hf⟩ := Term.exists_expression? hes hx
    exact (Term.declared_blank x).trans (Term.declared_of_expression? hf)
  show program.natives = {}
  have hnatives : program.natives = t'.natives := by
    obtain ⟨lowered, hlowered, hprogram⟩ := Except.bind_eq_ok.mp hprogram
    obtain ⟨labels, -, hprogram⟩ := Except.bind_eq_ok.mp hprogram
    cases hprogram
    replace hlowered := Except.mapError_eq_ok.mp hlowered
    unfold Program.ofTree at hlowered
    split at hlowered
    · obtain ⟨⟨blocks, stock⟩, -, hlowered⟩ := Except.bind_eq_ok.mp hlowered
      cases hlowered
      rfl
    · cases hlowered
  rw [hnatives, (Tree.declarations_analyse hlegal hanalyse).1, (Tree.declarations_ofForms hlegal).1, hnone]
  rfl

/-- **The program of a source text is compiled as the expression that its tree is.** -/
theorem compilesCode {e : Expression} (ht : Tree.parse source = .ok t) (he : t.expression? = some e)
    (hp : Program.compile source = .ok p) :
    ∃ t' roots blocks names body, p.Compiled t' roots blocks ∧ e = .lambda Tree.top [] names body ∧
      CompilesCode t' p.constants blocks [] Tree.top [] names body := by
  obtain ⟨t', roots, blocks, hanalyse, hcompiled⟩ := Program.compiled_compile hp
  rw [ht] at hanalyse
  obtain ⟨tokens, forms, -, hforms, rfl⟩ := Tree.parse_eq_ok.mp ht
  obtain ⟨body, strays, hholds, -, hanalysed⟩ := Tree.holds_ofForms (Form.legal_parse hforms)
  obtain ⟨u, hu, hs, rfl⟩ := hholds.analyse_eq_ok hanalysed hanalyse
  have hheld := hholds.of_scopes hu
  -- analysis respells the body by scope
  have hbody : Term.renameAll u.newName Tree.top body =
      Term.respellAll Tree.scopedName (topmost (Term.definedAll body ++ Term.definedAll strays)) [] body := by
    refine hheld.renameAll_eq hs (Term.EachAll.imp (fun M w _ => ?_) body hheld.occurs)
    rw [Tree.newName, Tree.spelling]
    cases u.resolve M w <;> rfl
  have hplaced := (hheld.renameVariables hs).1.placed.1
  rw [Term.rename, hbody] at hplaced
  rw [hholds.expression?_eq] at he
  simp only [Term.expression?, Option.bind_eq_bind, Option.bind_eq_some_iff, Option.ite_none_right_eq_some,
    Option.some.injEq] at he
  obtain ⟨es, hes, -, rfl⟩ := he
  refine ⟨_, roots, blocks, _, es, hcompiled, rfl, ?_⟩
  exact .of_placed hcompiled rfl (fun x _ => translates hcompiled (fun w hw => List.mem_append_left _ hw) x) hes
    (hplaced.congr fun _ _ => rfl)

end Meaning

end SchemeMachine
