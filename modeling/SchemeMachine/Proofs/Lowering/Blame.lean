import SchemeMachine.Proofs.Lowering.Spec
import SchemeMachine.Proofs.Syntax.Hole

/-!
# What lowering takes for a comma outside of templates

The parser and lowering look for commas outside of templates each in its own way: the parser by the mode in which it reads,
lowering by the kinds of the nodes. Lowering finds fault with the holes that are astray in the tree, and with nothing else.

* `Lowering.Blames` says of a computation that a comma which it finds outside of templates is a hole that is astray. The
  rules after it put computations together, and the lemmas about each function follow its cases.
* `Lowering.Coded` is a term of code, in no template.
* `Lowering.blames_node` is the result for a node, `Tree.compile_agrees_on_holes` for a program.
-/

namespace SchemeMachine

open Term (PlacedAll LegalAll placedAll_iff legalAll_iff)

namespace Lowering

/-- **A computation blames stray holes only**: where it fails for a comma outside of templates, the place that it names is that
of a hole that is astray. -/
def Blames {α : Type} (t : Tree) (m : Lower α) : Prop :=
  ∀ s span, m.run s = .error (.unquoteOutsideQuasiquote span) → ∃ h, t.Astray h ∧ span = t.spans.find? h

section Rules

variable {α β : Type} {t : Tree} {m : Lower α} {f : α → Lower β}

theorem Blames.pure (a : α) : Blames t (pure a : Lower α) := by
  intro s span hrun
  cases hrun

theorem Blames.throw {e : LowerError} (he : ∀ span, e ≠ LowerError.unquoteOutsideQuasiquote span) :
    Blames t (throw e : Lower α) := by
  intro s span hrun
  cases hrun
  exact absurd rfl (he span)

/-- The fault of a hole that is astray. -/
theorem blames_astray {h : Handle} (hastray : t.Astray h) :
    Blames t (throw (.unquoteOutsideQuasiquote (t.spans.find? h)) : Lower α) := by
  intro s span hrun
  cases hrun
  exact ⟨h, hastray, rfl⟩

theorem Blames.throw_bind {e : LowerError} (he : ∀ span, e ≠ LowerError.unquoteOutsideQuasiquote span) :
    Blames t ((MonadExcept.throw e : Lower α) >>= f) := by
  intro s span hrun
  cases hrun
  exact absurd rfl (he span)

/-- **One computation after the other.** -/
theorem Blames.bind (hm : Blames t m) (hf : ∀ a, Blames t (f a)) : Blames t (m >>= f) := by
  intro s span hrun
  rw [StateT.run_bind] at hrun
  rcases Except.bind_eq_error.mp hrun with hrun | ⟨⟨a, s'⟩, -, hrun⟩
  · exact hm s span hrun
  · exact hf a s' span hrun

theorem Blames.map {g : α → β} (hm : Blames t m) : Blames t (do return g (← m)) := hm.bind fun _ => .pure _

/-- One computation for each item of a list. -/
theorem Blames.mapM {f : β → Lower α} {xs : List β} (h : ∀ x ∈ xs, Blames t (f x)) : Blames t (xs.mapM f) := by
  induction xs with
  | nil => exact .pure _
  | cons x xs ih =>
    obtain ⟨hx, hxs⟩ := List.forall_mem_cons.mp h
    rw [List.mapM_cons]
    exact hx.bind fun _ => (ih hxs).map

theorem blames_freshLabel : Blames t freshLabel := by
  intro s span hrun
  cases hrun

theorem blames_freshConstant (c : Constant) : Blames t (freshConstant c) := by
  intro s span hrun
  cases hrun

theorem blames_addConstant (h : Handle) (c : Constant) : Blames t (addConstant h c) := by
  intro s span hrun
  cases hrun

end Rules

variable {t : Tree} {below : Handle → Lower Piece} {h : Handle} {parent : Option Handle}

/-! ### Quoted data -/

/-- **Quoted data.** If they stand in a template, they have no hole. -/
theorem blames_constantList (fuel : Nat) {quotation : Quotation} {items : List Term}
    (hp : (Term.application h quotation items).Placed t parent) (hl : LegalAll .data items)
    (hnone : t.InTemplate (some h) → hasHole t fuel h = false) : Blames t (constantList t fuel h) := by
  induction fuel generalizing h parent quotation items with
  | zero => exact .throw nofun
  | succ fuel ih =>
    unfold constantList
    rw [hp.1]
    -- the items one after the other; noting the list itself cannot fail
    refine Blames.bind (.mapM (List.forall_mem_map.mpr fun x hx => ?_)) fun ops => blames_addConstant h _
    have hpx := placedAll_iff.mp hp.2 x hx
    have hlx := legalAll_iff.mp hl x hx
    cases x with
    | atom a => exact .pure _
    | string k content =>
      simp only [Term.child]
      rw [show t.get? k = _ from hpx]
      exact (blames_addConstant k _).bind fun _ => .pure _
    | lambda k parameters body => cases hlx.1
    | application k quotation' items' =>
      -- a template that is found to have no hole has none in this list
      have hinner : t.InTemplate (some h) → quotation' ≠ .unquote ∧ hasHole t fuel k = false := by
        intro hin
        have hnone := hnone hin
        simp only [hasHole, hp.1, List.any_eq_false, List.mem_filterMap] at hnone
        have hk := hnone k ⟨.node k, List.mem_map.mpr ⟨_, hx, rfl⟩, rfl⟩
        simp only [hpx.1, Bool.or_eq_true, decide_eq_true_eq, not_or, Bool.not_eq_true] at hk
        exact hk
      simp only [Term.child]
      rw [hpx.1]
      cases quotation' with
      | code => cases hlx.1
      | quasiquote => cases hlx.1
      | unquote =>
        have hastray : t.Astray k := ⟨_, _, hpx.1, fun hin => (hinner hin).1 rfl⟩
        exact (blames_astray hastray).bind fun _ => .pure _
      | quote =>
        have hlist := ih hpx hlx.2 fun hin => (hinner ((Tree.inTemplate_iff hpx.1).mp hin)).2
        exact hlist.bind fun _ => .pure _

/-! ### Terms of code -/

/-- **A term of code**, below a node whose items stand in no template. -/
structure Coded (t : Tree) (parent : Handle) (x : Term) : Prop where
  placed : x.Placed t (some parent)
  legal : x.Legal .code
  outside : ¬ t.InTemplate (some parent)

/-- A quoted list in code. -/
theorem Coded.constantList {p : Handle} {items : List Term} (hx : Coded t p (.application h .quote items)) (fuel : Nat) :
    Blames t (constantList t fuel h) :=
  blames_constantList fuel hx.placed hx.legal.2 fun hin => (hx.outside ((Tree.inTemplate_iff hx.placed.1).mp hin)).elim

/-- The items of an application in code, or of a hole. -/
theorem coded_items {quotation : Quotation} {items : List Term} (hp : (Term.application h quotation items).Placed t parent)
    (hq : quotation = .code ∨ quotation = .unquote) (hl : LegalAll .code items) : ∀ x ∈ items, Coded t h x := by
  intro x hx
  refine ⟨placedAll_iff.mp hp.2 x hx, legalAll_iff.mp hl x hx, fun hin => ?_⟩
  have hopens := (Tree.inTemplate_iff hp.1).mp hin
  rcases hq with rfl | rfl <;> exact hopens

/-- The pieces of the nodes below blame stray holes only. -/
def BlamesBelow (t : Tree) (below : Handle → Lower Piece) : Prop :=
  ∀ parent x h, Coded t parent x → x.child = .node h → Blames t (below h)

theorem blames_child (hb : BlamesBelow t below) {p : Handle} {x : Term} (hx : Coded t p x) :
    Blames t (child below x.child) := by
  cases x with
  | atom a =>
    cases a with
    | keyword word =>
      simp only [Term.child, child]
      split
      · exact .pure _
      · exact .throw (by simp)
    | _ => exact .pure _
  | string k content => exact hb p _ k hx rfl
  | lambda k parameters body => exact hb p _ k hx rfl
  | application k quotation items => exact hb p _ k hx rfl

/-! ### Forms

What a form does with its parts is the same whatever these are: nothing is blamed but in the parts. -/

section Parts

variable {cs : List Child}

theorem blames_children (hcs : ∀ c ∈ cs, Blames t (child below c)) : Blames t (children below cs) := by
  induction cs with
  | nil => exact .pure _
  | cons c cs ih =>
    obtain ⟨hc, hrest⟩ := List.forall_mem_cons.mp hcs
    exact hc.bind fun _ => (ih hrest).map

theorem blames_forms (hcs : ∀ c ∈ cs, Blames t (child below c)) : Blames t (forms t below cs) := by
  induction cs with
  | nil => exact .pure _
  | cons c cs ih =>
    obtain ⟨hc, hrest⟩ := List.forall_mem_cons.mp hcs
    cases cs with
    | nil => exact hc.map
    | cons d ds =>
      rw [forms]
      split
      · exact ih hrest
      · exact hc.bind fun _ => (ih hrest).bind fun _ => .pure _
      · simp

theorem blames_body (hcs : ∀ c ∈ cs, Blames t (child below c)) : Blames t (body t below cs) :=
  (blames_forms hcs).bind fun _ => .pure _

theorem blames_rightSide {right : Child} (hright : Blames t (child below right)) : Blames t (rightSide t below right) := by
  unfold rightSide
  split
  · split
    · exact .pure _
    · exact hright
  · exact hright

theorem blames_assignment {op : Opcode} {fault : LowerError} (hcs : ∀ c ∈ cs, Blames t (child below c))
    (hfault : ∀ span, fault ≠ LowerError.unquoteOutsideQuasiquote span) : Blames t (assignment t below op fault cs) := by
  unfold assignment
  split
  · next name right =>
    have hright : right ∈ [.atom (.variable name), right] := List.mem_cons_of_mem _ List.mem_cons_self
    exact (blames_rightSide (hcs right hright)).map
  · exact .throw hfault

theorem blames_conditional {test yes : Child} {no : Option Child} (htest : Blames t (child below test))
    (hyes : Blames t (child below yes)) (hno : ∀ c ∈ no, Blames t (child below c)) :
    Blames t (conditional below test yes no) := by
  refine blames_freshLabel.bind fun n => htest.bind fun p => ?_
  cases no with
  | none => exact (Blames.pure _).bind fun _ => hyes.map
  | some c => exact (hno c rfl).bind fun _ => hyes.map

theorem blames_connective {conjunction : Bool} (hcs : ∀ c ∈ cs, Blames t (child below c)) :
    Blames t (connective t below conjunction cs) := by
  unfold connective
  split
  · exact .pure _
  · next last hlast =>
    refine blames_freshLabel.bind fun n => Blames.bind (blames_children fun c hc => ?_) fun ps => ?_
    · exact hcs c (List.mem_of_mem_dropLast hc)
    · exact (hcs last (List.mem_of_getLast? hlast)).map

theorem blames_callWithContinuation {span : Option Span} : Blames t (callWithContinuation t span cs) := by
  unfold callWithContinuation
  split
  · exact blames_freshLabel.map
  · split
    · exact blames_freshLabel.map
    · exact .throw nofun
  · exact .throw nofun

theorem blames_primitive {word : String} {op : Opcode} {expected : Nat} {span : Option Span}
    (hcs : ∀ c ∈ cs, Blames t (child below c)) : Blames t (primitive below word op expected span cs) := by
  unfold primitive
  split
  · exact (blames_children hcs).map
  · exact .throw nofun

theorem blames_arithmetic {word : String} {op : Opcode} {span : Option Span} (hcs : ∀ c ∈ cs, Blames t (child below c)) :
    Blames t (arithmetic below word op span cs) := by
  unfold arithmetic
  split
  · split <;> first | exact .pure _ | exact .throw nofun
  · next single =>
    have hsingle := hcs single List.mem_cons_self
    split <;> first | exact hsingle.map | exact .throw nofun
  · next first rest =>
    obtain ⟨hfirst, hrest⟩ := List.forall_mem_cons.mp hcs
    exact hfirst.bind fun _ => (blames_children hrest).map

/-- **The piece of a form.** -/
theorem blames_form {word : String} (hcs : ∀ c ∈ cs, Blames t (child below c)) (hfork : ∀ span, Blames t (forking t span cs)) :
    Blames t (form t below h word cs) := by
  unfold form
  dsimp only
  -- one case for each word, in the order of the definition
  split
  · exact blames_assignment hcs (by simp)
  · exact blames_assignment hcs (by simp)
  -- `if`, without and with a third part
  · split
    · simp only [List.forall_mem_cons] at hcs
      exact blames_conditional hcs.1 hcs.2.1 (by simp)
    · next test yes no =>
      simp only [List.forall_mem_cons] at hcs
      refine blames_conditional hcs.1 hcs.2.1 fun c hc => ?_
      cases hc
      exact hcs.2.2.1
    · exact .throw (by simp)
  · exact blames_connective hcs
  · exact blames_connective hcs
  · exact blames_body hcs
  · exact blames_callWithContinuation
  · exact hfork _
  -- `display` and `newline`
  · split
    · next c => exact (hcs c List.mem_cons_self).map
    · exact .throw (by simp)
  · split
    · exact .pure _
    · exact .throw (by simp)
  · exact .pure _
  · exact .pure _
  · exact blames_arithmetic hcs
  · exact blames_arithmetic hcs
  · exact blames_arithmetic hcs
  · exact blames_arithmetic hcs
  · exact blames_arithmetic hcs
  · exact blames_arithmetic hcs
  · exact blames_primitive hcs
  · exact blames_primitive hcs
  · exact blames_primitive hcs
  · exact blames_primitive hcs
  · exact blames_primitive hcs
  · exact blames_primitive hcs
  · exact blames_primitive hcs
  · exact blames_primitive hcs
  · exact blames_primitive hcs
  · exact .throw (by simp)

end Parts

/-! ### Nodes -/

theorem blames_forking {p : Handle} {span : Option Span} {xs : List Term} (hxs : ∀ x ∈ xs, Coded t p x) :
    Blames t (forking t span (xs.map Term.child)) := by
  unfold forking
  split
  · next k hsingle =>
    obtain ⟨x, rfl, hx⟩ : ∃ x, xs = [x] ∧ x.child = .node k := by
      obtain ⟨x, rest, rfl, hx, hrest⟩ := List.map_eq_cons_iff.mp hsingle
      exact ⟨x, by rw [List.map_eq_nil_iff.mp hrest], hx⟩
    have hx' := hxs x List.mem_cons_self
    cases x with
    | atom a => cases hx
    | string j content =>
      cases hx
      rw [show t.get? k = _ from hx'.placed]
      exact (blames_addConstant k _).bind fun _ => .pure _
    | lambda j parameters body =>
      cases hx
      rw [hx'.placed.1]
      exact .throw_bind nofun
    | application j quotation items =>
      cases hx
      rw [hx'.placed.1]
      cases quotation with
      | quote => exact (hx'.constantList _).bind fun _ => .pure _
      | _ => exact .throw_bind nofun
  · exact .throw nofun

/-- **The piece of an application.** -/
theorem blames_application {xs : List Term} (hcs : ∀ c ∈ xs.map Term.child, Blames t (child below c))
    (hxs : ∀ x ∈ xs, Coded t h x) : Blames t (application t below h (xs.map Term.child)) := by
  cases xs with
  | nil => exact .throw (by simp)
  | cons x xs =>
    obtain ⟨hx, hrest⟩ := List.forall_mem_cons.mp hxs
    obtain ⟨-, hargs⟩ := List.forall_mem_cons.mp hcs
    cases hc : x.child with
    | atom a =>
      rw [List.map_cons, hc]
      cases a with
      | keyword word => exact blames_form hargs fun span => blames_forking hrest
      | «variable» name => exact (blames_children hargs).map
      | _ => exact .throw (by simp)
    | node k =>
      rw [List.map_cons, hc] at hcs ⊢
      simp only [application]
      split
      · exact (blames_children hargs).map
      · exact blames_freshLabel.bind fun _ => (blames_children hcs).map
      · exact .throw (by simp)

/-- **The piece of a template.** The holes in it are where they may be. -/
theorem blames_template (hb : BlamesBelow t below) (fuel : Nat) {quotation : Quotation} {items : List Term}
    (hp : (Term.application h quotation items).Placed t parent) (hl : LegalAll .data items)
    (hin : t.InTemplate (some h)) : Blames t (template t below fuel h) := by
  induction fuel generalizing h parent quotation items with
  | zero => exact .throw nofun
  | succ fuel ih =>
    unfold template
    split
    -- with holes: each item is either data, a list of the same template, or a hole with code in it
    · rw [hp.1]
      refine Blames.bind (.mapM (List.forall_mem_map.mpr fun x hx => ?_)) fun ps => (blames_freshConstant _).map
      have hpx := placedAll_iff.mp hp.2 x hx
      have hlx := legalAll_iff.mp hl x hx
      cases x with
      | atom a => exact .pure _
      | string k content =>
        simp only [Term.child]
        rw [show t.get? k = _ from hpx]
        exact (blames_addConstant k _).map
      | lambda k parameters body => cases hlx.1
      | application k quotation' items' =>
        simp only [Term.child]
        rw [hpx.1]
        cases quotation' with
        | code => cases hlx.1
        | quasiquote => cases hlx.1
        | quote => exact ih hpx hlx.2 ((Tree.inTemplate_iff hpx.1).mpr hin)
        | unquote =>
          obtain ⟨y, rfl⟩ := List.length_eq_one_iff.mp hlx.1
          exact blames_child hb (coded_items hpx (Or.inr rfl) hlx.2 y List.mem_cons_self)
    -- without holes: the list is quoted data, and stands in a template
    · next hnone =>
      have hlist := blames_constantList (t.size + 1) hp hl fun _ => Bool.eq_false_of_not_eq_true hnone
      exact hlist.map

/-- **The piece of a node.** A hole in code is astray. -/
theorem blames_nodeWith (hb : BlamesBelow t below) : BlamesBelow t (nodeWith t below) := by
  intro p x h hx hc
  unfold nodeWith
  cases x with
  | atom a => cases hc
  | string k content =>
    cases hc
    rw [show t.get? h = _ from hx.placed]
    exact (blames_addConstant h _).map
  | lambda k parameters body =>
    cases hc
    rw [hx.placed.1]
    exact .pure _
  | application k quotation items =>
    cases hc
    rw [hx.placed.1]
    have hl := hx.legal
    cases quotation with
    | code =>
      have hitems := coded_items hx.placed (Or.inl rfl) hl.2
      exact blames_application (List.forall_mem_map.mpr fun y hy => blames_child hb (hitems y hy)) hitems
    | quote => exact (hx.constantList _).map
    | quasiquote => exact blames_template hb _ hx.placed hl.2.2 (.list hx.placed.1)
    | unquote => exact blames_astray ⟨_, _, hx.placed.1, hx.outside⟩

/-- **The piece of a node, at any depth.** -/
theorem blames_node (t : Tree) (fuel : Nat) : BlamesBelow t (node t fuel) := by
  induction fuel with
  | zero => exact fun _ _ _ _ _ => .throw nofun
  | succ fuel ih => exact blames_nodeWith ih

theorem blames_lambdaBlocks {roots : List Term} (ha : t.Analysed roots) (hs : List Handle) : Blames t (lambdaBlocks t hs) := by
  induction hs with
  | nil => exact .pure _
  | cons h hs ih =>
    unfold lambdaBlocks
    split
    · next p parameters children hnode =>
      obtain ⟨body, rfl, hsits, -⟩ := sitsAll_body ha hnode
      -- what stands below a lambda stands in no template
      refine Blames.bind (blames_body (List.forall_mem_map.mpr fun x hx => ?_)) fun _ => ih.map
      exact blames_child (blames_node t _) ⟨placedAll_iff.mp hsits.placed x hx, legalAll_iff.mp hsits.legal x hx,
        Tree.not_inTemplate_of_lambda hnode⟩
    · exact ih

end Lowering

namespace Tree

/-- **Lowering finds fault with commas that are astray**, and names their places. -/
theorem Analysed.astray_of_compile {t : Tree} {roots : List Term} (ha : t.Analysed roots) {span : Option Span}
    (h : t.compile = .error (.lower (.unquoteOutsideQuasiquote span))) : ∃ h, t.Astray h ∧ span = t.spans.find? h := by
  -- compiling fails in lowering, since this fault is none of the labels
  have hprogram : Program.ofTree t = .error (.unquoteOutsideQuasiquote span) := by
    rcases Except.bind_eq_error.mp h with h | ⟨program, -, h⟩
    · cases hprogram : Program.ofTree t with
      | error e => rw [hprogram] at h; cases h; rfl
      | ok program => rw [hprogram] at h; cases h
    · rcases Except.bind_eq_error.mp h with h | ⟨table, -, h⟩
      · cases htable : LabelTable.ofCode program.code with
        | error e => rw [htable] at h; cases h
        | ok table => rw [htable] at h; cases h
      · cases h
  -- in lowering it is the blocks that fail, one of which holds the comma
  rw [Program.ofTree, if_pos ha.analysed] at hprogram
  rcases Except.bind_eq_error.mp hprogram with hblocks | ⟨_, -, hrest⟩
  · exact Lowering.blames_lambdaBlocks ha _ _ span hblocks
  · cases hrest

/-- **The parser and lowering agree on where a comma may stand** in a program whose backquotes stand at lists and atoms:
what the parser takes is never refused as a comma outside of templates. In any program that is parsed and analysed, what is
refused so is a hole that is astray, and the fault names its place. -/
theorem compile_agrees_on_holes {source : String} {tokens : List Token} {t t' : Tree}
    (hscan : Token.scan source = .ok tokens) (hparse : Tree.parse source = .ok t) (hanalyse : t.analyse = .ok t') :
    (Token.PlainTemplates (tokens.map (·.kind)) →
      ∀ span, t'.compile ≠ .error (.lower (.unquoteOutsideQuasiquote span))) ∧
    ∀ span, t'.compile = .error (.lower (.unquoteOutsideQuasiquote span)) → ∃ h, t.Astray h ∧ span = t.spans.find? h := by
  obtain ⟨roots, hholds, hnew⟩ := holds_parse hparse
  obtain ⟨_, -, -, -, hanalysed⟩ := hholds.analyse hnew hanalyse
  have hblame : ∀ span, t'.compile = .error (.lower (.unquoteOutsideQuasiquote span)) →
      ∃ h, t.Astray h ∧ span = t.spans.find? h := by
    intro span hfault
    obtain ⟨h, hastray, rfl⟩ := hanalysed.astray_of_compile hfault
    -- scope analysis moves no comma
    obtain ⟨hastray, hspan⟩ := hastray.of_analyse hholds hnew hanalyse
    exact ⟨h, hastray, hspan⟩
  refine ⟨fun hplain span hfault => ?_, hblame⟩
  obtain ⟨h, hastray, -⟩ := hblame span hfault
  exact not_astray_of_parse hscan hparse hplain h hastray

/-- A hole in a list that is nested in a template; and a hole right after a backquote, which is refused where it stands. -/
theorem compile_agrees_on_holes_nested :
    (∃ tokens t t', Token.scan "(display \x60(a (b ,'c)))" = .ok tokens ∧ parse "(display \x60(a (b ,'c)))" = .ok t ∧
      t.analyse = .ok t' ∧ ∀ span, t'.compile ≠ .error (.lower (.unquoteOutsideQuasiquote span))) ∧
    ∃ tokens t t', Token.scan "(display \x60,#t)" = .ok tokens ∧ parse "(display \x60,#t)" = .ok t ∧ t.analyse = .ok t' ∧
      t'.compile = .error (.lower (.unquoteOutsideQuasiquote (some ⟨10, 11, 1, 11⟩))) ∧
      ∃ h, t.Astray h ∧ some ⟨10, 11, 1, 11⟩ = t.spans.find? h := by
  constructor
  · -- a hole in data that a backquoted list holds
    let tokens : List Token := [⟨.open, 0, 1, 1, 1⟩, ⟨.symbol "display", 1, 8, 1, 2⟩, ⟨.quasiquote, 9, 10, 1, 10⟩,
      ⟨.open, 10, 11, 1, 11⟩, ⟨.symbol "a", 11, 12, 1, 12⟩, ⟨.open, 13, 14, 1, 14⟩, ⟨.symbol "b", 14, 15, 1, 15⟩,
      ⟨.unquote, 16, 17, 1, 17⟩, ⟨.quote, 17, 18, 1, 18⟩, ⟨.symbol "c", 18, 19, 1, 19⟩, ⟨.close, 19, 20, 1, 20⟩,
      ⟨.close, 20, 21, 1, 21⟩, ⟨.close, 21, 22, 1, 22⟩, ⟨.endOfText, 22, 22, 1, 23⟩]
    let t : Tree :=
      { nodes := #[.lambda none [] [.node 1], .application (some 0) .code [.atom (.keyword "display"), .node 2],
          .application (some 1) .quasiquote [.atom (.symbol "a"), .node 3],
          .application (some 2) .quote [.atom (.symbol "b"), .node 4],
          .application (some 3) .unquote [.atom (.symbol "c")]]
        spans := ⟨[(1, ⟨0, 22, 1, 1⟩), (2, ⟨9, 21, 1, 11⟩), (3, ⟨13, 20, 1, 14⟩), (4, ⟨16, 17, 1, 17⟩)]⟩ }
    have hscan : Token.scan "(display \x60(a (b ,'c)))" = .ok tokens := by decide +kernel
    have hparse : parse "(display \x60(a (b ,'c)))" = .ok t := by decide +kernel
    have hanalyse : t.analyse = .ok { t with scopes := ⟨[(0, {})]⟩, analysed := true } := by decide
    have hplain : Token.PlainTemplates (tokens.map (·.kind)) := by
      unfold Token.PlainTemplates
      decide
    exact ⟨_, _, _, hscan, hparse, hanalyse, (compile_agrees_on_holes hscan hparse hanalyse).1 hplain⟩
  · let tokens : List Token := [⟨.open, 0, 1, 1, 1⟩, ⟨.symbol "display", 1, 8, 1, 2⟩, ⟨.quasiquote, 9, 10, 1, 10⟩,
      ⟨.unquote, 10, 11, 1, 11⟩, ⟨.boolean true, 11, 13, 1, 12⟩, ⟨.close, 13, 14, 1, 14⟩, ⟨.endOfText, 14, 14, 1, 15⟩]
    let t : Tree :=
      { nodes := #[.lambda none [] [.node 1], .application (some 0) .code [.atom (.keyword "display"), .node 2],
          .application (some 1) .unquote [.atom (.boolean true)]]
        spans := ⟨[(1, ⟨0, 14, 1, 1⟩), (2, ⟨10, 11, 1, 11⟩)]⟩ }
    have hscan : Token.scan "(display \x60,#t)" = .ok tokens := by decide +kernel
    have hparse : parse "(display \x60,#t)" = .ok t := by decide +kernel
    have hanalyse : t.analyse = .ok { t with scopes := ⟨[(0, {})]⟩, analysed := true } := by decide
    have hcompile : compile { t with scopes := ⟨[(0, {})]⟩, analysed := true } =
        .error (.lower (.unquoteOutsideQuasiquote (some ⟨10, 11, 1, 11⟩))) := by decide
    exact ⟨_, _, _, hscan, hparse, hanalyse, hcompile, (compile_agrees_on_holes hscan hparse hanalyse).2 _ hcompile⟩

/-- **A comma right after a backquote passes the parser and the analysis**, and is then refused. -/
theorem compile_refuses_hole : ∃ t t', parse "(display \x60,#t)" = .ok t ∧ t.analyse = .ok t' ∧
    t'.compile = .error (.lower (.unquoteOutsideQuasiquote (some ⟨10, 11, 1, 11⟩))) :=
  ⟨{ nodes := #[.lambda none [] [.node 1], .application (some 0) .code [.atom (.keyword "display"), .node 2],
       .application (some 1) .unquote [.atom (.boolean true)]]
     spans := ⟨[(1, ⟨0, 14, 1, 1⟩), (2, ⟨10, 11, 1, 11⟩)]⟩ }, _, by decide +kernel, rfl, by decide +kernel⟩

end Tree

end SchemeMachine
