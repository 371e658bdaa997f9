import SchemeMachine.Compilation
import SchemeMachine.Proofs.Syntax.Grammar

/-!
# What lowering depends on

Lowering looks at the nodes of a tree, at its marks for tail calls and at its renamings; the places of its nodes matter
to errors alone, which show them. Trees with the same nodes lower to the same pieces, but for the tail calls, or not at all
for the same reason.

* `Tree.Retells` compares two trees, `Piece.retail` and `Block.retail` change what is a tail call.
* `LowerError.unplaced` is a fault without its place.
* `Lowering.Maps` says that a computation does what another does, but for a change of its answer; there is one lemma
  for each function of the lowering.
* `Tree.Retells.blocks` is the result, `Tree.compile_of_spans` what it says of programs.
-/

namespace SchemeMachine

/-- **The fault without its place.** -/
def LowerError.unplaced : LowerError → LowerError
  | .notAnalysed => .notAnalysed
  | .malformedDefine _ => .malformedDefine none
  | .malformedSet _ => .malformedSet none
  | .malformedIf _ => .malformedIf none
  | .malformedCallCc _ => .malformedCallCc none
  | .malformedFork _ => .malformedFork none
  | .notCallable what _ => .notCallable what none
  | .arity form expected got _ => .arity form expected got none
  | .unquoteOutsideQuasiquote _ => .unquoteOutsideQuasiquote none
  | .emptyApplication _ => .emptyApplication none
  | .unexpectedKeyword keyword _ => .unexpectedKeyword keyword none

/-- **Trees that lower alike**, where `tail` says of which tail calls the second has the marks. -/
structure Tree.Retells (tail : Bool → Bool) (t u : Tree) : Prop where
  nodes : u.nodes = t.nodes
  renamings : u.renamings = t.renamings
  tailCalls : ∀ h, u.tailCalls.contains h = tail (t.tailCalls.contains h)
  unmarked : tail false = false

namespace Tree.Retells

variable {tail : Bool → Bool} {t u : Tree} (hu : t.Retells tail u)

include hu

theorem get? (h : Handle) : u.get? h = t.get? h := by simp only [Tree.get?, hu.nodes]

theorem size : u.size = t.size := by simp only [Tree.size, hu.nodes]

theorem lambdas : u.lambdas = t.lambdas := by simp only [Tree.lambdas, Tree.handles, hu.size, hu.get?]

theorem writtenName : u.writtenName = t.writtenName := by
  funext name
  simp only [Tree.writtenName, hu.renamings]

theorem render (h : Handle) : u.render h = t.render h := by
  -- rendering goes down the nodes, and writes the names as both trees have them
  have hnode : ∀ fuel quoted h, u.renderNode t.writtenName fuel quoted h = t.renderNode t.writtenName fuel quoted h := by
    intro fuel
    induction fuel with
    | zero => exact fun quoted h => rfl
    | succ fuel ih =>
      intro quoted h
      simp only [Tree.renderNode, hu.get?, ih]
  rw [Tree.render, Tree.render, Tree.renderWith, Tree.renderWith, hu.writtenName, hu.size, hnode]

end Tree.Retells

namespace Piece

mutual

/-- **A piece with other tail calls.** -/
def retail (tail : Bool → Bool) : Piece → Piece
  | .push operand => .push operand
  | .load name => .load name
  | .closure h => .closure h
  | .call isTail target args => .call (tail isTail) target (retailAll tail args)
  | .computedCall isTail n operands => .computedCall (tail isTail) n (retailAll tail operands)
  | .assignment op name right => .assignment op name (right.retail tail)
  | .conditional n test yes no => .conditional n (test.retail tail) (yes.retail tail) (no.retail tail)
  | .connective conjunction n clauses last returns =>
    .connective conjunction n (retailAll tail clauses) (last.retail tail) (tail returns)
  | .body forms last => .body (retailAll tail forms) (last.retail tail)
  | .callWithContinuation n target => .callWithContinuation n target
  | .fork h => .fork h
  | .display shown => .display (shown.retail tail)
  | .newline => .newline
  | .declaration => .declaration
  | .primitive op args => .primitive op (retailAll tail args)
  | .arithmetic op first rest => .arithmetic op (first.retail tail) (retailAll tail rest)
  | .template items empty => .template (retailAll tail items) empty

/-- Pieces with other tail calls. -/
def retailAll (tail : Bool → Bool) : List Piece → List Piece
  | [] => []
  | p :: ps => p.retail tail :: retailAll tail ps

end

theorem retailAll_eq_map (tail : Bool → Bool) (ps : List Piece) : retailAll tail ps = ps.map (retail tail) := by
  induction ps with
  | nil => rfl
  | cons p ps ih => rw [retailAll, ih, List.map_cons]

mutual

theorem retail_id : (p : Piece) → p.retail id = p
  | .push _ | .load _ | .closure _ | .callWithContinuation _ _ | .fork _ | .newline | .declaration => rfl
  | .call _ _ args => by rw [retail, retailAll_id args, id]
  | .computedCall _ _ operands => by rw [retail, retailAll_id operands, id]
  | .assignment _ _ right => by rw [retail, retail_id right]
  | .conditional _ test yes no => by rw [retail, retail_id test, retail_id yes, retail_id no]
  | .connective _ _ clauses last _ => by rw [retail, retailAll_id clauses, retail_id last, id]
  | .body forms last => by rw [retail, retailAll_id forms, retail_id last]
  | .display shown => by rw [retail, retail_id shown]
  | .primitive _ args => by rw [retail, retailAll_id args]
  | .arithmetic _ first rest => by rw [retail, retail_id first, retailAll_id rest]
  | .template items _ => by rw [retail, retailAll_id items]

theorem retailAll_id : (ps : List Piece) → retailAll id ps = ps
  | [] => rfl
  | p :: ps => by rw [retailAll, retail_id p, retailAll_id ps]

end

end Piece

/-- A block with other tail calls. -/
def Block.retail (tail : Bool → Bool) (b : Block) : Block := { b with body := b.body.retail tail }

theorem Block.retail_id (b : Block) : b.retail id = b := by rw [Block.retail, Piece.retail_id]

namespace Lowering

/-- **A computation that does what another does**: it answers what `f` makes of the answer of the other, or fails for the
same reason. -/
structure Maps {α β : Type} (f : α → β) (x : Lower α) (y : Lower β) : Prop where
  answer : ∀ s a s', x.run s = .ok (a, s') → y.run s = .ok (f a, s')
  fault : ∀ s e, x.run s = .error e → ∃ e', y.run s = .error e' ∧ e'.unplaced = e.unplaced

section Rules

variable {α β γ δ : Type} {f : α → β} {g : γ → δ} {x x' : Lower α} {y y' : Lower β} {k : α → Lower γ} {l : β → Lower δ}

theorem Maps.refl (x : Lower α) : Maps id x x := ⟨fun _ _ _ h => h, fun _ e h => ⟨e, h, rfl⟩⟩

theorem Maps.pure {a : α} {b : β} (h : b = f a) : Maps f (pure a) (pure b) where
  answer := by
    subst h
    intro s a' s' hrun
    cases hrun
    rfl
  fault := by
    intro s e hrun
    cases hrun

theorem Maps.throw {e e' : LowerError} (h : e'.unplaced = e.unplaced) : Maps f (throw e) (throw e') where
  answer := by
    intro s a s' hrun
    cases hrun
  fault := by
    intro s d hrun
    cases hrun
    exact ⟨e', rfl, h⟩

theorem Maps.ite {c : Prop} [Decidable c] (h : Maps f x y) (h' : Maps f x' y') :
    Maps f (if c then x else x') (if c then y else y') := by
  split
  · exact h
  · exact h'

/-- One computation after the other. -/
theorem Maps.bind (hx : Maps f x y) (hk : ∀ a, Maps g (k a) (l (f a))) : Maps g (x >>= k) (y >>= l) where
  answer := by
    intro s b s'' hrun
    rw [StateT.run_bind] at hrun ⊢
    obtain ⟨⟨a, s'⟩, hfirst, hrest⟩ := Except.bind_eq_ok.mp hrun
    exact Except.bind_eq_ok.mpr ⟨_, hx.answer s a s' hfirst, (hk a).answer s' b s'' hrest⟩
  fault := by
    intro s e hrun
    rw [StateT.run_bind] at hrun ⊢
    rcases Except.bind_eq_error.mp hrun with hfirst | ⟨⟨a, s'⟩, hfirst, hrest⟩
    · obtain ⟨e', he', hsame⟩ := hx.fault s e hfirst
      exact ⟨e', Except.bind_eq_error.mpr (.inl he'), hsame⟩
    · obtain ⟨e', he', hsame⟩ := (hk a).fault s' e hrest
      exact ⟨e', Except.bind_eq_error.mpr (.inr ⟨_, hx.answer s a s' hfirst, he'⟩), hsame⟩

/-- A computation whose answer is wrapped up. -/
theorem Maps.map {u : α → γ} {v : β → δ} (hx : Maps f x y) (h : ∀ a, v (f a) = g (u a)) :
    Maps g (do return u (← x)) (do return v (← y)) :=
  hx.bind fun a => .pure (h a)

theorem Maps.mapM {cs : List Child} {p : Child → Lower α} {q : Child → Lower β} (h : ∀ c, Maps f (p c) (q c)) :
    Maps (List.map f) (cs.mapM p) (cs.mapM q) := by
  induction cs with
  | nil => exact .pure rfl
  | cons c cs ih =>
    rw [List.mapM_cons, List.mapM_cons]
    exact (h c).bind fun a => ih.bind fun as => .pure rfl

end Rules

variable {tail : Bool → Bool} {t u : Tree}

/-! ### Quoted data -/

theorem hasHole_retold (hu : t.Retells tail u) (fuel : Nat) (h : Handle) : hasHole u fuel h = hasHole t fuel h := by
  induction fuel generalizing h with
  | zero => rfl
  | succ fuel ih => simp only [hasHole, hu.get?, ih]

theorem maps_constantList (hu : t.Retells tail u) (fuel : Nat) (h : Handle) :
    Maps id (constantList t fuel h) (constantList u fuel h) := by
  induction fuel generalizing h with
  | zero => exact .throw rfl
  | succ fuel ih =>
    unfold constantList
    rw [hu.get?]
    split
    · refine (Maps.mapM (f := id) fun c => ?_).bind fun items => ?_
      · cases c with
        | atom a => exact .pure rfl
        | node below =>
          simp only [hu.get?]
          split
          · exact (Maps.refl (addConstant _ _)).bind fun _ => .pure rfl
          · split
            · exact .throw rfl
            · exact (ih below).bind fun _ => .pure rfl
          · exact .throw rfl
      · rw [List.map_id]
        exact .refl _
    · exact .throw rfl

/-! ### Code -/

section Constructs

variable {below below' : Handle → Lower Piece} (hb : ∀ h, Maps (Piece.retail tail) (below h) (below' h))
  (hu : t.Retells tail u)

include hb

theorem maps_child (c : Child) : Maps (Piece.retail tail) (child below c) (child below' c) := by
  unfold child
  split
  · exact hb _
  · exact .pure rfl
  · split
    · exact .pure rfl
    · exact .throw rfl
  · exact .pure rfl

theorem maps_children (cs : List Child) : Maps (Piece.retailAll tail) (children below cs) (children below' cs) := by
  induction cs with
  | nil => exact .pure rfl
  | cons c cs ih => exact (maps_child hb c).bind fun p => ih.bind fun ps => .pure rfl

include hu in
theorem maps_forms (cs : List Child) :
    Maps (Prod.map (Piece.retailAll tail) (Piece.retail tail)) (forms t below cs) (forms u below' cs) := by
  induction cs with
  | nil => exact .pure rfl
  | cons c cs ih =>
    cases cs with
    | nil => exact (maps_child hb c).map fun p => rfl
    | cons d cs =>
      unfold forms
      -- literals that are not last leave nothing behind, in either tree
      have hliteral : isLiteral u c = isLiteral t c := by simp only [isLiteral, hu.get?]
      rw [hliteral]
      split
      · exact ih
      · exact (maps_child hb c).bind fun p => ih.bind fun ps => .pure rfl

include hu in
theorem maps_body (cs : List Child) : Maps (Piece.retail tail) (body t below cs) (body u below' cs) :=
  (maps_forms hb hu cs).bind fun _ => .pure rfl

include hu in
theorem maps_template (fuel : Nat) (h : Handle) :
    Maps (Piece.retail tail) (template t below fuel h) (template u below' fuel h) := by
  induction fuel generalizing h with
  | zero => exact .throw rfl
  | succ fuel ih =>
    unfold template
    rw [hu.size, hasHole_retold hu, hu.get?]
    split
    · split
      · refine (Maps.mapM (f := (Piece.retail tail)) fun c => ?_).bind fun items =>
          (Maps.refl (freshConstant (.list []))).bind fun empty => .pure ?_
        · cases c with
          | atom a => exact .pure rfl
          | node k =>
            simp only [hu.get?]
            split
            · split
              · split
                · exact maps_child hb _
                · exact .throw rfl
              · exact ih _
            · exact (Maps.refl (addConstant _ _)).bind fun _ => .pure rfl
            · exact .pure rfl
        · rw [Piece.retail, Piece.retailAll_eq_map]
          rfl
      · exact .throw rfl
    · exact (maps_constantList hu _ h).bind fun _ => .pure rfl

include hu in
theorem maps_rightSide (right : Child) :
    Maps (Piece.retail tail) (rightSide t below right) (rightSide u below' right) := by
  unfold rightSide
  split
  · rw [hu.get?]
    exact .ite (.pure rfl) (hb _)
  · exact maps_child hb _

include hu in
theorem maps_assignment (op : Opcode) {fault fault' : LowerError} (h : fault'.unplaced = fault.unplaced)
    (args : List Child) :
    Maps (Piece.retail tail) (assignment t below op fault args) (assignment u below' op fault' args) := by
  unfold assignment
  split
  · exact (maps_rightSide hb hu _).map fun p => rfl
  · exact .throw h

theorem maps_conditional (test yes : Child) (no : Option Child) :
    Maps (Piece.retail tail) (conditional below test yes no) (conditional below' test yes no) := by
  refine (Maps.refl freshLabel).bind fun n => (maps_child hb test).bind fun p => ?_
  have hyes (q : Piece) : Maps (Piece.retail tail) (do return .conditional n p (← child below yes) q)
      (do return .conditional n (p.retail tail) (← child below' yes) (q.retail tail)) :=
    (maps_child hb yes).map fun r => rfl
  cases no with
  | none => exact hyes _
  | some c => exact (maps_child hb c).bind hyes

include hu in
theorem maps_connective (conjunction : Bool) (clauses : List Child) :
    Maps (Piece.retail tail) (connective t below conjunction clauses) (connective u below' conjunction clauses) := by
  unfold connective
  split
  · exact .pure rfl
  · next last _ =>
    refine (Maps.refl freshLabel).bind fun n => (maps_children hb clauses.dropLast).bind fun ps =>
      (maps_child hb last).map fun p => ?_
    -- a child without a node is no tail call, with marks or without
    have hreturns : (last.node?.any fun h => u.tailCalls.contains h) =
        tail (last.node?.any fun h => t.tailCalls.contains h) := by
      cases last.node? with
      | none => exact hu.unmarked.symm
      | some h => exact hu.tailCalls h
    rw [hreturns]
    rfl

omit hb in
include hu in
theorem maps_callWithContinuation (span span' : Option Span) (args : List Child) :
    Maps (Piece.retail tail) (callWithContinuation t span args) (callWithContinuation u span' args) := by
  unfold callWithContinuation
  split
  · exact (Maps.refl freshLabel).map fun n => rfl
  · rw [hu.get?]
    exact .ite ((Maps.refl freshLabel).map fun n => rfl) (.throw rfl)
  · exact .throw rfl

omit hb in
include hu in
theorem maps_forking (span span' : Option Span) (args : List Child) :
    Maps (Piece.retail tail) (forking t span args) (forking u span' args) := by
  unfold forking
  split
  · simp only [hu.get?, hu.size]
    split
    · exact (maps_constantList hu _ _).bind fun _ => .pure rfl
    · exact (Maps.refl (addConstant _ _)).bind fun _ => .pure rfl
    · exact .throw rfl
  · exact .throw rfl

theorem maps_primitive (word : String) (op : Opcode) (expected : Nat) (span span' : Option Span) (args : List Child) :
    Maps (Piece.retail tail) (primitive below word op expected span args)
      (primitive below' word op expected span' args) := by
  unfold primitive
  split
  · exact (maps_children hb args).map fun ps => rfl
  · exact .throw rfl

theorem maps_arithmetic (word : String) (op : Opcode) (span span' : Option Span) (args : List Child) :
    Maps (Piece.retail tail) (arithmetic below word op span args) (arithmetic below' word op span' args) := by
  unfold arithmetic
  split
  · split
    · exact .pure rfl
    · exact .pure rfl
    · exact .throw rfl
    · exact .throw rfl
    · exact .throw rfl
  · next single =>
    have hsingle (wrap : Piece → Piece) (hwrap : ∀ p : Piece, wrap (p.retail tail) = (wrap p).retail tail) :
        Maps (Piece.retail tail) (do return wrap (← child below single)) (do return wrap (← child below' single)) :=
      (maps_child hb single).map hwrap
    split
    · exact hsingle _ fun p => rfl
    · exact hsingle _ fun p => rfl
    · exact hsingle _ fun p => rfl
    · exact hsingle _ fun p => rfl
    · exact .throw rfl
  · exact (maps_child hb _).bind fun p => (maps_children hb _).map fun ps => rfl

include hu in
theorem maps_form (h : Handle) (word : String) (args : List Child) :
    Maps (Piece.retail tail) (form t below h word args) (form u below' h word args) := by
  have hassignment (op : Opcode) {fault fault' : LowerError} (h : fault'.unplaced = fault.unplaced) :=
    maps_assignment hb hu op h args
  have hconnective (conjunction : Bool) := maps_connective hb hu conjunction args
  have harithmetic (op : Opcode) := maps_arithmetic hb word op (t.spans.find? h) (u.spans.find? h) args
  have hprimitive (op : Opcode) (expected : Nat) :=
    maps_primitive hb word op expected (t.spans.find? h) (u.spans.find? h) args
  unfold form
  dsimp only
  -- one case for each word, in the order of the definition
  split
  · exact hassignment _ rfl
  · exact hassignment _ rfl
  · split
    · exact maps_conditional hb _ _ _
    · exact maps_conditional hb _ _ _
    · exact .throw rfl
  · exact hconnective _
  · exact hconnective _
  · exact maps_body hb hu _
  · exact maps_callWithContinuation hu _ _ _
  · exact maps_forking hu _ _ _
  · split
    · exact (maps_child hb _).map fun p => rfl
    · exact .throw rfl
  · split
    · exact .pure rfl
    · exact .throw rfl
  · exact .pure rfl
  · exact .pure rfl
  · exact harithmetic _
  · exact harithmetic _
  · exact harithmetic _
  · exact harithmetic _
  · exact harithmetic _
  · exact harithmetic _
  · exact hprimitive _ _
  · exact hprimitive _ _
  · exact hprimitive _ _
  · exact hprimitive _ _
  · exact hprimitive _ _
  · exact hprimitive _ _
  · exact hprimitive _ _
  · exact hprimitive _ _
  · exact hprimitive _ _
  · exact .throw rfl

include hu in
theorem maps_application (h : Handle) (cs : List Child) :
    Maps (Piece.retail tail) (application t below h cs) (application u below' h cs) := by
  have hdirect (target : Operand) (args : List Child) :
      Maps (Piece.retail tail) (directCall t below h target args) (directCall u below' h target args) :=
    (maps_children hb args).map fun ps => by rw [hu.tailCalls, Piece.retail]
  unfold application
  split
  · exact .throw rfl
  · exact maps_form hb hu h _ _
  · exact hdirect _ _
  · exact .throw rfl
  · simp only [hu.get?]
    split
    · exact hdirect _ _
    · exact (Maps.refl freshLabel).bind fun n => (maps_children hb _).map fun ps => by
        rw [hu.tailCalls, Piece.retail, id]
    -- this fault quotes the node, which both trees render alike
    · exact .throw (congrArg (LowerError.notCallable · none) (hu.render _))

include hu in
theorem maps_nodeWith (h : Handle) :
    Maps (Piece.retail tail) (nodeWith t below h) (nodeWith u below' h) := by
  unfold nodeWith
  rw [hu.get?]
  split
  · exact .throw rfl
  · exact (Maps.refl (addConstant _ _)).bind fun _ => .pure rfl
  · exact .pure rfl
  · exact maps_application hb hu h _
  · rw [hu.size]
    exact (maps_constantList hu _ h).bind fun _ => .pure rfl
  · rw [hu.size]
    exact maps_template hb hu _ _
  · exact .throw rfl

end Constructs

theorem maps_node (hu : t.Retells tail u) (fuel : Nat) (h : Handle) :
    Maps (Piece.retail tail) (node t fuel h) (node u fuel h) := by
  induction fuel generalizing h with
  | zero => exact .throw rfl
  | succ fuel ih => exact maps_nodeWith ih hu h

theorem maps_lambdaBlocks (hu : t.Retells tail u) (hs : List Handle) :
    Maps (List.map (Block.retail tail)) (lambdaBlocks t hs) (lambdaBlocks u hs) := by
  induction hs with
  | nil => exact .pure rfl
  | cons h hs ih =>
    unfold lambdaBlocks
    rw [hu.get?, hu.size]
    split
    · refine (maps_body (maps_node hu _) hu _).bind fun p => ih.bind fun bs => .pure ?_
      rw [hu.writtenName]
      rfl
    · exact ih

end Lowering

/-- **Trees with the same nodes have the same blocks**, but for the tail calls. -/
theorem Tree.Retells.blocks {tail : Bool → Bool} {t u : Tree} (hu : t.Retells tail u) {blocks : List Block}
    {stock : Lowering.Stock} (h : t.blocks = .ok (blocks, stock)) :
    u.blocks = .ok (blocks.map (Block.retail tail), stock) := by
  unfold Tree.blocks
  rw [hu.lambdas, hu.size]
  exact (Lowering.maps_lambdaBlocks hu t.lambdas).answer _ _ _ h

/-- Trees with the same nodes fail to be lowered for the same reason. -/
theorem Tree.Retells.blocks_fault {tail : Bool → Bool} {t u : Tree} (hu : t.Retells tail u) {e : LowerError}
    (h : t.blocks = .error e) : ∃ e', u.blocks = .error e' ∧ e'.unplaced = e.unplaced := by
  unfold Tree.blocks
  rw [hu.lambdas, hu.size]
  exact (Lowering.maps_lambdaBlocks hu t.lambdas).fault _ _ h

/-- The marks of a tree do not depend on the places of its nodes. -/
theorem Tree.retells_of_spans (t : Tree) (spans : Table Handle Span) : t.Retells id { t with spans } :=
  ⟨rfl, rfl, fun _ => rfl, rfl⟩

namespace Program

variable {t : Tree} (spans : Table Handle Span)

theorem ofTree_of_spans {p : Program} (h : ofTree t = .ok p) : ofTree { t with spans } = .ok p := by
  unfold ofTree at h ⊢
  split at h
  · next hanalysed =>
    obtain ⟨⟨blocks, stock⟩, hblocks, h⟩ := Except.bind_eq_ok.mp h
    -- no tail call changes, so neither does a block
    have hothers := (t.retells_of_spans spans).blocks hblocks
    rw [List.map_congr_left fun b _ => b.retail_id, List.map_id'] at hothers
    rw [if_pos hanalysed, hothers]
    exact h
  · cases h

theorem ofTree_of_spans_fault {e : LowerError} (h : ofTree t = .error e) :
    ∃ e', ofTree { t with spans } = .error e' ∧ e'.unplaced = e.unplaced := by
  unfold ofTree at h ⊢
  split at h
  · next hanalysed =>
    rw [if_pos hanalysed]
    rcases Except.bind_eq_error.mp h with hblocks | ⟨_, -, hpure⟩
    · obtain ⟨e', he', hsame⟩ := (t.retells_of_spans spans).blocks_fault hblocks
      exact ⟨e', Except.bind_eq_error.mpr (.inl he'), hsame⟩
    · cases hpure
  · next hanalysed =>
    rw [if_neg hanalysed]
    exact ⟨e, h, rfl⟩

end Program

/-- **The program of a tree does not depend on the places of its nodes.** -/
theorem Tree.compile_of_spans {t : Tree} {program : Program} (h : t.compile = .ok program)
    (spans : Table Handle Span) : ({ t with spans } : Tree).compile = .ok program := by
  obtain ⟨p, hp, h⟩ := Except.bind_eq_ok.mp h
  have hof : Program.ofTree t = .ok p := by
    cases hof : Program.ofTree t with
    | error e => rw [hof] at hp; cases hp
    | ok q => rw [hof] at hp; cases hp; rfl
  rw [Tree.compile, Program.ofTree_of_spans spans hof]
  exact h

end SchemeMachine
