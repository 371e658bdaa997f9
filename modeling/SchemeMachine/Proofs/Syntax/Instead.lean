import SchemeMachine.Proofs.Syntax.Declaration
import SchemeMachine.Proofs.Syntax.Naming

/-!
# One expression in place of another

What a name refers to is a matter of the place where it stands. To compare two places, this file puts one expression in
the place of another and says what becomes of the program.

* `Form.Instead` and `Form.InsteadAll` say it of forms, `Term.Instead` and `Term.InsteadAll` of the terms in a tree. A
  clause after an `else` clause is dropped: its term is in the tree, but hangs nowhere.
* `Form.Instead.sketch`: what is a replacement in forms is one in their sketches, and `Form.InsteadAll.sketch` is the same
  of programs. `Term.exists_instead` finds the place in a term that has the sketch.
* `Form.InsteadAll.exists_carry` is the result for two programs: their trees hold the same terms but at that place. The
  handles of the one are those of the other under a map.
-/

namespace SchemeMachine

/-! ### Forms -/

namespace Form

/-- **One form in place of another**: `b` is `a` with `g` where `f` stands. -/
inductive Instead (f g : Form) : Form → Form → Prop
  | here : Instead f g f g
  | group {quotation : Quotation} {s : Span} {before after : List Form} {a b : Form} (h : Instead f g a b) :
      Instead f g (.group quotation s (before ++ a :: after)) (.group quotation s (before ++ b :: after))
  | lambda {s : Span} {parameters : List String} {before after : List Form} {a b : Form} (h : Instead f g a b) :
      Instead f g (.lambda s parameters (before ++ a :: after)) (.lambda s parameters (before ++ b :: after))
  | procedure {s lambdaSpan : Span} {name : String} {parameters : List String} {before after : List Form} {a b : Form}
      (h : Instead f g a b) :
      Instead f g (.procedure s lambdaSpan name parameters (before ++ a :: after))
        (.procedure s lambdaSpan name parameters (before ++ b :: after))
  | initial {s bodySpan : Span} {name : Option String} {names : List String} {before after body : List Form} {a b : Form}
      (h : Instead f g a b) :
      Instead f g (.letIn s bodySpan name names (before ++ a :: after) body)
        (.letIn s bodySpan name names (before ++ b :: after) body)
  | body {s bodySpan : Span} {name : Option String} {names : List String} {initials before after : List Form} {a b : Form}
      (h : Instead f g a b) :
      Instead f g (.letIn s bodySpan name names initials (before ++ a :: after))
        (.letIn s bodySpan name names initials (before ++ b :: after))
  | test {s : Span} {body : List Form} {rest : Option Form} {a b : Form} (h : Instead f g a b) :
      Instead f g (.clause s (some a) body rest) (.clause s (some b) body rest)
  | clause {s : Span} {test rest : Option Form} {before after : List Form} {a b : Form} (h : Instead f g a b) :
      Instead f g (.clause s test (before ++ a :: after) rest) (.clause s test (before ++ b :: after) rest)
  | rest {s : Span} {test : Form} {body : List Form} {a b : Form} (h : Instead f g a b) :
      Instead f g (.clause s (some test) body (some a)) (.clause s (some test) body (some b))

/-- **One form in place of another in a program**: in one of its forms, or in a clause that is dropped behind an `else` clause
somewhere in it. A dropped clause does not become a bare lambda: that would be cut off from the top lambda. -/
inductive InsteadAll : (f g : Form) → List Form → List Form → Prop
  | kept {f g a b : Form} (before after : List Form) (h : Instead f g a b) :
      InsteadAll f g (before ++ a :: after) (before ++ b :: after)
  | dropped {f g a b : Form} {s : Span} {body fs gs : List Form} (h : Instead f g a b)
      (hbare : ∀ parameters items, b.sketch = .lambda 0 parameters items → ∃ ps xs, a.sketch = .lambda 0 ps xs)
      (hclause : InsteadAll (.clause s none body (some a)) (.clause s none body (some b)) fs gs) : InsteadAll f g fs gs

theorem legalAll_append {layer : Layer} (fs gs : List Form) :
    LegalAll layer (fs ++ gs) ↔ LegalAll layer fs ∧ LegalAll layer gs := by
  induction fs with
  | nil => simp [LegalAll]
  | cons f fs ih => simp only [List.cons_append, LegalAll, ih, and_assoc]

theorem droppedAll_append (fs gs : List Form) : droppedAll (fs ++ gs) = droppedAll fs ++ droppedAll gs := by
  induction fs with
  | nil => rfl
  | cons f fs ih => rw [List.cons_append, droppedAll, droppedAll, ih, List.append_assoc]

theorem LegalAll.instead {layer : Layer} {before after : List Form} {a b : Form} (hb : a.Legal layer → b.Legal layer)
    (h : LegalAll layer (before ++ a :: after)) : LegalAll layer (before ++ b :: after) := by
  rw [legalAll_append] at h ⊢
  exact ⟨h.1, hb h.2.1, h.2.2⟩

/-- What takes the place of a legal form is to be legal there. -/
theorem Instead.legal {f g a b : Form} (h : Instead f g a b) (hg : ∀ layer, f.Legal layer → g.Legal layer) {layer : Layer}
    (ha : a.Legal layer) : b.Legal layer := by
  induction h generalizing layer with
  | here => exact hg layer ha
  | @group quotation s before after a b h ih =>
    cases quotation with
    | code => exact ⟨ha.1, LegalAll.instead ih ha.2⟩
    | quote =>
      have hitems : LegalAll .data (before ++ a :: after) := ha
      exact hitems.instead ih
    | quasiquote => exact ⟨ha.1, LegalAll.instead ih ha.2⟩
    | unquote =>
      refine ⟨?_, LegalAll.instead ih ha.2⟩
      have hone := ha.1
      rw [List.length_append, List.length_cons] at hone ⊢
      exact hone
  | lambda h ih => exact ⟨ha.1, LegalAll.instead ih ha.2⟩
  | procedure h ih => exact ⟨ha.1, LegalAll.instead ih ha.2⟩
  | initial h ih => exact ⟨ha.1, LegalAll.instead ih ha.2.1, ha.2.2⟩
  | body h ih => exact ⟨ha.1, ha.2.1, LegalAll.instead ih ha.2.2⟩
  | test h ih => exact ⟨ha.1, ih ha.2.1, ha.2.2⟩
  | clause h ih => exact ⟨ha.1, ha.2.1, LegalAll.instead ih ha.2.2.1, ha.2.2.2⟩
  | rest h ih => exact ⟨ha.1, ha.2.1, ha.2.2.1, ih ha.2.2.2⟩

theorem InsteadAll.legal {f g : Form} {fs gs : List Form} (h : InsteadAll f g fs gs)
    (hg : ∀ layer, f.Legal layer → g.Legal layer) {layer : Layer} (hfs : LegalAll layer fs) : LegalAll layer gs := by
  induction h with
  | kept before after h => exact hfs.instead (h.legal hg)
  | dropped h hbare hclause ih =>
    exact ih (fun layer hl => ⟨hl.1, hl.2.1, hl.2.2.1, h.legal hg hl.2.2.2⟩) hfs

end Form

/-! ### Terms -/

namespace Term

/-- **One term in place of another**: `Y` is `X` with `y` where `x` stands. `N` is the lambda around that place, and `M` the
one around the whole. -/
inductive Instead (x y : Term) (N : Handle) : (M : Handle) → Term → Term → Prop
  | here : Instead x y N N x y
  | body {M h : Handle} {parameters : List String} (before after : List Term) {X Y : Term} (hX : Instead x y N h X Y) :
      Instead x y N M (.lambda h parameters (before ++ X :: after)) (.lambda h parameters (before ++ Y :: after))
  | item {M h : Handle} {quotation : Quotation} (before after : List Term) {X Y : Term} (hX : Instead x y N M X Y) :
      Instead x y N M (.application h quotation (before ++ X :: after)) (.application h quotation (before ++ Y :: after))

/-- **A program with one term in place of another**, in the top lambda or in a term that hangs nowhere. Terms behind it that
hang nowhere may have gone. -/
def InsteadAll (x y : Term) (N : Handle) (roots roots' : List Term) : Prop :=
  ∃ before X Y after after', Instead x y N Tree.top X Y ∧ after'.Sublist after ∧ roots = before ++ X :: after ∧
    roots' = before ++ Y :: after'

/-- The same term in place of itself. -/
theorem Instead.eq {x X Y : Term} {N M : Handle} (h : Instead x x N M X Y) : X = Y := by
  induction h with
  | here => rfl
  | body before after h ih => rw [ih]
  | item before after h ih => rw [ih]

/-! ### Terms with a given sketch -/

theorem eq_lambda_of_blank {x : Term} {h : Handle} {parameters : List String} {items : List Term}
    (hx : x.blank = .lambda h parameters items) :
    ∃ k body, h = 0 ∧ x = .lambda k parameters body ∧ blankAll body = items := by
  cases x with
  | lambda k parameters' body =>
    rw [blank, Term.lambda.injEq] at hx
    exact ⟨k, body, hx.1.symm, by rw [hx.2.1], hx.2.2⟩
  | _ => cases hx

theorem eq_application_of_blank {x : Term} {h : Handle} {quotation : Quotation} {items : List Term}
    (hx : x.blank = .application h quotation items) :
    ∃ k items', h = 0 ∧ x = .application k quotation items' ∧ blankAll items' = items := by
  cases x with
  | application k quotation' items' =>
    rw [blank, Term.application.injEq] at hx
    exact ⟨k, items', hx.1.symm, by rw [hx.2.1], hx.2.2⟩
  | _ => cases hx

/-- **The place in a term is where it is in the sketch.** -/
theorem exists_instead {l e SX SY : Term} {i j : Handle} (h : Instead l e i j SX SY) {X : Term} (hX : X.blank = SX)
    (M : Handle) :
    ∃ x N, x.blank = l ∧ ∀ y : Term, y.blank = e → ∃ Y, Instead x y N M X Y ∧ Y.blank = SY := by
  induction h generalizing X M with
  | here => exact ⟨X, M, hX, fun y hy => ⟨y, .here, hy⟩⟩
  | body before after _ ih =>
    obtain ⟨k, body, rfl, rfl, hbody⟩ := eq_lambda_of_blank hX
    obtain ⟨ys, Z, zs, rfl, hys, hZ, hzs⟩ := blankAll_eq_middle hbody
    obtain ⟨x, N, hx, hall⟩ := ih hZ k
    refine ⟨x, N, hx, fun y hy => ?_⟩
    obtain ⟨Y, hY, hblank⟩ := hall y hy
    exact ⟨_, .body ys zs hY, by rw [blank, blankAll_append, blankAll, hys, hblank, hzs]⟩
  | item before after _ ih =>
    obtain ⟨k, items, rfl, rfl, hitems⟩ := eq_application_of_blank hX
    obtain ⟨ys, Z, zs, rfl, hys, hZ, hzs⟩ := blankAll_eq_middle hitems
    obtain ⟨x, N, hx, hall⟩ := ih hZ M
    refine ⟨x, N, hx, fun y hy => ?_⟩
    obtain ⟨Y, hY, hblank⟩ := hall y hy
    exact ⟨_, .item ys zs hY, by rw [blank, blankAll_append, blankAll, hys, hblank, hzs]⟩

end Term

namespace Form

open Term (blankAll)

/-! ### From forms to terms -/

/-- The sketch of a form in the body of a clause. -/
theorem instead_sketchSequence {x y X Y : Term} (h : Term.Instead x y 0 0 X Y) (before after : List Term) :
    Term.Instead x y 0 0 (sketchSequence (before ++ X :: after)) (sketchSequence (before ++ Y :: after)) := by
  have hbegin : Term.Instead x y 0 0 (.application 0 .code (.atom (.keyword "begin") :: (before ++ X :: after)))
      (.application 0 .code (.atom (.keyword "begin") :: (before ++ Y :: after))) := by
    rw [← List.cons_append, ← List.cons_append]
    exact .item _ _ h
  match before, after with
  | [], [] => exact h
  | [], _ :: _ | [_], _ | _ :: _ :: _, _ => exact hbegin

/-- **One form in place of another is one sketch in place of another.** -/
theorem Instead.sketch {f g a b : Form} (h : Instead f g a b) : Term.Instead f.sketch g.sketch 0 0 a.sketch b.sketch := by
  -- on the way down to the form: the sketch goes down the same way, past what the form is wrapped in
  induction h with
  | here => exact .here
  | group _ ih =>
    simp only [Form.sketch, sketchAll_append, sketchAll]
    exact .item _ _ ih
  | lambda _ ih =>
    simp only [Form.sketch, sketchAll_append, sketchAll]
    exact .body _ _ ih
  | procedure _ ih =>
    simp only [Form.sketch, sketchAll_append, sketchAll]
    exact .item [_, _] [] (.body _ _ ih)
  | @initial s bodySpan name names before after body a b _ ih =>
    cases name with
    | none =>
      simp only [Form.sketch, sketchAll_append, sketchAll, sketchLet, ← List.cons_append]
      exact .item _ _ ih
    | some name =>
      simp only [Form.sketch, sketchAll_append, sketchAll, sketchLet, ← List.cons_append]
      exact .item [] [] (.body [_] [] (.item _ _ ih))
  | @body s bodySpan name names initials before after a b _ ih =>
    cases name with
    | none =>
      simp only [Form.sketch, sketchAll_append, sketchAll, sketchLet]
      exact .item [] _ (.body _ _ ih)
    | some name =>
      simp only [Form.sketch, sketchAll_append, sketchAll, sketchLet]
      exact .item [] [] (.body [] _ (.item [_, _] [] (.body _ _ ih)))
  | test _ ih => exact .item [_] _ ih
  | @clause s test rest before after a b _ ih =>
    have hbody := instead_sketchSequence ih (sketchAll before) (sketchAll after)
    simp only [Form.sketch, sketchAll_append, sketchAll]
    cases test with
    | none => exact hbody
    | some test => exact .item [_, _] _ hbody
  | rest _ ih => exact .item [_, _, _] [] ih

/-- **What is dropped in one form in place of another**: what is dropped in the one takes the place of what is dropped in
the other. -/
theorem Instead.dropped {f g a b : Form} (h : Instead f g a b) :
    ∃ before after, a.dropped = before ++ f.dropped ++ after ∧ b.dropped = before ++ g.dropped ++ after := by
  have hinside {ds es : List Form} (before after : List Form)
      (h : ∃ first last, ds = first ++ f.dropped ++ last ∧ es = first ++ g.dropped ++ last) :
      ∃ first last, before ++ ds ++ after = first ++ f.dropped ++ last ∧ before ++ es ++ after = first ++ g.dropped ++ last := by
    obtain ⟨first, last, rfl, rfl⟩ := h
    exact ⟨before ++ first, last ++ after, by simp, by simp⟩
  induction h with
  | here => exact ⟨[], [], by simp, by simp⟩
  | @group _ _ before after _ _ _ ih | @lambda _ _ before after _ _ _ ih | @procedure _ _ _ _ before after _ _ _ ih =>
    simpa [Form.dropped, droppedAll_append, droppedAll] using hinside (droppedAll before) (droppedAll after) ih
  | @initial _ _ _ _ before after body _ _ _ ih =>
    simpa [Form.dropped, droppedAll_append, droppedAll] using
      hinside (droppedAll before) (droppedAll after ++ droppedAll body) ih
  | @body _ _ _ _ initials before after _ _ _ ih =>
    simpa [Form.dropped, droppedAll_append, droppedAll] using
      hinside (droppedAll initials ++ droppedAll before) (droppedAll after) ih
  | @test _ body rest _ _ _ ih =>
    simpa [Form.dropped, droppedOption] using hinside [] (droppedAll body ++ droppedOption rest) ih
  | @clause _ test rest before after _ _ _ ih =>
    simpa [Form.dropped, droppedAll_append, droppedAll] using
      hinside ((if test.isNone then rest.toList else []) ++ (droppedOption test ++ droppedAll before))
        (droppedAll after ++ droppedOption rest) ih
  | @rest _ test body _ _ _ ih =>
    simpa [Form.dropped, droppedOption] using hinside (Form.dropped test ++ droppedAll body) [] ih

/-- **One form in place of another in a program is one sketch in place of another**, in the top lambda or in a clause that is
dropped. What is dropped in the one form takes the place of what is dropped in the other. -/
theorem InsteadAll.sketch {f g : Form} {fs gs : List Form} (h : InsteadAll f g fs gs) :
    ∃ before S S' middle after, Term.Instead f.sketch g.sketch 0 0 S S' ∧
      (∀ parameters items, S' = .lambda 0 parameters items → ∃ ps xs, S = .lambda 0 ps xs) ∧
      .lambda 0 [] (sketchAll fs) :: sketchAll (droppedAll fs) =
        before ++ S :: (middle ++ sketchAll f.dropped ++ after) ∧
      .lambda 0 [] (sketchAll gs) :: sketchAll (droppedAll gs) =
        before ++ S' :: (middle ++ sketchAll g.dropped ++ after) := by
  induction h with
  | kept before after h =>
    obtain ⟨first, last, ha, hb⟩ := h.dropped
    refine ⟨[], .lambda 0 [] _, .lambda 0 [] _, sketchAll (droppedAll before ++ first), sketchAll (last ++ droppedAll after),
      .body (sketchAll before) (sketchAll after) h.sketch, fun _ _ _ => ⟨_, _, rfl⟩, ?_, ?_⟩
    · simp [droppedAll_append, droppedAll, sketchAll, ha]
    · simp [droppedAll_append, droppedAll, sketchAll, hb]
  | @dropped f g a b s body fs gs h hbare _ ih =>
    -- the clause keeps its sketch, and what is dropped in it begins with the term of the place
    obtain ⟨before, S, S', middle, after, hinstead, -, hfs, hgs⟩ := ih
    obtain ⟨first, last, ha, hb⟩ := h.dropped
    have hsame : (Form.clause s none body (some a)).sketch = (Form.clause s none body (some b)).sketch := rfl
    rw [hsame] at hinstead
    obtain rfl := hinstead.eq
    refine ⟨before ++ S :: middle, a.sketch, b.sketch, sketchAll (droppedAll body ++ first), sketchAll last ++ after, h.sketch,
      hbare, ?_, ?_⟩
    · rw [hfs, Form.dropped]
      simp [droppedOption, sketchAll, ha]
    · rw [hgs, Form.dropped]
      simp [droppedOption, sketchAll, hb]

/-- **The terms of a program with one form in place of another** are those of the other, moved, but for the term that the
form becomes. Names that dropped clauses of the form define may no longer be defined. -/
theorem InsteadAll.exists_carry {f g : Form} {forms forms' : List Form} {body strays body' strays' : List Term}
    (h : InsteadAll f g forms forms') (hlambda : ∀ parameters items, f.sketch ≠ .lambda 0 parameters items)
    (hpart : ∃ first last, f.dropped = first ++ g.dropped ++ last)
    (hbecome : BecomeAll .code forms body strays) (hbecome' : BecomeAll .code forms' body' strays')
    (hnodup : (Term.handlesAll (.lambda Tree.top [] body' :: strays')).Nodup) :
    ∃ before X after x N, .lambda Tree.top [] body :: strays = before ++ X :: after ∧ x.blank = f.sketch ∧
      ∀ y : Term, y.blank = g.sketch → ∃ Y after' φ, Term.Instead x y N Tree.top X Y ∧ φ Tree.top = Tree.top ∧
        (∀ h parameters items, Y = .lambda h parameters items → ∃ k ps xs, X = .lambda k ps xs) ∧
        Term.carryAll φ (.lambda Tree.top [] body' :: strays') = before ++ Y :: after' ∧ after'.Sublist after ∧
        ∀ z ∉ Term.definedAll (sketchAll f.dropped), z ∈ Term.definedAll after ↔ z ∈ Term.definedAll after' := by
  obtain ⟨first, S, S', middle, last, hinstead, hbare, hfs, hgs⟩ := h.sketch
  obtain ⟨early, late, hpart⟩ := hpart
  have hroots : blankAll (.lambda Tree.top [] body :: strays) = first ++ S :: (middle ++ sketchAll f.dropped ++ last) := by
    rw [← hfs, blankAll, Term.blank, hbecome.sketch, hbecome.lost]
  have hroots' : blankAll (.lambda Tree.top [] body' :: strays') = first ++ S' :: (middle ++ sketchAll g.dropped ++ last) := by
    rw [← hgs, blankAll, Term.blank, hbecome'.sketch, hbecome'.lost]
  obtain ⟨before, X, after, hsplit, hbefore, hX, hafter⟩ := Term.blankAll_eq_middle hroots
  obtain ⟨x, N, hx, hall⟩ := Term.exists_instead hinstead hX Tree.top
  -- the terms behind the place that stay are those outside the form and those that are dropped in `g`
  rw [hpart, sketchAll_append, sketchAll_append] at hafter
  obtain ⟨_, zs, rfl, hfirst, hzs⟩ := Term.blankAll_eq_append hafter
  obtain ⟨xs, _, rfl, hxs, hmiddle⟩ := Term.blankAll_eq_append hfirst
  obtain ⟨_, es', rfl, hkept, hes'⟩ := Term.blankAll_eq_append hmiddle
  obtain ⟨es, ys, rfl, hes, hys⟩ := Term.blankAll_eq_append hkept
  refine ⟨before, X, _, x, N, hsplit, hx, fun y hy => ?_⟩
  obtain ⟨Y, hY, hYblank⟩ := hall y hy
  have hsame : blankAll (.lambda Tree.top [] body' :: strays') = blankAll (before ++ Y :: (xs ++ ys ++ zs)) := by
    rw [hroots']
    simp only [blankAll, Term.blankAll_append, hbefore, hYblank, hxs, hys, hzs]
  obtain ⟨φ, hφ⟩ := Term.exists_carryAll hsame hnodup
  have htop : φ Tree.top = Tree.top := by
    cases before with
    | nil =>
      -- the place is not the top lambda as a whole
      obtain ⟨rfl, -⟩ := List.cons.inj hsplit
      rw [List.nil_append, Term.carryAll, List.cons.injEq] at hφ
      cases hY with
      | here => exact absurd hx.symm (hlambda _ _)
      | body => exact (Term.lambda.inj hφ.1).1
    | cons _ before =>
      obtain ⟨rfl, -⟩ := List.cons.inj hsplit
      rw [List.cons_append, Term.carryAll, List.cons.injEq] at hφ
      exact (Term.lambda.inj hφ.1).1
  refine ⟨Y, xs ++ ys ++ zs, φ, hY, htop, fun h parameters items heq => ?_, hφ, ?_, fun z hz => ?_⟩
  · rw [heq, Term.blank] at hYblank
    obtain ⟨ps, items', hS⟩ := hbare _ _ hYblank.symm
    rw [hS] at hX
    obtain ⟨k, items, -, hlambda, -⟩ := Term.eq_lambda_of_blank hX
    exact ⟨k, ps, items, hlambda⟩
  · exact (((List.sublist_append_right es ys).trans (List.sublist_append_left _ es')).append_left xs).append_right zs
  · rw [hpart, sketchAll_append, sketchAll_append, ← hmiddle, Term.definedAll_blankAll] at hz
    simp only [Term.definedAll_eq, List.flatMap_append, List.mem_append, not_or] at hz ⊢
    tauto

end Form

end SchemeMachine
