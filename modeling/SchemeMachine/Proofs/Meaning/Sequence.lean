import SchemeMachine.Proofs.Meaning.Operation

/-!
# Pieces one after the other

How a machine keeps up with an evaluation that evaluates parts: operands, whose values stay on the stack, and forms, whose
values are dropped.

* `Meaning.Reaches` says where the piece of an expression leads: behind it, or back to the caller if a call in tail
  position has taken its place.
* `Meaning.Faithful` says of an evaluation of parts that machines keep up with it. `Meaning.Faithful.valued`,
  `Meaning.Faithful.operands` and `Meaning.Faithful.forms` put parts together.
-/

namespace SchemeMachine.Meaning

open Expression Lowering

variable {B : Build} {w w' : World} {S : Store} {d : Denoted} {v : Value} {h M : Handle} {around : List Region}
  {pc depth : Nat} {stack : List Value} {frames fs : List Frame} {f : Frame} {tail yields : Bool} {r : Registers}
  {e : Expression} {es : List Expression} {p : Piece} {ps : List Piece}
  {self : List Region → Expression → Eval Denoted}

/-! ### Where a piece leads -/

/-- **A call has returned** to the frame of its caller with a value. -/
def Returns (B : Build) (w : World) (f : Frame) (fs : List Frame) (stack : List Value) (d : Denoted) (S : Store)
    (r : Registers) : Prop :=
  ∃ w' v, w.Grows w' ∧ Mirrors B w' S ∧ Represents B w' d v ∧ r = ⟨f.returnAddress, v :: stack, fs, f.closure, w'.heap⟩

/-- **The piece of an expression has been carried out.** It leaves the value of the expression on the stack; a statement
leaves nothing. In tail position it may also have returned to the caller. -/
inductive Reaches (B : Build) (w : World) (tail yields : Bool) (pc : Nat) (stack : List Value) (frames : List Frame)
    (h : Handle) (d : Denoted) (S : Store) (r : Registers) : Prop
  | value (hyields : yields = true) (hr : Pushes B w pc stack frames h d S r)
  | statement (hyields : yields = false) (hd : d = .boolean false) (hr : Leaves B w pc stack frames h S r)
  | returned {f : Frame} {fs : List Frame} (htail : tail = true) (hframes : frames = f :: fs)
      (hr : Returns B w f fs stack d S r)

theorem Pushes.mono (hw : w.Grows w') (hr : Pushes B w' pc stack frames h d S r) : Pushes B w pc stack frames h d S r :=
  let ⟨w'', v, hw', hm, hv, heq⟩ := hr
  ⟨w'', v, hw.trans hw', hm, hv, heq⟩

theorem Returns.mono (hw : w.Grows w') (hr : Returns B w' f fs stack d S r) : Returns B w f fs stack d S r :=
  let ⟨w'', v, hw', hm, hv, heq⟩ := hr
  ⟨w'', v, hw.trans hw', hm, hv, heq⟩

theorem Leaves.mono (hw : w.Grows w') (hr : Leaves B w' pc stack frames h S r) : Leaves B w pc stack frames h S r :=
  let ⟨w'', hw', hm, heq⟩ := hr
  ⟨w'', hw.trans hw', hm, heq⟩

theorem Reaches.mono (hw : w.Grows w') (hr : Reaches B w' tail yields pc stack frames h d S r) :
    Reaches B w tail yields pc stack frames h d S r := by
  cases hr with
  | value hyields hr => exact .value hyields (hr.mono hw)
  | statement hyields hd hr => exact .statement hyields hd (hr.mono hw)
  | returned htail hframes hr => exact .returned htail hframes (hr.mono hw)

/-! ### Evaluations that machines keep up with -/

/-- The piece of an expression in the code of a lambda, among the activations around it. -/
abbrev Compiled (B : Build) (around : List Region) (M : Handle) (tail : Bool) (e : Expression) (p : Piece) : Prop :=
  Compiles B.tree B.program.constants B.blocks M (around.map Region.scope) tail e p

/-- **Machines keep up with an evaluation of expressions**, whatever their registers. Literals and lambdas evaluate to
values at once, if they evaluate at all. -/
structure Faithful (B : Build) (inner : List Region → Expression → Eval Denoted) : Prop where
  tracks : ∀ {w : World} {S : Store} {around : List Region} {M h : Handle} {tail : Bool} {e : Expression} {p : Piece}
    {pc depth : Nat} {stack : List Value} {frames : List Frame}, Mirrors B w S → w.Stands around M h →
    Compiled B around M tail e p → B.LinesAt pc (p.lines (Handle.label M) depth) → (tail = true → frames ≠ []) →
    Tracks B.image ⟨pc, stack, frames, some h, w.heap⟩ S (inner around e)
      (Reaches B w tail p.yields (pc + (p.lines (Handle.label M) depth).length) stack frames h)
  literal : ∀ {e : Expression} (around : List Region) (S : Store), e.isLiteral = true →
    (∃ d, (inner around e).run S = (.ok d, S)) ∨ (inner around e).run S = (.error .exhausted, S)
  lambda : ∀ (around : List Region) (N : Handle) (parameters names : List String) (body : List Expression) (S : Store),
    (inner around (.lambda N parameters names body)).run S = (.ok (.procedure N parameters names body around), S) ∨
      (inner around (.lambda N parameters names body)).run S = (.error .exhausted, S)

/-! ### Instructions of pieces -/

/-- An atom is pushed. -/
theorem moves_push {operand : Operand} (hv : Value.ofOperand? operand = some v)
    (hi : B.image.program.code[pc]? = some (.op .push (some operand))) (current : Option Handle) (H : Heap) :
    Moves B.image ⟨pc, stack, frames, current, H⟩ "" ⟨pc + 1, v :: stack, frames, current, H⟩ := by
  refine ⟨_, hi, fun host b => ?_⟩
  have hoperand : ∀ m, (Machine.operandValue .push (some operand)).run m = (.ok v, m) := by
    intro m
    unfold Machine.operandValue
    split
    · next heq => cases heq
    · next heq =>
      cases heq
      cases hv
    · next operand' _ heq =>
      cases heq
      rw [hv]
      rfl
  exact Machine.run_bind_ok (hoperand _)

/-- The top of the stack is dropped. -/
theorem moves_pop (hi : B.image.program.code[pc]? = some (plain .pop)) (current : Option Handle) (H : Heap) :
    Moves B.image ⟨pc, v :: stack, frames, current, H⟩ "" ⟨pc + 1, stack, frames, current, H⟩ :=
  ⟨_, hi, fun _ _ => rfl⟩

/-- The code returns to its caller. -/
theorem moves_ret (hi : B.image.program.code[pc]? = some (plain .ret)) (current : Option Handle) (H : Heap) :
    Moves B.image ⟨pc, stack, f :: fs, current, H⟩ "" ⟨f.returnAddress, stack, fs, f.closure, H⟩ :=
  ⟨_, hi, fun _ _ => rfl⟩

/-- A label is passed. -/
theorem moves_label {name : String} (hi : B.image.program.code[pc]? = some (.label name)) (current : Option Handle)
    (H : Heap) : Moves B.image ⟨pc, stack, frames, current, H⟩ "" ⟨pc + 1, stack, frames, current, H⟩ :=
  ⟨_, hi, fun _ _ => rfl⟩

/-! ### Parts -/

namespace Faithful

variable (hself : Faithful B self)
include hself

/-- **A piece that has to leave a value** leaves one: after a statement it is `#f`. -/
theorem valued (hm : Mirrors B w S) (hs : w.Stands around M h) (hp : Compiled B around M tail e p)
    (hlines : B.LinesAt pc (Piece.valuedLines (Handle.label M) depth p.yields (p.lines (Handle.label M) depth)))
    (hframes : tail = true → frames ≠ []) :
    Tracks B.image ⟨pc, stack, frames, some h, w.heap⟩ S (self around e)
      (Reaches B w tail true
        (pc + (Piece.valuedLines (Handle.label M) depth p.yields (p.lines (Handle.label M) depth)).length) stack frames h) := by
  cases hyields : p.yields with
  | true =>
    rw [hyields] at hlines
    have htracks : Tracks B.image ⟨pc, stack, frames, some h, w.heap⟩ S (self around e) _ :=
      hself.tracks hm hs hp hlines hframes
    rwa [hyields] at htracks
  | false =>
    rw [hyields, Piece.valuedLines, if_neg Bool.false_ne_true, Build.linesAt_append, Build.linesAt_cons] at hlines
    obtain ⟨hlines, hline, -⟩ := hlines
    refine (hself.tracks hm hs hp hlines hframes).andThen fun d S' r hr => ?_
    cases hr with
    | value hy => rw [hyields] at hy; cases hy
    | returned htail hf hr => exact ⟨r, .refl _ _, .returned htail hf hr⟩
    -- a statement is followed by an instruction that pushes `#f`
    | statement _ hd hr =>
      obtain ⟨w', hw, hm', rfl⟩ := hr
      refine ⟨_, .silent (moves_push rfl (B.instruction_of_line hline) _ _) (.refl _ _), .value rfl ?_⟩
      refine ⟨w', .boolean false, hw, hm', hd ▸ .boolean false, ?_⟩
      rw [Piece.valuedLines, if_neg Bool.false_ne_true, List.length_append]
      rfl

/-- A value that is called for in no tail position. -/
theorem pushes (hm : Mirrors B w S) (hs : w.Stands around M h) (hp : Compiled B around M false e p)
    (hlines : B.LinesAt pc (Piece.valuedLines (Handle.label M) depth p.yields (p.lines (Handle.label M) depth))) :
    Tracks B.image ⟨pc, stack, frames, some h, w.heap⟩ S (self around e)
      (Pushes B w (pc + (Piece.valuedLines (Handle.label M) depth p.yields (p.lines (Handle.label M) depth)).length)
        stack frames h) := by
  refine (hself.valued hm hs hp hlines fun htail => absurd htail Bool.false_ne_true).mono fun d S' r hr => ?_
  cases hr with
  | value _ hr => exact hr
  | statement hy => cases hy
  | returned htail => cases htail

/-- **A form whose value is dropped** leaves nothing. -/
theorem dropped (hm : Mirrors B w S) (hs : w.Stands around M h) (hp : Compiled B around M false e p)
    (hlines : B.LinesAt pc (Piece.droppedLines (Handle.label M) depth p.yields (p.lines (Handle.label M) depth))) :
    Tracks B.image ⟨pc, stack, frames, some h, w.heap⟩ S (self around e) fun _ =>
      Leaves B w (pc + (Piece.droppedLines (Handle.label M) depth p.yields (p.lines (Handle.label M) depth)).length)
        stack frames h := by
  cases hyields : p.yields with
  | true =>
    rw [hyields, Piece.droppedLines, if_pos rfl, Build.linesAt_append, Build.linesAt_cons] at hlines
    obtain ⟨hlines, hline, -⟩ := hlines
    refine (hself.tracks hm hs hp hlines fun htail => absurd htail Bool.false_ne_true).andThen fun d S' r hr => ?_
    cases hr with
    | statement hy => rw [hyields] at hy; cases hy
    | returned htail => cases htail
    | value _ hr =>
      obtain ⟨w', v, hw, hm', -, rfl⟩ := hr
      refine ⟨_, .silent (moves_pop (B.instruction_of_line hline) _ _) (.refl _ _), w', hw, hm', ?_⟩
      rw [Piece.droppedLines, if_pos rfl, List.length_append]
      rfl
  | false =>
    rw [hyields] at hlines
    refine (hself.tracks hm hs hp hlines fun htail => absurd htail Bool.false_ne_true).mono fun d S' r hr => ?_
    cases hr with
    | value hy => rw [hyields] at hy; cases hy
    | returned htail => cases htail
    | statement _ _ hr => exact hr

/-- **Operands** leave their values on the stack, the last one on top. -/
theorem operands (hm : Mirrors B w S) (hs : w.Stands around M h)
    (hps : CompilesAll B.tree B.program.constants B.blocks M (around.map Region.scope) es ps)
    (hlines : B.LinesAt pc (Piece.linesAll (Handle.label M) depth ps)) :
    Tracks B.image ⟨pc, stack, frames, some h, w.heap⟩ S (evalAll (self around) es) fun ds S' r => ∃ w' vs,
      w.Grows w' ∧ Mirrors B w' S' ∧ List.Forall₂ (Represents B w') ds vs ∧ ds.length = ps.length ∧
        r = ⟨pc + (Piece.linesAll (Handle.label M) depth ps).length, vs.reverse ++ stack, frames, some h, w'.heap⟩ := by
  -- on the operands that are left, above those already on the stack
  induction ps generalizing w S es pc depth stack with
  | nil =>
    cases hps
    exact .pure ⟨w, [], .refl w, hm, .nil, rfl, rfl⟩
  | cons p ps ih =>
    cases hps with
    | cons he hes =>
      rw [Piece.linesAll, Build.linesAt_append] at hlines
      refine (hself.pushes hm hs he hlines.1).bind fun d S' r hr => ?_
      obtain ⟨w', v, hw, hm', hv, rfl⟩ := hr
      refine (ih hm' (hs.mono hw) hes hlines.2).bind fun ds S'' r hr => .pure ?_
      obtain ⟨w'', vs, hw', hm'', hvs, hlength, rfl⟩ := hr
      refine ⟨w'', v :: vs, hw.trans hw', hm'', .cons (hv.mono hw') hvs, congrArg Nat.succ hlength, ?_⟩
      rw [Piece.linesAll, List.length_append, ← Nat.add_assoc, List.reverse_cons, List.append_assoc]
      rfl

/-- **The forms of a body**: the last one is in tail position, if the body is. -/
theorem forms (hm : Mirrors B w S) (hs : w.Stands around M h)
    (hps : CompilesForms B.tree B.program.constants B.blocks M (around.map Region.scope) tail es ps p)
    (hlines : B.LinesAt pc ((Piece.body ps p).lines (Handle.label M) depth)) (hframes : tail = true → frames ≠ []) :
    Tracks B.image ⟨pc, stack, frames, some h, w.heap⟩ S (evalForms (self around) es)
      (Reaches B w tail true (pc + ((Piece.body ps p).lines (Handle.label M) depth).length) stack frames h) := by
  rw [Piece.lines] at hlines ⊢
  induction es generalizing w S ps pc with
  | nil =>
    cases hps
    have hline : B.LinesAt pc [⟨⟨Handle.label M, depth, none⟩, pushBoolean false, 0⟩] := hlines
    rw [Build.linesAt_cons] at hline
    refine .silent (moves_push rfl (B.instruction_of_line hline.1) _ _) (.pure (.value rfl ?_))
    exact ⟨w, _, .refl w, hm, .boolean false, rfl⟩
  | cons e es ih =>
    cases hps with
    | last he => exact hself.valued hm hs he hlines hframes
    | @skip _ _ _ _ e' es _ _ hliteral hes =>
      -- the code has nothing for a literal: evaluating it changes nothing either
      have hrest := ih hm hs hes hlines
      show Tracks B.image _ S (self around e >>= fun _ => evalForms (self around) (e' :: es)) _
      rcases hself.literal around S hliteral with ⟨d, he⟩ | he
      · exact .bind_of_ok he hrest
      · have hstop : (self around e >>= fun _ => evalForms (self around) (e' :: es)).run S = (.error .exhausted, S) := by
          rw [run_bind, he]
        exact .of_open hstop nofun
    | @form _ _ _ _ e' es q qs _ he hes =>
      rw [Piece.linesDropped, List.append_assoc, Build.linesAt_append] at hlines
      show Tracks B.image _ S (self around e >>= fun _ => evalForms (self around) (e' :: es)) _
      refine (hself.dropped hm hs he hlines.1).bind fun d S' r hr => ?_
      obtain ⟨w', hw, hm', rfl⟩ := hr
      refine (ih hm' (hs.mono hw) hes hlines.2).mono fun d S'' r hr => ?_
      rw [Piece.linesDropped, List.append_assoc, List.length_append, ← Nat.add_assoc]
      exact hr.mono hw

end Faithful

end SchemeMachine.Meaning
