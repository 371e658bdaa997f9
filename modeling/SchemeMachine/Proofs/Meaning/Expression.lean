import SchemeMachine.Proofs.Meaning.Application

/-!
# Expressions

A machine that carries out the piece of an expression keeps up with the evaluator, one kind of expression after the other.

* `Meaning.Mirrors.datum`: quoted data are constants on the heap.
* `Meaning.Faithful.right` is about the right side of a definition or an assignment, which may stay a label,
  `Meaning.Faithful.fold` about arithmetic on any number of operands.
* `Meaning.Faithful.evalWith`: if machines keep up with an evaluation of the parts of expressions, they keep up with the
  expressions. `Meaning.faithful_eval` follows by induction on the depth of the evaluation.
-/

namespace SchemeMachine.Meaning

open Expression Lowering

variable {B : Build} {w w' : World} {S : Store} {d : Denoted} {v : Value} {h M N : Handle} {around : List Region}
  {pc place depth n : Nat} {stack : List Value} {frames fs : List Frame} {f : Frame} {tail marked : Bool} {r : Registers}
  {e : Expression} {es operands : List Expression} {p q : Piece} {ps : List Piece} {x spelling word output : String}
  {op : Opcode} {line : Line} {parameters names : List String} {body : List Expression}
  {self : List Region → Expression → Eval Denoted}

/-! ### Quoted data -/

theorem data_eq_map (xs : List Term) : data xs = xs.map datum := by
  induction xs with
  | nil => rfl
  | cons x xs ih => rw [data, ih, List.map_cons]

/-- **Quoted data are constants** on the heap. -/
theorem Mirrors.datum (hm : Mirrors B w S) {x : Term} (hx : x.isData = true) (hk : x.Kept B.program.constants) :
    ∃ v, Value.ofOperand? x.child.operand = some v ∧ Represents B w (datum x) v := by
  induction x using Term.induct with
  | atom a =>
    cases a with
    | number y => exact ⟨_, rfl, .number (.refl y)⟩
    | boolean b => exact ⟨_, rfl, .boolean b⟩
    | symbol name => exact ⟨_, rfl, .symbol name⟩
    | _ => cases hx
  | string h content => exact ⟨_, rfl, .string (hm.constants h _ hk)⟩
  | lambda => cases hx
  | application h quotation items ih =>
    cases quotation with
    | quote =>
      obtain ⟨hlist, hkept⟩ := hk
      -- the items stand for their data one by one
      have hitems : ∃ vs, ((items.map Term.child).map Child.operand).filterMap Value.ofOperand? = vs ∧
          List.Forall₂ (Represents B w) (data items) vs := by
        clear hlist
        induction items with
        | nil => exact ⟨_, rfl, .nil⟩
        | cons y ys ihs =>
          rw [Term.isData, Term.isDataAll, Bool.and_eq_true] at hx
          obtain ⟨v, hv, hy⟩ := ih y List.mem_cons_self hx.1 hkept.1
          obtain ⟨vs, hvs, hys⟩ := ihs (fun z hz => ih z (List.mem_cons_of_mem y hz)) hx.2 hkept.2
          exact ⟨v :: vs, by rw [List.map_cons, List.map_cons, List.filterMap_cons_some hv, hvs], .cons hy hys⟩
      obtain ⟨vs, hvs, hitems⟩ := hitems
      have hobject : w.heap.get? h = some (.list vs) := by
        rw [hm.constants h _ hlist, Object.ofConstant, hvs]
      exact ⟨_, rfl, .list_of_forall₂ ⟨rfl, Table.contains_iff.mpr ⟨_, hlist⟩⟩ hobject hitems⟩
    | _ => cases hx

/-! ### Jumps -/

theorem run_jump {m : Machine} (hm : m.image = B.image) (hline : B.layout.lines[place]? = some line)
    (hlabel : line.instruction = .label x) : (Machine.jump x).run m = (.ok (), { m with pc := place }) := by
  have hfind : m.image.labels.find? x = some place := hm ▸ B.find?_of_line hline hlabel
  unfold Machine.jump
  rw [Machine.run_get_bind, hfind]
  rfl

/-- A jump leads behind its label. -/
theorem leads_goto (hi : B.image.program.code[pc]? = some (toLabel .goto x)) (hline : B.layout.lines[place]? = some line)
    (hlabel : line.instruction = .label x) (current : Option Handle) (H : Heap) :
    Leads B.image ⟨pc, stack, frames, current, H⟩ output ⟨place + 1, stack, frames, current, H⟩ output := by
  have hjump : Moves B.image ⟨pc, stack, frames, current, H⟩ "" ⟨place, stack, frames, current, H⟩ :=
    ⟨_, hi, fun host b => Machine.run_bind_ok (run_jump rfl hline hlabel)⟩
  have hinstruction := B.instruction_of_line hline
  rw [hlabel] at hinstruction
  exact .silent hjump (.silent (moves_label hinstruction current H) (.refl _ _))

/-- **A branch** leads behind its label if the value on top of the stack counts as true, and goes on otherwise. -/
theorem leads_branch (hi : B.image.program.code[pc]? = some (toLabel .ifTrue x))
    (hline : B.layout.lines[place]? = some line) (hlabel : line.instruction = .label x) (hv : Represents B w d v)
    (current : Option Handle) (H : Heap) :
    Leads B.image ⟨pc, v :: stack, frames, current, H⟩ output
      ⟨if d.isTruthy then place + 1 else pc + 1, stack, frames, current, H⟩ output := by
  have hbranch : ∀ host b, (Machine.dispatch host (toLabel .ifTrue x)).run
      ((⟨pc, v :: stack, frames, current, H⟩ : Registers).machine B.image b) =
      ((if v.isTruthy = true then Machine.jump x else Machine.advance) >>= fun _ => pure "").run
        ((⟨pc, stack, frames, current, H⟩ : Registers).machine B.image b) := fun _ _ => rfl
  cases htruthy : d.isTruthy with
  | true =>
    have hmoves : Moves B.image ⟨pc, v :: stack, frames, current, H⟩ "" ⟨place, stack, frames, current, H⟩ := by
      refine ⟨_, hi, fun host b => ?_⟩
      rw [hbranch, hv.isTruthy, htruthy, if_pos rfl]
      exact Machine.run_bind_ok (run_jump rfl hline hlabel)
    have hinstruction := B.instruction_of_line hline
    rw [hlabel] at hinstruction
    exact .silent hmoves (.silent (moves_label hinstruction current H) (.refl _ _))
  | false =>
    refine .silent ⟨_, hi, fun host b => ?_⟩ (.refl _ _)
    rw [hbranch, hv.isTruthy, htruthy, if_neg Bool.false_ne_true]
    rfl

/-! ### Calls and primitives -/

/-- **Where a call returns to**: behind it, or to the caller of the code that it is the last call of. -/
theorem Reaches.exists_callers (B : Build) (hmark : marked = true → tail = true) (hframes : tail = true → frames ≠ [])
    (pc : Nat) (stack st : List Value) (h : Handle) (H : Heap) :
    ∃ f fs, (⟨pc, st, frames, some h, H⟩ : Registers).callers marked = f :: fs ∧
      ∀ {w d S r}, Returns B w f fs stack d S r → Reaches B w tail true (pc + 1) stack frames h d S r := by
  cases marked with
  | false => exact ⟨_, _, rfl, fun hr => .value rfl hr⟩
  | true =>
    obtain ⟨f, fs, rfl⟩ := List.exists_cons_of_ne_nil (hframes (hmark rfl))
    exact ⟨f, fs, rfl, fun hr => .returned (hmark rfl) rfl hr⟩

namespace Tracks

variable {vs : List Value} {k : Nat} {action : Eval Denoted}

/-- A primitive that answers. -/
theorem answers (ho : Operates B w h op vs S action) (hop : op.operandCount? = some k) (hanswers : op.answers = true)
    (hi : B.image.program.code[pc]? = some (plain op)) :
    Tracks B.image ⟨pc, vs.reverse ++ stack, frames, some h, w.heap⟩ S action (Pushes B w (pc + 1) stack frames h) := by
  refine (Tracks.primitive ho hop hi).mono fun d S' r hr => ?_
  obtain ⟨w', v, hw, hm, hv, -, rfl⟩ := hr
  rw [hanswers]
  exact ⟨w', v, hw, hm, hv, rfl⟩

/-- Output leaves nothing. -/
theorem writes (ho : Operates B w h op vs S action) (hop : op.operandCount? = some k) (hanswers : op.answers = false)
    (hi : B.image.program.code[pc]? = some (plain op)) :
    Tracks B.image ⟨pc, vs.reverse ++ stack, frames, some h, w.heap⟩ S action
      (Reaches B w tail false (pc + 1) stack frames h) := by
  refine (Tracks.primitive ho hop hi).mono fun d S' r hr => ?_
  obtain ⟨w', v, hw, hm, hv, hfalse, rfl⟩ := hr
  obtain rfl := hfalse hanswers
  cases hv
  rw [hanswers]
  exact .statement rfl rfl ⟨w', hw, hm, rfl⟩

end Tracks

/-- The machine goes on by itself once an expression has left its value. -/
theorem Tracks.lands {action : Eval Denoted} (htracks : Tracks B.image r S action (Reaches B w tail true pc stack frames h))
    (hleads : ∀ v H output, Leads B.image ⟨pc, v :: stack, frames, some h, H⟩ output
      ⟨place, v :: stack, frames, some h, H⟩ output) :
    Tracks B.image r S action (Reaches B w tail true place stack frames h) := by
  refine htracks.andThen fun d S' r hr => ?_
  cases hr with
  | value hyields hr =>
    obtain ⟨w', v, hw, hm, hv, rfl⟩ := hr
    exact ⟨_, hleads v _ _, .value rfl ⟨w', v, hw, hm, hv, rfl⟩⟩
  | statement hyields => cases hyields
  | returned htail hframes hr => exact ⟨r, .refl _ _, .returned htail hframes hr⟩

/-- The arithmetic of a word. -/
theorem exists_calculation (hop : arithmeticOf? word = some op) (hpow : op ≠ .pow) :
    Opcode.ofPrimitive? word = some op ∧ ∃ f, calculation? word = some f := by
  unfold arithmeticOf? at hop
  split at hop <;> cases hop <;> first | exact ⟨rfl, _, rfl⟩ | exact absurd rfl hpow

/-- Arithmetic starts from its first operand. -/
theorem evalArithmetic_cons (hop : arithmeticOf? word = some op) (hsingle : es = [] → op = .add ∨ op = .mul)
    (inner : Expression → Eval Denoted) (e : Expression) :
    evalArithmetic inner word (e :: es) = inner e >>= fun d => evalFold inner word d es := by
  cases es with
  | cons => rfl
  | nil =>
    replace hsingle := hsingle rfl
    unfold arithmeticOf? at hop
    split at hop <;> cases hop <;> first | rfl | simp at hsingle

/-- Alone, `-` and `/` start from a neutral element. -/
theorem evalArithmetic_neutral {y : Float} (hop : arithmeticOf? word = some op) (hneutral : neutralOf? op = some y)
    (inner : Expression → Eval Denoted) (e : Expression) :
    evalArithmetic inner word [e] = evalFold inner word (.number y) [e] := by
  have hfold : evalFold inner word (.number y) [e] = inner e >>= numeric word (.number y) := by
    simp only [evalFold, bind_pure]
  rw [hfold]
  unfold arithmeticOf? at hop
  split at hop <;> cases hop <;> cases hneutral <;> rfl

/-- What the primitives with a fixed number of operands are. -/
theorem primitive_of_fixed {k : Nat} (hop : fixedOf? word = some (op, k)) :
    word ∈ arithmeticWords ++ operationWords ∧ Opcode.ofPrimitive? word = some op ∧ op.operandCount? = some k ∧
      op.answers = true := by
  unfold fixedOf? at hop
  split at hop <;> cases hop <;> exact ⟨by decide, rfl, rfl, rfl⟩

namespace Faithful

variable (hself : Faithful B self)
include hself

/-- A lambda evaluates to a procedure at once. -/
theorem bind_lambda {β : Type} {f : Denoted → Eval β} {R : β → Store → Registers → Prop}
    (hrest : Tracks B.image r S (f (.procedure N parameters names body around)) R) :
    Tracks B.image r S (self around (.lambda N parameters names body) >>= f) R := by
  rcases hself.lambda around N parameters names body S with he | he
  · exact .bind_of_ok he hrest
  · have hstop : (self around (.lambda N parameters names body) >>= f).run S = (.error .exhausted, S) := by
      rw [run_bind, he]
    exact .of_open hstop nofun

/-- **The right side of a definition or an assignment**, which may stay a label. -/
theorem right (hm : Mirrors B w S) (hs : w.Stands around M h)
    (hp : CompilesRight B.tree B.program.constants B.blocks M (around.map Region.scope) e p)
    (hlines : B.LinesAt pc (Piece.valuedLines (Handle.label M) depth p.yields (p.lines (Handle.label M) depth))) :
    Tracks B.image ⟨pc, stack, frames, some h, w.heap⟩ S (self around e) fun d S' r => ∃ w' v,
      w.Grows w' ∧ Mirrors B w' S' ∧ Holds B w' h d v ∧
        r = ⟨pc + (Piece.valuedLines (Handle.label M) depth p.yields (p.lines (Handle.label M) depth)).length, v :: stack,
          frames, some h, w'.heap⟩ := by
  cases hp with
  | @lambda _ N _ parameters names body hin hcode =>
    obtain ⟨c, hc, hlabel⟩ := hs.closure
    have hline : B.LinesAt pc [⟨⟨Handle.label M, depth, none⟩, .op .push (some (.label (Handle.label N))), 0⟩] := hlines
    rw [Build.linesAt_cons] at hline
    rw [← bind_pure (self around _)]
    -- the label is pushed as it is, and closed by who reads the variable
    refine hself.bind_lambda (.silent (moves_push rfl (B.instruction_of_line hline.1) _ _) (.pure ?_))
    exact ⟨w, _, .refl w, hm, .label hc hlabel hin hcode hs.sees, rfl⟩
  | other he =>
    refine (hself.pushes hm hs he hlines).mono fun d S' r hr => ?_
    obtain ⟨w', v, hw, hm', hv, rfl⟩ := hr
    exact ⟨w', v, hw, hm', .value hv, rfl⟩

/-- **Arithmetic from the left**, as the operands are evaluated. -/
theorem fold {f : Float → Float → Eval Denoted} (hf : calculation? word = some f)
    (hop : Opcode.ofPrimitive? word = some op) (hm : Mirrors B w S) (hs : w.Stands around M h) (hv : Represents B w d v)
    (hps : CompilesAll B.tree B.program.constants B.blocks M (around.map Region.scope) es ps)
    (hlines : B.LinesAt pc (Piece.linesThen (Handle.label M) depth (plain op) ps)) :
    Tracks B.image ⟨pc, v :: stack, frames, some h, w.heap⟩ S (evalFold (self around) word d es)
      (Pushes B w (pc + (Piece.linesThen (Handle.label M) depth (plain op) ps).length) stack frames h) := by
  obtain ⟨hanswers, hcount, -⟩ := operate_of_calculation hf hop
  -- on the operands that are left: the value of those before them lies on the stack
  induction ps generalizing w S d v es pc with
  | nil =>
    cases hps
    exact .pure ⟨w, v, .refl w, hm, hv, rfl⟩
  | cons p ps ih =>
    cases hps with
    | @cons _ _ e es _ _ he hes =>
      rw [Piece.linesThen, Build.linesAt_append, Build.linesAt_cons] at hlines
      obtain ⟨hoperand, hline, hrest⟩ := hlines
      show Tracks B.image _ S (self around e >>= fun d' => numeric word d d' >>= fun d'' => evalFold _ word d'' es) _
      refine (hself.pushes hm hs he hoperand).bind fun d' S' r hr => ?_
      obtain ⟨w', v', hw, hm', hv', rfl⟩ := hr
      have ho : Operates B w' h op [v, v'] S' (numeric word d d') := .numeric hm' hf hop (hv.mono hw) hv'
      refine (Tracks.answers ho hcount hanswers (B.instruction_of_line hline)).bind fun d'' S'' r hr => ?_
      obtain ⟨w'', v'', hw', hm'', hv'', rfl⟩ := hr
      refine (ih hm'' (hs.mono (hw.trans hw')) hv'' hes hrest).mono fun _ _ _ hr => ?_
      rw [Piece.linesThen, List.length_append, List.length_cons, ← Nat.add_assoc, ← Nat.add_assoc, Nat.add_right_comm]
      exact hr.mono (hw.trans hw')

/-! ### Kinds of expressions -/

variable (hm : Mirrors B w S) (hs : w.Stands around M h)
include hm hs

/-- A call of a variable. -/
theorem call (hmark : marked = true → tail = true) (hname : Spelt (around.map Region.scope) x spelling)
    (hargs : CompilesAll B.tree B.program.constants B.blocks M (around.map Region.scope) operands ps)
    (hlines : B.LinesAt pc ((Piece.call marked (.atom (.variable spelling)) ps).lines (Handle.label M) depth))
    (hframes : tail = true → frames ≠ []) :
    Tracks B.image ⟨pc, stack, frames, some h, w.heap⟩ S
      (do
        let ds ← evalAll (self around) operands
        apply self (← read around x) ds)
      (Reaches B w tail true
        (pc + ((Piece.call marked (.atom (.variable spelling)) ps).lines (Handle.label M) depth).length) stack frames h) := by
  rw [Piece.lines, Build.linesAt_append, Build.linesAt_cons] at hlines
  refine (hself.operands hm hs hargs hlines.1).bind fun ds S' r hr => ?_
  obtain ⟨w', vs, hw, hm', hds, -, rfl⟩ := hr
  -- the variable is read here, among the cells that the operands have left
  obtain ⟨f, fs, hcallers, hreaches⟩ :=
    Reaches.exists_callers B hmark hframes _ stack (vs.reverse ++ stack) h w'.heap
  refine (hself.applies_variable hm' (hs.mono hw) hname hds (B.instruction_of_line hlines.2.1) hcallers).mono
    fun d S'' r hr => ?_
  rw [Piece.lines, List.length_append, ← Nat.add_assoc]
  exact (hreaches hr).mono hw

/-- A call of a lambda, which stays a label. -/
theorem lambdaCall (hmark : marked = true → tail = true) (hin : B.tree.Inside M N)
    (hcode : HasCode B around N parameters names body)
    (hargs : CompilesAll B.tree B.program.constants B.blocks M (around.map Region.scope) operands ps)
    (hlines : B.LinesAt pc ((Piece.call marked (.label (Handle.label N)) ps).lines (Handle.label M) depth))
    (hframes : tail = true → frames ≠ []) :
    Tracks B.image ⟨pc, stack, frames, some h, w.heap⟩ S
      (do
        let d ← self around (.lambda N parameters names body)
        let ds ← evalAll (self around) operands
        apply self d ds)
      (Reaches B w tail true
        (pc + ((Piece.call marked (.label (Handle.label N)) ps).lines (Handle.label M) depth).length) stack frames h) := by
  rw [Piece.lines, Build.linesAt_append, Build.linesAt_cons] at hlines
  refine hself.bind_lambda ((hself.operands hm hs hargs hlines.1).bind fun ds S' r hr => ?_)
  obtain ⟨w', vs, hw, hm', hds, -, rfl⟩ := hr
  -- the call closes the label over the activation where the machine stands
  have hs' := hs.mono hw
  obtain ⟨c, hc, hlabel⟩ := hs'.closure
  obtain ⟨l, hl⟩ := hm'.sound.exists_lineage hc
  obtain ⟨f, fs, hcallers, hreaches⟩ :=
    Reaches.exists_callers B hmark hframes _ stack (vs.reverse ++ stack) h w'.heap
  refine (hself.applies hm' hs' hl List.mem_cons_self hs'.act (.label hc hlabel hin hcode hs'.sees) hds
    (B.calls_label (B.instruction_of_line hlines.2.1)) hcallers).mono fun d S'' r hr => ?_
  rw [Piece.lines, List.length_append, ← Nat.add_assoc]
  exact (hreaches hr).mono hw

/-- **A call of a computed operator**: the operator is evaluated as the first operand, and a block makes the call. -/
theorem computedCall (hmark : marked = true → tail = true)
    (hargs : CompilesAll B.tree B.program.constants B.blocks M (around.map Region.scope) (e :: operands) ps)
    (hlines : B.LinesAt pc ((Piece.computedCall marked n ps).lines (Handle.label M) depth))
    (hframes : tail = true → frames ≠ []) :
    Tracks B.image ⟨pc, stack, frames, some h, w.heap⟩ S
      (do
        let d ← self around e
        let ds ← evalAll (self around) operands
        apply self d ds)
      (Reaches B w tail true (pc + ((Piece.computedCall marked n ps).lines (Handle.label M) depth).length) stack frames h) := by
  cases hargs with
  | @cons _ _ _ _ p ps he hoperands =>
    rw [Piece.lines, List.append_assoc, List.cons_append, Build.linesAt_cons, Build.linesAt_append, List.cons_append,
      Build.linesAt_cons, Piece.linesAll, Build.linesAt_append, Build.linesAt_append, Build.linesAt_cons] at hlines
    obtain ⟨hgoto, hblock, hend, ⟨hoperator, harguments⟩, hcall, -⟩ := hlines
    rw [List.length_append, ← Nat.add_assoc] at hcall
    -- the block is passed over
    refine .leads (leads_goto (B.instruction_of_line hgoto) hend rfl _ _) ?_
    refine (hself.pushes hm hs he hoperator).bind fun d S' r hr => ?_
    obtain ⟨w', v, hw, hm', hv, rfl⟩ := hr
    refine (hself.operands hm' (hs.mono hw) hoperands harguments).bind fun ds S'' r hr => ?_
    obtain ⟨w'', vs, hw', hm'', hds, hlength, rfl⟩ := hr
    -- the operator is the first operand of the block
    rw [show vs.reverse ++ v :: stack = (v :: vs).reverse ++ stack by simp]
    rw [show (p :: ps).length = ds.length + 1 from congrArg Nat.succ hlength.symm] at hblock
    obtain ⟨f, fs, hcallers, hreaches⟩ :=
      Reaches.exists_callers B hmark hframes _ stack ((v :: vs).reverse ++ stack) h w''.heap
    refine (hself.applies_block hm'' (hs.mono (hw.trans hw')) hblock ⟨_, List.mem_of_getElem? hend, rfl, rfl⟩
      (.cons (hv.mono hw') hds) (B.calls_label (B.instruction_of_line hcall)) hcallers).mono fun d S₃ r hr => ?_
    have hbehind : pc + ((Piece.computedCall marked n (p :: ps)).lines (Handle.label M) depth).length =
        pc + 1 + (Piece.blockLines n (p :: ps).length).length + 1 +
          (Piece.valuedLines (Handle.label M) depth p.yields (p.lines (Handle.label M) depth)).length +
          (Piece.linesAll (Handle.label M) (depth + 1) ps).length + 1 := by
      simp only [Piece.lines, Piece.linesAll, List.length_append, List.length_cons, List.length_nil]
      omega
    rw [hbehind]
    exact (hreaches hr).mono (hw.trans hw')

/-- A definition or an assignment, by what its operation does. -/
theorem assignment {action : Denoted → Eval Unit}
    (hp : CompilesRight B.tree B.program.constants B.blocks M (around.map Region.scope) e p)
    (haction : ∀ {w S d v pc stack}, Mirrors B w S → w.Stands around M h → Holds B w h d v →
      B.image.program.code[pc]? = some (onVariable op spelling) →
      Tracks B.image ⟨pc, v :: stack, frames, some h, w.heap⟩ S (action d) fun _ => Leaves B w (pc + 1) stack frames h)
    (hlines : B.LinesAt pc ((Piece.assignment op spelling p).lines (Handle.label M) depth)) :
    Tracks B.image ⟨pc, stack, frames, some h, w.heap⟩ S
      (do
        action (← self around e)
        return .boolean false)
      (Reaches B w tail false (pc + ((Piece.assignment op spelling p).lines (Handle.label M) depth).length) stack frames
        h) := by
  rw [Piece.lines, Build.linesAt_append, Build.linesAt_cons] at hlines
  refine (hself.right hm hs hp hlines.1).bind fun d S' r hr => ?_
  obtain ⟨w', v, hw, hm', hv, rfl⟩ := hr
  refine (haction hm' (hs.mono hw) hv (B.instruction_of_line hlines.2.1)).bind fun _ S'' r hr => .pure ?_
  rw [Piece.lines, List.length_append, ← Nat.add_assoc]
  exact .statement rfl rfl (hr.mono hw)

/-- **A conditional** evaluates one of its branches. -/
theorem conditional {test yes no : Expression} {q' : Piece} (htest : Compiled B around M false test p)
    (hyes : Compiled B around M tail yes q) (hno : Compiled B around M tail no q')
    (hlines : B.LinesAt pc ((Piece.conditional n p q q').lines (Handle.label M) depth))
    (hframes : tail = true → frames ≠ []) :
    Tracks B.image ⟨pc, stack, frames, some h, w.heap⟩ S
      (do
        let d ← self around test
        if d.isTruthy then self around yes else self around no)
      (Reaches B w tail true (pc + ((Piece.conditional n p q q').lines (Handle.label M) depth).length) stack frames h) := by
  simp only [Piece.lines, List.append_assoc, List.cons_append, Build.linesAt_append, Build.linesAt_cons] at hlines
  obtain ⟨htested, hif, hnot, hgoto, hthen, hso, hend, -⟩ := hlines
  refine (hself.pushes hm hs htest htested).bind fun d S' r hr => ?_
  obtain ⟨w', v, hw, hm', hv, rfl⟩ := hr
  refine .leads (leads_branch (B.instruction_of_line hif) hthen rfl hv _ _) ?_
  -- both branches lead behind the last label
  have hbehind : pc + ((Piece.conditional n p q q').lines (Handle.label M) depth).length =
      pc + (Piece.valuedLines (Handle.label M) depth p.yields (p.lines (Handle.label M) depth)).length + 1 +
        (Piece.valuedLines (Handle.label M) depth q'.yields (q'.lines (Handle.label M) depth)).length + 1 + 1 +
        (Piece.valuedLines (Handle.label M) depth q.yields (q.lines (Handle.label M) depth)).length + 1 := by
    simp only [Piece.lines, List.length_append, List.length_cons, List.length_nil]
    omega
  rw [hbehind]
  have hs' := hs.mono hw
  cases htruthy : d.isTruthy with
  | true =>
    rw [if_pos rfl, if_pos rfl]
    refine ((hself.valued hm' hs' hyes hso hframes).lands fun v H output => ?_).mono fun _ _ _ hr => hr.mono hw
    exact .silent (moves_label (B.instruction_of_line hend) _ _) (.refl _ _)
  | false =>
    rw [if_neg Bool.false_ne_true, if_neg Bool.false_ne_true]
    refine ((hself.valued hm' hs' hno hnot hframes).lands fun v H output => ?_).mono fun _ _ _ hr => hr.mono hw
    exact leads_goto (B.instruction_of_line hgoto) hend rfl _ _

/-- **Arithmetic** on its operands, the first of which is the value to start from. -/
theorem arithmetic {first : Expression} {rest : List Expression} (hop : arithmeticOf? word = some op) (hpow : op ≠ .pow)
    (hsingle : rest = [] → op = .add ∨ op = .mul) (hfirst : Compiled B around M false first p)
    (hrest : CompilesAll B.tree B.program.constants B.blocks M (around.map Region.scope) rest ps)
    (hlines : B.LinesAt pc ((Piece.arithmetic op p ps).lines (Handle.label M) depth)) :
    Tracks B.image ⟨pc, stack, frames, some h, w.heap⟩ S (evalArithmetic (self around) word (first :: rest))
      (Reaches B w tail true (pc + ((Piece.arithmetic op p ps).lines (Handle.label M) depth).length) stack frames h) := by
  obtain ⟨hprimitive, f, hf⟩ := exists_calculation hop hpow
  rw [Piece.lines, Build.linesAt_append] at hlines
  rw [evalArithmetic_cons hop hsingle]
  refine (hself.pushes hm hs hfirst hlines.1).bind fun d S' r hr => ?_
  obtain ⟨w', v, hw, hm', hv, rfl⟩ := hr
  refine (hself.fold hf hprimitive hm' (hs.mono hw) hv hrest hlines.2).mono fun _ _ _ hr => .value rfl ?_
  rw [Piece.lines, List.length_append, ← Nat.add_assoc]
  exact hr.mono hw

/-- **Negation and inversion**: arithmetic on one operand, from the neutral element. -/
theorem neutral {y : Float} (hop : arithmeticOf? word = some op) (hneutral : neutralOf? op = some y)
    (he : Compiled B around M false e p)
    (hlines : B.LinesAt pc ((Piece.arithmetic op (.push (.atom (.number y))) [p]).lines (Handle.label M) depth)) :
    Tracks B.image ⟨pc, stack, frames, some h, w.heap⟩ S (evalArithmetic (self around) word [e])
      (Reaches B w tail true
        (pc + ((Piece.arithmetic op (.push (.atom (.number y))) [p]).lines (Handle.label M) depth).length) stack frames
        h) := by
  obtain ⟨hprimitive, f, hf⟩ := exists_calculation hop (by rintro rfl; cases hneutral)
  -- the neutral element is pushed first, the operand is the second one
  have hlines : B.LinesAt pc (⟨⟨Handle.label M, depth, none⟩, pushAtom (.number y), 0⟩ ::
      Piece.linesThen (Handle.label M) (depth + 1) (plain op) [p]) := hlines
  rw [Build.linesAt_cons] at hlines
  rw [evalArithmetic_neutral hop hneutral]
  refine .silent (moves_push rfl (B.instruction_of_line hlines.1) _ _) ?_
  refine (hself.fold hf hprimitive hm hs (.number (.refl y)) (.cons he .nil) hlines.2).mono
    fun _ _ _ hr => .value rfl ?_
  rwa [Nat.add_assoc, Nat.add_comm 1] at hr

/-- **A primitive** on as many operands as it takes. -/
theorem primitive {k a : Nat} {spot : Spot} (hword : word ∈ arithmeticWords ++ operationWords)
    (hop : Opcode.ofPrimitive? word = some op) (hcount : op.operandCount? = some k)
    (hargs : CompilesAll B.tree B.program.constants B.blocks M (around.map Region.scope) operands ps)
    (hlines : B.LinesAt pc (Piece.linesAll (Handle.label M) depth ps ++ [⟨spot, plain op, a⟩])) :
    Tracks B.image ⟨pc, stack, frames, some h, w.heap⟩ S (evalAll (self around) operands >>= operate word)
      (Reaches B w tail op.answers (pc + (Piece.linesAll (Handle.label M) depth ps).length + 1) stack frames h) := by
  rw [Build.linesAt_append, Build.linesAt_cons] at hlines
  refine (hself.operands hm hs hargs hlines.1).bind fun ds S' r hr => ?_
  obtain ⟨w', vs, hw, hm', hds, -, rfl⟩ := hr
  have ho : Operates B w' h op vs S' (operate word ds) := operates hm' hword hop hds
  cases hanswers : op.answers with
  | true =>
    exact (Tracks.answers ho hcount hanswers (B.instruction_of_line hlines.2.1)).mono
      fun d S'' r hr => .value rfl (hr.mono hw)
  | false =>
    exact (Tracks.writes ho hcount hanswers (B.instruction_of_line hlines.2.1)).mono fun d S'' r hr => hr.mono hw

end Faithful

/-! ### All expressions -/

/-- What is no variable is evaluated before the operands. -/
theorem evalWith_call (hoperator : ∀ x, e ≠ .variable x) :
    evalWith self around (.call e operands) = (do
      let d ← self around e
      let ds ← evalAll (self around) operands
      apply self d ds) := by
  cases e with
  | «variable» x => exact absurd rfl (hoperator x)
  | _ => rfl

/-- **If machines keep up with an evaluation of parts, they keep up with the evaluation of expressions** that have such
parts. -/
theorem Faithful.evalWith (hself : Faithful B self) : Faithful B (evalWith self) where
  tracks := by
    intro w S around M h tail e p pc depth stack frames hm hs hp hlines hframes
    cases hp with
    | literal hx hk =>
      obtain ⟨v, hoperand, hv⟩ := hm.datum hx hk
      rw [Piece.lines, Build.linesAt_cons] at hlines
      refine .silent (moves_push hoperand (B.instruction_of_line hlines.1) _ _) (.pure (.value rfl ?_))
      exact ⟨w, v, .refl w, hm, hv, rfl⟩
    | «variable» hname =>
      rw [Piece.lines, Build.linesAt_cons] at hlines
      exact (Tracks.load hm hs hname (B.instruction_of_line hlines.1)).mono fun _ _ _ hr => .value rfl hr
    | primitive hword =>
      rw [Piece.lines, Build.linesAt_cons] at hlines
      refine .silent (moves_push rfl (B.instruction_of_line hlines.1) _ _) (.pure (.value rfl ?_))
      exact ⟨w, _, .refl w, hm, .primitive hword, rfl⟩
    | lambda hin hcode =>
      rw [Piece.lines, Build.linesAt_cons] at hlines
      obtain ⟨r, hmoves, hr⟩ := Tracks.closure hm hs hin hcode (B.instruction_of_line hlines.1)
      exact .silent hmoves (.pure (.value rfl hr))
    | call hmark hname hargs => exact hself.call hm hs hmark hname hargs hlines hframes
    | lambdaCall hmark hin hcode hargs => exact hself.lambdaCall hm hs hmark hin hcode hargs hlines hframes
    | computedCall hmark hoperator hargs =>
      rw [evalWith_call hoperator]
      exact hself.computedCall hm hs hmark hargs hlines hframes
    | define hname hright =>
      exact hself.assignment hm hs hright (fun hm hs hv hi => .store hm hs hname hv hi) hlines
    | assign hname hright =>
      exact hself.assignment hm hs hright (fun hm hs hv hi => .set hm hs hname hv hi) hlines
    | conditional htest hyes hno => exact hself.conditional hm hs htest hyes hno hlines hframes
    | sequence hforms => exact hself.forms hm hs hforms hlines hframes
    | display he =>
      -- the piece is laid out as that of a primitive on one operand
      have hall : ∀ p, Piece.linesAll (Handle.label M) depth [p] =
          Piece.valuedLines (Handle.label M) depth p.yields (p.lines (Handle.label M) depth) := by simp [Piece.linesAll]
      rw [Piece.lines, ← hall] at hlines ⊢
      rw [List.length_append, ← Nat.add_assoc]
      exact hself.primitive hm hs (by decide) rfl rfl (.cons he .nil) hlines
    | newline =>
      have hlines : B.LinesAt pc (Piece.linesAll (Handle.label M) depth [] ++ [_]) := hlines
      exact hself.primitive hm hs (by decide) rfl rfl .nil hlines
    | arithmeticNone hword =>
      rw [Piece.lines, Build.linesAt_cons] at hlines
      refine .silent (moves_push rfl (B.instruction_of_line hlines.1) _ _) ?_
      rcases hword with ⟨rfl, rfl⟩ | ⟨rfl, rfl⟩ <;>
        exact .pure (.value rfl ⟨w, _, .refl w, hm, .number (.refl _), rfl⟩)
    | arithmeticNeutral hop hneutral he => exact hself.neutral hm hs hop hneutral he hlines
    | arithmetic hop hpow hsingle hfirst hrest => exact hself.arithmetic hm hs hop hpow hsingle hfirst hrest hlines
    | @operation _ _ _ _ op _ ps hop hargs =>
      obtain ⟨hword, hprimitive, hcount, hanswers⟩ := primitive_of_fixed hop
      rw [Piece.lines] at hlines ⊢
      rw [List.length_append, ← Nat.add_assoc, show (Piece.primitive op ps).yields = op.answers from hanswers.symm]
      exact hself.primitive hm hs hword hprimitive hcount hargs hlines
  literal := by
    intro e around S he
    cases e with
    | literal x => exact Or.inl ⟨_, rfl⟩
    | primitive word => exact Or.inl ⟨_, rfl⟩
    | _ => cases he
  lambda around N parameters names body S := Or.inl rfl

/-- **Machines keep up with the evaluator**, to any depth. -/
theorem faithful_eval (B : Build) (fuel : Nat) : Faithful B (eval fuel) := by
  induction fuel with
  | zero =>
    have hstop : ∀ around e S, (eval 0 around e).run S = (.error .exhausted, S) := fun _ _ _ => rfl
    exact ⟨fun _ _ _ _ _ => .of_open (hstop _ _ _) nofun, fun _ _ _ => Or.inr (hstop _ _ _), fun _ _ _ _ _ _ =>
      Or.inr (hstop _ _ _)⟩
  | succ fuel ih => exact ih.evalWith

end SchemeMachine.Meaning
