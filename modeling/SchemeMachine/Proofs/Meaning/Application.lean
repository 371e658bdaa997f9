import SchemeMachine.Proofs.Meaning.Sequence

/-!
# Calls

What a call does to a machine whose heap mirrors the cells of an evaluation.

* `Meaning.Faithful.enters`: the code of an activation stores the arguments, carries out the body and returns.
* `Meaning.Faithful.applies`: a call of a value, which may be a procedure that is still a label.
-/

namespace SchemeMachine.Meaning

open Expression Lowering

variable {B : Build} {w w' : World} {S : Store} {d : Denoted} {v : Value} {g h M N : Handle} {c : Closure}
  {around : List Region} {pc : Nat} {stack : List Value} {frames fs : List Frame} {f : Frame} {tail : Bool}
  {self : List Region → Expression → Eval Denoted} {parameters names : List String} {body : List Expression}
  {ds : List Denoted} {vs : List Value}

/-! ### Entering code -/

/-- The code of a block stands somewhere. -/
theorem Build.exists_linesAt {b : Block} (hb : b ∈ B.blocks) : ∃ pc, B.LinesAt pc b.lines := by
  obtain ⟨before, after, hsplit⟩ := List.append_of_mem hb
  refine ⟨2 + (before.flatMap Block.lines).length, after.flatMap Block.lines, ?_⟩
  show _ = (Program.linesOf B.blocks).drop _
  rw [hsplit, Program.linesOf, Nat.add_comm, List.flatMap_append, List.flatMap_cons]
  simp

theorem length_storeLines (o : String) (xs : List String) : (Piece.storeLines o xs).length = xs.length := by
  induction xs with
  | nil => rfl
  | cons x xs ih => rw [Piece.storeLines, List.length_cons, List.length_cons, ih]

theorem length_loadLines (o : String) (xs : List String) (depth : Nat) :
    (Piece.loadLines o depth xs).length = xs.length := by
  induction xs generalizing depth with
  | nil => rfl
  | cons x xs ih => rw [Piece.loadLines, List.length_cons, List.length_cons, ih]

/-- Writing a cell writes no output. -/
@[simp] theorem Store.output_set (S : Store) (a : Nat) (x : String) (d : Denoted) : (S.set a x d).output = S.output := rfl

/-- **Arguments are stored** under names of the current activation, that on top of the stack first. -/
theorem leads_stores {r : Region} {o : String} (hm : Mirrors B w S) (hs : w.Stands (r :: around) r.lambda g)
    {xs : List String} (hxs : ∀ x ∈ xs, x ∈ r.names) (hds : List.Forall₂ (Represents B w) ds vs)
    (hlength : xs.length = ds.length)
    (hlines : B.LinesAt pc (Piece.storeLines o (xs.map (Tree.scopedName r.lambda)))) (stack : List Value)
    (frames : List Frame) :
    ∃ w', Leads B.image ⟨pc, vs ++ stack, frames, some g, w.heap⟩ S.output
        ⟨pc + xs.length, stack, frames, some g, w'.heap⟩ S.output ∧
      w.Grows w' ∧ Mirrors B w' ((xs.zip ds).foldl (fun S e => S.set r.activation e.1 e.2) S) := by
  induction xs generalizing w S ds vs pc with
  | nil =>
    obtain rfl := List.length_eq_zero_iff.mp hlength.symm
    cases hds
    exact ⟨w, .refl _ _, .refl w, hm⟩
  | cons x xs ih =>
    cases hds with
    | nil => cases hlength
    | @cons d v ds vs hv hds =>
      rw [List.map_cons, Piece.storeLines, Build.linesAt_cons] at hlines
      have hx := hxs x List.mem_cons_self
      have hinner : innermost? (r :: around) x = some r := by simp [innermost?, hx]
      have hbinder : Term.Chain.binder? ((r :: around).map Region.scope) x = some r.lambda := by
        rw [binder?_scopes, hinner]
        rfl
      have hstore : Tracks B.image ⟨pc, v :: (vs ++ stack), frames, some g, w.heap⟩ S (define (r :: around) x d)
          fun _ => Leaves B w (pc + 1) (vs ++ stack) frames g :=
        .store hm hs hbinder (.value hv) (B.instruction_of_line hlines.1)
      obtain ⟨_, hleads, w', hw, hm', rfl⟩ := hstore.exists_leads (define_run hinner d S)
      obtain ⟨w'', hleads', hw', hm''⟩ := ih hm' (hs.mono hw) (fun y hy => hxs y (List.mem_cons_of_mem _ hy))
        (hds.imp fun _ _ h => h.mono hw) (Nat.succ.inj hlength) hlines.2
      refine ⟨w'', hleads.trans ?_, hw.trans hw', hm''⟩
      rwa [List.length_cons, Nat.add_comm xs.length, ← Nat.add_assoc]

/-- Parameters are bound from the last one on. -/
theorem Store.bind_eq (S : Store) (a : Nat) (hlength : parameters.length = ds.length) :
    S.bind a parameters ds =
      (parameters.reverse.zip ds.reverse).foldl (fun S e => S.set a e.1 e.2) S := by
  rw [Store.bind, List.zip_eq_zipWith, List.zip_eq_zipWith, ← List.reverse_zipWith hlength, List.foldl_reverse]

theorem Store.output_bind (S : Store) (a : Nat) (parameters : List String) (ds : List Denoted) :
    (S.bind a parameters ds).output = S.output := by
  unfold Store.bind
  induction parameters.zip ds with
  | nil => rfl
  | cons e es ih => exact ih

/-- **A machine stands in an activation** that it has entered. -/
theorem World.Stands.enter {a : Nat} (hact : w.acts g) (hc : w.heap.closure? g = some c) (hlabel : c.label = Handle.label N)
    (hregion : w.regions[a]? = some (g, ⟨a, N, names⟩)) {l : Ancestry} (hl : w.heap.Lineage (some g) l)
    (hall : ∀ r ∈ around, ∃ g' ∈ l.map Prod.fst, w.regions[r.activation]? = some (g', r))
    (hrooted : (∃ r ∈ around, r.lambda = Tree.top) ∨ N = Tree.top) : w.Stands (⟨a, N, names⟩ :: around) N g := by
  refine ⟨hact, ⟨c, hc, hlabel⟩, ⟨l, hl, fun r hr => ?_⟩, ?_⟩
  · rcases List.mem_cons.mp hr with rfl | hr
    · obtain ⟨rest, rfl, -⟩ := hl.exists_eq_cons hc
      exact ⟨g, List.mem_cons_self, hregion⟩
    · exact hall r hr
  · rcases hrooted with ⟨r, hr, hroot⟩ | rfl
    · exact ⟨r, List.mem_cons_of_mem _ hr, hroot⟩
    · exact ⟨_, List.mem_cons_self, rfl⟩

/-- A closure is entered at its label. -/
theorem Mirrors.address_eq (hm : Mirrors B w S) (hc : w.heap.closure? g = some c) (hlabel : c.label = Handle.label N)
    {line : Line} (hline : B.layout.lines[pc]? = some line) (hi : line.instruction = .label (Handle.label N)) :
    c.address = pc := by
  obtain ⟨line', n, hline', hi', -⟩ := (hm.sound.closure hc).entry
  have hfound := B.find?_of_line hline' (hi'.trans (by rw [hlabel]))
  exact Option.some.inj (hfound.symm.trans (B.find?_of_line hline hi))

/-- **The code of an activation** stores the arguments, carries out the body and returns. -/
theorem Faithful.enters (hself : Faithful B self) (hm : Mirrors B w S) (hact : w.acts g)
    (hc : w.heap.closure? g = some c) (hlabel : c.label = Handle.label N) (hbound : c.bound = {})
    (hfresh : ∀ (i : Nat) r, w.regions[i]? ≠ some (g, r))
    (hlineage : ∃ l, w.heap.Lineage (some g) l ∧
      ∀ r ∈ around, ∃ g' ∈ l.map Prod.fst, w.regions[r.activation]? = some (g', r))
    (hrooted : (∃ r ∈ around, r.lambda = Tree.top) ∨ N = Tree.top) (hcode : HasCode B around N parameters names body)
    (hds : List.Forall₂ (Represents B w) ds vs) (hlength : ds.length = parameters.length) :
    Tracks B.image ⟨c.address, vs.reverse ++ stack, f :: fs, some g, w.heap⟩ S
      (do
        let a ← enter parameters ds
        evalForms (self (⟨a, N, names⟩ :: around)) body)
      (Returns B w f fs stack) := by
  obtain ⟨w₁, hheap, hacts, hw₁, hm₁, hregion⟩ := hm.newRegion hact hc hlabel hbound hfresh names
  have henter : (enter parameters ds).run S =
      (.ok S.activations, { S with activations := S.activations + 1 }.bind S.activations parameters ds) := rfl
  have hs₁ : w₁.Stands (⟨S.activations, N, names⟩ :: around) N g := by
    obtain ⟨l, hl, hall⟩ := hlineage
    refine .enter (hacts ▸ hact) (hheap ▸ hc) hlabel hregion (hheap ▸ hl) (fun r hr => ?_) hrooted
    obtain ⟨g', hg', hr'⟩ := hall r hr
    exact ⟨g', hg', hw₁.regions _ _ hr'⟩
  cases hcode with
  | @block _ b _ _ _ ps last hb hparameters hnames hbody hforms =>
    obtain ⟨place, hlines⟩ := B.exists_linesAt hb
    rw [Block.lines, Build.linesAt_cons, Build.linesAt_cons, List.append_assoc, Build.linesAt_append,
      Build.linesAt_append, Build.linesAt_cons] at hlines
    obtain ⟨-, hentry, hstores, hlines, hret, -⟩ := hlines
    -- the closure is entered at the label of the block
    rw [hm.address_eq hc hlabel hentry rfl, ← hheap]
    refine .silent (moves_label (B.instruction_of_line hentry) _ _) ?_
    -- the arguments are stored
    rw [hparameters, ← List.map_reverse] at hstores
    obtain ⟨w₂, hleads, hw₂, hm₂⟩ := leads_stores hm₁ hs₁ (fun x hx => hnames x (List.mem_reverse.mp hx))
      (List.forall₂_reverse_iff.mpr (hds.imp fun _ _ h => h.mono hw₁)) (by simp [hlength]) hstores stack (f :: fs)
    rw [← Store.bind_eq _ _ hlength.symm] at hm₂
    refine .bind_leads henter (by rw [Store.output_bind]; exact hleads) ?_
    -- the body is carried out, and returns by itself or by the instruction behind it
    have hvalued : ∀ o d ls, Piece.valuedLines o d (Piece.body ps last).yields ls = ls := fun _ _ _ => rfl
    rw [hbody, hvalued] at hlines hret
    rw [length_storeLines, hparameters, ← List.map_reverse, List.length_map] at hlines hret
    refine (hself.forms hm₂ (hs₁.mono hw₂) hforms hlines fun _ => List.cons_ne_nil f fs).andThen fun d S' r hr => ?_
    have hw := hw₁.trans hw₂
    cases hr with
    | statement hyields => cases hyields
    | returned _ hframes hr =>
      cases hframes
      exact ⟨r, .refl _ _, hr.mono hw⟩
    | value _ hr =>
      obtain ⟨w₃, v, hw₃, hm₃, hv, rfl⟩ := hr
      exact ⟨_, .silent (moves_ret (B.instruction_of_line hret) _ _) (.refl _ _), w₃, v, hw.trans hw₃, hm₃, hv, rfl⟩

/-! ### Calling values -/

/-- **The next instruction calls a value.** -/
def Calls (B : Build) (r : Registers) (v : Value) (tail : Bool) : Prop :=
  ∃ i, B.image.program.code[r.pc]? = some i ∧ ∀ host b,
    (Machine.dispatch host i).run (r.machine B.image b) = (Machine.callValue v tail).run (r.machine B.image b)

variable {r : Registers}

/-- A new closure is that of no activation yet. -/
theorem Mirrors.nextSlot_fresh (hm : Mirrors B w S) (i : Nat) (r : Region) :
    w.regions[i]? ≠ some (w.heap.nextSlot, r) := fun hr =>
  hm.sound.not_act_nextSlot (hm.regions i _ r hr).act

/-- What cannot be called fails. -/
theorem Calls.fails (hcalls : Calls B r v tail)
    (hrun : ∀ b, ∃ text m, (Machine.callValue v tail).run (r.machine B.image b) = (.error (.typeError text), m)) :
    Fails B.image r .type := by
  obtain ⟨i, hi, hdispatch⟩ := hcalls
  refine ⟨i, hi, fun host b => ?_⟩
  obtain ⟨text, m, hrun⟩ := hrun b
  exact ⟨_, m, (hdispatch host b).trans hrun, trivial⟩

/-- A closure is entered, once the heap has it. -/
theorem Calls.moves (hcalls : Calls B r v tail) {H : Heap} (hc : H.closure? g = some c)
    (hrun : ∀ b, (Machine.callValue v tail).run (r.machine B.image b) =
      (Machine.enter g tail >>= fun _ => pure "").run { r.machine B.image b with heap := H }) :
    Moves B.image r "" ⟨c.address, r.stack, r.callers tail, some g, H⟩ := by
  obtain ⟨i, hi, hdispatch⟩ := hcalls
  refine ⟨i, hi, fun host b => ?_⟩
  rw [hdispatch, hrun, Machine.run_bind_ok (Machine.run_enter hc tail)]
  rfl

/-- **A primitive is called** as a value; output answers `#f`. -/
theorem Calls.primitive {word : String} (hm : Mirrors B w S)
    (hcalls : Calls B ⟨pc, vs.reverse ++ stack, frames, some h, w.heap⟩ (.keyword word) tail)
    (hcallers : (⟨pc, vs.reverse ++ stack, frames, some h, w.heap⟩ : Registers).callers tail = f :: fs)
    (hword : word ∈ arithmeticWords ++ operationWords) (hds : List.Forall₂ (Represents B w) ds vs) :
    Tracks B.image ⟨pc, vs.reverse ++ stack, frames, some h, w.heap⟩ S (operate word ds) (Returns B w f fs stack) := by
  obtain ⟨op, hop⟩ : ∃ op, Opcode.ofPrimitive? word = some op := by
    simp only [arithmeticWords, operationWords, List.cons_append, List.nil_append, List.mem_cons, List.not_mem_nil,
      or_false] at hword
    rcases hword with rfl | rfl | rfl | rfl | rfl | rfl | rfl | rfl | rfl | rfl | rfl | rfl | rfl | rfl | rfl | rfl <;>
      exact ⟨_, rfl⟩
  have ho : Operates B w h op vs S (operate word ds) := operates hm hword hop hds
  have hcall : ∀ m, (Machine.callValue (.keyword word) tail).run m = (do
      let written ← Machine.operate op
      if op = .display ∨ op = .newline then Machine.push (.boolean false)
      Machine.finishCall tail
      return written : Machine.Move String).run m := by
    intro m
    show (Machine.callPrimitive word tail).run m = _
    unfold Machine.callPrimitive
    rw [hop]
  obtain ⟨i, hi, hdispatch⟩ := hcalls
  unfold Operates at ho
  unfold Tracks
  rcases he : (operate word ds).run S with ⟨(stop | d), S'⟩
  · rw [he] at ho
    cases stop with
    | failed failure =>
      obtain ⟨rfl, hrun⟩ := ho
      refine ⟨_, .refl _ _, i, hi, fun host b => ?_⟩
      obtain ⟨fault, m, hrun, hfault⟩ := hrun stack _ (World.has_machine b) rfl
      refine ⟨fault, m, ?_, hfault⟩
      rw [hdispatch, hcall, Machine.run_bind_error hrun]
    | _ => trivial
  · rw [he] at ho
    obtain ⟨w', v, written, hw, hm, hv, houtput, hfalse, hrun⟩ := ho
    refine ⟨_, houtput ▸ .single ⟨i, hi, fun host b => ?_⟩, w', v, hw, hm, hv, rfl⟩
    rw [hdispatch, hcall, Machine.run_bind_ok (hrun stack _ (World.has_machine b) rfl)]
    -- output pushes the value that the other primitives have pushed
    by_cases hout : op = .display ∨ op = .newline
    · have hanswers := Opcode.answers_eq_false.mpr hout
      rw [if_pos hout, hanswers, hfalse hanswers]
      show (Machine.finishCall tail >>= fun _ => pure written : Machine.Move String).run
        ((⟨pc, .boolean false :: stack, frames, some h, w'.heap⟩ : Registers).machine B.image b) = _
      exact Machine.run_bind_ok (Machine.run_finishCall hcallers)
    · have hanswers : op.answers = true := by simpa using fun h => hout (Opcode.answers_eq_false.mp h)
      rw [if_neg hout, hanswers]
      exact Machine.run_bind_ok (Machine.run_finishCall hcallers)

/-- **A closure that has been made for a procedure** is entered. -/
theorem Faithful.applies_closure (hself : Faithful B self) (hm : Mirrors B w S) (hw : w.Grows w') (hm' : Mirrors B w' S)
    (hregions : w'.regions = w.regions) (hact : w'.acts w.heap.nextSlot)
    (hc : w'.heap.closure? w.heap.nextSlot = some c) (hlabel : c.label = Handle.label N) (hbound : c.bound = {})
    (hsees : w'.Sees around (some w.heap.nextSlot)) (hcode : HasCode B around N parameters names body)
    (hds : List.Forall₂ (Represents B w) ds vs)
    (hmoves : Moves B.image r "" ⟨c.address, vs.reverse ++ stack, f :: fs, some w.heap.nextSlot, w'.heap⟩) :
    Tracks B.image r S (apply self (.procedure N parameters names body around) ds) (Returns B w f fs stack) := by
  show Tracks B.image _ S (if ds.length = parameters.length then _ else _) _
  split
  · next hlength =>
    refine .silent hmoves ?_
    refine (hself.enters hm' hact hc hlabel hbound (fun i r => ?_) hsees.lineage (Or.inl hsees.rooted) hcode
      (hds.imp fun _ _ h => h.mono hw) hlength).mono fun d S' r hr => hr.mono hw
    rw [hregions]
    exact hm.nextSlot_fresh i r
  · exact .unspecified

/-- **A value is called.** -/
theorem Faithful.applies_value (hself : Faithful B self) (hm : Mirrors B w S) (hv : Represents B w d v)
    (hds : List.Forall₂ (Represents B w) ds vs)
    (hcalls : Calls B ⟨pc, vs.reverse ++ stack, frames, some h, w.heap⟩ v tail)
    (hcallers : (⟨pc, vs.reverse ++ stack, frames, some h, w.heap⟩ : Registers).callers tail = f :: fs) :
    Tracks B.image ⟨pc, vs.reverse ++ stack, frames, some h, w.heap⟩ S (apply self d ds) (Returns B w f fs stack) := by
  -- an object that is neither a closure nor a continuation cannot be called
  have hobject : ∀ {j : Handle} {o : Object}, w.heap.get? j = some o → (∀ c, o ≠ .closure c) →
      (∀ k, o ≠ .continuation k) → v = .handle j →
      Fails B.image ⟨pc, vs.reverse ++ stack, frames, some h, w.heap⟩ .type := by
    rintro j o ho hc hk rfl
    have hrun : ∀ m : Machine, m.heap = w.heap →
        (Machine.callObject j tail).run m = (.error (.typeError (o.typeName ++ " is not callable")), m) := by
      intro m hheap
      unfold Machine.callObject
      rw [Machine.run_get_bind, hheap, ho]
      cases o with
      | closure c => exact absurd rfl (hc c)
      | continuation k => exact absurd rfl (hk k)
      | _ => rfl
    exact hcalls.fails fun b => ⟨_, _, Machine.run_bind_error (hrun _ rfl)⟩
  cases hv with
  | number => exact .fail (hcalls.fails fun b => ⟨_, _, rfl⟩)
  | boolean => exact .fail (hcalls.fails fun b => ⟨_, _, rfl⟩)
  | symbol => exact .fail (hcalls.fails fun b => ⟨_, _, rfl⟩)
  | string ho => exact .fail (hobject ho nofun nofun rfl)
  | list _ ho => exact .fail (hobject ho nofun nofun rfl)
  | primitive hword => exact hcalls.primitive hm hcallers hword hds
  | @procedure j N c parameters names body around hc hnot hlabel hcode hsees =>
    -- a procedure is called by a copy of its closure, with a new activation
    let c' : Closure := { label := c.label, address := c.address, parent := some j, free := c.environment }
    obtain ⟨w', hheap, hregions, hw, hm', hc', hact⟩ := hm.newClosure (c := c') (P := True) (hm.sound.closure hc).entry rfl
      (fun h => absurd trivial h) (.below rfl hc rfl (Or.inr ⟨trivial, hnot, rfl⟩)) (some h)
    refine hself.applies_closure hm hw hm' hregions (hact.mpr trivial) hc' hlabel rfl ((hw.sees hsees).below hc' rfl)
      hcode hds (hcallers ▸ hcalls.moves hc' fun b => ?_)
    show (Machine.callObject j tail >>= fun _ => pure "" : Machine.Move String).run _ = _
    rw [Machine.run_bind, Machine.run_callObject (show _ = some c from hc), ← Machine.run_bind, hheap]
    rfl

/-- **A value of an activation further out is called**, which may be a procedure that is still a label. -/
theorem Faithful.applies (hself : Faithful B self) (hm : Mirrors B w S) (hs : w.Stands around M h) {l : Ancestry}
    (hl : w.heap.Lineage (some h) l) (hg : g ∈ l.map Prod.fst) (hact : w.acts g) (hv : Holds B w g d v)
    (hds : List.Forall₂ (Represents B w) ds vs)
    (hcalls : Calls B ⟨pc, vs.reverse ++ stack, frames, some h, w.heap⟩ v tail)
    (hcallers : (⟨pc, vs.reverse ++ stack, frames, some h, w.heap⟩ : Registers).callers tail = f :: fs) :
    Tracks B.image ⟨pc, vs.reverse ++ stack, frames, some h, w.heap⟩ S (apply self d ds) (Returns B w f fs stack) := by
  cases hv with
  | value hv => exact hself.applies_value hm hv hds hcalls hcallers
  | label hc hlabel hin hcode hsees =>
    obtain ⟨w', c', hrun, hw, hm', hregions, hact', hc', hlabel', hparent, hbound⟩ :=
      hm.run_closeProcedure hs hl hg hact hc hlabel hin True
    refine hself.applies_closure hm hw hm' hregions (hact'.mpr trivial) hc' hlabel' hbound
      ((hw.sees hsees).below hc' hparent) hcode hds (hcallers ▸ hcalls.moves hc' fun b => ?_)
    exact Machine.run_bind_ok (hrun _ (World.has_machine b))

/-! ### Call instructions -/

/-- No name of a program without natives is that of a native function. -/
theorem Build.nativeTarget?_eq_none {m : Machine} (hm : m.image = B.image) (host : Host) (name : String) :
    Machine.nativeTarget? host m name = none := by
  cases htarget : Machine.nativeTarget? host m name with
  | none => rfl
  | some target =>
    have hcontains := (Machine.nativeTarget?_eq_some htarget).1
    rw [hm, show B.image.program = B.program from rfl, B.natives] at hcontains
    cases hcontains

/-- A variable is called. -/
theorem Build.calls_variable {name : String}
    (hi : B.image.program.code[r.pc]? = some (callTo tail (.atom (.variable name))))
    (hrun : ∀ b, (Machine.dereference name).run (r.machine B.image b) = (.ok v, r.machine B.image b)) :
    Calls B r v tail := by
  refine ⟨_, hi, fun host b => ?_⟩
  have hcall : (Machine.call host (.atom (.variable name)) tail).run (r.machine B.image b) =
      (Machine.callValue v tail).run (r.machine B.image b) := by
    unfold Machine.call
    rw [Machine.run_get_bind, B.nativeTarget?_eq_none rfl]
    exact Machine.run_bind_ok (hrun b)
  cases tail <;> exact hcall

/-- A label is called. -/
theorem Build.calls_label {name : String} (hi : B.image.program.code[r.pc]? = some (callTo tail (.label name))) :
    Calls B r (.label name) tail := by
  refine ⟨_, hi, fun host b => ?_⟩
  cases tail <;> rfl

/-- **A variable is called** once the arguments have been evaluated. -/
theorem Faithful.applies_variable (hself : Faithful B self) (hm : Mirrors B w S) (hs : w.Stands around M h)
    {x spelling : String} (hname : Spelt (around.map Region.scope) x spelling)
    (hds : List.Forall₂ (Represents B w) ds vs)
    (hi : B.image.program.code[pc]? = some (callTo tail (.atom (.variable spelling))))
    (hcallers : (⟨pc, vs.reverse ++ stack, frames, some h, w.heap⟩ : Registers).callers tail = f :: fs) :
    Tracks B.image ⟨pc, vs.reverse ++ stack, frames, some h, w.heap⟩ S (do apply self (← read around x) ds)
      (Returns B w f fs stack) := by
  obtain ⟨l, hl, -⟩ := hs.sees.lineage
  rcases hm.run_dereference hs hl hname with ⟨hnone, hrun⟩ | ⟨r, g, d, v, hr, hcell, hg, hact, hheld, hrun⟩
  · have hread : (read around x >>= fun d => apply self d ds).run S = (.error (.failed (.unbound x)), S) := by
      rw [run_bind, read_run, hnone]
    unfold Tracks
    rw [hread]
    refine ⟨_, .refl _ _, _, hi, fun host b => ?_⟩
    refine ⟨.unboundVariable spelling, (⟨pc, vs.reverse ++ stack, frames, some h, w.heap⟩ : Registers).machine B.image b,
      ?_, hname.describes⟩
    have hcall : (Machine.call host (.atom (.variable spelling)) tail).run
        ((⟨pc, vs.reverse ++ stack, frames, some h, w.heap⟩ : Registers).machine B.image b) =
        (.error (.unboundVariable spelling),
          (⟨pc, vs.reverse ++ stack, frames, some h, w.heap⟩ : Registers).machine B.image b) := by
      unfold Machine.call
      rw [Machine.run_get_bind, B.nativeTarget?_eq_none rfl]
      exact Machine.run_bind_error (hrun _ (World.has_machine b))
    cases tail <;> exact hcall
  · refine .bind_of_ok ?_ (hself.applies hm hs hl hg hact hheld hds (B.calls_variable hi fun b => ?_) hcallers)
    · rw [read_run, hr, Option.bind_some, hcell]
    · exact hrun _ (World.has_machine b)

/-! ### Computed operators -/

theorem nodup_blockParameters (n count : Nat) : (Piece.blockParameters n count).Nodup := by
  refine List.nodup_range.map_on fun i _ j _ heq => ?_
  have hparts : ".p" ++ toString i ++ "" = ".p" ++ toString j ++ "" := by
    simpa using (String.append_right_inj _).mp heq
  exact (Names.number_inj (by simp) (by simp) hparts).1

/-- A closure binds names to values. -/
abbrev Binds (c : Closure) : List String → List Value → Prop := List.Forall₂ fun x v => c.bound.find? x = some v

/-- **Operands are stored** under names of the current closure that are no cells, that on top of the stack first. -/
theorem leads_scratch (hm : Mirrors B w S) (hact : w.acts g) (hc : w.heap.closure? g = some c)
    (hfresh : ∀ (i : Nat) r, w.regions[i]? ≠ some (g, r)) {o : String} {xs : List String}
    (howns : ∀ x ∈ xs, B.layout.owns c.label x) (hnodup : xs.Nodup) (hds : List.Forall₂ (Represents B w) ds vs)
    (hlength : xs.length = vs.length) (hlines : B.LinesAt pc (Piece.storeLines o xs)) (stack : List Value)
    (frames : List Frame) (output : String) :
    ∃ w' c', Leads B.image ⟨pc, vs ++ stack, frames, some g, w.heap⟩ output
        ⟨pc + xs.length, stack, frames, some g, w'.heap⟩ output ∧
      w.Grows w' ∧ Mirrors B w' S ∧ w'.heap.closure? g = some c' ∧ Binds c' xs vs ∧
      ∀ y, y ∉ xs → c'.bound.find? y = c.bound.find? y := by
  -- on the names: each store takes the value on top of the stack
  induction xs generalizing w c ds vs pc with
  | nil =>
    obtain rfl := List.length_eq_zero_iff.mp hlength.symm
    exact ⟨w, c, .refl _ _, .refl w, hm, hc, .nil, fun _ _ => rfl⟩
  | cons x xs ih =>
    cases hds with
    | nil => cases hlength
    | @cons d v ds vs hv hds =>
      rw [Piece.storeLines, Build.linesAt_cons] at hlines
      obtain ⟨hx, hnodup⟩ := List.nodup_cons.mp hnodup
      obtain ⟨hsound, hgrows⟩ := hm.sound.bind hact hc (howns x List.mem_cons_self) (Or.inl (hv.settled hm.sound))
      have hchanges := Heap.Changes.put hm.sound.tidy (hm.sound.changeable g c hc) hc fun c => c.bind x v
      obtain ⟨hw, hm'⟩ := hm.scratch hchanges hsound hgrows fun i j r c hj =>
        congrArg Closure.bound (if_neg fun hjg : j = g => hfresh i r (hjg ▸ hj))
      have hc' : (w.heap.put g (.closure (c.bind x v))).closure? g = some (c.bind x v) := by
        rw [hchanges.closure? hc, if_pos rfl]
      -- one store, which changes no cell
      have hmoves : Moves B.image ⟨pc, v :: vs ++ stack, frames, some g, w.heap⟩ ""
          ⟨pc + 1, vs ++ stack, frames, some g, w.heap.put g (.closure (c.bind x v))⟩ :=
        ⟨_, B.instruction_of_line hlines.1, fun host b => Machine.run_bind_ok
          ((hm.machine_sound hact hc (World.has_machine b)).withStack (vs ++ stack) |>.run_store rfl hc)⟩
      obtain ⟨w', c', hleads, hw', hm'', hc'', hbinds, hothers⟩ := ih hm' hact hc' hfresh
        (fun y hy => howns y (List.mem_cons_of_mem x hy)) hnodup (hds.imp fun _ _ h => h.mono hw)
        (Nat.succ.inj hlength) hlines.2
      refine ⟨w', c', .silent hmoves ?_, hw.trans hw', hm'', hc'', .cons ?_ hbinds, fun y hy => ?_⟩
      · rwa [List.length_cons, Nat.add_comm xs.length, ← Nat.add_assoc]
      · rw [hothers x hx, Closure.bound_bind, Table.find?_insert_self]
      · obtain ⟨hyx, hy⟩ := List.ne_and_not_mem_of_not_mem_cons hy
        rw [hothers y hy, Closure.bound_bind, Table.find?_insert_of_ne _ hyx]

/-- Code that is outside of all procedures belongs to the current closure. -/
theorem run_lexicalParent_outermost {current : Option Handle} {name : String} {m : Machine} (hmachine : w.Has B current m)
    (hout : B.program.enclosing.find? name = none) : (Machine.lexicalParent name).run m = (.ok current, m) := by
  have hfind : m.image.program.enclosing.find? name = none := by
    rw [hmachine.image]
    exact hout
  unfold Machine.lexicalParent
  rw [Machine.run_get_bind, hfind, ← hmachine.current]
  rfl

/-- A name that the current closure binds is read. -/
theorem run_dereference_bound (hc : w.heap.closure? g = some c) {x : String} (hx : c.bound.find? x = some v) {m : Machine}
    (hmachine : w.Has B (some g) m) : (Machine.dereference x).run m = (.ok v, m) := by
  rw [Machine.run_dereference x hmachine.current (hmachine.heap ▸ hc), Machine.lookup?, hx]

/-- **Operands are loaded** that the current closure binds. -/
theorem leads_loads (hc : w.heap.closure? g = some c) {o : String} {depth : Nat} {xs : List String} (hbinds : Binds c xs vs)
    (hds : List.Forall₂ (Represents B w) ds vs) (hlines : B.LinesAt pc (Piece.loadLines o depth xs)) (stack : List Value)
    (frames : List Frame) (output : String) :
    Leads B.image ⟨pc, stack, frames, some g, w.heap⟩ output
      ⟨pc + xs.length, vs.reverse ++ stack, frames, some g, w.heap⟩ output := by
  induction hbinds generalizing ds pc depth stack with
  | nil => exact .refl _ _
  | @cons x v xs vs hx hbinds ih =>
    cases hds with
    | cons hv hds =>
      rw [Piece.loadLines, Build.linesAt_cons] at hlines
      have hmoves : Moves B.image ⟨pc, stack, frames, some g, w.heap⟩ ""
          ⟨pc + 1, v :: stack, frames, some g, w.heap⟩ :=
        ⟨_, B.instruction_of_line hlines.1, fun host b =>
          (Machine.run_bind_ok (run_dereference_bound hc hx (World.has_machine b))).trans
            (Machine.run_bind_ok (hv.run_closed _))⟩
      refine .silent hmoves ?_
      have hrest := ih hds hlines.2 (v :: stack)
      rwa [List.length_cons, Nat.add_comm xs.length, ← Nat.add_assoc, List.reverse_cons, List.append_assoc]

/-- **The block of a computed call** binds the operands, loads the arguments and calls the operator. -/
theorem Faithful.applies_block (hself : Faithful B self) (hm : Mirrors B w S) (hs : w.Stands around M h) {n place : Nat}
    (hblock : B.LinesAt place (Piece.blockLines n (ds.length + 1)))
    (hend : ∃ line ∈ B.layout.lines, line.instruction = .label (Piece.blockLabel n ++ "_end") ∧
      line.spot.owner = some (Handle.label M))
    (hds : List.Forall₂ (Represents B w) (d :: ds) vs)
    (hcalls : Calls B ⟨pc, vs.reverse ++ stack, frames, some h, w.heap⟩ (.label (Piece.blockLabel n)) tail)
    (hcallers : (⟨pc, vs.reverse ++ stack, frames, some h, w.heap⟩ : Registers).callers tail = f :: fs) :
    Tracks B.image ⟨pc, vs.reverse ++ stack, frames, some h, w.heap⟩ S (apply self d ds) (Returns B w f fs stack) := by
  obtain ⟨c, hc, hlabel⟩ := hs.closure
  have hcount : (Piece.blockParameters n (ds.length + 1)).length = vs.length := by
    rw [length_blockParameters, ← hds.length_eq]
    rfl
  rw [Piece.blockLines, Build.linesAt_cons, List.append_assoc, Build.linesAt_append, Build.linesAt_append,
    Build.linesAt_cons, length_storeLines, length_loadLines] at hblock
  obtain ⟨hentry, hstores, hloads, hcall, -⟩ := hblock
  -- the block runs in a closure of its own
  have hfresh : Closure.Fresh B.layout w.acts w.heap True
      { label := Piece.blockLabel n, address := place, parent := some h, free := c.environment } :=
    .below rfl hc rfl (Or.inl ⟨hs.act, Or.inr ⟨n, M, rfl, hlabel, hlabel ▸ hend⟩⟩)
  obtain ⟨w₁, hrun, hw₁, hm₁, hregions, hact₁, hc₁⟩ := hm.run_makeClosure hentry rfl rfl
    (fun m hmachine => run_lexicalParent_outermost hmachine (B.compiled.enclosing_blockLabel n)) hfresh fun h => absurd trivial h
  have hmoves := hcalls.moves hc₁ fun b => Machine.run_bind_ok (hrun _ (World.has_machine b))
  rw [hcallers] at hmoves
  refine .silent hmoves (.silent (moves_label (B.instruction_of_line hentry) _ _) ?_)
  -- it binds the operands
  obtain ⟨w₂, c₂, hleads, hw₂, hm₂, hc₂, hbinds, -⟩ := leads_scratch hm₁ (hact₁.mpr trivial) hc₁
    (fun i r => hregions ▸ hm.nextSlot_fresh i r) (fun x hx => by
      obtain ⟨i, -, rfl⟩ := List.mem_map.mp (List.mem_reverse.mp hx)
      exact Or.inr (Or.inr ⟨n, i, rfl, rfl⟩))
    (List.nodup_reverse.mpr (nodup_blockParameters n _))
    (List.forall₂_reverse_iff.mpr (hds.imp fun _ _ h => h.mono hw₁)) (by simpa using hcount) hstores stack (f :: fs)
    S.output
  refine .leads hleads ?_
  -- it loads all but the first one, which is called
  have hw := hw₁.trans hw₂
  have hbinds : Binds c₂ (Piece.blockParameters n (ds.length + 1)) vs := List.forall₂_reverse_iff.mp hbinds
  have hparameters : Piece.blockParameters n (ds.length + 1) =
      (Piece.blockLabel n ++ ".p0") :: (Piece.blockParameters n (ds.length + 1)).tail := by
    rw [Piece.blockParameters, List.range_succ_eq_map, List.map_cons, List.tail_cons]
    rfl
  rw [hparameters] at hbinds
  cases hds with
  | @cons _ v _ vs hv hds =>
    cases hbinds with
    | cons hoperator harguments =>
      refine .leads (leads_loads hc₂ harguments (hds.imp fun _ _ h => h.mono hw) hloads stack (f :: fs) S.output) ?_
      have hthere : Calls B ⟨_, vs.reverse ++ stack, f :: fs, some w.heap.nextSlot, w₂.heap⟩ v true :=
        B.calls_variable (B.instruction_of_line hcall) fun b => run_dereference_bound hc₂ hoperator (World.has_machine b)
      exact (hself.applies_value hm₂ (hv.mono hw) (hds.imp fun _ _ h => h.mono hw) hthere rfl).mono
        fun d S' r hr => hr.mono hw

end SchemeMachine.Meaning
