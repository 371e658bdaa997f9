import SchemeMachine.Proofs.Meaning.Simulation
import SchemeMachine.Proofs.Meaning.World

/-!
# Variables and procedures

What the instructions on variables do to a machine whose heap mirrors the cells of an evaluation: reading, writing and
closing procedures.

* `Meaning.Build.LinesAt` says which lines stand at a place of the code.
* `Meaning.World.Stands` says that a closure runs the code of a lambda among given activations.
* `Meaning.Mirrors.run_makeClosure` closes a procedure, `Meaning.Mirrors.run_closed` a value that may be one.
* `Meaning.Tracks.load`, `Meaning.Tracks.store` and `Meaning.Tracks.set` keep up with a look-up, a definition and an
  assignment.
-/

namespace SchemeMachine.Meaning

open Lowering

variable {B : Build} {w w' : World} {S : Store} {d : Denoted} {v : Value} {h g M N : Handle} {c : Closure}
  {around : List Region} {l : Ancestry} {pc : Nat} {line : Line} {ls ls' : List Line} {stack : List Value}
  {frames : List Frame} {current : Option Handle} {m : Machine} {x spelling : String} {parameters names : List String}
  {body : List Expression}

/-! ### Lines of code -/

namespace Build

/-- **Lines stand at a place** of the code. -/
def LinesAt (B : Build) (pc : Nat) (ls : List Line) : Prop := ls <+: B.layout.lines.drop pc

theorem linesAt_nil : B.LinesAt pc [] := List.nil_prefix

theorem linesAt_cons : B.LinesAt pc (line :: ls) ↔ B.layout.lines[pc]? = some line ∧ B.LinesAt (pc + 1) ls := by
  unfold LinesAt
  constructor
  · rintro ⟨rest, hrest⟩
    have hdrop := congrArg (List.drop 1) hrest
    rw [List.drop_drop] at hdrop
    refine ⟨?_, rest, by simpa using hdrop⟩
    have hhead := congrArg List.head? hrest
    simpa [List.head?_drop] using hhead.symm
  · rintro ⟨hline, rest, hrest⟩
    obtain ⟨hlt, rfl⟩ := List.getElem?_eq_some_iff.mp hline
    exact ⟨rest, by rw [List.drop_eq_getElem_cons hlt, ← hrest]; rfl⟩

theorem linesAt_append : B.LinesAt pc (ls ++ ls') ↔ B.LinesAt pc ls ∧ B.LinesAt (pc + ls.length) ls' := by
  induction ls generalizing pc with
  | nil => simp [linesAt_nil]
  | cons line ls ih =>
    rw [List.cons_append, linesAt_cons, linesAt_cons, ih, and_assoc, List.length_cons,
      show pc + 1 + ls.length = pc + (ls.length + 1) by omega]

/-- The instruction of a line. -/
theorem instruction_of_line (h : B.layout.lines[pc]? = some line) :
    B.image.program.code[pc]? = some line.instruction := by
  rw [← Array.getElem?_toList]
  show B.program.code.toList[pc]? = _
  rw [← B.layout.code, List.getElem?_map, h, Option.map_some]

/-- Where a label stands, it is found. -/
theorem find?_of_line {name : String} (h : B.layout.lines[pc]? = some line) (hi : line.instruction = .label name) :
    B.image.labels.find? name = some pc :=
  (B.layout.find?_eq_some B.ofCode).mpr ⟨line, h, hi⟩

end Build

/-! ### The running code -/

/-- **A closure runs the code of the lambda `M`** among the activations around it. -/
structure World.Stands (w : World) (around : List Region) (M h : Handle) : Prop where
  act : w.acts h
  closure : ∃ c, w.heap.closure? h = some c ∧ c.label = Handle.label M
  sees : w.Sees around (some h)

theorem World.Stands.mono (hs : w.Stands around M h) (hw : w.Grows w') : w'.Stands around M h := by
  obtain ⟨hact, ⟨c, hc, hlabel⟩, hsees⟩ := hs
  obtain ⟨c', hc', hlabel', -⟩ := hw.heap.closure? hc
  exact ⟨(hw.heap.act hc).mpr hact, ⟨c', hc', hlabel'.trans hlabel⟩, hw.sees hsees⟩

/-- **A machine with the heap of a world**, which runs a closure. -/
structure World.Has (w : World) (B : Build) (current : Option Handle) (m : Machine) : Prop where
  image : m.image = B.image
  heap : m.heap = w.heap
  current : m.current = current

theorem World.has_machine (b : Books) :
    w.Has B current ((⟨pc, stack, frames, current, w.heap⟩ : Registers).machine B.image b) := ⟨rfl, rfl, rfl⟩

theorem World.Has.withStack (hm : w.Has B current m) (stack : List Value) : w.Has B current { m with stack } :=
  ⟨hm.image, hm.heap, hm.current⟩

/-- What is represented is no label any more. -/
theorem Represents.run_closed (hv : Represents B w d v) (m : Machine) : (Machine.closed v).run m = (.ok v, m) := by
  cases hv <;> rfl

namespace Mirrors

theorem machine_sound (hm : Mirrors B w S) (hact : w.acts h) (hc : w.heap.closure? h = some c)
    (hmachine : w.Has B (some h) m) : m.Sound B.layout False w.acts := by
  obtain ⟨himage, hheap, hcurrent⟩ := hmachine
  refine ⟨congrArg Image.program himage, ?_, hheap ▸ hm.sound, c.label, ?_⟩
  · rw [himage]
    exact B.ofCode
  · rw [hcurrent, hheap]
    exact .code hact hc

/-! ### Closing procedures -/

/-- **Closing the code at a label** places a closure, below the parent that the label has. -/
theorem run_makeClosure (hm : Mirrors B w S) {name : String} {n : Nat} (hline : B.layout.lines[pc]? = some line)
    (hi : line.instruction = .label name) (hspot : line.spot = ⟨name, n, none⟩) {P : Prop} {parent : Option Handle}
    {free : Table String Value}
    (hparent : ∀ m, w.Has B current m → (Machine.lexicalParent name).run m = (.ok parent, m))
    (hfresh : Closure.Fresh B.layout w.acts w.heap P { label := name, address := pc, parent, free })
    (hstill : ¬P → (B.program.enclosing.find? name).isSome) :
    ∃ w', (∀ m, w.Has B current m →
        (Machine.makeClosure name).run m = (.ok w.heap.nextSlot, { m with heap := w'.heap })) ∧
      w.Grows w' ∧ Mirrors B w' S ∧ w'.regions = w.regions ∧ (w'.acts w.heap.nextSlot ↔ P) ∧
      w'.heap.closure? w.heap.nextSlot = some { label := name, address := pc, parent, free } := by
  obtain ⟨w', hheap', hregions, hw, hm', hc, hact⟩ := hm.newClosure (P := P) ⟨line, n, hline, hi, hspot⟩ rfl hstill hfresh
    current
  refine ⟨w', fun m hmachine => ?_, hw, hm', hregions, hact, hc⟩
  have hrun := hparent m hmachine
  obtain ⟨himage, hheap, hcurrent⟩ := hmachine
  have hfind : m.image.labels.find? name = some pc := himage ▸ B.find?_of_line hline hi
  unfold Machine.makeClosure
  rw [Machine.run_get_bind, hfind]
  dsimp only
  rw [Machine.run_bind_ok hrun]
  -- the top lambda has no parent, any other one is closed below the current closure
  cases hfresh with
  | top _ hnone hfree =>
    subst hnone hfree
    dsimp only
    rw [Machine.run_pure_bind, Machine.run_allocate, hheap, hheap', hcurrent]
    rfl
  | below hsome hg hfree =>
    subst hsome hfree
    dsimp only
    rw [Machine.run_bind_ok (Machine.run_closureOf (hheap ▸ hg)), Machine.run_pure_bind, Machine.run_allocate, hheap,
      hheap', hcurrent]

/-- A procedure belongs to the activation further out that runs the code around it. -/
theorem run_lexicalParent (hm : Mirrors B w S) (hs : w.Stands around M h) (hl : w.heap.Lineage (some h) l)
    (hg : (g, c) ∈ l) (hact : w.acts g) {name : String} (henclosing : B.program.enclosing.find? name = some c.label)
    (m : Machine) (hmachine : w.Has B (some h) m) : (Machine.lexicalParent name).run m = (.ok (some g), m) := by
  obtain ⟨himage, hheap, hcurrent⟩ := hmachine
  obtain ⟨hact', ⟨c', hc', -⟩, -⟩ := hs
  obtain ⟨e, he⟩ : ∃ e, l.labelled? c.label = some e := by
    cases hfind : l.labelled? c.label with
    | some e => exact ⟨e, rfl⟩
    | none => simpa using List.find?_eq_none.mp hfind _ hg
  have hlabel : e.2.label = c.label := by simpa using List.find?_some he
  obtain rfl : e = (g, c) := hm.sound.eq_of_label hl (List.mem_of_find?_eq_some he) hg
    (hm.sound.act_of_labelled? hl hc' (Or.inl hact') he) hact hlabel
  have hprogram : m.image.program.enclosing.find? name = some c.label := by
    rw [himage]
    exact henclosing
  unfold Machine.lexicalParent
  rw [Machine.run_get_bind, hprogram]
  dsimp only
  rw [hheap, hcurrent, hl.activationFrom_eq _ _ (Nat.le_succ_of_le hl.length_le), he]
  rfl

/-- **A procedure is closed** that stands in the code of an activation further out. `P` says whether the new closure is
taken for an activation. -/
theorem run_closeProcedure (hm : Mirrors B w S) (hs : w.Stands around M h) (hl : w.heap.Lineage (some h) l)
    (hg : g ∈ l.map Prod.fst) (hact : w.acts g) (hc : w.heap.closure? g = some c) {K : Handle}
    (hlabel : c.label = Handle.label K) (hin : B.tree.Inside K N) (P : Prop) :
    ∃ w' c', (∀ m, w.Has B (some h) m →
        (Machine.makeClosure (Handle.label N)).run m = (.ok w.heap.nextSlot, { m with heap := w'.heap })) ∧
      w.Grows w' ∧ Mirrors B w' S ∧ w'.regions = w.regions ∧ (w'.acts w.heap.nextSlot ↔ P) ∧
      w'.heap.closure? w.heap.nextSlot = some c' ∧ c'.label = Handle.label N ∧ c'.parent = some g ∧ c'.bound = {} := by
  obtain ⟨⟨_, d⟩, hmem, rfl⟩ := List.mem_map.mp hg
  obtain rfl : d = c := Option.some.inj ((hl.closure?_of_mem hmem).symm.trans hc)
  obtain ⟨hinside, henclosing, n, hentry⟩ := waits_of_inside B.compiled hin
  obtain ⟨pc, line, -, hline, hi, hspot⟩ := B.layout.exists_place B.ofCode hentry
  rw [← hlabel] at hinside henclosing
  obtain ⟨w', hrun, hw, hm', hregions, hact', hc'⟩ := hm.run_makeClosure (P := P) hline hi hspot
    (hm.run_lexicalParent hs hl hmem hact henclosing) (.below rfl hc rfl (Or.inl ⟨hact, hinside⟩))
    fun _ => by rw [henclosing]; rfl
  exact ⟨w', _, hrun, hw, hm', hregions, hact', hc', rfl, rfl, rfl⟩

/-- **A value is closed**, if it is a procedure of an activation further out and still a label. -/
theorem run_closed (hm : Mirrors B w S) (hs : w.Stands around M h) (hl : w.heap.Lineage (some h) l)
    (hg : g ∈ l.map Prod.fst) (hact : w.acts g) (hv : Holds B w g d v) :
    ∃ w' v', (∀ m, w.Has B (some h) m → (Machine.closed v).run m = (.ok v', { m with heap := w'.heap })) ∧
      w.Grows w' ∧ Mirrors B w' S ∧ Represents B w' d v' := by
  cases hv with
  | value hv =>
    refine ⟨w, v, fun m hmachine => ?_, .refl w, hm, hv⟩
    rw [hv.run_closed, ← hmachine.heap]
  | label hc hlabel hin hcode hsees =>
    obtain ⟨w', c', hrun, hw, hm', -, hact', hc', hlabel', hparent, -⟩ :=
      hm.run_closeProcedure hs hl hg hact hc hlabel hin False
    refine ⟨w', _, fun m hmachine => Machine.run_bind_ok (hrun m hmachine), hw, hm', ?_⟩
    exact .procedure hc' hact'.mp hlabel' hcode ((hw.sees hsees).below hc' hparent)

/-! ### Reading -/

/-- **A look-up finds the cell of a variable**, or finds it unbound. -/
theorem run_dereference (hm : Mirrors B w S) (hs : w.Stands around M h) (hl : w.heap.Lineage (some h) l)
    (hname : Spelt (around.map Region.scope) x spelling) :
    ((innermost? around x).bind (fun r => S.cells r.activation x) = none ∧
        ∀ m, w.Has B (some h) m → (Machine.dereference spelling).run m = (.error (.unboundVariable spelling), m)) ∨
      ∃ r g d v, innermost? around x = some r ∧ S.cells r.activation x = some d ∧ g ∈ l.map Prod.fst ∧ w.acts g ∧
        Holds B w g d v ∧ ∀ m, w.Has B (some h) m → (Machine.dereference spelling).run m = (.ok v, m) := by
  obtain ⟨-, ⟨c, hc, -⟩, hsees⟩ := hs
  rcases hm.finds hsees hl hname with ⟨hnone, hb⟩ | ⟨r, g, e, d, u, hr, hcell, hregion, -, -, hb, hu, hheld⟩
  · refine Or.inl ⟨hnone, fun m hmachine => ?_⟩
    rw [Machine.run_dereference spelling hmachine.current (hmachine.heap ▸ hc), hmachine.heap,
      hm.sound.lookup?_eq_none hc hl hb]
  · obtain ⟨v, hv, hsame, -⟩ := hm.sound.lookup?_eq_some hc hl hb hu
    refine Or.inr ⟨r, g, d, v, hr, hcell, List.mem_map.mpr ⟨_, Ancestry.mem_of_binder? hb, rfl⟩,
      (hm.regions _ g r hregion).act, hheld.of_same hsame, fun m hmachine => ?_⟩
    rw [Machine.run_dereference spelling hmachine.current (hmachine.heap ▸ hc), hmachine.heap, hv]

end Mirrors

/-! ### Instructions on variables -/

/-- **A value has been pushed**: the machine stands at a place with the value on the stack, in a later world. -/
def Pushes (B : Build) (w : World) (pc : Nat) (stack : List Value) (frames : List Frame) (h : Handle) (d : Denoted)
    (S : Store) (r : Registers) : Prop :=
  ∃ w' v, w.Grows w' ∧ Mirrors B w' S ∧ Represents B w' d v ∧ r = ⟨pc, v :: stack, frames, some h, w'.heap⟩

/-- **Nothing has been pushed**: the machine stands at a place in a later world. -/
def Leaves (B : Build) (w : World) (pc : Nat) (stack : List Value) (frames : List Frame) (h : Handle) (S : Store)
    (r : Registers) : Prop :=
  ∃ w', w.Grows w' ∧ Mirrors B w' S ∧ r = ⟨pc, stack, frames, some h, w'.heap⟩

/-- A cell holds what its activation may bind. -/
theorem Holds.held (hv : Holds B w g d v) (hs : w.heap.Sound B.layout False w.acts) (hc : w.heap.closure? g = some c) :
    v.Held B.layout w.acts w.heap c.label := by
  cases hv with
  | value hv => exact Or.inl (hv.settled hs)
  | label hc' hlabel hin hcode hsees =>
    obtain rfl := Option.some.inj (hc.symm.trans hc')
    exact Or.inr ⟨_, rfl, hlabel ▸ waits_of_inside B.compiled hin⟩

theorem read_run (around : List Region) (x : String) (S : Store) :
    (read around x).run S =
      match (innermost? around x).bind fun r => S.cells r.activation x with
      | some d => (.ok d, S)
      | none => (.error (.failed (.unbound x)), S) := by
  show (match (innermost? around x).bind fun r => S.cells r.activation x with
    | some d => pure d
    | none => fail (.unbound x) : Eval Denoted).run S = _
  cases (innermost? around x).bind fun r => S.cells r.activation x <;> rfl

theorem define_run {r : Region} (hr : innermost? around x = some r) (d : Denoted) (S : Store) :
    (define around x d).run S = (.ok (), S.set r.activation x d) := by
  unfold define
  rw [hr]
  rfl

theorem assign_run (around : List Region) (x : String) (d : Denoted) (S : Store) :
    (assign around x d).run S =
      match (innermost? around x).filter fun r => (S.cells r.activation x).isSome with
      | some r => (.ok (), S.set r.activation x d)
      | none => (.error (.failed (.unbound x)), S) := by
  show (match (innermost? around x).filter fun r => (S.cells r.activation x).isSome with
    | some r => modify fun S => S.set r.activation x d
    | none => fail (.unbound x) : Eval Unit).run S = _
  cases (innermost? around x).filter fun r => (S.cells r.activation x).isSome <;> rfl

/-- The name that the machine blames is that of the variable. -/
theorem Spelt.describes {scopes : Term.Chain} (hname : Spelt scopes x spelling) :
    (Failure.unbound x).Describes (.unboundVariable spelling) := by
  unfold Spelt at hname
  split at hname
  · exact Or.inr ⟨_, hname⟩
  · exact hname.2.imp_right fun h => ⟨_, h⟩

namespace Tracks

/-- **A variable is read** and its value pushed. -/
theorem load (hm : Mirrors B w S) (hs : w.Stands around M h) (hname : Spelt (around.map Region.scope) x spelling)
    (hi : B.image.program.code[pc]? = some (onVariable .load spelling)) :
    Tracks B.image ⟨pc, stack, frames, some h, w.heap⟩ S (read around x) (Pushes B w (pc + 1) stack frames h) := by
  obtain ⟨l, hl, -⟩ := hs.sees.lineage
  unfold Tracks
  rw [read_run]
  rcases hm.run_dereference hs hl hname with ⟨hnone, hrun⟩ | ⟨r, g, d, v, hr, hcell, hg, hact, hheld, hrun⟩
  · rw [hnone]
    exact ⟨_, .refl _ _, _, hi, fun host b =>
      ⟨_, _, Machine.run_bind_error (hrun _ (World.has_machine b)), hname.describes⟩⟩
  · rw [hr, Option.bind_some, hcell]
    obtain ⟨w', v', hclosed, hw, hm', hv⟩ := hm.run_closed hs hl hg hact hheld
    refine ⟨_, .silent ⟨_, hi, fun host b => ?_⟩ (.refl _ _), w', v', hw, hm', hv, rfl⟩
    exact (Machine.run_bind_ok (hrun _ (World.has_machine b))).trans (Machine.run_bind_ok (hclosed _ (World.has_machine b)))

/-- **A procedure is closed** and pushed. -/
theorem closure (hm : Mirrors B w S) (hs : w.Stands around M h) (hin : B.tree.Inside M N)
    (hcode : HasCode B around N parameters names body)
    (hi : B.image.program.code[pc]? = some (toLabel .loadClosure (Handle.label N))) :
    ∃ r, Moves B.image ⟨pc, stack, frames, some h, w.heap⟩ "" r ∧
      Pushes B w (pc + 1) stack frames h (.procedure N parameters names body around) S r := by
  obtain ⟨c, hc, hlabel⟩ := hs.closure
  obtain ⟨l, hl⟩ := hm.sound.exists_lineage hc
  obtain ⟨w', c', hrun, hw, hm', -, hact', hc', hlabel', hparent, -⟩ :=
    hm.run_closeProcedure hs hl List.mem_cons_self hs.act hc hlabel hin False
  refine ⟨_, ⟨_, hi, fun host b => Machine.run_bind_ok (hrun _ (World.has_machine b))⟩, w', _, hw, hm', ?_, rfl⟩
  exact .procedure hc' hact'.mp hlabel' hcode ((hw.sees hs.sees).below hc' hparent)

/-- **A variable is bound** to the value on top of the stack, which may be a procedure that is still a label. -/
theorem store (hm : Mirrors B w S) (hs : w.Stands around M h)
    (hname : Term.Chain.binder? (around.map Region.scope) x = some M) (hv : Holds B w h d v)
    (hi : B.image.program.code[pc]? = some (onVariable .store (Tree.scopedName M x))) :
    Tracks B.image ⟨pc, v :: stack, frames, some h, w.heap⟩ S (define around x d)
      fun _ => Leaves B w (pc + 1) stack frames h := by
  obtain ⟨c, hc, hlabel⟩ := hs.closure
  rw [binder?_scopes] at hname
  obtain ⟨r, hr, rfl⟩ := Option.map_eq_some_iff.mp hname
  -- the activation that binds the name is the current one
  obtain ⟨l, hl, hall⟩ := hs.sees.lineage
  obtain ⟨g, hg, hregion⟩ := hall r (List.mem_of_find?_eq_some hr)
  have hx : x ∈ r.names := by simpa using List.find?_some hr
  obtain rfl : g = h := by
    obtain ⟨⟨_, e⟩, hmem, rfl⟩ := List.mem_map.mp hg
    obtain ⟨-, hact, ⟨c', hc', hlabel', -⟩, -⟩ := hm.regions _ _ r hregion
    obtain rfl : e = c' := Option.some.inj ((hl.closure?_of_mem hmem).symm.trans hc')
    obtain ⟨rest, rfl, -⟩ := hl.exists_eq_cons hc
    exact congrArg Prod.fst (hm.sound.eq_of_label hl hmem List.mem_cons_self hact hs.act (hlabel'.trans hlabel.symm))
  obtain ⟨hsound, hgrows⟩ := hm.sound.bind hs.act hc (Or.inl ⟨r.lambda, x, hlabel, rfl⟩) (hv.held hm.sound hc)
  have hchanges := Heap.Changes.put hm.sound.tidy (hm.sound.changeable g c hc) hc
    fun c => c.bind (Tree.scopedName r.lambda x) v
  obtain ⟨hw, hm'⟩ := hm.write hchanges hsound hgrows hregion hx hv fun j c' _ => by split <;> rfl
  refine .of_ok (define_run hr d S) (.silent ⟨_, hi, fun host b => ?_⟩ (.refl _ _)) ⟨_, hw, hm', rfl⟩
  exact Machine.run_bind_ok ((hm.machine_sound hs.act hc (World.has_machine b)).withStack stack |>.run_store rfl hc)

/-- **A variable is assigned** the value on top of the stack; a procedure that is still a label is closed. -/
theorem set (hm : Mirrors B w S) (hs : w.Stands around M h) (hname : Spelt (around.map Region.scope) x spelling)
    (hv : Holds B w h d v) (hi : B.image.program.code[pc]? = some (onVariable .set spelling)) :
    Tracks B.image ⟨pc, v :: stack, frames, some h, w.heap⟩ S (assign around x d)
      fun _ => Leaves B w (pc + 1) stack frames h := by
  obtain ⟨c, hc, -⟩ := hs.closure
  obtain ⟨l, hl⟩ := hm.sound.exists_lineage hc
  obtain ⟨w₁, v', hclosed, hw₁, hm₁, hv'⟩ := hm.run_closed hs hl List.mem_cons_self hs.act hv
  have hs₁ := hs.mono hw₁
  obtain ⟨c₁, hc₁, -⟩ := hs₁.closure
  obtain ⟨l₁, hl₁⟩ := hm₁.sound.exists_lineage hc₁
  -- the value is popped and closed, and then assigned
  have hstart : ∀ host b, (Machine.dispatch host (onVariable .set spelling)).run
      ((⟨pc, v :: stack, frames, some h, w.heap⟩ : Registers).machine B.image b) =
      (Machine.assign spelling v' >>= fun _ => Machine.advance >>= fun _ => Pure.pure "").run
        ((⟨pc, stack, frames, some h, w₁.heap⟩ : Registers).machine B.image b) := fun host b =>
    Machine.run_bind_ok (hclosed _ ((World.has_machine b).withStack stack))
  unfold Tracks
  rw [assign_run]
  -- a name without a cell is not bound either, and both fail
  rcases hm₁.finds hs₁.sees hl₁ hname with ⟨hnone, hb⟩ | ⟨r, g, e, d', u, hr, hcell, hregion, hx, rfl, hb, hu, -⟩
  · have hfilter : (innermost? around x).filter (fun r => (S.cells r.activation x).isSome) = none := by
      cases hr : innermost? around x with
      | none => rfl
      | some r =>
        rw [hr, Option.bind_some] at hnone
        simp [Option.filter, hnone]
    rw [hfilter]
    refine ⟨_, .refl _ _, _, hi, fun host b => ?_⟩
    have hsound : ((⟨pc, stack, frames, some h, w₁.heap⟩ : Registers).machine B.image b).Sound B.layout False w₁.acts :=
      hm₁.machine_sound hs₁.act hc₁ (World.has_machine b)
    have hassign := hsound.run_assign_of_none (v := v') rfl hc₁ hl₁ hb
    exact ⟨_, _, (hstart host b).trans (Machine.run_bind_error hassign), hname.describes⟩
  · have hfilter : (innermost? around x).filter (fun r => (S.cells r.activation x).isSome) = some r := by
      simp [hr, Option.filter, hcell]
    rw [hfilter]
    -- otherwise the binding of its cell is changed
    obtain ⟨H', hrun, hf⟩ := Machine.run_assign_of_binder hm₁.sound hc₁ hl₁ hb v'
    obtain ⟨hsound, hgrows⟩ := hm₁.sound.assign hl₁ hb (hv'.settled hm₁.sound) hf
    obtain ⟨hw₂, hm₂⟩ := hm₁.write hf hsound hgrows hregion hx (.value hv') fun _ _ _ => Closure.bound_assigned
    refine ⟨_, .silent ⟨_, hi, fun host b => (hstart host b).trans ?_⟩ (.refl _ _), _, hw₁.trans hw₂, hm₂, rfl⟩
    exact Machine.run_bind_ok (hrun _ rfl rfl)

end Tracks

end SchemeMachine.Meaning
