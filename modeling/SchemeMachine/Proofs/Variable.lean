import SchemeMachine.Proofs.Steady
import SchemeMachine.Proofs.Hygiene
import SchemeMachine.Proofs.Template

/-!
# A variable is equal to itself

Reading a variable gives the value of its nearest binding, or a copy that compares as equal. A procedure is an exception
as long as it is bound by its label: it is closed by every read, and each time into another object.

* `Machine.binding?` is the nearest binding of a name, `Machine.Reads` what a read of it gives.
* `Machine.Sound.step_load` is one read, which leaves the nearest binding.
* `Machine.Fixed` is a machine in which a variable has one value. `Machine.Fixed.step` keeps it, unless the variable is
  assigned to.
* `Process.run_variable` is the result: comparing a variable with itself, and any two reads with no assignment in between.
  The comparison is one whose code starts at some place, as it does if it is evaluated (`Program.exists_place`).
-/

namespace SchemeMachine

open Lowering Machine

variable {p : Program} {L : Layout p} {strict : Prop} {A : Handle → Prop} {m : Machine} {host : Host} {name : String}
  {h : Handle} {v v' w : Value} {H H' : Heap}

/-! ### Values -/

/-- **A value that is equal to itself whenever it is read**: no procedure that is still to be closed, and no NaN. -/
def Value.Stable (w : Value) : Prop := (∀ N, w ≠ .label N) ∧ ∀ x, w = .number x → x.isNaN = false

/-- Values that are the same are equal on any heap. -/
theorem Heap.equal_of_same (H : Heap) (hsame : v.same w = true) : H.equal v w = true := by
  unfold Heap.equal Heap.equalFrom
  split
  · obtain rfl := Value.handle.inj ((Value.same_of_number?_eq_none rfl).mp hsame)
    exact if_pos rfl
  · exact hsame

/-- A procedure is equal to no other object. -/
theorem Heap.equal_eq_false {g g' : Handle} {c : Closure} (hne : g ≠ g') (hc : H.get? g' = some (.closure c)) :
    H.equal (.handle g) (.handle g') = false := by
  unfold Heap.equal Heap.equalFrom
  dsimp only
  rw [if_neg hne, hc]
  split <;> simp_all

/-- A number is compared as a number, on any heap. -/
theorem Heap.equal_number (H : Heap) (x : Float) (v : Value) : H.equal (.number x) v = (Value.number x).same v :=
  Heap.equalFrom_eq_same (Or.inl rfl) _

/-! ### Bindings -/

/-- **The nearest binding of a name**: the closure that has it, and the value. -/
def Machine.binding? (m : Machine) (name : String) : Option (Handle × Value) :=
  (binder? m.heap m.current name).bind fun h =>
    (m.heap.closure? h).bind fun c => (c.bound.find? name).map fun w => (h, w)

/-- The nearest binding is that of the nearest closure in the lineage that has one. -/
theorem Machine.binding?_eq_some {l : Ancestry} (hl : m.heap.Lineage m.current l) :
    m.binding? name = some (h, w) ↔ ∃ c, l.binder? name = some (h, c) ∧ c.bound.find? name = some w := by
  rw [Machine.binding?, hl.binder?_eq]
  cases hb : l.binder? name with
  | none => simp
  | some e =>
    obtain ⟨h', c⟩ := e
    have hc := hl.closure?_of_mem (Ancestry.mem_of_binder? hb)
    simp only [Option.map_some, Option.bind_some, hc, Option.map_eq_some_iff, Prod.mk.injEq, Option.some.injEq]
    constructor
    · rintro ⟨u, hu, rfl, rfl⟩
      exact ⟨c, ⟨rfl, rfl⟩, hu⟩
    · rintro ⟨_, ⟨rfl, rfl⟩, hw⟩
      exact ⟨w, hw, rfl, rfl⟩

/-- On a heap that has grown the closures from a handle outward are the same. -/
theorem Heap.Lineage.grow {start : Option Handle} {l : Ancestry} (hl : H.Lineage start l)
    (hkept : ∀ g o, H.get? g = some o → H'.get? g = some o) : H'.Lineage start l := by
  refine hl.keep fun e he => ?_
  have hc := hl.closure?_of_mem he
  exact Heap.closure?_eq_some.mpr (hkept e.1 _ (Heap.closure?_eq_some.mp hc))

/-! ### Reads -/

/-- **What a read gives** if the value `w` is bound: a copy of it, or a new closure if that is a label. -/
inductive Machine.Reads (H H' : Heap) : Value → Value → Prop
  | copy {w v : Value} (hw : ∀ N, w ≠ .label N) (hv : v = w ∨ v.same w = true) : Reads H H' w v
  | closed {N : String} {g : Handle} {c : Closure} (hfree : H.get? g = none) (hnew : H'.get? g = some (.closure c)) :
      Reads H H' (.label N) (.handle g)

namespace Machine

/-- Copies of a value that is equal to itself are equal. -/
theorem Reads.equal {I I' K : Heap} (hv : Reads H H' w v) (hv' : Reads I I' w v') (hw : w.Stable) :
    K.equal v v' = true := by
  have hself : w.same w = true := Value.same_self.mpr hw.2
  have hsame {u : Value} (hu : u = w ∨ u.same w = true) : u.same w = true := hu.elim (fun h => h ▸ hself) id
  cases hv with
  | closed => exact absurd rfl (hw.1 _)
  | copy _ hv =>
    cases hv' with
    | closed => exact absurd rfl (hw.1 _)
    | copy _ hv' => exact K.equal_of_same (Value.same_trans (hsame hv) (Value.same_symm (hsame hv')))

/-- **A closure that is still there when another one is made** is another object, and NaN is never equal to itself. -/
theorem Reads.equal_eq_false {I I' : Heap} (hv : Reads H H' w v) (hv' : Reads I I' w v') (hw : ¬w.Stable)
    (hlive : ∀ g, v = .handle g → (I.get? g).isSome = true) : I'.equal v v' = false := by
  cases hv' with
  | closed hfree hnew =>
    cases hv with
    | copy hlabel => exact absurd rfl (hlabel _)
    | closed =>
      refine Heap.equal_eq_false ?_ hnew
      rintro rfl
      have hused := hlive _ rfl
      rw [hfree] at hused
      cases hused
  | copy hlabel hv' =>
    have hself : ¬w.same w = true := fun hself => hw ⟨hlabel, Value.same_self.mp hself⟩
    have hsame {u : Value} (hu : u = w ∨ u.same w = true) : u = w :=
      hu.resolve_right fun hu => hself (Value.same_trans (Value.same_symm hu) hu)
    have hv : v = w := by
      cases hv with
      | closed => exact absurd rfl (hlabel _)
      | copy _ hv => exact hsame hv
    rw [hv, hsame hv']
    cases w with
    | number x =>
      rw [Heap.equal_number]
      exact Bool.eq_false_of_not_eq_true hself
    | _ => exact absurd ((Value.same_of_number?_eq_none rfl).mpr rfl) hself

/-- A new closure has a handle that was not in use. -/
theorem get?_of_makeClosure {N : String} {g : Handle} {m' : Machine} (ht : m.heap.Tidy)
    (hrun : (makeClosure N).run m = (.ok g, m')) : m.heap.get? g = none := by
  have hanswer (c : Closure) (hallocate : (allocate (.closure c)).run m = (.ok g, m')) : m.heap.get? g = none := by
    rw [run_allocate] at hallocate
    cases hallocate
    exact ht.get?_nextSlot
  unfold makeClosure at hrun
  rw [run_get_bind] at hrun
  split at hrun
  · cases hrun
  have hsame : ((lexicalParent N).run m).2 = m := preserves_lexicalParent (I := (· = m)) N m rfl
  rw [run_bind] at hrun
  rcases hparent : (lexicalParent N).run m with ⟨(e | parent), m₁⟩ <;> rw [hparent] at hrun hsame
  · cases hrun
  obtain rfl : m₁ = m := hsame
  cases parent with
  | none => exact hanswer _ hrun
  | some j =>
    have hsame : ((closureOf j).run m₁).2 = m₁ := preserves_closureOf (I := (· = m₁)) j m₁ rfl
    dsimp only at hrun
    rw [run_bind] at hrun
    rcases hc : (closureOf j).run m₁ with ⟨(e | c), m₂⟩ <;> rw [hc] at hrun hsame
    · cases hrun
    obtain rfl : m₂ = m₁ := hsame
    exact hanswer _ hrun

/-- **A sound machine reads a variable**: it finds the value of the nearest binding, and closes it if it is a label. -/
theorem Sound.run_read (hs : m.Sound L strict A) (hb : m.binding? name = some (h, w)) :
    ∃ v H', (dereference name >>= closed).run m = (.ok v, { m with heap := H' }) ∧ Reads m.heap H' w v ∧ H'.Tidy ∧
      ∀ g o, m.heap.get? g = some o → H'.get? g = some o := by
  obtain ⟨l, hlexical⟩ := hs.exists_lexical
  obtain ⟨c, hbinder, hw⟩ := (binding?_eq_some hlexical.lineage).mp hb
  obtain ⟨v, _, hread, hw', hcopy⟩ := hlexical.read name _ hbinder
  cases hw.symm.trans hw'
  rw [run_bind_ok hread]
  have hcopied (hlabel : ∀ N, w ≠ .label N) (hclosed : (closed v).run m = (.ok v, m)) :
      ∃ u H', (closed v).run m = (.ok u, { m with heap := H' }) ∧ Reads m.heap H' w u ∧ H'.Tidy ∧
        ∀ g o, m.heap.get? g = some o → H'.get? g = some o :=
    ⟨v, m.heap, hclosed, .copy hlabel hcopy, hs.heap.tidy, fun _ _ ho => ho⟩
  cases v with
  | label N =>
    obtain rfl : .label N = w := hcopy.elim id (Value.same_of_number?_eq_none rfl).mp
    have he := Ancestry.mem_of_binder? hbinder
    obtain ⟨-, hheld⟩ := (hs.heap.closure (hlexical.lineage.closure?_of_mem he)).owned name _ hw
    obtain ⟨_, ⟨⟩, hwaits⟩ := hheld.resolve_left id
    -- the closure that binds the label waits for the procedure to be closed
    have hclosable : Closable L A m N := .outer hlexical.lineage he hwaits
    obtain ⟨A', g, c', H', hrun, hsound, -, hc', -⟩ := hclosable.run_makeClosure hs False fun _ => by
      simp [hwaits.enclosing]
    exact ⟨.handle g, H', run_bind_ok hrun,
      .closed (get?_of_makeClosure hs.heap.tidy hrun) (Heap.closure?_eq_some.mp hc'), hsound.tidy,
      (leads_makeClosure hs.heap.tidy N g _ hrun).objects⟩
  | _ =>
    refine hcopied ?_ rfl
    rintro N rfl
    rcases hcopy with hcopy | hcopy
    · cases hcopy
    · have := Value.same_symm hcopy
      cases (Value.same_of_number?_eq_none rfl).mp this

/-! ### Steps that read -/

/-- **A collection leaves the closures that the running code sees.** -/
theorem Collected.lineage {m' : Machine} (hc : m.Collected m') (hcurrent : m'.current = m.current) {l : Ancestry}
    (hl : m.heap.Lineage m.current l) : m'.heap.Lineage m'.current l := by
  have hroot : ∀ g, m'.current = some g → m'.heap.get? g = m.heap.get? g := fun g hg =>
    hc.root (List.mem_append_right _ (Option.mem_toList.mpr hg))
  rw [← hcurrent] at hl
  generalize m'.current = start at hl hroot ⊢
  -- each closure refers to the next one
  induction hl with
  | nil => exact .nil
  | @cons g c l hg hl ih =>
    have hkept : m'.heap.closure? g = some c := (Heap.closure?_congr (hroot g rfl)).trans hg
    refine .cons hkept (ih fun j hj => ?_)
    refine hc.references g _ (Heap.closure?_eq_some.mp hkept) j ?_
    exact List.mem_append_left _ (Option.mem_toList.mpr hj)

/-- **A step that reads a variable** pushes what it reads, and leaves the nearest binding. -/
theorem Sound.step_load (hs : m.Sound L strict A) (host : Host) (ha : m.IsAbout host.settings (onVariable .load name))
    (hb : m.binding? name = some (h, w)) :
    ∃ v H n, (Machine.step host m).machine =
        { m with steps := m.steps + 1, stack := v :: m.stack, pc := m.pc + 1, heap := H, nextCollection := n } ∧
      Reads m.heap H w v ∧ (Machine.step host m).machine.binding? name = some (h, w) := by
  have hcounted : ({ m with steps := m.steps + 1 } : Machine).Sound L strict A := { hs with }
  obtain ⟨v, H, hread, hreads, htidy, hkept⟩ := hcounted.run_read hb
  have hrun : (dispatch host (onVariable .load name)).run { m with steps := m.steps + 1 } =
      (.ok "", { m with steps := m.steps + 1, stack := v :: m.stack, pc := m.pc + 1, heap := H }) := by
    show (dereference name >>= fun u => closed u >>= fun w => push w >>= fun _ => advance >>= fun _ => pure "").run _ = _
    rw [← bind_assoc, run_bind_ok hread]
    rfl
  have hstep : (Machine.step host m).machine =
      ({ m with steps := m.steps + 1, stack := v :: m.stack, pc := m.pc + 1, heap := H } : Machine).collectIfDue
        host.settings := ha.step hrun
  have hcollected := collected_collectIfDue
    (m := { m with steps := m.steps + 1, stack := v :: m.stack, pc := m.pc + 1, heap := H }) htidy host.settings
  obtain ⟨H', n, heq⟩ := collectIfDue_eq host.settings
    ({ m with steps := m.steps + 1, stack := v :: m.stack, pc := m.pc + 1, heap := H } : Machine)
  rw [heq] at hcollected hstep
  refine ⟨v, H', n, hstep, ?_, ?_⟩
  · cases hreads with
    | copy hw hv => exact .copy hw hv
    | @closed N g c hfree hnew =>
      -- the new closure is on the stack
      refine .closed hfree ((hcollected.root (h := g) ?_).trans hnew)
      exact List.mem_append_left _ (List.mem_append_left _ (List.mem_filterMap.mpr ⟨_, List.mem_cons_self, rfl⟩))
  · obtain ⟨l, hl⟩ := hs.exists_lexical
    rw [hstep, binding?_eq_some (hcollected.lineage rfl (hl.lineage.grow hkept))]
    exact (binding?_eq_some hl.lineage).mp hb

/-- A step that compares two values. -/
theorem IsAbout.step_eqn (ha : m.IsAbout host.settings (plain .eqn)) {rest : List Value} (hstack : m.stack = v' :: v :: rest) :
    ∃ H n, (Machine.step host m).machine =
      { m with
        steps := m.steps + 1
        stack := .boolean (m.heap.equal v v') :: rest
        pc := m.pc + 1
        heap := H
        nextCollection := n } := by
  have hrun : (dispatch host (plain .eqn)).run { m with steps := m.steps + 1 } =
      (.ok "", { m with steps := m.steps + 1, stack := .boolean (m.heap.equal v v') :: rest, pc := m.pc + 1 }) := by
    show (operate .eqn >>= fun written => advance >>= fun _ => pure written).run _ = _
    have hoperate : (operate .eqn).run { m with steps := m.steps + 1 } =
        (.ok "", { m with steps := m.steps + 1, stack := .boolean (m.heap.equal v v') :: rest }) := by
      show (pop >>= fun b => pop >>= fun a => get >>= fun n =>
        push (.boolean (n.heap.equal a b)) >>= fun _ => pure "").run _ = _
      rw [run_bind_ok (run_pop_cons (m := { m with steps := m.steps + 1 }) hstack), run_bind_ok (run_pop_cons rfl)]
      rfl
    rw [run_bind_ok hoperate]
    rfl
  obtain ⟨H, n, heq⟩ := collectIfDue_eq host.settings
    ({ m with steps := m.steps + 1, stack := .boolean (m.heap.equal v v') :: rest, pc := m.pc + 1 } : Machine)
  exact ⟨H, n, (ha.step hrun).trans heq⟩

/-! ### Steps that leave a variable alone -/

/-- **A machine about to assign to the variable** that the closure `h` has under a name: it binds the name there, or
changes it, and the nearest binding is there. -/
def Assigns (m : Machine) (name : String) (h : Handle) : Prop :=
  m.state = .running ∧
    ((m.image.program.code[m.pc]? = some (onVariable .store name) ∨
        m.image.program.code[m.pc]? = some (onVariable .capture name)) ∧ m.current = some h ∨
      m.image.program.code[m.pc]? = some (onVariable .set name) ∧ binder? m.heap m.current name = some h)

instance (m : Machine) (name : String) (h : Handle) : Decidable (m.Assigns name h) :=
  inferInstanceAs (Decidable (_ ∧ (_ ∧ _ ∨ _ ∧ _)))

/-- **A machine in which a variable has one value**: a closure at `h` that binds the name binds it to `w`. -/
structure Fixed (image : Image) (name : String) (h : Handle) (w : Value) (m : Machine) : Prop where
  runs : m.image = image
  tidy : m.heap.Tidy
  value : ∀ c u, m.heap.closure? h = some c → c.bound.find? name = some u → u = w

variable {image : Image}

theorem Fixed.congr {m' : Machine} (hm : m.Fixed image name h w) (himage : m'.image = m.image)
    (hheap : m'.heap = m.heap) : m'.Fixed image name h w :=
  ⟨himage.trans hm.runs, hheap ▸ hm.tidy, hheap ▸ hm.value⟩

/-- The slot of a closure may be free, and taken for another object, as long as that binds nothing. -/
theorem Fixed.placing (hm : m.Fixed image name h w) {o : Object}
    (ho : ∀ c, o = .closure c → c.bound.find? name = none) : (m.placing o).Fixed image name h w := by
  refine ⟨hm.runs, hm.tidy.allocate _ _, fun c u hc hu => ?_⟩
  have hget : (m.placing o).heap.get? h = if h = m.heap.nextSlot then some o else m.heap.get? h :=
    Heap.get?_allocate hm.tidy o m.current h
  rw [Heap.closure?_eq_some, hget] at hc
  split at hc
  · rw [ho c (Option.some.inj hc)] at hu
    cases hu
  · exact hm.value c u (Heap.closure?_eq_some.mpr hc) hu

/-- What does not bind names leaves a variable alone. -/
theorem mobile_fixed (registry : Registry) (image : Image) (name : String) (h : Handle) (w : Value) :
    Mobile registry image (Fixed image name h w) where
  runs hm := hm.runs
  stack hm _ := hm.congr rfl rfl
  forked hm _ := hm.congr rfl rfl
  string hm _ := hm.placing nofun
  list hm _ := hm.placing nofun
  closure hm _ _ _ _ _ := hm.placing fun c hc => by cases hc; rfl
  place hm _ _ _ := hm.congr rfl rfl
  stopped hm := hm.congr rfl rfl
  suspended hm := hm.congr rfl rfl
  sleeping := Or.inl fun _ _ hm => hm.congr rfl rfl
  activation hm _ _ _ _ := hm.placing fun c hc => by cases hc; rfl
  continuation hm _ := hm.placing nofun

/-- **A binding elsewhere**, or of another name, leaves a variable alone. -/
theorem Fixed.store (hm : m.Fixed image name h w) {y : String} {v : Value} (hother : y = name → m.current ≠ some h) :
    Brings (store y v) m (Fixed image name h w) := by
  refine .get_bind ?_
  split
  · exact hm
  next g hcurrent =>
  refine .get_bind ?_
  split
  next c hc =>
    rw [Heap.mutableClosure?] at hc
    split at hc
    next hmutable =>
      have hchanges := Heap.Changes.put hm.tidy hmutable hc (·.bind y v)
      refine ⟨hm.runs, hchanges.tidy, fun c' u hc' hu => ?_⟩
      obtain ⟨d, hd, rfl⟩ := hchanges.exists_closure? hc'
      split at hu
      next hg =>
        subst hg
        by_cases hy : y = name
        · exact absurd hcurrent (hother hy)
        · rw [Closure.bound_bind, Table.find?_insert_of_ne _ (Ne.symm hy)] at hu
          exact hm.value d u hd hu
      · exact hm.value d u hd hu
    · cases hc
  · exact hm

/-- So does a capture that binds its continuation elsewhere. -/
theorem Fixed.capture (hm : m.Fixed image name h w) {y : String} (hother : y = name → m.current ≠ some h) :
    Brings (capture y) m (Fixed image name h w) := by
  have hmobile := mobile_fixed Registry.builtins image name h w
  refine .get_bind ?_
  have hplaced : Brings (allocate (.continuation ⟨m.current, m.stack, m.frames, y⟩)) m
      fun m' => m'.Fixed image name h w ∧ m'.current = m.current := ⟨hmobile.continuation hm _, rfl⟩
  exact hplaced.bind (fun _ h => h.1) fun g m₁ h₁ => (Fixed.store h₁.1 (h₁.2 ▸ hother)).bind (fun _ h => h)
    fun _ m₂ h₂ => hmobile.advance m₂ h₂

/-- **An assignment elsewhere**, or to another name, leaves a variable alone. -/
theorem Fixed.assign (hs : m.Sound L strict A) (hm : m.Fixed image name h w) {y : String} {v : Value}
    (hother : y = name → binder? m.heap m.current name ≠ some h) :
    Brings (assign y v) m (Fixed image name h w) := by
  have hrest : Brings (Machine.assign y v) m fun m' => m'.image = image ∧ m'.heap.Tidy :=
    Steady.assign (I := fun m' => m'.image = image ∧ m'.heap.Tidy)
      (fun h _ _ => ⟨h.1, h.2.put _ _⟩) y v m ⟨hm.runs, hm.tidy⟩
  obtain ⟨l, hlexical⟩ := hs.exists_lexical
  unfold Brings at hrest ⊢
  rcases l.binder?_cases y with ⟨-, hnone⟩ | ⟨e, he, -⟩
  · rw [hlexical.assign_unbound y v hnone]
    exact hm
  · obtain ⟨m', hrun, hchanged, hkept⟩ := hlexical.assign_bound y v e he
    rw [hrun] at hrest ⊢
    refine ⟨hrest.1, hrest.2, fun c' u hc' hu => ?_⟩
    by_cases heq : h = e.1
    · subst heq
      rw [hc', Option.map_some, Option.some.injEq] at hchanged
      by_cases hy : y = name
      · subst hy
        refine absurd ?_ (hother rfl)
        rw [hlexical.lineage.binder?_eq, he, Option.map_some]
      · rw [hchanged, Table.find?_insert_of_ne _ (Ne.symm hy)] at hu
        exact hm.value e.2 u (hlexical.lineage.closure?_of_mem (Ancestry.mem_of_binder? he)) hu
    · have hsame := hkept h heq
      rw [hc', Option.map_some, eq_comm, Option.map_eq_some_iff] at hsame
      obtain ⟨c, hc, hbound⟩ := hsame
      exact hm.value c u hc (hbound ▸ hu)

/-- What does not depend on the stack is left by taking a value from it. -/
theorem brings_pop {Q : Machine → Prop} (hQ : ∀ stack, Q { m with stack }) : Brings pop m Q := by
  unfold Brings
  cases hstack : m.stack with
  | nil =>
    rw [run_pop_nil hstack]
    exact hQ m.stack
  | cons v rest =>
    rw [run_pop_cons hstack]
    exact hQ rest

/-- **An instruction leaves a variable alone** that it does not assign to. -/
theorem Fixed.dispatch (host : Host) (hr : m.Ready L False A) (hm : m.Fixed image name h w) {i : Instruction}
    (ha : m.IsAbout host.settings i) (hnot : ¬m.Assigns name h) :
    Brings (dispatch host i) { m with steps := m.steps + 1 } (Fixed image name h w) := by
  have hmobile := mobile_fixed host.registry image name h w
  have hcounted : ({ m with steps := m.steps + 1 } : Machine).Fixed image name h w := hm.congr rfl rfl
  obtain ⟨line, hline, rfl, -⟩ := hr.exists_line ha
  obtain ⟨next, hflow, -⟩ := L.flows m.pc line hline
  have hi := ha.instruction
  cases hflow with
  | @store o y =>
    have hother : y = name → m.current ≠ some h := by
      rintro rfl hcurrent
      exact hnot ⟨ha.running, Or.inl ⟨Or.inl hi, hcurrent⟩⟩
    have hpop : Brings pop { m with steps := m.steps + 1 } fun m' => m'.Fixed image name h w ∧ m'.current = m.current :=
      brings_pop fun stack => ⟨hmobile.stack hcounted stack, rfl⟩
    show Brings (pop >>= fun v => Machine.store y v >>= fun _ => advance >>= fun _ => pure "") _ _
    exact hpop.bind (fun _ h => h.1) fun v m₁ h₁ => (Fixed.store h₁.1 (h₁.2 ▸ hother)).bind (fun _ h => h)
      fun _ m₂ h₂ => (hmobile.advance m₂ h₂).then_pure ""
  | @capture o y =>
    have hother : y = name → m.current ≠ some h := by
      rintro rfl hcurrent
      exact hnot ⟨ha.running, Or.inl ⟨Or.inr hi, hcurrent⟩⟩
    exact (hcounted.capture hother).then_pure ""
  | @set o y =>
    by_cases hempty : m.stack = []
    · show Brings (pop >>= fun v => closed v >>= fun w => Machine.assign y w >>= fun _ => advance >>= fun _ => pure "") _ _
      rw [Brings, run_bind_error (run_pop_nil (m := { m with steps := m.steps + 1 }) hempty)]
      exact hcounted
    · obtain ⟨v, rest, hstack⟩ := List.exists_cons_of_ne_nil hempty
      obtain ⟨A', H', u, hclosed, hrun, hsound, hkept⟩ := hr.run_set ha hstack
      have hfixed := hmobile.closed v _ (hmobile.stack hcounted rest)
      rw [Brings, hclosed] at hfixed
      -- the closures that the running code sees are those from before the value was closed
      obtain ⟨l, hlexical⟩ := hr.sound.exists_lexical
      have hgrown : H'.Lineage m.current l := hlexical.lineage.grow hkept
      have hother : y = name → binder? H' m.current name ≠ some h := by
        rintro rfl hbinder
        rw [hgrown.binder?_eq, ← hlexical.lineage.binder?_eq] at hbinder
        exact hnot ⟨ha.running, Or.inr ⟨hi, hbinder⟩⟩
      rw [Brings, hrun]
      exact (Fixed.assign hsound hfixed hother).bind (fun _ h => h) fun _ m' hm' => (hmobile.advance m' hm').then_pure ""
  | branch hop => rcases hop with rfl | rfl <;> exact hmobile.dispatch rfl rfl _ hcounted
  | @operation o d k op hop =>
    have hbinds : (plain op).binds = false := by
      cases op <;> first
        | rfl
        | cases hop
    exact hmobile.dispatch rfl hbinds _ hcounted
  | _ => exact hmobile.dispatch rfl rfl _ hcounted

/-- The nearest binding of a variable is one that it may have. -/
theorem Fixed.eq_of_binding? (hm : m.Fixed image name h w) (hb : m.binding? name = some (h, v)) : v = w := by
  simp only [binding?, Option.bind_eq_some_iff, Option.map_eq_some_iff, Prod.mk.injEq] at hb
  obtain ⟨_, -, c, hc, _, hu, rfl, rfl⟩ := hb
  exact hm.value c _ hc hu

/-- A variable has the value of its nearest binding. -/
theorem fixed_of_binding? (ht : m.heap.Tidy) (hb : m.binding? name = some (h, w)) : m.Fixed m.image name h w := by
  simp only [binding?, Option.bind_eq_some_iff, Option.map_eq_some_iff, Prod.mk.injEq] at hb
  obtain ⟨_, -, c, hc, _, hu, rfl, rfl⟩ := hb
  refine ⟨rfl, ht, fun c' u hc' hu' => ?_⟩
  cases hc.symm.trans hc'
  exact Option.some.inj (hu'.symm.trans hu)

theorem Fixed.collectIfDue (hm : m.Fixed image name h w) (settings : Settings) :
    (m.collectIfDue settings).Fixed image name h w := by
  have hcollected := collected_collectIfDue hm.tidy settings
  obtain ⟨H, n, heq⟩ := collectIfDue_eq settings m
  rw [heq] at hcollected ⊢
  refine ⟨hm.runs, hcollected.tidy, fun c u hc hu => ?_⟩
  rw [Heap.closure?_eq_some] at hc
  rcases hcollected.objects h with hsame | hlost
  · exact hm.value c u (Heap.closure?_eq_some.mpr (hsame.symm.trans hc)) hu
  · rw [hlost.1] at hc
    cases hc

/-- **A step leaves a variable alone** that it does not assign to. -/
theorem Fixed.step (hr : m.Ready L False A) (hm : m.Fixed image name h w) (hnot : ¬m.Assigns name h) (host : Host) :
    (step host m).machine.Fixed image name h w := by
  unfold Machine.step
  split
  · next hstate =>
    have hsame : ({ m with state := .running } : Machine) = m := by rw [← hstate]
    rw [hsame]
    -- only an instruction can assign, and this one does not
    by_cases hlimit : host.settings.maxSteps.any (· ≤ m.steps)
    · rw [stepRunning_of_limit hlimit]
      exact hm.congr rfl rfl
    cases hi : m.image.program.code[m.pc]? with
    | none =>
      rw [stepRunning_of_none hlimit hi]
      exact hm.congr rfl rfl
    | some i =>
      have hafter := Fixed.dispatch host hr hm ⟨hstate, hlimit, hi⟩ hnot
      unfold Brings at hafter
      rcases hrun : (Machine.dispatch host i).run { m with steps := m.steps + 1 } with ⟨(e | written), after⟩ <;>
        rw [hrun] at hafter
      · rw [stepRunning_of_error hlimit hi hrun]
        exact hafter.congr rfl rfl
      · rw [stepRunning_of_ok hlimit hi hrun]
        refine Fixed.collectIfDue ?_ host.settings
        split
        · exact hafter.congr rfl rfl
        · exact hafter
  · next hstate =>
    have hkeeps := hr.keeps
    rw [Keeps, hstate] at hkeeps
    exact hkeeps.elim
  · exact hm

/-- So does the result of a job. -/
theorem Fixed.deliver (hm : m.Fixed image name h w) (result : Except NativeError NativeOutput) :
    (m.deliver result).Fixed image name h w := by
  have hresult : (resultValue m result).2.Fixed image name h w := by
    unfold resultValue
    split
    · exact hm
    · exact hm
    · exact hm.placing nofun
    · exact hm
    · exact hm
  have hreturned := (mobile_fixed Registry.builtins image name h w).doReturn
    { (resultValue m result).2 with stack := (resultValue m result).1 :: (resultValue m result).2.stack }
    (hresult.congr rfl rfl)
  unfold Brings at hreturned
  unfold Machine.deliver
  dsimp only
  split
  · exact hreturned.congr rfl rfl
  · exact hreturned

end Machine

/-! ### Runs -/

/-- **The code of a comparison of a variable with itself** reads the variable twice. -/
theorem Lowering.code_compared {t : Tree} {K : Table Handle Constant} {M g : Handle} {tail : Bool} {q : Piece}
    (hq : Lowers t K M tail (.application g .code [.atom (.keyword "="), .atom (.variable name), .atom (.variable name)]) q) :
    q.code = [onVariable .load name, onVariable .load name, plain .eqn] := by
  have hload {q : Piece} (hq : Lowers t K M false (.atom (.variable name)) q) : q = .load name := by
    cases hq with
    | «variable» => rfl
    | literal h => cases h
  generalize hx : Term.application g .code [.atom (.keyword "="), .atom (.variable name), .atom (.variable name)] = x at hq
  cases hq with
  | primitive hop hps =>
    simp only [Term.application.injEq, List.cons.injEq, Term.atom.injEq, Atom.keyword.injEq] at hx
    obtain ⟨-, -, rfl, rfl⟩ := hx
    cases hop
    obtain _ | ⟨hfirst, _ | ⟨hsecond, ⟨⟩⟩⟩ := hps
    rw [hload hfirst, hload hsecond]
    rfl
  | declaration hword => rcases hword with rfl | rfl <;> simp at hx
  | arithmeticNone hword => rcases hword with ⟨rfl, -⟩ | ⟨rfl, -⟩ <;> simp at hx
  | arithmeticNeutral hop | arithmetic hop =>
    simp only [Term.application.injEq, List.cons.injEq, Term.atom.injEq, Atom.keyword.injEq] at hx
    obtain ⟨-, -, rfl, -⟩ := hx
    cases hop
  | @connectiveNone _ conjunction | @connective _ conjunction => cases conjunction <;> simp at hx
  | _ => simp at hx

namespace Process

variable {settings : Settings} {registry : Registry} {pid : Nat} {image : Image}

/-- From one moment to the next. -/
theorem fixed_next {q : Process} (hr : q.machine.Ready L False A) (hm : q.machine.Fixed image name h w)
    (hnot : ¬q.machine.Assigns name h) (now : Moment) : (next settings registry q now).machine.Fixed image name h w := by
  unfold next
  split
  · exact Fixed.deliver (m := { q.machine with pending := none }) (hm.congr rfl rfl) now.result
  · exact hm.step hr hnot (hostAt settings registry now)

section

variable {t : Tree} {roots : List Term} {blocks : List Block} (hp : p.Compiled t roots blocks)
  (himage : Image.ofProgram p = .ok image) (hmodest : registry.Modest)
include hp himage hmodest

/-- **A variable has one value** along a stretch of a run in which nothing assigns to it. -/
theorem run_fixed {before stretch : List Moment}
    (hb : (run settings registry pid image before).machine.binding? name = some (h, w))
    (hnot : ∀ early now, early ++ [now] <+: stretch →
      ¬(run settings registry pid image (before ++ early)).machine.Assigns name h) :
    (run settings registry pid image (before ++ stretch)).machine.Fixed
      (run settings registry pid image before).machine.image name h w := by
  have hready := fun moments => (run_ready hp hp.layout False himage hmodest (fun _ => none) False.elim settings pid
    moments False.elim).1
  -- on the moments of the stretch, the last one first
  induction stretch using List.reverseRecOn with
  | nil =>
    obtain ⟨A, hr⟩ := hready before
    rw [List.append_nil]
    exact fixed_of_binding? hr.sound.heap.tidy hb
  | append_singleton stretch now ih =>
    obtain ⟨A, hr⟩ := hready (before ++ stretch)
    rw [← List.append_assoc, run_append]
    refine fixed_next hr (ih fun early last hearly => ?_) (hnot stretch now List.prefix_rfl) now
    exact hnot early last (hearly.trans (List.prefix_append _ _))

/-- **Two reads of a variable** with no assignment in between read one value. -/
theorem run_reads {before stretch : List Moment} {now later : Moment}
    (ha : (run settings registry pid image before).machine.IsAbout settings (onVariable .load name))
    (ha' : (run settings registry pid image (before ++ now :: stretch)).machine.IsAbout settings (onVariable .load name))
    (hb : (run settings registry pid image before).machine.binding? name = some (h, w)) {w' : Value}
    (hb' : (run settings registry pid image (before ++ now :: stretch)).machine.binding? name = some (h, w'))
    (hnot : ∀ early last, early ++ [last] <+: now :: stretch →
      ¬(run settings registry pid image (before ++ early)).machine.Assigns name h) :
    ∃ v v', (run settings registry pid image (before ++ [now])).machine.stack =
        v :: (run settings registry pid image before).machine.stack ∧
      (run settings registry pid image (before ++ now :: stretch ++ [later])).machine.stack =
        v' :: (run settings registry pid image (before ++ now :: stretch)).machine.stack ∧
      Reads (run settings registry pid image before).machine.heap
        (run settings registry pid image (before ++ [now])).machine.heap w v ∧
      Reads (run settings registry pid image (before ++ now :: stretch)).machine.heap
        (run settings registry pid image (before ++ now :: stretch ++ [later])).machine.heap w v' := by
  have hready := fun moments => (run_ready hp hp.layout False himage hmodest (fun _ => none) False.elim settings pid
    moments False.elim).1
  -- what the name is bound to is the same at both reads, as nothing has been assigned
  obtain rfl := (run_fixed hp himage hmodest hb hnot).eq_of_binding? hb'
  obtain ⟨A, hr⟩ := hready before
  obtain ⟨A', hr'⟩ := hready (before ++ now :: stretch)
  obtain ⟨v, H, n, hstep, hreads, -⟩ := hr.sound.step_load (hostAt settings registry now) ha hb
  obtain ⟨v', H', n', hstep', hreads', -⟩ := hr'.sound.step_load (hostAt settings registry later) ha' hb'
  rw [← next_machine ha.running, ← run_append] at hstep
  rw [← next_machine ha'.running, ← run_append] at hstep'
  exact ⟨v, v', by rw [hstep], by rw [hstep'], by rw [hstep]; exact hreads, by rw [hstep']; exact hreads'⟩

/-- **Comparing a variable with itself**: two reads and a comparison. -/
theorem run_compared {before : List Moment} {first second last : Moment}
    (hrunning : (run settings registry pid image before).machine.state = .running)
    (hb : (run settings registry pid image before).machine.binding? name = some (h, w))
    (hcode : [onVariable .load name, onVariable .load name, plain .eqn] <+:
      p.code.toList.drop (run settings registry pid image before).machine.pc)
    (hlimit : Unlimited settings registry pid image before [first, second, last]) :
    (run settings registry pid image before).machine.IsAt
        (run settings registry pid image (before ++ [first, second, last])).machine
        ((run settings registry pid image before).machine.pc + 3) ∧
      ∃ b, (run settings registry pid image (before ++ [first, second, last])).machine.stack =
          .boolean b :: (run settings registry pid image before).machine.stack ∧
        (b = true ↔ w.Stable) := by
  have hready := fun moments => (run_ready hp hp.layout False himage hmodest (fun _ => none) False.elim settings pid
    moments False.elim).1
  obtain ⟨hi, hcode⟩ := prefix_drop_cons hcode
  obtain ⟨hi', hcode⟩ := prefix_drop_cons hcode
  obtain ⟨hi'', -⟩ := prefix_drop_cons hcode
  obtain ⟨hlimit, hlimit'⟩ := hlimit.cons
  obtain ⟨hlimit', hlimit''⟩ := hlimit'.cons
  obtain ⟨A, hr⟩ := hready before
  obtain ⟨A', hr'⟩ := hready (before ++ [first])
  -- the first read
  have ha := isAbout_of_code hp himage hmodest hrunning rfl hi hlimit
  obtain ⟨v, H, n, hstep, hreads, hb'⟩ := hr.sound.step_load _ ha hb
  rw [← next_machine hrunning, ← run_append] at hstep hb'
  have hrunning' : (run settings registry pid image (before ++ [first])).machine.state = .running := by
    rw [hstep]
    exact hrunning
  -- the second read
  have ha' := isAbout_of_code hp himage hmodest hrunning' (by rw [hstep]) hi' hlimit'
  obtain ⟨v', H', n', hstep', hreads', -⟩ := hr'.sound.step_load _ ha' hb'
  rw [← next_machine hrunning', ← run_append] at hstep'
  have hrunning'' : (run settings registry pid image (before ++ [first] ++ [second])).machine.state = .running := by
    rw [hstep']
    exact hrunning'
  -- the comparison
  have ha'' := isAbout_of_code hp himage hmodest hrunning'' (by rw [hstep', hstep]) hi'' hlimit''
  have hstack : (run settings registry pid image (before ++ [first] ++ [second])).machine.stack =
      v' :: v :: (run settings registry pid image before).machine.stack := by rw [hstep', hstep]
  obtain ⟨H'', n'', hstep''⟩ := ha''.step_eqn hstack
  rw [← next_machine hrunning'', ← run_append, List.append_assoc, List.append_assoc] at hstep''
  have hend : before ++ ([first] ++ ([second] ++ [last])) = before ++ [first, second, last] := rfl
  rw [hend] at hstep''
  refine ⟨⟨by rw [hstep'']; exact hrunning'', ?_, ?_, ?_⟩, _, by rw [hstep''], ?_⟩
  · rw [hstep'', hstep', hstep]
  · rw [hstep'', hstep', hstep]
  · rw [hstep'', hstep', hstep]
  · have hheap : (run settings registry pid image (before ++ [first])).machine.heap = H := by rw [hstep]
    have hheap' : (run settings registry pid image (before ++ [first] ++ [second])).machine.heap = H' := by rw [hstep']
    rw [hheap']
    rw [hheap] at hreads'
    refine ⟨fun hequal => ?_, fun hw => hreads.equal hreads' hw⟩
    by_contra hw
    -- what was read first is still on the stack
    have hlive : ∀ g, v = .handle g → (H.get? g).isSome = true := by
      rintro g rfl
      rw [← hheap]
      exact hr'.live_of_stack (.inl hrunning') (by rw [hstep]; exact List.mem_cons_self)
    rw [hreads.equal_eq_false hreads' hw hlive] at hequal
    cases hequal

end

/-- **A variable is equal to itself**, unless it is bound to NaN or to the label of a procedure. Take a source that
compiles and any state of a run in which a name is bound, to the value `w` in the closure `h`. Comparing the variable with
itself takes three steps and pushes a boolean, which is true just if `w` is neither NaN nor a label. And any two reads of
the variable, wherever the closure has its nearest binding, give equal values if nothing assigns to it in between, again
unless `w` is NaN or a label: then they are unequal, if the closure that was read first is still there. -/
theorem run_variable {source : String} (hp : Program.compile source = .ok p) (hmodest : registry.Modest) :
    ∃ t image, (Tree.parse source >>= Tree.analyse) = .ok t ∧ Image.ofProgram p = .ok image ∧
      ∀ (settings : Settings) (pid : Nat) (before : List Moment) (name : String) (h : Handle) (w : Value),
        let s := (run settings registry pid image before).machine
        s.binding? name = some (h, w) →
        (∀ (M g : Handle) (tail : Bool) (q : Piece) (first second last : Moment),
          Lowers t p.constants M tail
            (.application g .code [.atom (.keyword "="), .atom (.variable name), .atom (.variable name)]) q →
          s.state = .running → q.code <+: p.code.toList.drop s.pc →
          Unlimited settings registry pid image before [first, second, last] →
          let s' := (run settings registry pid image (before ++ [first, second, last])).machine
          s.IsAt s' (s.pc + q.code.length) ∧ ∃ b, s'.stack = .boolean b :: s.stack ∧ (b = true ↔ w.Stable)) ∧
        (∀ (now later : Moment) (stretch : List Moment) (w' : Value),
          let s' := (run settings registry pid image (before ++ now :: stretch)).machine
          s.IsAbout settings (onVariable .load name) → s'.IsAbout settings (onVariable .load name) →
          s'.binding? name = some (h, w') →
          (∀ early last, early ++ [last] <+: now :: stretch →
            ¬(run settings registry pid image (before ++ early)).machine.Assigns name h) →
          ∃ v v', (run settings registry pid image (before ++ [now])).machine.stack = v :: s.stack ∧
            (run settings registry pid image (before ++ now :: stretch ++ [later])).machine.stack = v' :: s'.stack ∧
            (w.Stable →
              (run settings registry pid image (before ++ now :: stretch ++ [later])).machine.heap.equal v v' = true) ∧
            (¬w.Stable → (∀ g, v = .handle g → (s'.heap.get? g).isSome = true) →
              (run settings registry pid image (before ++ now :: stretch ++ [later])).machine.heap.equal v v' = false)) := by
  -- what is said of one comparison, and of two reads, is said of reachable machines
  obtain ⟨t, roots, blocks, ht, hcompiled⟩ := Program.compiled_compile hp
  obtain ⟨image, himage, -⟩ := (Program.Produced.compiled hp).exists_image
  refine ⟨t, image, ht, himage, ?_⟩
  intro settings pid before name h w s hb
  refine ⟨?_, ?_⟩
  · intro M g tail q first second last hq hrunning hcode hlimit
    rw [code_compared hq] at hcode ⊢
    exact run_compared hcompiled himage hmodest hrunning hb hcode hlimit
  · intro now later stretch w' s' ha ha' hb' hnot
    obtain ⟨v, v', hstack, hstack', hreads, hreads'⟩ := run_reads hcompiled himage hmodest ha ha' hb hb' hnot
    exact ⟨v, v', hstack, hstack', fun hw => hreads.equal hreads' hw, fun hw => hreads.equal_eq_false hreads' hw⟩

/-- A comparison of a variable with itself. -/
theorem lowers_compared (t : Tree) (K : Table Handle Constant) (M g : Handle) (name : String) :
    Lowers t K M false (.application g .code [.atom (.keyword "="), .atom (.variable name), .atom (.variable name)])
      (.primitive .eqn [.load name, .load name]) :=
  .primitive rfl (.cons (.variable name) (.cons (.variable name) .nil))

/-- **A list is equal to itself**, also where it is read in another procedure, in a run that collects whenever it can. -/
theorem run_variable_list :
    ∃ p image before now stretch v v',
      Program.compile "(define l (cons 'a '())) (define (g) l) (display (= l l)) (display (= (g) l))" = .ok p ∧
      Image.ofProgram p = .ok image ∧
      (run { gcThreshold := some 0 } Registry.builtins 0 image before).machine.binding? "&0.l" = some (4, .handle 5) ∧
      (run { gcThreshold := some 0 } Registry.builtins 0 image (before ++ [now, now, now])).machine.stack =
        [.boolean true] ∧
      (run { gcThreshold := some 0 } Registry.builtins 0 image (before ++ [now])).machine.stack = [v] ∧
      (run { gcThreshold := some 0 } Registry.builtins 0 image (before ++ now :: stretch)).machine.current = some 6 ∧
      (run { gcThreshold := some 0 } Registry.builtins 0 image (before ++ now :: stretch ++ [now])).machine.stack = [v'] ∧
      (run { gcThreshold := some 0 } Registry.builtins 0 image (before ++ now :: stretch ++ [now])).machine.heap.equal
        v v' = true := by
  let now : Moment := ⟨{}, .ok .nothing⟩
  -- the run is evaluated once, for all that is asked of it
  have hrun : (do
      let p ← (Program.compile "(define l (cons 'a '())) (define (g) l) (display (= l l)) (display (= (g) l))").toOption
      let image ← (Image.ofProgram p).toOption
      let at' := fun k => (run { gcThreshold := some 0 } Registry.builtins 0 image (List.replicate k now)).machine
      return decide (
        ((at' 8).state = .running ∧ (at' 8).stack = [] ∧ (at' 8).binding? "&0.l" = some (4, .handle 5) ∧
          [onVariable .load "&0.l", onVariable .load "&0.l", plain .eqn] <+: p.code.toList.drop (at' 8).pc) ∧
        (at' 8).image.program.code[(at' 8).pc]? = some (onVariable .load "&0.l") ∧
        ((at' 14).state = .running ∧ (at' 14).stack = [] ∧ (at' 14).current = some 6 ∧
          (at' 14).binding? "&0.l" = some (4, .handle 5) ∧
          (at' 14).image.program.code[(at' 14).pc]? = some (onVariable .load "&0.l")) ∧
        ∀ k ∈ List.range 6, ¬(at' (8 + k)).Assigns "&0.l" 4)) = some true := by
    decide +kernel
  cases hp : Program.compile "(define l (cons 'a '())) (define (g) l) (display (= l l)) (display (= (g) l))" with
  | error e =>
    rw [hp] at hrun
    cases hrun
  | ok p =>
    obtain ⟨t, image, -, himage, hvariable⟩ := run_variable hp Registry.modest_builtins
    rw [hp] at hrun
    simp only [Except.toOption, Option.bind_eq_bind, Option.bind_some, himage, Option.pure_def, Option.some.injEq,
      decide_eq_true_eq, List.mem_range] at hrun
    obtain ⟨⟨hrunning, hempty, hb, hcode⟩, hi, ⟨hrunning', hempty', hcurrent, hb', hi'⟩, hnot⟩ := hrun
    have hstable : (Value.handle 5).Stable := ⟨by simp, by simp⟩
    obtain ⟨hcompared, hread⟩ := hvariable { gcThreshold := some 0 } 0 (List.replicate 8 now) "&0.l" 4 (.handle 5) hb
    obtain ⟨-, b, hstack, hequal⟩ := hcompared 0 0 false _ now now now (lowers_compared t p.constants 0 0 "&0.l")
      hrunning hcode fun _ _ _ => by simp
    -- the second read is six instructions after the first one
    have hlater : List.replicate 8 now ++ now :: List.replicate 5 now = List.replicate 14 now := rfl
    obtain ⟨v, v', hfirst, hsecond, hsame, -⟩ := hread now now (List.replicate 5 now) (.handle 5)
      ⟨hrunning, by simp, hi⟩ (by rw [hlater]; exact ⟨hrunning', by simp, hi'⟩) (by rw [hlater]; exact hb')
      fun early last (hearly : early ++ [last] <+: List.replicate 6 now) => by
        obtain ⟨-, hreplicate⟩ := List.prefix_replicate_iff.mp ((List.prefix_append _ _).trans hearly)
        have hlt := hearly.length_le
        rw [List.length_append, List.length_singleton, List.length_replicate] at hlt
        rw [hreplicate, List.replicate_append_replicate]
        exact hnot early.length hlt
    refine ⟨p, image, List.replicate 8 now, now, List.replicate 5 now, v, v', rfl, himage, hb, ?_, ?_, ?_, ?_,
      hsame hstable⟩
    · rw [hstack, hempty, hequal.mpr hstable]
    · rw [hfirst, hempty]
    · rw [hlater, hcurrent]
    · rw [hsecond, hlater, hempty']

/-- **A procedure that was defined is not equal to itself**: each read of it makes another closure. -/
theorem run_variable_defined :
    ∃ p t image M g q h N before nows,
      Program.compile "(define (f) 1) (display (= f f))" = .ok p ∧
      (Tree.parse "(define (f) 1) (display (= f f))" >>= Tree.analyse) = .ok t ∧ Image.ofProgram p = .ok image ∧
      Lowers t p.constants M false
        (.application g .code [.atom (.keyword "="), .atom (.variable "&0.f"), .atom (.variable "&0.f")]) q ∧
      q.code <+: p.code.toList.drop (run {} Registry.builtins 0 image before).machine.pc ∧
      (run {} Registry.builtins 0 image before).machine.state = .running ∧
      (run {} Registry.builtins 0 image before).machine.binding? "&0.f" = some (h, .label N) ∧
      (run {} Registry.builtins 0 image (before ++ nows)).machine.pc =
        (run {} Registry.builtins 0 image before).machine.pc + q.code.length ∧
      (run {} Registry.builtins 0 image (before ++ nows)).machine.stack =
        .boolean false :: (run {} Registry.builtins 0 image before).machine.stack := by
  let now : Moment := ⟨{}, .ok .nothing⟩
  -- the run is evaluated once, to the comparison and behind it
  have hrun : (do
      let p ← (Program.compile "(define (f) 1) (display (= f f))").toOption
      let t ← (Tree.parse "(define (f) 1) (display (= f f))" >>= Tree.analyse).toOption
      let image ← (Image.ofProgram p).toOption
      let at' := fun k => (run {} Registry.builtins 0 image (List.replicate k now)).machine
      return decide (
        [onVariable .load "&0.f", onVariable .load "&0.f", plain .eqn] <+: p.code.toList.drop (at' 4).pc ∧
        (at' 4).state = .running ∧ (at' 4).binding? "&0.f" = some (0, .label "&2") ∧
        (at' 7).pc = (at' 4).pc + 3 ∧ (at' 7).stack = .boolean false :: (at' 4).stack)) = some true := by
    decide +kernel
  simp only [Option.bind_eq_bind, Option.pure_def, Option.bind_eq_some_iff, Except.toOption_eq_some, Option.some.injEq,
    decide_eq_true_eq] at hrun
  obtain ⟨p, hp, t, ht, image, himage, hcode, hrunning, hb, hplace, hstack⟩ := hrun
  exact ⟨p, t, image, 0, 0, _, 0, "&2", List.replicate 4 now, List.replicate 3 now, hp, ht, himage,
    lowers_compared t p.constants 0 0 "&0.f", hcode, hrunning, hb, hplace, hstack⟩

end Process

end SchemeMachine
