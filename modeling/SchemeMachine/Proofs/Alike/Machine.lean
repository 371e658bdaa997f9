import SchemeMachine.Proofs.Alike.Heap
import SchemeMachine.Proofs.Move

/-!
# Machines that differ in their handles

`Machine.Alike` says of two machines that they are at the same point of the same program, with stacks, frames
and heaps that are alike under a pairing. A move takes alike machines to alike machines: the pairing grows by
the objects that the move places, and where one move fails so does the other, for the same reason up to
the handle that it mentions (`Fault.Alike`).

* `Machine.Agree` compares the ends of two moves, `Machine.Agree.bind` puts moves together.
* `Machine.Alike.execute` is the result for every operation, assembled from one lemma for each move.
* `NativeFunction.Uniform` is what a native function must satisfy: it sees its arguments, not their handles.
* `Program.Grounded` is what is needed of the program: its handles are those of its constants, and constant
  lists refer to later constants only.
-/

namespace SchemeMachine

/-- **Texts that are equal** but for the number of one handle. -/
def SameButHandle (s t : String) : Prop :=
  s = t ∨ ∃ (before after : String) (h k : Handle),
    s = before ++ Handle.label h ++ after ∧ t = before ++ Handle.label k ++ after

/-- **The same fault** but for the number of the handle in its text. -/
inductive Fault.Alike : Fault → Fault → Prop
  | refl (f : Fault) : Alike f f
  | typeError {s t : String} (h : SameButHandle s t) : Alike (.typeError s) (.typeError t)
  | invalidHandle (h k : Handle) : Alike (.invalidHandle h) (.invalidHandle k)

theorem Value.Alike.text {ps : Pairing} {v w : Value} (h : v.Alike ps w) (before : String) :
    SameButHandle (before ++ v.text) (before ++ w.text) := by
  cases h with
  | @handle h k hm => exact Or.inr ⟨before, "", h, k, String.append_empty.symm, String.append_empty.symm⟩
  | plain hv => exact Or.inl rfl

/-- Answers of native functions that are alike. -/
inductive NativeAnswer.Alike (ps : Pairing) : NativeAnswer → NativeAnswer → Prop
  | value {v w : Value} (h : v.Alike ps w) : Alike ps (.value v) (.value w)
  | newString (content : String) : Alike ps (.newString content) (.newString content)
  | pending (job : Job) : Alike ps (.pending job) (.pending job)

/-- **A native function that does not see handles**: on alike heaps and arguments it fails alike or answers
alike. -/
def NativeFunction.Uniform (f : NativeFunction) : Prop :=
  ∀ (ps : Pairing) (H G : Heap) (pid : Nat) (library function : String) (args args' : List Value),
    H.Alike ps G → List.Forall₂ (Value.Alike ps) args args' →
    (∃ e, f.invoke H ⟨pid, library, function, args⟩ = .error e ∧
      f.invoke G ⟨pid, library, function, args'⟩ = .error e) ∨
    ∃ a b, f.invoke H ⟨pid, library, function, args⟩ = .ok a ∧
      f.invoke G ⟨pid, library, function, args'⟩ = .ok b ∧ a.Alike ps b

/-- Libraries whose functions do not see handles. -/
def Registry.Uniform (r : Registry) : Prop :=
  ∀ library function f, r.lookup library function = some f → f.Uniform

/-- The handle of an instruction, if it has one, is a constant of the program. -/
def Instruction.Grounded (p : Program) (i : Instruction) : Prop :=
  ∀ op h, i = .op op (some (.handle h)) → p.constants.contains h

/-- **A program whose handles are constants.** -/
structure Program.Grounded (p : Program) : Prop where
  code : ∀ i ∈ p.code, i.Grounded p
  sorted : p.constants.Sorted
  /-- A constant list refers to constants with larger handles. -/
  lists : ∀ h items, p.constants.find? h = some (.list items) → ∀ j, Operand.handle j ∈ items →
    h < j ∧ p.constants.contains j

namespace Machine

/-- **Machines at the same point**, with data that are alike. -/
structure Alike (ps : Pairing) (m n : Machine) : Prop where
  pid : m.pid = n.pid
  image : m.image = n.image
  pc : m.pc = n.pc
  stack : List.Forall₂ (Value.Alike ps) m.stack n.stack
  frames : List.Forall₂ (Frame.Alike ps) m.frames n.frames
  current : Option.Rel (fun h k => (h, k) ∈ ps) m.current n.current
  heap : m.heap.Alike ps n.heap
  state : m.state = n.state
  steps : m.steps = n.steps
  peakDepth : m.peakDepth = n.peakDepth
  forked : m.forked = n.forked
  pending : m.pending = n.pending
  /-- The constants of the program have the same handles in both. -/
  constants : ∀ h, m.image.program.constants.contains h → (h, h) ∈ ps
  constantSlots : ∀ h, m.image.program.constants.contains h → m.heap.IsConstant h ∧ n.heap.IsConstant h
  grounded : m.image.program.Grounded

/-- **Moves that end alike**, in machines alike under a pairing that extends the one given; `R` relates what
they answer. -/
def Agree {α β : Type} (ps : Pairing) (R : Pairing → α → β → Prop)
    (x : Except Fault α × Machine) (y : Except Fault β × Machine) : Prop :=
  ∃ qs, ps <:+ qs ∧ x.2.Alike qs y.2 ∧
    match x.1, y.1 with
    | .ok a, .ok b => R qs a b
    | .error e, .error f => e.Alike f
    | _, _ => False

/-- Moves whose answers need no comparison. -/
abbrev AgreeUnit (ps : Pairing) (x y : Except Fault Unit × Machine) : Prop :=
  Agree ps (fun _ _ _ => True) x y

/-- Moves that write the same text. -/
abbrev AgreeText (ps : Pairing) (x y : Except Fault String × Machine) : Prop :=
  Agree ps (fun _ s t => s = t) x y

section Rules

variable {α β γ δ : Type} {ps qs : Pairing} {m n : Machine} {R : Pairing → α → β → Prop}
  {S : Pairing → γ → δ → Prop}

theorem Agree.ok (ha : m.Alike ps n) {a : α} {b : β} (h : R ps a b) :
    Agree ps R (.ok a, m) (.ok b, n) :=
  ⟨ps, List.suffix_rfl, ha, h⟩

theorem Agree.fail (ha : m.Alike ps n) {e f : Fault} (h : e.Alike f) :
    Agree ps R (.error e, m) (.error f, n) :=
  ⟨ps, List.suffix_rfl, ha, h⟩

theorem Agree.extend (hs : ps <:+ qs) {x : Except Fault α × Machine} {y : Except Fault β × Machine}
    (h : Agree qs R x y) : Agree ps R x y := by
  obtain ⟨rs, hrs, h⟩ := h
  exact ⟨rs, hs.trans hrs, h⟩

/-- **Moves one after the other** agree if the first do, and the second do wherever the first can end. -/
theorem Agree.bind {x : Move α} {y : Move β} {f : α → Move γ} {g : β → Move δ}
    (h : Agree ps R (x.run m) (y.run n))
    (hk : ∀ qs m' n' a b, ps <:+ qs → m'.Alike qs n' → R qs a b →
      Agree qs S ((f a).run m') ((g b).run n')) :
    Agree ps S ((x >>= f).run m) ((y >>= g).run n) := by
  obtain ⟨qs, hs, ha, hr⟩ := h
  rw [run_bind, run_bind]
  generalize x.run m = r at ha hr ⊢
  generalize y.run n = r' at ha hr ⊢
  obtain ⟨(e | a), m'⟩ := r <;> obtain ⟨(e' | b), n'⟩ := r'
  · exact ⟨qs, hs, ha, hr⟩
  · exact hr.elim
  · exact hr.elim
  · exact Agree.extend hs (hk qs m' n' a b hs ha hr)

end Rules

namespace Alike

variable {ps qs : Pairing} {m n : Machine}

/-- Registers may be changed alike. -/
theorem withStack (ha : m.Alike ps n) {s t : List Value} (h : List.Forall₂ (Value.Alike ps) s t) :
    ({ m with stack := s } : Machine).Alike ps { n with stack := t } :=
  { ha with stack := h }

theorem withPc (ha : m.Alike ps n) (pc : Nat) :
    ({ m with pc := pc } : Machine).Alike ps { n with pc := pc } :=
  { ha with pc := rfl }

/-- Heaps may be changed alike, as long as constants stay. -/
theorem withHeap (ha : m.Alike ps n) (hs : ps <:+ qs) {H G : Heap} (h : H.Alike qs G)
    (hH : ∀ c, m.heap.IsConstant c → H.IsConstant c) (hG : ∀ c, n.heap.IsConstant c → G.IsConstant c) :
    ({ m with heap := H } : Machine).Alike qs { n with heap := G } :=
  { ha with
    stack := ha.stack.imp fun _ _ hv => hv.mono hs.subset
    frames := ha.frames.imp fun _ _ hf => hf.mono hs.subset
    current := Pairing.rel_mono hs.subset ha.current
    heap := h
    constants := fun c hc => hs.subset (ha.constants c hc)
    constantSlots := fun c hc => (ha.constantSlots c hc).imp (hH c) (hG c) }

/-! ### Registers and stack -/

theorem advance (ha : m.Alike ps n) : AgreeUnit ps (advance.run m) (advance.run n) := by
  refine Agree.ok ?_ trivial
  exact { ha with pc := congrArg (· + 1) ha.pc }

theorem jump (ha : m.Alike ps n) (label : String) :
    AgreeUnit ps ((jump label).run m) ((jump label).run n) := by
  unfold Machine.jump
  rw [run_get_bind, run_get_bind, ha.image]
  cases n.image.labels.find? label with
  | some place => exact Agree.ok (ha.withPc place) trivial
  | none => exact Agree.fail ha (.refl _)

theorem push (ha : m.Alike ps n) {v w : Value} (hv : v.Alike ps w) :
    AgreeUnit ps ((push v).run m) ((push w).run n) :=
  Agree.ok (ha.withStack (.cons hv ha.stack)) trivial

theorem pop (ha : m.Alike ps n) : Agree ps Value.Alike (pop.run m) (pop.run n) := by
  have hstack := ha.stack
  cases hm : m.stack with
  | nil =>
    rw [hm, List.forall₂_nil_left_iff] at hstack
    rw [run_pop_nil hm, run_pop_nil hstack]
    exact Agree.fail ha (.refl _)
  | cons v rest =>
    rw [hm, List.forall₂_cons_left_iff] at hstack
    obtain ⟨w, rest', hv, hrest, hn⟩ := hstack
    rw [run_pop_cons hm, run_pop_cons hn]
    exact Agree.ok (ha.withStack hrest) hv

theorem swap (ha : m.Alike ps n) : AgreeUnit ps (swap.run m) (swap.run n) := by
  have hstack := ha.stack
  unfold Machine.swap
  rw [run_get_bind, run_get_bind]
  generalize m.stack = s at hstack ⊢
  generalize n.stack = t at hstack ⊢
  cases hstack with
  | nil => exact Agree.fail ha (.refl _)
  | cons hv hrest =>
    cases hrest with
    | nil => exact Agree.fail ha (.refl _)
    | cons hw hrest => exact Agree.ok (ha.withStack (.cons hw (.cons hv hrest))) trivial

theorem allocate (ha : m.Alike ps n) {o o' : Object} (ho : o.Alike ps o') :
    Agree ps (fun qs h k => (h, k) ∈ qs) ((allocate o).run m) ((allocate o').run n) := by
  refine ⟨(m.heap.nextSlot, n.heap.nextSlot) :: ps, List.suffix_cons _ _, ?_, ?_⟩
  · exact ha.withHeap (List.suffix_cons _ _) (ha.heap.allocate ho m.current n.current)
      (fun c hc => hc.allocate ha.heap.tidyLeft _ _) (fun c hc => hc.allocate ha.heap.tidyRight _ _)
  · simp [Machine.allocate]

theorem doReturn (ha : m.Alike ps n) : AgreeUnit ps (doReturn.run m) (doReturn.run n) := by
  have hframes := ha.frames
  unfold Machine.doReturn
  rw [run_modify, run_modify]
  cases hm : m.frames with
  | nil =>
    rw [hm, List.forall₂_nil_left_iff] at hframes
    rw [hframes]
    refine Agree.ok ?_ trivial
    exact { ha with state := rfl, frames := .nil }
  | cons f rest =>
    rw [hm, List.forall₂_cons_left_iff] at hframes
    obtain ⟨g, rest', hf, hrest, hn⟩ := hframes
    rw [hn]
    refine Agree.ok ?_ trivial
    exact { ha with current := hf.closure, pc := hf.returnAddress, frames := hrest }

/-- A check that both machines make. -/
theorem require {α : Type} (ha : m.Alike ps n) (x : Except Fault α) :
    Agree ps (fun _ a b => a = b) ((Machine.require x).run m) ((Machine.require x).run n) := by
  rw [run_require, run_require]
  cases x with
  | ok a => exact Agree.ok ha rfl
  | error e => exact Agree.fail ha (.refl e)

/-! ### Variables -/

theorem closureOf (ha : m.Alike ps n) {h k : Handle} (hm : (h, k) ∈ ps) :
    Agree ps Closure.Alike ((closureOf h).run m) ((closureOf k).run n) := by
  have hcd := ha.heap.closure? hm
  unfold Machine.closureOf
  rw [run_get_bind, run_get_bind]
  generalize m.heap.closure? h = c at hcd ⊢
  generalize n.heap.closure? k = d at hcd ⊢
  cases hcd with
  | some hcd => exact Agree.ok ha hcd
  | none => exact Agree.fail ha (.invalidHandle h k)

/-- A closure that may be changed is a closure. -/
theorem closure?_of_mutable {heap : Heap} {h : Handle} {c : Closure}
    (hc : heap.mutableClosure? h = some c) : heap.closure? h = some c := by
  unfold Heap.mutableClosure? at hc
  split at hc
  · exact hc
  · cases hc

theorem updateClosure (ha : m.Alike ps n) {h k : Handle} (hm : (h, k) ∈ ps)
    {f g : Closure → Closure} (hfg : ∀ c d, c.Alike ps d → (f c).Alike ps (g d))
    (hf : ∀ c, (f c).parent = c.parent) (hg : ∀ c, (g c).parent = c.parent) :
    AgreeUnit ps ((updateClosure h f).run m) ((updateClosure k g).run n) := by
  have hcd := ha.heap.mutableClosure? hm
  unfold Machine.updateClosure
  rw [run_get_bind, run_get_bind]
  cases hc : m.heap.mutableClosure? h with
  | none =>
    rw [hc] at hcd
    cases hd : n.heap.mutableClosure? k with
    | none => exact Agree.fail ha (.invalidHandle h k)
    | some d => rw [hd] at hcd; cases hcd
  | some c =>
    rw [hc] at hcd
    cases hd : n.heap.mutableClosure? k with
    | none => rw [hd] at hcd; cases hcd
    | some d =>
      rw [hd] at hcd
      cases hcd with
      | some hcd =>
        refine Agree.ok (ha.withHeap List.suffix_rfl ?_ (fun c hc => hc.put _ _)
          (fun c hc => hc.put _ _)) trivial
        exact ha.heap.put hm (closure?_of_mutable hc) (closure?_of_mutable hd) (hfg c d hcd) (hf c) (hg d)

theorem outerBinding? {H G : Heap} (ha : H.Alike ps G) {c d : Closure} (hcd : c.Alike ps d)
    (name : String) :
    Option.Rel (fun x y => Value.Alike ps x.1 y.1 ∧ x.2 = y.2)
      (Machine.outerBinding? H c name) (Machine.outerBinding? G d name) := by
  have hb := ha.binder? name hcd.parent
  unfold Machine.outerBinding?
  generalize Machine.binder? H c.parent name = a at hb ⊢
  generalize Machine.binder? G d.parent name = b at hb ⊢
  cases hb with
  | none => exact .none
  | @some h k hm =>
    have hce := ha.closure? hm
    simp only [Option.bind_some]
    generalize H.closure? h = e at hce ⊢
    generalize G.closure? k = f at hce ⊢
    cases hce with
    | none => exact .none
    | @some e f hef =>
      have hfind := hef.bound.find? name
      simp only [Option.bind_some, Closure.isDirty, hef.dirty]
      generalize e.bound.find? name = x at hfind ⊢
      generalize f.bound.find? name = y at hfind ⊢
      cases hfind with
      | none => exact .none
      | some hv => exact .some ⟨hv, rfl⟩

/-- **Alike closures see alike values.** -/
theorem lookup? {H G : Heap} (ha : H.Alike ps G) {c d : Closure} (hcd : c.Alike ps d) (name : String) :
    Option.Rel (Value.Alike ps) (Machine.lookup? H c name) (Machine.lookup? G d name) := by
  have hbound := hcd.bound.find? name
  have hfree := hcd.free.find? name
  have houter := outerBinding? ha hcd name
  unfold Machine.lookup?
  generalize c.bound.find? name = x at hbound ⊢
  generalize d.bound.find? name = y at hbound ⊢
  -- bound here, or copied here, or found further out: on both sides it is the same
  cases hbound with
  | some hv => exact .some hv
  | none =>
    dsimp only
    generalize c.free.find? name = x at hfree ⊢
    generalize d.free.find? name = y at hfree ⊢
    generalize Machine.outerBinding? H c name = a at houter ⊢
    generalize Machine.outerBinding? G d name = b at houter ⊢
    cases hfree with
    | none =>
      cases houter with
      | none => exact .none
      | some hab => exact .some hab.1
    | some hv =>
      cases houter with
      | none => exact .some hv
      | @some a b hab =>
        obtain ⟨theirs, dirty⟩ := a
        obtain ⟨theirs', dirty'⟩ := b
        obtain ⟨hw, rfl⟩ : theirs.Alike ps theirs' ∧ dirty = dirty' := hab
        dsimp only
        rw [hv.same ha.oneToOne hw]
        split
        · exact .some hw
        · exact .some hv

theorem dereference (ha : m.Alike ps n) (name : String) :
    Agree ps Value.Alike ((dereference name).run m) ((dereference name).run n) := by
  have hcur := ha.current
  unfold Machine.dereference
  rw [run_get_bind, run_get_bind]
  generalize m.current = a at hcur ⊢
  generalize n.current = b at hcur ⊢
  cases hcur with
  | none => exact Agree.fail ha (.refl _)
  | some hm =>
    refine (ha.closureOf hm).bind fun qs m' n' c d hs ha hcd => ?_
    have hv := lookup? ha.heap hcd name
    rw [run_get_bind, run_get_bind]
    generalize Machine.lookup? m'.heap c name = x at hv ⊢
    generalize Machine.lookup? n'.heap d name = y at hv ⊢
    cases hv with
    | some hv => exact Agree.ok ha hv
    | none => exact Agree.fail ha (.refl _)

theorem store (ha : m.Alike ps n) (name : String) {v w : Value} (hv : v.Alike ps w) :
    AgreeUnit ps ((store name v).run m) ((store name w).run n) := by
  have hcur := ha.current
  unfold Machine.store
  rw [run_get_bind, run_get_bind]
  generalize m.current = a at hcur ⊢
  generalize n.current = b at hcur ⊢
  cases hcur with
  | none => exact Agree.fail ha (.refl _)
  | some hm =>
    exact ha.updateClosure hm (fun c d hcd => hcd.bind ha.heap.oneToOne name hv)
      (fun _ => rfl) (fun _ => rfl)

/-- The second part of an assignment: change the binder further out, or do something else. -/
private theorem assignOuter (ha : m.Alike ps n) (name : String) {v w : Value} (hv : v.Alike ps w)
    {a b : Option Handle} (hab : Option.Rel (fun h k => (h, k) ∈ ps) a b) {otherwise : Move Unit}
    (ho : AgreeUnit ps (otherwise.run m) (otherwise.run n)) :
    AgreeUnit ps
      ((do match Machine.binder? (← get).heap a name with
          | some outer => Machine.updateClosure outer (·.setBound name v)
          | none => otherwise : Move Unit).run m)
      ((do match Machine.binder? (← get).heap b name with
          | some outer => Machine.updateClosure outer (·.setBound name w)
          | none => otherwise : Move Unit).run n) := by
  have hb := ha.heap.binder? name hab
  rw [run_get_bind, run_get_bind]
  generalize Machine.binder? m.heap a name = x at hb ⊢
  generalize Machine.binder? n.heap b name = y at hb ⊢
  cases hb with
  | some hm =>
    exact ha.updateClosure hm (fun _ _ hcd => hcd.setBound name hv) (fun _ => rfl) (fun _ => rfl)
  | none => exact ho

theorem assign (ha : m.Alike ps n) (name : String) {v w : Value} (hv : v.Alike ps w) :
    AgreeUnit ps ((assign name v).run m) ((assign name w).run n) := by
  have hcur := ha.current
  unfold Machine.assign
  rw [run_get_bind, run_get_bind]
  generalize m.current = a at hcur ⊢
  generalize n.current = b at hcur ⊢
  cases hcur with
  | none => exact Agree.fail ha (.refl _)
  | @some h k hm =>
    have hcd := ha.heap.mutableClosure? hm
    dsimp only
    rw [run_get_bind, run_get_bind]
    generalize m.heap.mutableClosure? h = c at hcd ⊢
    generalize n.heap.mutableClosure? k = d at hcd ⊢
    cases hcd with
    | none => exact Agree.fail ha (.invalidHandle h k)
    | @some c d hcd =>
      dsimp only
      rw [hcd.bound.contains name, hcd.free.contains name]
      split
      · exact ha.updateClosure hm (fun _ _ hcd => hcd.setBound name hv) (fun _ => rfl) (fun _ => rfl)
      · -- the binder further out is looked for after the copy has been changed
        split
        · refine (ha.updateClosure hm (fun _ _ hcd => hcd.setFree name hv) (fun _ => rfl)
            (fun _ => rfl)).bind fun qs m' n' _ _ hs ha _ => ?_
          exact assignOuter ha name (hv.mono hs.subset) (Pairing.rel_mono hs.subset hcd.parent)
            (Agree.ok ha trivial)
        · exact assignOuter ha name hv hcd.parent (Agree.fail ha (.refl _))

theorem lexicalParent (ha : m.Alike ps n) (label : String) :
    Agree ps (fun qs => Option.Rel fun h k => (h, k) ∈ qs)
      ((lexicalParent label).run m) ((lexicalParent label).run n) := by
  unfold Machine.lexicalParent
  rw [run_get_bind, run_get_bind, ha.image]
  cases n.image.program.enclosing.find? label with
  | none => exact Agree.ok ha ha.current
  | some enclosing =>
    have := ha.heap.length_le
    dsimp only
    rcases ha.heap.activationFrom enclosing ps.length ps List.suffix_rfl le_rfl _ _ ha.current
      (m.heap.slots.size + 1) (n.heap.slots.size + 1) (by omega) (by omega) with
      ⟨x, y, hx, hy, hxy⟩ | ⟨h, k, hx, hy⟩
    · rw [hx, hy]
      cases hxy with
      | some hm => exact Agree.ok ha (.some hm)
      | none => exact Agree.fail ha (.refl _)
    · rw [hx, hy]
      exact Agree.fail ha (.invalidHandle h k)

theorem makeClosure (ha : m.Alike ps n) (label : String) :
    Agree ps (fun qs h k => (h, k) ∈ qs) ((makeClosure label).run m) ((makeClosure label).run n) := by
  unfold Machine.makeClosure
  rw [run_get_bind, run_get_bind, ha.image]
  cases n.image.labels.find? label with
  | none => exact Agree.fail ha (.refl _)
  | some address =>
    refine (ha.lexicalParent label).bind fun qs m' n' a b hs ha hab => ?_
    cases hab with
    | none => exact ha.allocate (.closure ⟨rfl, rfl, .none, .nil, .nil, rfl⟩)
    | some hm =>
      dsimp only
      refine (ha.closureOf hm).bind fun rs m' n' c d hs ha hcd => ?_
      exact ha.allocate (.closure ⟨rfl, rfl, .some (hs.subset hm), .nil, hcd.environment, rfl⟩)

end Alike

end Machine

end SchemeMachine
