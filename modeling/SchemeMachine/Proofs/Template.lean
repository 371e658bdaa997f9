import SchemeMachine.Proofs.Fork
import SchemeMachine.Proofs.Operands.Application
import SchemeMachine.Proofs.Trees

/-!
# Templates are filled

The code of a template pushes the items from left to right, evaluates the holes among them, and then conses all of it onto
an empty list. In between a hole may run any code. What has been pushed waits on the stack, and as long as it is not
freed it stays the tree that it was.

* `Term.Fits` says that a tree is a template with trees in its holes.
* `Process.Fills` is a stretch of a run in which the holes of a template deliver values.
* `Machine.Shows` is what is kept along such a stretch: `Machine.Ready.shows_push` and `Machine.Ready.shows_cons` are the
  steps, `Process.Fills.shows` goes along the template.
* `Process.run_template` is the result. It is about a template whose code starts at some place; `Program.exists_place`
  gives every template that is evaluated such a place.
-/

namespace SchemeMachine

open Lowering Term

variable {p : Program} {t : Tree} {roots : List Term} {blocks : List Block} {M : Handle} {image : Image}
  {registry : Registry}

/-- Each item of a template has a piece. -/
theorem LowersItems.length_eq {K : Table Handle Constant} : {xs : List Term} → {ps : List Piece} →
    LowersItems t K M xs ps → xs.length = ps.length
  | _, _, .nil => rfl
  | _, _, .cons _ hxs => congrArg (· + 1) hxs.length_eq

/-! ### Trees for templates -/

namespace Term

mutual

/-- Whether there is a hole in a template. -/
def hasHole : Term → Bool
  | .application _ quotation items => decide (quotation = .unquote) || anyHole items
  | _ => false

/-- Whether there is a hole in one of several items. -/
def anyHole : List Term → Bool
  | [] => false
  | x :: xs => hasHole x || anyHole xs

end

theorem anyHole_eq_false {xs : List Term} : anyHole xs = false ↔ ∀ x ∈ xs, x.hasHole = false := by
  induction xs with
  | nil => simp [anyHole]
  | cons x xs ih => simp [anyHole, ih]

mutual

/-- **A tree that fits a template**: its lists, strings and atoms are those of the template, and in place of the holes it
has the given trees, from left to right. -/
inductive Fits : Term → List Datum → Datum → Prop
  | number (x : Float) : Fits (.atom (.number x)) [] (.atom (.number x))
  | boolean (b : Bool) : Fits (.atom (.boolean b)) [] (.atom (.boolean b))
  | symbol (s : String) : Fits (.atom (.symbol s)) [] (.atom (.symbol s))
  | string (h : Handle) (content : String) : Fits (.string h content) [] (.string h content)
  | hole (h : Handle) (x : Term) (d : Datum) : Fits (.application h .unquote [x]) [d] d
  | list {h g : Handle} {quotation : Quotation} {items : List Term} {ds es : List Datum} (hq : quotation ≠ .unquote)
      (hitems : FitsAll items ds es) : Fits (.application h quotation items) ds (.list g es)

/-- Trees that fit the items of a template. -/
inductive FitsAll : List Term → List Datum → List Datum → Prop
  | nil : FitsAll [] [] []
  | cons {x : Term} {xs : List Term} {ds ds' es : List Datum} {d : Datum} (hx : Fits x ds d)
      (hxs : FitsAll xs ds' es) : FitsAll (x :: xs) (ds ++ ds') (d :: es)

end

theorem FitsAll.length_eq : {xs : List Term} → {ds es : List Datum} → FitsAll xs ds es → es.length = xs.length
  | _, _, _, .nil => rfl
  | _, _, _, .cons _ hxs => congrArg (· + 1) hxs.length_eq

/-- An atom of quoted data is a value that fits it. -/
theorem fits_atom {a : Atom} (ha : a.isDatum = true) :
    ∃ v, Value.ofOperand? (.atom a) = some v ∧ v.handle? = none ∧ Fits (.atom a) [] (.atom v) := by
  cases a with
  | number x => exact ⟨_, rfl, rfl, .number x⟩
  | boolean b => exact ⟨_, rfl, rfl, .boolean b⟩
  | symbol s => exact ⟨_, rfl, rfl, .symbol s⟩
  | «variable» name => cases ha
  | keyword word => cases ha

/-- **What may stand in a template**: the items of a list in it are data. -/
def IsTemplate (x : Term) : Prop :=
  ∀ h quotation items, x = .application h quotation items → quotation ≠ .unquote → LegalAll .data items

theorem Legal.isTemplate {x : Term} (hx : x.Legal .data) : x.IsTemplate := by
  rintro h quotation items rfl hq
  cases quotation with
  | quote => exact hx.2
  | unquote => exact absurd rfl hq
  | _ => cases hx.1

end Term

/-! ### Constants -/

namespace Heap

variable {H : Heap} {K : Table Handle Constant}

mutual

/-- **Data among the constants** unfold into a tree that fits them. -/
theorem fits_datum (hH : H.HasConstants K)
    (hholes : ∀ h parent children, t.get? h = some (.application parent .unquote children) → K.find? h = none) :
    (x : Term) → {parent : Option Handle} → x.Kept K → x.Placed t parent → x.Legal .data →
      ∃ v d, Value.ofOperand? x.child.operand = some v ∧ H.Unfolds v d ∧ Fits x [] d
  | .atom a, _, _, _, hl => by
    have ha : a.isDatum = true := hl.resolve_left (by decide)
    obtain ⟨v, hv, hnone, hfits⟩ := fits_atom ha
    have hquoted : quotedAtom a = a := by cases a <;> first | rfl | cases ha
    exact ⟨v, _, by rw [Term.child, Child.operand, hquoted, hv], .atom hnone, hfits⟩
  | .string h content, _, hk, _, _ => ⟨.handle h, _, rfl, .string (hH h _ hk), .string h content⟩
  | .lambda .., _, hk, _, _ => hk.elim
  | .application h quotation items, _, hk, hp, hl => by
    have hq : quotation ≠ .unquote := by
      rintro rfl
      exact absurd ((hholes h _ _ hp.1).symm.trans hk.1) (by simp)
    obtain ⟨ds, hds, hfits⟩ := fits_data hH hholes items hk.2 hp.2 (hl.isTemplate h quotation items rfl hq)
    exact ⟨.handle h, .list h ds, rfl, unfolds_list_iff.mpr ⟨rfl, _, hH h _ hk.1, hds⟩, .list hq hfits⟩

/-- Several data among the constants. -/
theorem fits_data (hH : H.HasConstants K)
    (hholes : ∀ h parent children, t.get? h = some (.application parent .unquote children) → K.find? h = none) :
    (xs : List Term) → {parent : Option Handle} → KeptAll K xs → PlacedAll t parent xs → LegalAll .data xs →
      ∃ ds, List.Forall₂ H.Unfolds (((xs.map Term.child).map Child.operand).filterMap Value.ofOperand?) ds ∧
        FitsAll xs [] ds
  | [], _, _, _, _ => ⟨[], .nil, .nil⟩
  | x :: xs, _, hk, hp, hl => by
    obtain ⟨v, d, hv, hd, hx⟩ := fits_datum hH hholes x hk.1 hp.1 hl.1
    obtain ⟨ds, hds, hxs⟩ := fits_data hH hholes xs hk.2 hp.2 hl.2
    refine ⟨d :: ds, ?_, .cons hx hxs⟩
    rw [List.map_cons, List.map_cons, List.filterMap_cons_some hv]
    exact .cons hd hds

end

/-- **A template without holes** is a constant that fits it. -/
theorem fits_constant (hp : p.Compiled t roots blocks) (hH : H.HasConstants p.constants) {h : Handle}
    {quotation : Quotation} {items : List Term} {parent : Option Handle} (hq : quotation ≠ .unquote)
    (hk : (Term.application h quotation items).Kept p.constants)
    (hplaced : (Term.application h quotation items).Placed t parent)
    (hx : (Term.application h quotation items).IsTemplate) :
    ∃ d, H.Unfolds (.handle h) d ∧ Fits (.application h quotation items) [] d := by
  obtain ⟨ds, hds, hfits⟩ := fits_data hH hp.holes items hk.2 hplaced.2 (hx h quotation items rfl hq)
  exact ⟨.list h ds, unfolds_list_iff.mpr ⟨rfl, _, hH h _ hk.1, hds⟩, .list hq hfits⟩

end Heap

/-! ### Templates without holes -/

/-- A template without holes has none in the tree. -/
theorem Lowering.hasHole_eq_false (fuel : Nat) {h : Handle} {quotation : Quotation} {items : List Term}
    {parent : Option Handle} (hp : (Term.application h quotation items).Placed t parent)
    (hnone : anyHole items = false) : Lowering.hasHole t fuel h = false := by
  induction fuel generalizing h quotation items parent with
  | zero => rfl
  | succ fuel ih =>
    rw [Lowering.hasHole, hp.1]
    refine List.any_eq_false.mpr fun below hbelow => ?_
    obtain ⟨c, hc, hnode⟩ := List.mem_filterMap.mp hbelow
    obtain ⟨y, hy, rfl⟩ := List.mem_map.mp hc
    have hplaced := placedAll_iff.mp hp.2 y hy
    cases y with
    | atom a => cases hnode
    | string k content =>
      obtain rfl : k = below := Option.some.inj hnode
      rw [show t.get? k = _ from hplaced]
      exact Bool.false_ne_true
    | lambda k parameters body =>
      obtain rfl : k = below := Option.some.inj hnode
      rw [hplaced.1]
      exact Bool.false_ne_true
    | application k quotation' items' =>
      obtain rfl : k = below := Option.some.inj hnode
      obtain ⟨hq, hitems⟩ := Bool.or_eq_false_iff.mp (anyHole_eq_false.mp hnone _ hy)
      rw [hplaced.1]
      simp only [hq, ih hplaced hitems, Bool.or_self]
      exact Bool.false_ne_true

/-- **The code of a template without holes** pushes a constant. -/
theorem Lowering.node_template {h : Handle} {items : List Term} {parent : Option Handle}
    (hp : (Term.application h .quasiquote items).Placed t parent) (hnone : anyHole items = false) {fuel : Nat}
    {s s' : Stock} {q : Piece} (hrun : (Lowering.node t fuel h).run s = .ok (q, s')) : q = .push (.handle h) := by
  cases fuel with
  | zero => cases hrun
  | succ fuel =>
    rw [Lowering.node, Lowering.nodeWith, hp.1] at hrun
    dsimp only at hrun
    rw [Lowering.template, hasHole_eq_false _ hp hnone, if_neg Bool.false_ne_true, StateT.run_bind] at hrun
    obtain ⟨_, -, hrun⟩ := Except.bind_eq_ok.mp hrun
    cases hrun
    rfl

/-! ### Steps -/

namespace Machine

variable {L : Layout p} {strict : Prop} {A A' : Handle → Prop} {m : Machine} {host : Host} {place : Nat}
  {S : List (Value × Datum)} {es : List Datum} {d : Datum}

/-- A constant or an atom is pushed; nothing is allocated. -/
theorem IsAbout.step_push {operand : Operand} (ha : m.IsAbout host.settings (.op .push (some operand))) {v : Value}
    (hv : Value.ofOperand? operand = some v) :
    (Machine.step host m).machine =
      ({ m with steps := m.steps + 1, stack := v :: m.stack, pc := m.pc + 1 } : Machine).collectIfDue host.settings := by
  have hvalue : (operandValue .push (some operand)).run { m with steps := m.steps + 1 } =
      (.ok v, { m with steps := m.steps + 1 }) := by
    unfold operandValue
    split
    · next h => cases h
    · next h =>
      cases h
      cases hv
    · next h =>
      cases h
      rw [hv]
      rfl
  have hrun : (dispatch host (.op .push (some operand))).run { m with steps := m.steps + 1 } =
      (.ok "", { m with steps := m.steps + 1, stack := v :: m.stack, pc := m.pc + 1 }) := by
    show (operandValue .push (some operand) >>= fun v => push v >>= fun _ => advance >>= fun _ => pure "").run _ = _
    rw [run_bind_ok hvalue]
    rfl
  exact ha.step hrun

/-- A machine with a new list in place of a value and a list. -/
def consed (m : Machine) (v : Value) (items rest : List Value) : Machine :=
  { m with
    steps := m.steps + 1
    stack := .handle m.heap.nextSlot :: rest
    heap := (m.heap.allocate (.list (v :: items)) m.current).2
    pc := m.pc + 1 }

/-- A value is put before the items of a list, which makes a new list. -/
theorem IsAbout.step_cons (ha : m.IsAbout host.settings (plain .cons)) {g : Handle} {v : Value} {rest items : List Value}
    (hstack : m.stack = .handle g :: v :: rest) (hg : m.heap.get? g = some (.list items)) :
    (Machine.step host m).machine = (m.consed v items rest).collectIfDue host.settings := by
  have hitems : (listItems .cons (.handle g)).run { m with steps := m.steps + 1, stack := rest } =
      (.ok items, { m with steps := m.steps + 1, stack := rest }) := by
    simp only [listItems, Value.handle?, run_get_bind, hg]
    rfl
  have hallocate : (allocate (.list (v :: items))).run { m with steps := m.steps + 1, stack := rest } =
      (.ok m.heap.nextSlot, { m.consed v items rest with pc := m.pc, stack := rest }) := run_allocate _ _
  have hoperate : (operate .cons).run { m with steps := m.steps + 1 } =
      (.ok "", { m.consed v items rest with pc := m.pc }) := by
    show (pop >>= fun list => pop >>= fun head => listItems .cons list >>= fun items =>
      allocate (.list (head :: items)) >>= fun h => push (.handle h) >>= fun _ => pure "").run _ = _
    rw [run_bind_ok (run_pop_cons (m := { m with steps := m.steps + 1 }) hstack), run_bind_ok (run_pop_cons rfl),
      run_bind_ok hitems, run_bind_ok hallocate]
    rfl
  have hrun : (dispatch host (plain .cons)).run { m with steps := m.steps + 1 } = (.ok "", m.consed v items rest) := by
    show (operate .cons >>= fun w => advance >>= fun _ => pure w).run _ = _
    rw [run_bind_ok hoperate]
    rfl
  exact ha.step hrun

/-- **A running machine that has come to a place**, and its operands with their trees. -/
structure Shows (m : Machine) (place : Nat) (operands : List (Value × Datum)) : Prop where
  running : m.state = .running
  place : m.pc = place
  stack : m.stack = operands.map Prod.fst
  trees : ∀ e ∈ operands, m.heap.Unfolds e.1 e.2

/-- What is shown is on the stack. -/
theorem Shows.mem_stack (hs : m.Shows place S) {e : Value × Datum} (he : e ∈ S) : e.1 ∈ m.stack := by
  rw [hs.stack]
  exact List.mem_map_of_mem he

/-- **What a step leaves on the stack** stays what it is, if it was there before. -/
theorem Ready.unfolds_step (hr : m.Ready L strict A) (hr' : (Machine.step host m).machine.Ready L strict A')
    (hrunning : (Machine.step host m).machine.state = .running) {v : Value} (hd : m.heap.Unfolds v d)
    (hlive : ∀ h, v = .handle h → (m.heap.get? h).isSome = true) (hv : v ∈ (Machine.step host m).machine.stack) :
    (Machine.step host m).machine.heap.Unfolds v d := by
  refine (follows_step host hr.sound.heap.tidy).unfolds hr.sound.heap.live hd fun h hh => ⟨hlive h hh, ?_⟩
  subst hh
  exact hr'.live_of_stack (.inl hrunning) hv

/-- **A value is pushed** onto the operands. -/
theorem Ready.shows_push (hr : m.Ready L strict A) (hr' : (Machine.step host m).machine.Ready L strict A')
    (hs : m.Shows place S) {operand : Operand} (ha : m.IsAbout host.settings (.op .push (some operand))) {v : Value}
    (hv : Value.ofOperand? operand = some v) (hd : m.heap.Unfolds v d)
    (hlive : ∀ h, v = .handle h → (m.heap.get? h).isSome = true) :
    (Machine.step host m).machine.Shows (place + 1) ((v, d) :: S) := by
  have hstep := ha.step_push hv
  obtain ⟨H, n, hlast⟩ := collectIfDue_eq host.settings
    ({ m with steps := m.steps + 1, stack := v :: m.stack, pc := m.pc + 1 } : Machine)
  rw [hlast] at hstep
  have hrunning : (Machine.step host m).machine.state = .running := by rw [hstep]; exact hs.running
  have hstack : (Machine.step host m).machine.stack = v :: m.stack := by rw [hstep]
  refine ⟨hrunning, by rw [hstep, ← hs.place], by rw [hstack, hs.stack]; rfl, fun e he => ?_⟩
  rcases List.mem_cons.mp he with rfl | he
  · exact hr.unfolds_step hr' hrunning hd hlive (by rw [hstack]; exact List.mem_cons_self)
  · have hmem := hs.mem_stack he
    refine hr.unfolds_step hr' hrunning (hs.trees e he) (fun h hh => hr.live_of_stack (.inl hs.running) (hh ▸ hmem)) ?_
    rw [hstack]
    exact List.mem_cons_of_mem _ hmem

/-- **A value is put before the items of a list**: the trees are those from before, in a new list. -/
theorem Ready.shows_cons (hr : m.Ready L strict A) (hr' : (Machine.step host m).machine.Ready L strict A') {g : Handle}
    {list head : Value} (hs : m.Shows place ((list, .list g es) :: (head, d) :: S))
    (ha : m.IsAbout host.settings (plain .cons)) :
    ∃ h, (Machine.step host m).machine.Shows (place + 1) ((.handle h, .list h (d :: es)) :: S) := by
  obtain ⟨rfl, items, hg, hitems⟩ := Heap.unfolds_list_iff.mp (hs.trees _ List.mem_cons_self)
  have hstep := ha.step_cons hs.stack hg
  -- the new list is there after the step, and so are its items
  have hcollected := collected_collectIfDue (m := m.consed head items (S.map Prod.fst))
    (hr.sound.heap.tidy.allocate _ _) host.settings
  obtain ⟨H, n, hlast⟩ := collectIfDue_eq host.settings (m.consed head items (S.map Prod.fst))
  rw [hlast] at hstep hcollected
  have hrunning : (Machine.step host m).machine.state = .running := by rw [hstep]; exact hs.running
  have hstack : (Machine.step host m).machine.stack = .handle m.heap.nextSlot :: S.map Prod.fst := by rw [hstep]; rfl
  have hnew : (Machine.step host m).machine.heap.get? m.heap.nextSlot = some (.list (head :: items)) := by
    rw [hstep]
    refine (hcollected.root (h := m.heap.nextSlot) ?_).trans ?_
    · exact List.mem_append_left _ (List.mem_append_left _ (List.mem_filterMap.mpr ⟨_, List.mem_cons_self, rfl⟩))
    · simp [consed, Heap.get?_allocate hr.sound.heap.tidy]
  have hitem : ∀ v e, v ∈ head :: items → m.heap.Unfolds v e → (∀ h, v = .handle h → (m.heap.get? h).isSome = true) →
      (Machine.step host m).machine.heap.Unfolds v e := by
    intro v e hv he hlive
    refine (follows_step host hr.sound.heap.tidy).unfolds hr.sound.heap.live he fun h hh => ⟨hlive h hh, ?_⟩
    exact hr'.sound.heap.live h _ ⟨_, hnew, hh ▸ hv⟩
  have hlive : ∀ e ∈ (.handle g, .list g es) :: (head, d) :: S, ∀ h, e.1 = .handle h → (m.heap.get? h).isSome = true :=
    fun e he h hh => hr.live_of_stack (.inl hs.running) (hh ▸ hs.mem_stack he)
  refine ⟨m.heap.nextSlot, hrunning, by rw [hstep, ← hs.place]; rfl, hstack, fun e he => ?_⟩
  rcases List.mem_cons.mp he with rfl | he
  · refine Heap.unfolds_list_iff.mpr ⟨rfl, _, hnew, .cons ?_ ?_⟩
    · exact hitem _ _ List.mem_cons_self (hs.trees (head, d) (by simp)) (hlive (head, d) (by simp))
    · refine List.forall₂_iff_get.mpr ⟨hitems.length_eq, fun i hi hi' => ?_⟩
      have hmem := List.get_mem items ⟨i, hi⟩
      refine hitem _ _ (List.mem_cons_of_mem _ hmem) ((List.forall₂_iff_get.mp hitems).2 i hi hi') fun h hh => ?_
      exact hr.sound.heap.live h _ ⟨items, hg, hh ▸ hmem⟩
  · have he' : e ∈ (.handle g, .list g es) :: (head, d) :: S := List.mem_cons_of_mem _ (List.mem_cons_of_mem _ he)
    refine hr.unfolds_step hr' hrunning (hs.trees e he') (hlive e he') ?_
    rw [hstack]
    exact List.mem_cons_of_mem _ (List.mem_map_of_mem he)

end Machine

/-! ### Runs -/

namespace Process

/-- **Code that delivers a value**: after a stretch of a run the machine has come to the end of the code, with a value
more on the stack. On the way anything may be called or resumed, but no operand below is freed. -/
structure Delivers (settings : Settings) (registry : Registry) (pid : Nat) (image : Image) (stop : Nat)
    (before stretch : List Moment) (v : Value) : Prop where
  running : (run settings registry pid image (before ++ stretch)).machine.state = .running
  place : (run settings registry pid image (before ++ stretch)).machine.pc = stop
  stack : (run settings registry pid image (before ++ stretch)).machine.stack =
    v :: (run settings registry pid image before).machine.stack
  held : ∀ early, early <+: stretch → ∀ h, .handle h ∈ (run settings registry pid image before).machine.stack →
    ((run settings registry pid image (before ++ early)).machine.heap.get? h).isSome = true

section

variable (settings : Settings) (registry : Registry) (pid : Nat) (image : Image)

mutual

/-- **A stretch of a run in which a template is filled.** What is no hole takes a moment to push; the code of a hole
delivers a value, whose tree is noted; and after the items of a list, an empty list is pushed and they are consed onto
it. -/
inductive Fills : Term → Piece → Nat → List Moment → List Moment → List Datum → Prop
  | push {x : Term} {operand : Operand} {start : Nat} {before : List Moment}
      (hx : ∀ h items, x ≠ .application h .unquote items) (now : Moment) : Fills x (.push operand) start before [now] []
  | hole {h : Handle} {x : Term} {q : Piece} {start : Nat} {before stretch : List Moment} {v : Value} {d : Datum}
      (hv : Delivers settings registry pid image (start + q.value.length) before stretch v)
      (hd : (run settings registry pid image (before ++ stretch)).machine.heap.Unfolds v d) :
      Fills (.application h .unquote [x]) q start before stretch [d]
  | list {h empty : Handle} {quotation : Quotation} {items : List Term} {ps : List Piece} {start : Nat}
      {before stretch last : List Moment} {ds : List Datum} (hq : quotation ≠ .unquote)
      (hitems : FillsAll items ps start before stretch ds) (hlast : last.length = ps.length + 1) :
      Fills (.application h quotation items) (.template ps empty) start before (stretch ++ last) ds

/-- A stretch in which the items of a template are filled. -/
inductive FillsAll : List Term → List Piece → Nat → List Moment → List Moment → List Datum → Prop
  | nil {start : Nat} {before : List Moment} : FillsAll [] [] start before [] []
  | cons {x : Term} {xs : List Term} {q : Piece} {ps : List Piece} {start : Nat} {before stretch stretch' : List Moment}
      {ds ds' : List Datum} (hx : Fills x q start before stretch ds)
      (hxs : FillsAll xs ps (start + q.value.length) (before ++ stretch) stretch' ds') :
      FillsAll (x :: xs) (q :: ps) start before (stretch ++ stretch') (ds ++ ds')

end

/-- The limit of steps is not met in a stretch of a run. -/
def Unlimited (before stretch : List Moment) : Prop :=
  ∀ early now, early ++ [now] <+: stretch →
    ¬settings.maxSteps.any (· ≤ (run settings registry pid image (before ++ early)).machine.steps)

end

variable {settings : Settings} {pid : Nat}

theorem Unlimited.append {before stretch stretch' : List Moment}
    (h : Unlimited settings registry pid image before (stretch ++ stretch')) :
    Unlimited settings registry pid image before stretch ∧
      Unlimited settings registry pid image (before ++ stretch) stretch' := by
  refine ⟨fun early now hinit => h early now (hinit.trans (List.prefix_append _ _)), fun early now hinit => ?_⟩
  rw [List.append_assoc]
  refine h (stretch ++ early) now ?_
  rw [List.append_assoc]
  exact (List.prefix_append_right_inj stretch).mpr hinit

theorem Unlimited.cons {before stretch : List Moment} {now : Moment}
    (h : Unlimited settings registry pid image before (now :: stretch)) :
    Unlimited settings registry pid image before [now] ∧
      Unlimited settings registry pid image (before ++ [now]) stretch :=
  Unlimited.append h

section

variable (hp : p.Compiled t roots blocks) (himage : Image.ofProgram p = .ok image) (hmodest : registry.Modest)
include hp himage hmodest

/-- A machine that has come to an instruction is about to carry it out. -/
theorem isAbout_of_code {moments : List Moment} {place : Nat}
    (hrunning : (run settings registry pid image moments).machine.state = .running)
    (hplace : (run settings registry pid image moments).machine.pc = place) {i : Instruction}
    (hi : p.code.toList[place]? = some i) {now : Moment} (hlimit : Unlimited settings registry pid image moments [now]) :
    (run settings registry pid image moments).machine.IsAbout (hostAt settings registry now).settings i := by
  obtain ⟨⟨A, hr⟩, -⟩ := run_ready hp hp.layout False himage hmodest (fun _ => none) False.elim settings pid moments
    False.elim
  refine ⟨hrunning, ?_, ?_⟩
  · have hbelow := hlimit [] now List.prefix_rfl
    rwa [List.append_nil] at hbelow
  · rw [hr.sound.program, hplace, ← Array.getElem?_toList, hi]

/-- An operand is pushed. -/
theorem run_shows_push {before : List Moment} {place : Nat} {S : List (Value × Datum)} {d : Datum} {operand : Operand}
    (hs : (run settings registry pid image before).machine.Shows place S)
    (hi : p.code.toList[place]? = some (.op .push (some operand))) {now : Moment}
    (hlimit : Unlimited settings registry pid image before [now]) {v : Value}
    (hv : Value.ofOperand? operand = some v)
    (hd : (run settings registry pid image before).machine.heap.Unfolds v d) (hne : ∀ h, d ≠ .missing h) :
    (run settings registry pid image (before ++ [now])).machine.Shows (place + 1) ((v, d) :: S) := by
  have hready := fun moments => (run_ready hp hp.layout False himage hmodest (fun _ => none) False.elim settings pid
    moments False.elim).1
  obtain ⟨A, hr⟩ := hready before
  obtain ⟨A', hr'⟩ := hready (before ++ [now])
  rw [run_append, next_machine hs.running] at hr' ⊢
  refine hr.shows_push hr' hs (isAbout_of_code hp himage hmodest hs.running hs.place hi hlimit) hv hd fun h hh => ?_
  subst hh
  exact hd.isSome_iff.mpr (hne h)

/-- **As many values as there are instructions are put into a list**; the last one that was pushed comes first. -/
theorem run_shows_conses (S F : List (Value × Datum)) {list : Value} {g : Handle} {es : List Datum}
    {before stretch : List Moment} {place : Nat}
    (hs : (run settings registry pid image before).machine.Shows place ((list, .list g es) :: (F ++ S)))
    (hcode : List.replicate F.length (plain .cons) <+: p.code.toList.drop place)
    (hlength : stretch.length = F.length) (hlimit : Unlimited settings registry pid image before stretch) :
    ∃ w h, (run settings registry pid image (before ++ stretch)).machine.Shows (place + F.length)
      ((w, .list h ((F.map Prod.snd).reverse ++ es)) :: S) := by
  induction F generalizing list g es before stretch place with
  | nil =>
    obtain rfl := List.eq_nil_of_length_eq_zero hlength
    exact ⟨list, g, by rwa [List.append_nil]⟩
  | cons f F ih =>
    obtain _ | ⟨now, stretch⟩ := stretch
    · cases hlength
    have hready := fun moments => (run_ready hp hp.layout False himage hmodest (fun _ => none) False.elim settings pid
      moments False.elim).1
    obtain ⟨hnow, hlater⟩ := hlimit.cons
    obtain ⟨hfirst, hrest⟩ := prefix_drop_cons hcode
    obtain ⟨A, hr⟩ := hready before
    obtain ⟨A', hr'⟩ := hready (before ++ [now])
    rw [run_append, next_machine hs.running] at hr'
    -- one `cons` puts the last value in front of the list
    obtain ⟨h, hs'⟩ := hr.shows_cons hr' hs
      (isAbout_of_code hp himage hmodest hs.running hs.place hfirst hnow)
    rw [← next_machine hs.running, ← run_append] at hs'
    obtain ⟨w, j, hj⟩ := ih hs' hrest (Nat.succ.inj hlength) hlater
    refine ⟨w, j, ?_⟩
    rw [List.append_assoc, List.singleton_append] at hj
    rw [List.map_cons, List.reverse_cons, List.append_assoc, List.length_cons, Nat.add_comm F.length 1, ← Nat.add_assoc]
    exact hj

/-- **Operands that stay on the stack** are not freed. -/
theorem delivers_of_suffix {stop : Nat} {before stretch : List Moment} {v : Value}
    (hrunning : (run settings registry pid image (before ++ stretch)).machine.state = .running)
    (hplace : (run settings registry pid image (before ++ stretch)).machine.pc = stop)
    (hstack : (run settings registry pid image (before ++ stretch)).machine.stack =
      v :: (run settings registry pid image before).machine.stack)
    (hbelow : ∀ early, early <+: stretch →
      ((run settings registry pid image (before ++ early)).machine.state = .running ∨
        (run settings registry pid image (before ++ early)).machine.state = .sleeping) ∧
      (run settings registry pid image before).machine.stack <:+
        (run settings registry pid image (before ++ early)).machine.stack) :
    Delivers settings registry pid image stop before stretch v := by
  refine ⟨hrunning, hplace, hstack, fun early hearly h hh => ?_⟩
  -- what is on the stack counts as in use at every moment on the way
  obtain ⟨⟨A, hr⟩, -⟩ := run_ready hp hp.layout False himage hmodest (fun _ => none) False.elim settings pid
    (before ++ early) False.elim
  obtain ⟨hgoes, hsuffix⟩ := hbelow early hearly
  exact hr.live_of_stack hgoes (hsuffix.subset hh)

/-- What is below the code of a hole stays what it is. -/
theorem run_shows_delivers {before stretch : List Moment} {place stop : Nat} {S : List (Value × Datum)} {v : Value}
    {d : Datum} (hs : (run settings registry pid image before).machine.Shows place S)
    (hv : Delivers settings registry pid image stop before stretch v)
    (hd : (run settings registry pid image (before ++ stretch)).machine.heap.Unfolds v d) :
    (run settings registry pid image (before ++ stretch)).machine.Shows stop ((v, d) :: S) := by
  refine ⟨hv.running, hv.place, by rw [hv.stack, hs.stack]; rfl, fun e he => ?_⟩
  -- the value that is new has its tree now, the others have had theirs since before
  rcases List.mem_cons.mp he with rfl | he
  · exact hd
  · refine run_unfolds hp himage hmodest (hs.trees e he) fun early hearly h hh => ?_
    exact hv.held early hearly h (hh ▸ hs.mem_stack he)

end

mutual

/-- **A template that has been filled** is a value with a tree that fits it, on top of what was there. -/
theorem Fills.shows (hp : p.Compiled t roots blocks) (himage : Image.ofProgram p = .ok image)
    (hmodest : registry.Modest) : {x : Term} → {q : Piece} → {start : Nat} → {before stretch : List Moment} →
    {ds : List Datum} → Fills settings registry pid image x q start before stretch ds → {parent : Option Handle} →
    x.Placed t parent → x.IsTemplate → LowersItem t p.constants M x q → q.value <+: p.code.toList.drop start →
    Unlimited settings registry pid image before stretch → {S : List (Value × Datum)} →
    (run settings registry pid image before).machine.Shows start S →
    ∃ v d, Fits x ds d ∧
      (run settings registry pid image (before ++ stretch)).machine.Shows (start + q.value.length) ((v, d) :: S)
  | _, _, _, before, _, _, .push hx now, parent, hplaced, htemplate, hlowers, hcode, hlimit, S, hs => by
    -- a push: of an atom, a string, or a list of data that is a constant as a whole
    have hi := (prefix_drop_cons hcode).1
    have hconstants := run_constants hp himage hmodest settings pid before
    cases hlowers with
    | atom ha =>
      obtain ⟨v, hv, hnone, hfits⟩ := fits_atom ha
      exact ⟨v, _, hfits, run_shows_push hp himage hmodest hs hi hlimit hv (.atom hnone) nofun⟩
    | string hk =>
      exact ⟨_, _, .string _ _, run_shows_push hp himage hmodest hs hi hlimit rfl (.string (hconstants _ _ hk)) nofun⟩
    | hole => exact absurd rfl (hx _ _)
    | constant hq hk =>
      obtain ⟨d, hd, hfits⟩ := Heap.fits_constant hp hconstants hq hk hplaced htemplate
      refine ⟨_, d, hfits, run_shows_push hp himage hmodest hs hi hlimit rfl hd fun h hh => ?_⟩
      subst hh
      cases hfits
  | _, _, _, _, _, _, .hole hv hd, _, _, _, _, _, _, _, hs =>
    ⟨_, _, .hole _ _ _, run_shows_delivers hp himage hmodest hs hv hd⟩
  | _, _, start, before, _, _, @Fills.list _ _ _ _ _ empty _ _ ps _ _ stretch last _ hq hitems hlast, parent, hplaced,
      htemplate, hlowers, hcode, hlimit, S, hs => by
    obtain ⟨hlimit, hlimit'⟩ := hlimit.append
    cases hlowers with
    | hole => exact absurd rfl hq
    | list _ hlowers hk =>
      obtain ⟨hcode, hcode'⟩ := prefix_drop_append hcode
      obtain ⟨F, hfits, hs'⟩ := FillsAll.shows hp himage hmodest hitems hplaced.2 (htemplate _ _ _ rfl hq) hlowers hcode
        hlimit hs
      obtain _ | ⟨now, last⟩ := last
      · cases hlast
      -- the empty list first, then one instruction for each item
      obtain ⟨hfirst, hconses⟩ := prefix_drop_cons hcode'
      obtain ⟨hnow, hlater⟩ := hlimit'.cons
      have ho := run_constants hp himage hmodest settings pid (before ++ stretch) _ _ hk
      have hpushed := run_shows_push hp himage hmodest hs' hfirst hnow rfl
        (Heap.unfolds_list_iff.mpr ⟨rfl, [], ho, .nil⟩) nofun
      have hlength : F.reverse.length = ps.length := by
        rw [List.length_reverse, ← hlowers.length_eq, ← hfits.length_eq, List.length_map]
      obtain ⟨w, h, hh⟩ := run_shows_conses hp himage hmodest S F.reverse hpushed (by rw [hlength]; exact hconses)
        (by rw [hlength]; exact Nat.succ.inj hlast) hlater
      refine ⟨w, .list h (F.map Prod.snd), .list hq hfits, ?_⟩
      rw [List.map_reverse, List.reverse_reverse, List.append_nil, List.append_assoc, List.append_assoc,
        List.singleton_append, hlength] at hh
      have hend : start + (Piece.template ps empty).value.length =
          start + (Piece.eachValue [] ps).length + 1 + ps.length := by
        simp only [Piece.value, Piece.yields, Piece.valued, if_true, Piece.code, List.length_append, List.length_cons,
          List.length_replicate]
        omega
      rw [hend]
      exact hh

/-- Items of a template that have been filled. -/
theorem FillsAll.shows (hp : p.Compiled t roots blocks) (himage : Image.ofProgram p = .ok image)
    (hmodest : registry.Modest) : {xs : List Term} → {ps : List Piece} → {start : Nat} →
    {before stretch : List Moment} → {ds : List Datum} →
    FillsAll settings registry pid image xs ps start before stretch ds → {parent : Option Handle} →
    PlacedAll t parent xs → LegalAll .data xs → LowersItems t p.constants M xs ps →
    Piece.eachValue [] ps <+: p.code.toList.drop start → Unlimited settings registry pid image before stretch →
    {S : List (Value × Datum)} → (run settings registry pid image before).machine.Shows start S →
    ∃ F : List (Value × Datum), FitsAll xs ds (F.map Prod.snd) ∧
      (run settings registry pid image (before ++ stretch)).machine.Shows (start + (Piece.eachValue [] ps).length)
        (F.reverse ++ S)
  | _, _, _, _, _, _, .nil, _, _, _, _, _, _, _, hs => ⟨[], .nil, by rwa [List.append_nil]⟩
  | _, _, _, _, _, _, .cons hx hxs, _, hplaced, hlegal, .cons hlowers hlowers', hcode, hlimit, S, hs => by
    obtain ⟨hlimit, hlimit'⟩ := hlimit.append
    rw [Piece.eachValue, List.append_nil] at hcode
    obtain ⟨hcode, hcode'⟩ := prefix_drop_append hcode
    obtain ⟨v, d, hfits, hs'⟩ := hx.shows hp himage hmodest hplaced.1 hlegal.1.isTemplate hlowers hcode hlimit hs
    obtain ⟨F, hfits', hs''⟩ := FillsAll.shows hp himage hmodest hxs hplaced.2 hlegal.2 hlowers' hcode' hlimit' hs'
    refine ⟨(v, d) :: F, .cons hfits hfits', ?_⟩
    rw [Piece.eachValue, List.append_nil, List.length_append, ← Nat.add_assoc, ← List.append_assoc, List.reverse_cons,
      List.append_assoc F.reverse, List.singleton_append]
    exact hs''

end

/-- A machine that runs shows all its operands. -/
theorem exists_shows (hp : p.Compiled t roots blocks) (himage : Image.ofProgram p = .ok image)
    (hmodest : registry.Modest) {moments : List Moment}
    (hrunning : (run settings registry pid image moments).machine.state = .running) :
    ∃ S, (run settings registry pid image moments).machine.Shows
      (run settings registry pid image moments).machine.pc S := by
  obtain ⟨hwf, -⟩ := run_founded hp himage hmodest settings pid moments
  -- no list holds itself, so that every value has a tree
  choose unfold hunfold using Heap.exists_unfolds hwf
  refine ⟨(run settings registry pid image moments).machine.stack.map fun v => (v, unfold v), hrunning, rfl, ?_, ?_⟩
  · rw [List.map_map]
    exact (List.map_id _).symm
  · intro e he
    obtain ⟨v, -, rfl⟩ := List.mem_map.mp he
    exact hunfold v

/-- **A template is built with its holes filled.** Take a source that compiles and a template in it, whose code starts at
some place. Whenever a run comes there and each hole delivers a value, from left to right, a list is left on top of what
was on the stack. Its tree fits the template with the trees of these values, and the operands below are what they were.
The code of a template without holes pushes a constant that fits it; nothing is allocated. -/
theorem run_template {source : String} (hp : Program.compile source = .ok p) (hmodest : registry.Modest) :
    ∃ t image, (Tree.parse source >>= Tree.analyse) = .ok t ∧ Image.ofProgram p = .ok image ∧
      ∀ (M h : Handle) (parent : Option Handle) (items : List Term) (tail : Bool) (q : Piece) (start : Nat),
        (Term.application h .quasiquote items).Placed t parent →
        Lowers t p.constants M tail (.application h .quasiquote items) q → q.code <+: p.code.toList.drop start →
        (∀ (settings : Settings) (pid : Nat) (before stretch : List Moment) (ds : List Datum),
          (run settings registry pid image before).machine.state = .running →
          (run settings registry pid image before).machine.pc = start →
          Fills settings registry pid image (.application h .quasiquote items) q start before stretch ds →
          Unlimited settings registry pid image before stretch →
          ∃ g d, (run settings registry pid image (before ++ stretch)).machine.state = .running ∧
            (run settings registry pid image (before ++ stretch)).machine.pc = start + q.code.length ∧
            (run settings registry pid image (before ++ stretch)).machine.stack =
              .handle g :: (run settings registry pid image before).machine.stack ∧
            (run settings registry pid image (before ++ stretch)).machine.heap.Unfolds (.handle g) d ∧
            Fits (.application h .quasiquote items) ds d ∧
            ∀ v ∈ (run settings registry pid image before).machine.stack, ∀ e,
              (run settings registry pid image before).machine.heap.Unfolds v e →
              (run settings registry pid image (before ++ stretch)).machine.heap.Unfolds v e) ∧
        (anyHole items = false → (∃ fuel s s', (Lowering.node t fuel h).run s = .ok (q, s')) →
          q = .push (.handle h) ∧ p.constants.contains h = true ∧
          ∀ (settings : Settings) (pid : Nat) (before : List Moment) (now : Moment),
            (run settings registry pid image before).machine.IsAbout settings (.op .push (some (.handle h))) →
            (run settings registry pid image (before ++ [now])).machine =
              ({ (run settings registry pid image before).machine with
                steps := (run settings registry pid image before).machine.steps + 1
                stack := .handle h :: (run settings registry pid image before).machine.stack
                pc := (run settings registry pid image before).machine.pc + 1 } : Machine).collectIfDue settings ∧
            ∃ d, (run settings registry pid image (before ++ [now])).machine.heap.Unfolds (.handle h) d ∧
              Fits (.application h .quasiquote items) [] d) := by
  obtain ⟨t, roots, blocks, ht, hcompiled⟩ := Program.compiled_compile hp
  obtain ⟨image, himage, -⟩ := (Program.Produced.compiled hp).exists_image
  refine ⟨t, image, ht, himage, ?_⟩
  intro M h parent items tail q start hplaced hlowers hcode
  -- the node is legal where it stands, as a part of one of the terms of the tree
  have htemplate : (Term.application h .quasiquote items).IsTemplate := by
    obtain ⟨x, hx, y, hy, hc⟩ := hcompiled.analysed.holds.exists_sub (Tree.lt_size_of_get? hplaced.1)
    obtain ⟨_, hy'⟩ := hy.placed (placedAll_iff.mp hcompiled.analysed.holds.placed x hx)
    obtain ⟨layer, hlegal⟩ := hy.legal (legalAll_iff.mp hcompiled.analysed.holds.legal x hx)
    obtain rfl := hy'.unique hplaced hc
    rintro _ _ _ ⟨⟩ -
    exact hlegal.2.2
  have hitem : LowersItem t p.constants M (.application h .quasiquote items) q := by
    cases hlowers with
    | template hitem => exact hitem
  have hvalue : q.value = q.code := by
    cases hitem with
    | constant => rfl
    | list => rfl
  refine ⟨?_, ?_⟩
  · intro settings pid before stretch ds hrunning hplace hfills hlimit
    obtain ⟨S, hS⟩ := exists_shows hcompiled himage hmodest hrunning
    rw [hplace] at hS
    obtain ⟨v, d, hfits, hend⟩ := hfills.shows hcompiled himage hmodest hplaced htemplate hitem (hvalue ▸ hcode) hlimit hS
    have hd := hend.trees (v, d) List.mem_cons_self
    -- only a list fits a list
    obtain ⟨g, rfl⟩ : ∃ g, v = .handle g := by
      cases hfits with
      | list => exact ⟨_, (Heap.unfolds_list_iff.mp hd).1⟩
    refine ⟨g, d, hend.running, by rw [hend.place, hvalue], ?_, hd, hfits, fun w hw e he => ?_⟩
    · rw [hend.stack, hS.stack]
      rfl
    · rw [hS.stack] at hw
      obtain ⟨⟨_, e'⟩, hmem, rfl⟩ := List.mem_map.mp hw
      rw [he.unique (hS.trees _ hmem)]
      exact hend.trees _ (List.mem_cons_of_mem _ hmem)
  · rintro hnone ⟨fuel, s, s', hrun⟩
    -- lowering makes a constant of a template without holes
    obtain rfl := Lowering.node_template hplaced hnone hrun
    have hkept : (Term.application h .quasiquote items).Kept p.constants := by
      cases hitem with
      | constant _ hk => exact hk
    refine ⟨rfl, contains_of_kept hkept rfl, fun settings pid before now ha => ⟨?_, ?_⟩⟩
    · have ha' : (run settings registry pid image before).machine.IsAbout (hostAt settings registry now).settings _ := ha
      rw [run_append, next_machine ha.running]
      exact ha'.step_push rfl
    · exact Heap.fits_constant hcompiled (run_constants hcompiled himage hmodest settings pid (before ++ [now]))
        (by decide) hkept hplaced htemplate

/-- A hole that delivers a value in moments that are all the same. -/
theorem delivers_replicate (hp : p.Compiled t roots blocks) (himage : Image.ofProgram p = .ok image)
    (hmodest : registry.Modest) {now : Moment} {k n stop : Nat} {v : Value}
    (hplace : (run settings registry pid image (List.replicate (k + n) now)).machine.pc = stop)
    (hstack : (run settings registry pid image (List.replicate (k + n) now)).machine.stack =
      v :: (run settings registry pid image (List.replicate k now)).machine.stack)
    (hbelow : ∀ i < n + 1, (run settings registry pid image (List.replicate (k + i) now)).machine.state = .running ∧
      (run settings registry pid image (List.replicate k now)).machine.stack <:+
        (run settings registry pid image (List.replicate (k + i) now)).machine.stack) :
    Delivers settings registry pid image stop (List.replicate k now) (List.replicate n now) v := by
  rw [← List.replicate_append_replicate] at hplace hstack
  refine delivers_of_suffix hp himage hmodest ?_ hplace hstack fun early hearly => ?_
  · rw [List.replicate_append_replicate]
    exact (hbelow n (Nat.lt_succ_self n)).1
  · obtain ⟨hlength, hsame⟩ := List.prefix_replicate_iff.mp hearly
    rw [hsame, List.replicate_append_replicate]
    obtain ⟨hrunning, hsuffix⟩ := hbelow early.length (Nat.lt_succ_of_le hlength)
    exact ⟨.inl hrunning, hsuffix⟩

/-- A template with a call, a list and a string in it. -/
def callTemplate : Term :=
  .application 7 .quasiquote [.atom (.symbol "a"),
    .application 8 .unquote [.application 9 .code [.atom (.variable "&0.f"), .atom (.symbol "b")]],
    .application 10 .quote [.string 11 "s", .application 12 .unquote [.atom (.symbol "c")]]]

/-- What fits it. -/
theorem fits_callTemplate {x y d : Datum} (h : Fits callTemplate [x, y] d) :
    ∃ g j, d = .list g [.atom (.symbol "a"), x, .list j [.string 11 "s", y]] := by
  generalize hds : [x, y] = ds at h
  cases h with
  | list _ hitems =>
    obtain _ | ⟨⟨⟩, hitems⟩ := hitems
    obtain _ | ⟨hcall, hitems⟩ := hitems
    obtain _ | ⟨hlist, ⟨⟩⟩ := hitems
    cases hcall with
    | list hq => exact absurd rfl hq
    | hole =>
      cases hlist with
      | list _ hinner =>
        obtain _ | ⟨⟨⟩, hinner⟩ := hinner
        obtain _ | ⟨hsymbol, ⟨⟩⟩ := hinner
        cases hsymbol with
        | list hq => exact absurd rfl hq
        | hole =>
          cases hds
          exact ⟨_, _, rfl⟩

/-- Its code. -/
def callTemplatePiece : Piece :=
  .template [.push (.atom (.symbol "a")), .call false (.atom (.variable "&0.f")) [.push (.atom (.symbol "b"))],
    .template [.push (.handle 11), .push (.atom (.symbol "c"))] 13] 14

/-- The template is filled with what a procedure has made, in a run that collects whenever it can. -/
theorem run_template_call :
    ∃ p image before after g h k,
      Program.compile "(define (f y) (cons y '())) (display (cons 'z `(a ,(f 'b) (\"s\" ,'c))))" = .ok p ∧
      Image.ofProgram p = .ok image ∧
      (run { gcThreshold := some 0 } Registry.builtins 0 image before).machine.stack = [.symbol "z"] ∧
      (run { gcThreshold := some 0 } Registry.builtins 0 image after).machine.stack = [.handle g, .symbol "z"] ∧
      (run { gcThreshold := some 0 } Registry.builtins 0 image after).machine.heap.Unfolds (.handle g)
        (.list g [.atom (.symbol "a"), .list h [.atom (.symbol "b")],
          .list k [.string 11 "s", .atom (.symbol "c")]]) := by
  let now : Moment := ⟨{}, .ok .nothing⟩
  have hrun : (do
      let p ← (Program.compile "(define (f y) (cons y '())) (display (cons 'z `(a ,(f 'b) (\"s\" ,'c))))").toOption
      let t ← (Tree.parse "(define (f y) (cons y '())) (display (cons 'z `(a ,(f 'b) (\"s\" ,'c))))" >>=
        Tree.analyse).toOption
      let image ← (Image.ofProgram p).toOption
      let at' := fun k => (run { gcThreshold := some 0 } Registry.builtins 0 image (List.replicate k now)).machine
      return decide (
        (t.get? 7 = some (.application (some 6) .quasiquote [.atom (.symbol "a"), .node 8, .node 10]) ∧
          t.get? 8 = some (.application (some 7) .unquote [.node 9]) ∧
          t.get? 9 = some (.application (some 8) .code [.atom (.variable "&0.f"), .atom (.symbol "b")]) ∧
          t.get? 10 = some (.application (some 7) .quote [.node 11, .node 12]) ∧
          t.get? 11 = some (.string (some 10) "s") ∧
          t.get? 12 = some (.application (some 10) .unquote [.atom (.symbol "c")])) ∧
        t.tailCalls.contains 9 = false ∧
        (p.constants.find? 11 = some (.string "s") ∧ p.constants.find? 13 = some (.list []) ∧
          p.constants.find? 14 = some (.list [])) ∧
        callTemplatePiece.code <+: p.code.toList.drop 7 ∧
        ((at' 5).state = .running ∧ (at' 5).pc = 7 ∧ (at' 5).stack = [.symbol "z"]) ∧
        ((at' 14).pc = 10 ∧ (at' 14).stack = .handle 17 :: (at' 6).stack ∧
          (at' 14).heap.get? 17 = some (.list [.symbol "b"]) ∧
          ∀ i ∈ List.range 9, (at' (6 + i)).state = .running ∧ (at' 6).stack <:+ (at' (6 + i)).stack) ∧
        ((at' 16).pc = 12 ∧ (at' 16).stack = .symbol "c" :: (at' 15).stack ∧
          ∀ i ∈ List.range 2, (at' (15 + i)).state = .running ∧ (at' 15).stack <:+ (at' (15 + i)).stack))) =
        some true := by
    decide +kernel
  cases hp : Program.compile "(define (f y) (cons y '())) (display (cons 'z `(a ,(f 'b) (\"s\" ,'c))))" with
  | error e =>
    rw [hp] at hrun
    cases hrun
  | ok p =>
    obtain ⟨t, image, ht, himage, htemplate⟩ := run_template hp Registry.modest_builtins
    rw [hp, ht] at hrun
    simp only [Except.toOption, Option.bind_eq_bind, Option.bind_some, himage, Option.pure_def, Option.some.injEq,
      decide_eq_true_eq, List.mem_range] at hrun
    obtain ⟨⟨h7, h8, h9, h10, h11, h12⟩, hmark, ⟨hs, hinner, houter⟩, hcode, ⟨hrunning, hplace, hstack⟩,
      ⟨hplace₁, hstack₁, hmade, hbelow₁⟩, hplace₂, hstack₂, hbelow₂⟩ := hrun
    obtain ⟨_, _, _, -, hcompiled⟩ := Program.compiled_compile hp
    have hplaced : callTemplate.Placed t (some 6) :=
      ⟨h7, trivial, ⟨h8, ⟨h9, trivial, trivial, trivial⟩, trivial⟩, ⟨h10, h11, ⟨h12, trivial, trivial⟩, trivial⟩, trivial⟩
    have hlowers : Lowers t p.constants 0 false callTemplate callTemplatePiece :=
      .template (.list (by decide) (.cons (.atom rfl) (.cons (.hole (lowers_symbolCall p.constants 0 hmark "&0.f" "b"))
        (.cons (.list (by decide) (.cons (.string hs) (.cons (.hole (.literal rfl)) .nil)) hinner) .nil))) houter)
    have hfirst := delivers_replicate hcompiled himage Registry.modest_builtins (k := 6) (n := 8) hplace₁ hstack₁ hbelow₁
    have hsecond := delivers_replicate hcompiled himage Registry.modest_builtins (k := 15) (n := 1) hplace₂ hstack₂ hbelow₂
    -- the holes from left to right, the inner list between
    have hstring : Fills { gcThreshold := some 0 } Registry.builtins 0 image (.string 11 "s") (.push (.handle 11)) 10
        (List.replicate 14 now) [now] [] := .push (by simp) now
    have hsymbol : Fills { gcThreshold := some 0 } Registry.builtins 0 image
        (.application 12 .unquote [.atom (.symbol "c")]) (.push (.atom (.symbol "c"))) 11 (List.replicate 15 now)
        (List.replicate 1 now) [.atom (.symbol "c")] := .hole hsecond (.atom rfl)
    have hlist : Fills { gcThreshold := some 0 } Registry.builtins 0 image
        (.application 10 .quote [.string 11 "s", .application 12 .unquote [.atom (.symbol "c")]])
        (.template [.push (.handle 11), .push (.atom (.symbol "c"))] 13) 10 (List.replicate 14 now)
        (List.replicate 2 now ++ List.replicate 3 now) [.atom (.symbol "c")] :=
      .list (by decide) (.cons hstring (.cons hsymbol .nil)) rfl
    have hcall : Fills { gcThreshold := some 0 } Registry.builtins 0 image
        (.application 8 .unquote [.application 9 .code [.atom (.variable "&0.f"), .atom (.symbol "b")]])
        (.call false (.atom (.variable "&0.f")) [.push (.atom (.symbol "b"))]) 8 (List.replicate 6 now)
        (List.replicate 8 now) [.list 17 [.atom (.symbol "b")]] :=
      .hole hfirst (Heap.unfolds_list_iff.mpr ⟨rfl, _, hmade, .cons (.atom rfl) .nil⟩)
    have hatom : Fills { gcThreshold := some 0 } Registry.builtins 0 image (.atom (.symbol "a"))
        (.push (.atom (.symbol "a"))) 7 (List.replicate 5 now) [now] [] := .push (by simp) now
    have hfills : Fills { gcThreshold := some 0 } Registry.builtins 0 image callTemplate callTemplatePiece 7
        (List.replicate 5 now) (List.replicate 14 now ++ List.replicate 4 now)
        [.list 17 [.atom (.symbol "b")], .atom (.symbol "c")] :=
      .list (by decide) (.cons hatom (.cons hcall (.cons hlist .nil))) rfl
    obtain ⟨g, d, -, -, hstack', hd, hfits, -⟩ := (htemplate 0 7 (some 6) _ false callTemplatePiece 7 hplaced hlowers
      hcode).1 { gcThreshold := some 0 } 0 (List.replicate 5 now) _ _ hrunning hplace hfills fun _ _ _ => by simp
    obtain ⟨g', k, rfl⟩ := fits_callTemplate hfits
    rw [hstack] at hstack'
    cases (Heap.unfolds_list_iff.mp hd).1
    exact ⟨p, image, List.replicate 5 now, _, _, _, k, rfl, himage, hstack, hstack', hd⟩

end Process

end SchemeMachine
