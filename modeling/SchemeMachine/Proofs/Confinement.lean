import SchemeMachine.Proofs.Continuation
import SchemeMachine.Proofs.Layout.Compiled
import SchemeMachine.Proofs.Steady

/-!
# The place stays within the program

A machine that runs compiled code never comes to a place where there is no instruction, whatever natives answer. A place is
come to from the line before it, at a label, in a closure or in a frame. Lines that are gone on from have a line after them,
labels stand in the code, and what is kept in closures, frames and continuations has been such a place before.

* `Machine.Confined` is the invariant: every place that a machine keeps is a place in the code.
* `Machine.Confined.dispatch` is the step, one case for each kind of line.
* `Process.run_confined` is the result for a run.
-/

namespace SchemeMachine

open Lowering

/-- The places that an object keeps are among the first `n`. -/
def Object.Within (n : Nat) : Object → Prop
  | .closure c => c.address < n
  | .continuation k => ∀ f ∈ k.frames, f.returnAddress < n
  | _ => True

/-- A closure keeps its place when it is bound anew. -/
theorem Object.Grows.within {n : Nat} {o o' : Object} (h : o.Grows o') (ho : o.Within n) : o'.Within n := by
  cases h with
  | same => exact ho
  | @closure c c' hlabel haddress hparent =>
    show c'.address < n
    rw [haddress]
    exact ho

namespace Machine

/-- **Every place that a machine keeps is in the code**: where it is, where calls return to, and the places of closures and
continuations. -/
structure Confined (image : Image) (m : Machine) : Prop where
  runs : m.image = image
  tidy : m.heap.Tidy
  objects : ∀ h o, m.heap.get? h = some o → o.Within image.program.code.size
  frames : ∀ f ∈ m.frames, f.returnAddress < image.program.code.size
  place : m.pc < image.program.code.size

/-- A confined machine at a given place. -/
def ConfinedAt (image : Image) (pc : Nat) (m : Machine) : Prop := m.Confined image ∧ m.pc = pc

variable {image : Image} {m : Machine} {pc : Nat} {tail : Bool}

namespace Confined

/-- Registers that keep no place do not matter. -/
theorem congr {m' : Machine} (h : m.Confined image) (himage : m'.image = m.image) (hheap : m'.heap = m.heap)
    (hframes : m'.frames = m.frames) (hpc : m'.pc = m.pc) : m'.Confined image where
  runs := himage.trans h.runs
  tidy := hheap ▸ h.tidy
  objects := hheap ▸ h.objects
  frames := hframes ▸ h.frames
  place := hpc ▸ h.place

theorem here (h : m.Confined image) : m.ConfinedAt image m.pc := ⟨h, rfl⟩

theorem placing (h : m.Confined image) {o : Object} (ho : o.Within image.program.code.size) :
    (m.placing o).Confined image := by
  refine ⟨h.runs, h.tidy.allocate o _, ?_, h.frames, h.place⟩
  intro j o' ho'
  rw [Machine.placing, Heap.get?_allocate h.tidy] at ho'
  split at ho'
  · cases ho'
    exact ho
  · exact h.objects j o' ho'

end Confined

/-! ### Moves that stay where they are -/

/-- A label is a place in the code. -/
theorem lt_size_of_find? (hlabels : LabelTable.ofCode image.program.code = .ok image.labels) {name : String} {place : Nat}
    (h : image.labels.find? name = some place) : place < image.program.code.size :=
  (Array.getElem?_eq_some_iff.mp ((LabelTable.find?_ofCode hlabels).mp h)).1

theorem ConfinedAt.steady (hlabels : LabelTable.ofCode image.program.code = .ok image.labels) (pc : Nat) :
    Steady image (ConfinedAt image pc) where
  runs h := h.1.runs
  stack h _ := ⟨h.1.congr rfl rfl rfl rfl, h.2⟩
  forked h _ := ⟨h.1.congr rfl rfl rfl rfl, h.2⟩
  string h _ := ⟨h.1.placing trivial, h.2⟩
  list h _ := ⟨h.1.placing trivial, h.2⟩
  closure h _ _ hlabel _ _ := ⟨h.1.placing (lt_size_of_find? hlabels hlabel), h.2⟩

/-- A closure that is bound anew keeps its place. -/
theorem ConfinedAt.binding {m : Machine} {j : Handle} {c c' : Closure} (h : m.ConfinedAt image pc)
    (hc : m.heap.closure? j = some c) (halters : c.Alters c') :
    ({ m with heap := m.heap.put j (.closure c') } : Machine).ConfinedAt image pc := by
  obtain ⟨h, hpc⟩ := h
  refine ⟨⟨h.runs, h.tidy.put j _, ?_, h.frames, h.place⟩, hpc⟩
  intro k o ho
  -- an overwritten object has been there before
  have hsome : ∃ o₀, m.heap.get? k = some o₀ := by
    obtain ⟨s, hs, -⟩ := Heap.get?_eq_some.mp ho
    rw [Heap.slot?_put] at hs
    split at hs
    · next hkj =>
      obtain ⟨s₀, hs₀, -⟩ := Option.map_eq_some_iff.mp hs
      exact ⟨s₀.object, Heap.get?_eq_some.mpr ⟨s₀, hkj ▸ hs₀, rfl⟩⟩
    · exact ⟨s.object, Heap.get?_eq_some.mpr ⟨s, hs, rfl⟩⟩
  obtain ⟨o₀, ho₀⟩ := hsome
  obtain ⟨o', ho', hgrows⟩ := (Heap.Retains.put h.tidy hc halters).objects k o₀ ho₀
  cases ho.symm.trans ho'
  exact hgrows.within (h.objects k o₀ ho₀)

/-- A move that stays where it is, and then another. -/
theorem ConfinedAt.bind {α β : Type} {x : Move α} {f : α → Move β} (hm : m.ConfinedAt image pc)
    (hx : Preserves (ConfinedAt image pc) x) (hf : ∀ a m', m'.ConfinedAt image pc → Brings (f a) m' (Confined image)) :
    Brings (x >>= f) m (Confined image) :=
  (hx m hm).bind (fun _ h => h.1) hf

/-! ### Moves that go elsewhere -/

theorem confined_advance (hm : m.Confined image) (hnext : m.pc + 1 < image.program.code.size) :
    Brings advance m (Confined image) :=
  ⟨hm.runs, hm.tidy, hm.objects, hm.frames, hnext⟩

theorem confined_jump (hlabels : LabelTable.ofCode image.program.code = .ok image.labels) (hm : m.Confined image)
    (label : String) : Brings (jump label) m (Confined image) := by
  refine .get_bind ?_
  split
  · next place hplace =>
    rw [hm.runs] at hplace
    exact ⟨hm.runs, hm.tidy, hm.objects, hm.frames, lt_size_of_find? hlabels hplace⟩
  · exact hm

theorem confined_doReturn (hm : m.Confined image) : Brings doReturn m (Confined image) := by
  show Confined image (doReturn.run m).2
  unfold doReturn
  rw [run_modify]
  split
  · next f fs hfs =>
    have hframes := hm.frames
    rw [hfs] at hframes
    exact ⟨hm.runs, hm.tidy, hm.objects, fun g hg => hframes g (List.mem_cons_of_mem f hg), hframes f List.mem_cons_self⟩
  · exact hm.congr rfl rfl rfl rfl

/-- A call that is not the last thing its caller does is followed by another line. -/
theorem confined_pushFrame (hm : m.Confined image) (hnext : tail = false → m.pc + 1 < image.program.code.size) :
    Brings (pushFrame tail) m (Confined image) := by
  cases tail with
  | true => exact hm
  | false =>
    refine ⟨hm.runs, hm.tidy, hm.objects, fun f hf => ?_, hm.place⟩
    rcases List.mem_cons.mp hf with rfl | hf
    · exact hnext rfl
    · exact hm.frames f hf

theorem confined_finishCall (hm : m.Confined image) (hnext : tail = false → m.pc + 1 < image.program.code.size) :
    Brings (finishCall tail) m (Confined image) := by
  cases tail with
  | true => exact confined_doReturn hm
  | false => exact confined_advance hm (hnext rfl)

/-- The code of a closure is entered at the place that the closure keeps. -/
theorem confined_enter (hm : m.Confined image) (hnext : tail = false → m.pc + 1 < image.program.code.size)
    (activation : Handle) : Brings (enter activation tail) m (Confined image) := by
  refine (confined_pushFrame hm hnext).bind (fun _ h => h) fun _ m' hm' => ?_
  refine ⟨hm'.runs, hm'.tidy, hm'.objects, hm'.frames, ?_⟩
  show ((m'.heap.closure? activation).map (·.address)).getD m'.pc < _
  cases hc : m'.heap.closure? activation with
  | none => exact hm'.place
  | some c => exact hm'.objects _ _ (Heap.closure?_eq_some.mp hc)

/-- A continuation brings its frames with it, and goes on at a label. -/
theorem confined_resume (hlabels : LabelTable.ofCode image.program.code = .ok image.labels) (hm : m.Confined image)
    {k : Continuation} (hk : ∀ f ∈ k.frames, f.returnAddress < image.program.code.size) :
    Brings (resume k) m (Confined image) := by
  refine hm.here.bind ((ConfinedAt.steady hlabels m.pc).pop) fun v m' hm' => ?_
  refine .get_bind ?_
  split
  · exact hm'.1
  · next place hplace =>
    rw [hm'.1.runs] at hplace
    exact ⟨hm'.1.runs, hm'.1.tidy, hm'.1.objects, hk, lt_size_of_find? hlabels hplace⟩

theorem confined_capture (hm : m.Confined image) (hnext : m.pc + 1 < image.program.code.size) (name : String) :
    Brings (capture name) m (Confined image) := by
  refine .get_bind ?_
  have hplaced : Brings (allocate (.continuation ⟨m.current, m.stack, m.frames, name⟩)) m (ConfinedAt image m.pc) :=
    ⟨hm.placing hm.frames, rfl⟩
  refine hplaced.bind (fun _ h => h.1) fun h m₁ h₁ => h₁.bind (Steady.store ConfinedAt.binding name _) fun _ m₂ h₂ => ?_
  exact confined_advance h₂.1 (h₂.2 ▸ hnext)

/-! ### Calls -/

section Calls

variable (hlabels : LabelTable.ofCode image.program.code = .ok image.labels) (hm : m.Confined image)
  (hnext : tail = false → m.pc + 1 < image.program.code.size)

include hlabels hm hnext

theorem confined_callNative (library function : String) (native : NativeFunction) :
    Brings (callNative library function native tail) m (Confined image) := by
  have hsteady := ConfinedAt.steady hlabels m.pc
  refine hm.here.bind (hsteady.popArguments native.arity) fun arguments m₁ h₁ => ?_
  refine .get_bind ?_
  split
  · exact h₁.1
  · exact h₁.1
  · next v _ =>
    exact h₁.bind (hsteady.push v) fun _ m₂ h₂ => confined_finishCall h₂.1 (h₂.2 ▸ hnext)
  · next content _ =>
    exact h₁.bind (hsteady.newString content) fun h m₂ h₂ =>
      h₂.bind (hsteady.push _) fun _ m₃ h₃ => confined_finishCall h₃.1 (h₃.2 ▸ hnext)
  · exact (confined_pushFrame h₁.1 (h₁.2 ▸ hnext)).bind (fun _ h => h) fun _ m₂ h₂ => h₂.congr rfl rfl rfl rfl

theorem confined_callPrimitive (word : String) : Brings (callPrimitive word tail) m (Confined image) := by
  have hsteady := ConfinedAt.steady hlabels m.pc
  unfold callPrimitive
  split
  · exact hm
  · next op _ =>
    refine hm.here.bind (hsteady.operate op) fun written m₁ h₁ => ?_
    dsimp only
    split
    · exact h₁.bind (hsteady.push _) fun _ m₂ h₂ =>
        (confined_finishCall h₂.1 (h₂.2 ▸ hnext)).then_pure written
    · exact (confined_finishCall h₁.1 (h₁.2 ▸ hnext)).then_pure written

theorem confined_callObject (h : Handle) : Brings (callObject h tail) m (Confined image) := by
  refine .get_bind ?_
  split
  · next c hc =>
    -- the closure that runs is at the place of the one that is called
    have hplaced : Brings (allocate (.closure
        { label := c.label, address := c.address, parent := some h, free := c.environment })) m (ConfinedAt image m.pc) :=
      ⟨hm.placing (show c.address < image.program.code.size from hm.objects h _ hc), rfl⟩
    exact hplaced.bind (fun _ h => h.1) fun activation m₁ h₁ => confined_enter h₁.1 (h₁.2 ▸ hnext) activation
  · next k hk => exact confined_resume hlabels hm (hm.objects h _ hk)
  · exact hm
  · exact hm

theorem confined_callValue (v : Value) : Brings (callValue v tail) m (Confined image) := by
  unfold callValue
  split
  · next name =>
    exact hm.here.bind ((ConfinedAt.steady hlabels m.pc).makeClosure name) fun h m₁ h₁ =>
      (confined_enter h₁.1 (h₁.2 ▸ hnext) h).then_pure ""
  · exact confined_callPrimitive hlabels hm hnext _
  · exact (confined_callObject hlabels hm hnext _).then_pure ""
  · exact hm

/-- **A call leads to a place in the code**, whatever is called. -/
theorem confined_call (host : Host) (target : Operand) : Brings (call host target tail) m (Confined image) := by
  unfold call
  split
  · next name =>
    refine .get_bind ?_
    split
    · exact (confined_callNative hlabels hm hnext _ _ _).then_pure ""
    · exact hm.here.bind (preserves_dereference name) fun v m₁ h₁ => confined_callValue hlabels h₁.1 (h₁.2 ▸ hnext) v
  · split
    · exact confined_callValue hlabels hm hnext _
    · exact hm

end Calls

/-! ### Instructions -/

/-- **Every line leads to a place in the code.** -/
theorem Confined.dispatch {p : Program} {L : Layout p} (hlabels : LabelTable.ofCode image.program.code = .ok image.labels)
    (hprogram : image.program = p) (hm : m.Confined image) {line : Line} (hline : L.lines[m.pc]? = some line) (host : Host) :
    Brings (dispatch host line.instruction) m (Confined image) := by
  obtain ⟨next, hflow, hon⟩ := L.flows m.pc line hline
  have hsteady := ConfinedAt.steady hlabels m.pc
  have hself := hm.here
  -- a line that is gone on from is followed by another one
  have hsize : ∀ s ∈ next, m.pc + 1 < image.program.code.size := by
    intro s hs
    obtain ⟨line', hline', -⟩ := hon s hs
    have hlength := congrArg List.length L.code
    rw [List.length_map, Array.length_toList] at hlength
    rw [hprogram, ← hlength]
    exact (List.getElem?_eq_some_iff.mp hline').1
  have hadvance {m' : Machine} (h : m'.ConfinedAt image m.pc) {s : Spot} (hs : s ∈ next) (written : String) :
      Brings (advance >>= fun _ => (pure written : Move String)) m' (Confined image) :=
    (confined_advance h.1 (h.2 ▸ hsize s hs)).then_pure written
  have hcall (tail : Bool) (target : Operand) (hnext : tail = false → m.pc + 1 < image.program.code.size) :
      Brings (Machine.dispatch host (callTo tail target)) m (Confined image) := by
    cases tail <;> exact confined_call hlabels hm hnext host target
  cases hflow with
  | comment => exact hadvance hself rfl ""
  | label => exact hadvance hself rfl ""
  | store =>
    exact hself.bind (.require _) fun name m₁ h₁ => h₁.bind hsteady.pop fun v m₂ h₂ =>
      h₂.bind (Steady.store ConfinedAt.binding name v) fun _ m₃ h₃ => hadvance h₃ rfl ""
  | load =>
    exact hself.bind (preserves_dereference _) fun v m₁ h₁ => h₁.bind (hsteady.closed v) fun w m₂ h₂ =>
      h₂.bind (hsteady.push w) fun _ m₃ h₃ => hadvance h₃ rfl ""
  | loadClosure =>
    exact hself.bind (.require _) fun label m₁ h₁ => h₁.bind (hsteady.makeClosure label) fun h m₂ h₂ =>
      h₂.bind (hsteady.push _) fun _ m₃ h₃ => hadvance h₃ rfl ""
  | push | pushLabel =>
    exact hself.bind (preserves_operandValue _ _) fun v m₁ h₁ =>
      h₁.bind (hsteady.push v) fun _ m₂ h₂ => hadvance h₂ rfl ""
  | pop => exact hself.bind hsteady.pop fun v m₁ h₁ => hadvance h₁ rfl ""
  | set =>
    exact hself.bind (.require _) fun name m₁ h₁ => h₁.bind hsteady.pop fun v m₂ h₂ =>
      h₂.bind (hsteady.closed v) fun w m₃ h₃ => h₃.bind (Steady.assign ConfinedAt.binding name w)
        fun _ m₄ h₄ => hadvance h₄ rfl ""
  | start => exact hcall false _ fun _ => hsize _ rfl
  | call => exact hcall false _ fun _ => hsize _ rfl
  | callLabel => exact hcall false _ fun _ => hsize _ rfl
  | tailCall => exact hcall true _ nofun
  | tailCallLabel => exact hcall true _ nofun
  | ret => exact (confined_doReturn hm).then_pure ""
  | capture => exact (confined_capture hm (hsize _ rfl) _).then_pure ""
  | @branch o name d op hop hat =>
    have hbranch (condition : Bool) : Brings (branch op (some (.label name)) condition) m (Confined image) := by
      refine hself.bind (.require _) fun label m₁ h₁ => h₁.bind hsteady.pop fun v m₂ h₂ => ?_
      split
      · exact confined_jump hlabels h₂.1 label
      · exact confined_advance h₂.1 (h₂.2 ▸ hsize _ rfl)
    rcases hop with rfl | rfl
    · exact (hbranch true).then_pure ""
    · exact (hbranch false).then_pure ""
  | goto => exact (confined_jump hlabels hm _).then_pure ""
  | @operation o d k op hop =>
    rw [Machine.dispatch_plain host hop]
    exact hself.bind (hsteady.operate op) fun written m₁ h₁ => hadvance h₁ rfl written
  | fork => exact hself.bind (hsteady.fork host _) fun _ m₁ h₁ => hadvance h₁ rfl ""
  | halt => exact hm.congr rfl rfl rfl rfl

/-! ### Steps -/

theorem Confined.collectIfDue (hm : m.Confined image) (settings : Settings) : (m.collectIfDue settings).Confined image := by
  have hcollected := collected_collectIfDue hm.tidy settings
  obtain ⟨H, n, heq⟩ := collectIfDue_eq settings m
  rw [heq] at hcollected ⊢
  refine ⟨hm.runs, hcollected.tidy, fun h o ho => ?_, hm.frames, hm.place⟩
  rcases hcollected.objects h with hsame | hlost
  · exact hm.objects h o (hsame.symm.trans ho)
  · rw [hlost.1] at ho
    cases ho

section Steps

variable {p : Program} (L : Layout p) (hlabels : LabelTable.ofCode image.program.code = .ok image.labels)
  (hprogram : image.program = p) (hm : m.Confined image)

include L hlabels hprogram hm

theorem Confined.stepRunning (host : Host) : (stepRunning host m).machine.Confined image := by
  by_cases hlimit : host.settings.maxSteps.any (· ≤ m.steps)
  · rw [stepRunning_of_limit hlimit]
    exact hm.congr rfl rfl rfl rfl
  cases hi : m.image.program.code[m.pc]? with
  | none =>
    rw [stepRunning_of_none hlimit hi]
    exact hm.congr rfl rfl rfl rfl
  | some i =>
    obtain ⟨line, hline, rfl⟩ : ∃ line, L.lines[m.pc]? = some line ∧ line.instruction = i := by
      rw [hm.runs, hprogram, ← Array.getElem?_toList, ← L.code, List.getElem?_map] at hi
      exact Option.map_eq_some_iff.mp hi
    have hcounted : ({ m with steps := m.steps + 1 } : Machine).Confined image := hm.congr rfl rfl rfl rfl
    have hafter := hcounted.dispatch hlabels hprogram hline host
    unfold Brings at hafter
    rcases hrun : (Machine.dispatch host line.instruction).run { m with steps := m.steps + 1 } with ⟨(e | written), after⟩ <;>
      rw [hrun] at hafter
    · rw [stepRunning_of_error hlimit hi hrun]
      exact hafter.congr rfl rfl rfl rfl
    · rw [stepRunning_of_ok hlimit hi hrun]
      refine Confined.collectIfDue ?_ host.settings
      split
      · exact hafter.congr rfl rfl rfl rfl
      · exact hafter

/-- **A step leads to a place in the code**, also one that fails. -/
theorem Confined.step (host : Host) : (step host m).machine.Confined image := by
  have hrunning : ({ m with state := .running } : Machine).Confined image := hm.congr rfl rfl rfl rfl
  unfold Machine.step
  split
  · exact hrunning.stepRunning L hlabels hprogram host
  · exact hrunning.stepRunning L hlabels hprogram host
  · exact hm

omit L hlabels hprogram in
/-- The result of a job is returned to a place in the code. -/
theorem Confined.deliver (result : Except NativeError NativeOutput) : (m.deliver result).Confined image := by
  have hresult : (resultValue m result).2.Confined image := by
    unfold resultValue
    split
    · exact hm
    · exact hm
    · exact hm.placing trivial
    · exact hm
    · exact hm
  have hpushed : ({ (resultValue m result).2 with
      stack := (resultValue m result).1 :: (resultValue m result).2.stack } : Machine).Confined image :=
    hresult.congr rfl rfl rfl rfl
  have hreturned := confined_doReturn hpushed
  unfold Brings at hreturned
  unfold Machine.deliver
  dsimp only
  split
  · exact hreturned.congr rfl rfl rfl rfl
  · exact hreturned

end Steps

end Machine

/-- **The place of a process is in its program**, in every state that it can reach. Nothing is asked of its natives. -/
theorem Process.run_confined {p : Program} {t : Tree} {roots : List Term} {blocks : List Block}
    (hp : p.Compiled t roots blocks) {image : Image} (himage : Image.ofProgram p = .ok image) (settings : Settings)
    (registry : Registry) (pid : Nat) (moments : List Moment) :
    (run settings registry pid image moments).machine.Confined image := by
  obtain ⟨hprogram, hlabels⟩ := Image.labels_of_ofProgram himage
  refine run_induction settings registry (motive := fun a => a.machine.Confined image) ?_ ?_ moments
  · -- the constants are strings and lists, and there is a first line
    refine ⟨rfl, Heap.tidy_ofConstants _, fun h o ho => ?_, nofun, ?_⟩
    · change (Heap.ofConstants image.program.constants).get? h = some o at ho
      rw [hprogram, Heap.get?, Heap.slot?_ofConstants hp.sorted.nodup, Option.map_map] at ho
      obtain ⟨c, -, rfl⟩ := Option.map_eq_some_iff.mp ho
      cases c <;> exact trivial
    · obtain ⟨line, hline, -⟩ := hp.layout.start
      have hlength := congrArg List.length hp.layout.code
      rw [List.length_map, Array.length_toList] at hlength
      rw [hprogram, ← hlength]
      exact (List.getElem?_eq_some_iff.mp hline).1
  · intro a now ha
    unfold next
    split
    · exact Machine.Confined.deliver (m := { a.machine with pending := none }) (ha.congr rfl rfl rfl rfl) now.result
    · exact ha.step hp.layout hlabels hprogram _

end SchemeMachine
