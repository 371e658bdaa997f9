import SchemeMachine.Proofs.Alike.Step
import SchemeMachine.Proofs.Run
import SchemeMachine.Proofs.TailCall.Code
import SchemeMachine.Proofs.TailCall.Thinning

/-!
# Machines with and without tail calls

A machine whose program makes tail calls beside one whose program does not. They are level, the first with fewer frames;
or the first has returned and the second is still on its way through the returns that the first has left out; or both
have stopped.

* `Machine.Matches` is this relation, `Machine.Agrees` says that moves end in it.
* `Machine.Joins` tells which calls stand at one place of the two programs: the same call, or a call in place of a tail
  call.
* `Machine.agrees_dispatch` is the result for the instructions that stand at one place of the two programs.
-/

namespace SchemeMachine.Machine

open Lowering

/-! ### Returns -/

/-- A machine that has returned. -/
def returned (m : Machine) : Machine := (doReturn.run m).2

theorem returned_of_nil {m : Machine} (h : m.frames = []) : m.returned = { m with state := .stopped } := by
  unfold returned doReturn
  rw [run_modify, h]

theorem returned_of_cons {m : Machine} {f : Frame} {fs : List Frame} (h : m.frames = f :: fs) :
    m.returned = { m with current := f.closure, pc := f.returnAddress, frames := fs } := by
  unfold returned doReturn
  rw [run_modify, h]

/-! ### Machines beside each other -/

/-- Whether the program `p` with tail calls keeps a frame of the program `q`: both make the call that is behind it. -/
def keepsFrame (p q : Program) (f : Frame) : Bool :=
  f.returnAddress = 0 || p.code[f.returnAddress - 1]? = q.code[f.returnAddress - 1]?

/-- How the program `p` looks at a machine that runs the program `q`. -/
def viewOf (p q : Program) (steps peakDepth : Nat) : View := ⟨p.code, keepsFrame p q, steps, peakDepth⟩

/-- **Machines that are level**, or have both stopped; the second one runs `image`. -/
inductive Even (p : Program) (image : Image) (m n : Machine) : Prop
  | level (steps peakDepth : Nat) (himage : n.image = image) (hm : m = n.thin (viewOf p image.program steps peakDepth))
  | ended (hm : m.state = .stopped) (hn : n.state = .stopped) (hstack : m.stack = n.stack)

/-- **A machine that is ahead**: it has returned, and the other, which runs `image`, is about to. -/
structure Ahead (p : Program) (image : Image) (m n : Machine) : Prop where
  runs : n.image = image
  state : n.state = .running
  exits : Exits image.program.code n.pc
  returned : ∃ steps peakDepth pc current,
    m = ({ n.thin (viewOf p image.program steps peakDepth) with pc, current } : Machine).returned

/-- **A machine with tail calls beside one without.** -/
def Matches (p : Program) (image : Image) (m n : Machine) : Prop := Even p image m n ∨ Ahead p image m n

theorem Matches.level {p : Program} {image : Image} {m n : Machine} (steps peakDepth : Nat) (himage : n.image = image)
    (hm : m = n.thin (viewOf p image.program steps peakDepth)) : Matches p image m n :=
  Or.inl (.level steps peakDepth himage hm)

/-- **Moves that end beside each other.** Where one fails, so does the other, and the machines are level. -/
inductive Agrees (p : Program) (image : Image) {α : Type} :
    Except Fault α × Machine → Except Fault α × Machine → Prop
  | ok {a : α} {m n : Machine} (h : Matches p image m n) : Agrees p image (.ok a, m) (.ok a, n)
  | error {e : Fault} {n : Machine} (steps peakDepth : Nat) (himage : n.image = image) :
      Agrees p image (.error e, n.thin (viewOf p image.program steps peakDepth)) (.error e, n)

/-- A running machine at a place of its program. -/
structure Poised (image : Image) (pc : Nat) (n : Machine) : Prop where
  image : n.image = image
  pc : n.pc = pc
  state : n.state = .running

variable {p : Program} {image : Image} {pc : Nat} {n : Machine} {steps peakDepth : Nat}

section Rules

variable {α β : Type} {x y : Move α}

/-- A move that stays where it is, and then moves that agree. -/
theorem Agrees.bind_quiet {f g : α → Move β} (hx : Quiet (viewOf p image.program steps peakDepth) x)
    (hn : n.Poised image pc) (hf : ∀ a n', n'.Poised image pc →
      Agrees p image ((f a).run (n'.thin (viewOf p image.program steps peakDepth))) ((g a).run n')) :
    Agrees p image ((x >>= f).run (n.thin (viewOf p image.program steps peakDepth))) ((x >>= g).run n) := by
  have hrun := hx.run n
  have hpc := hx.pc n
  have hstate := hx.state n
  have himage := hx.image n
  rcases hr : x.run n with ⟨(e | a), n'⟩ <;> rw [hr] at hrun hpc hstate himage
  · rw [run_bind_error hrun, run_bind_error hr]
    exact .error steps peakDepth (himage.trans hn.image)
  · rw [run_bind_ok hrun, run_bind_ok hr]
    exact hf a n' ⟨himage.trans hn.image, hpc.trans hn.pc, hstate.trans hn.state⟩

/-- What is answered in the end is the same. -/
theorem Agrees.then_pure {m n : Machine} (h : Agrees p image (x.run m) (y.run n)) (b : β) :
    Agrees p image ((x >>= fun _ => pure b).run m) ((y >>= fun _ => pure b).run n) := by
  rw [run_bind, run_bind]
  generalize x.run m = r at h
  generalize y.run n = r' at h
  cases h with
  | ok h => exact .ok h
  | error steps peakDepth himage => exact .error steps peakDepth himage

/-- A register that frames do not matter to. -/
theorem Agrees.modify {g : Machine → Machine} (hn : n.image = image)
    (hrun : g (n.thin (viewOf p image.program steps peakDepth)) = (g n).thin (viewOf p image.program steps peakDepth))
    (himage : (g n).image = n.image) :
    Agrees p image ((modify g : Move Unit).run (n.thin (viewOf p image.program steps peakDepth)))
      ((modify g : Move Unit).run n) := by
  rw [run_modify, run_modify, hrun]
  exact .ok (.level steps peakDepth (himage.trans hn) rfl)

theorem Agrees.throw (hn : n.image = image) (e : Fault) :
    Agrees p image ((throw e : Move α).run (n.thin (viewOf p image.program steps peakDepth))) ((throw e : Move α).run n) :=
  .error steps peakDepth hn

end Rules

/-! ### Returns beside each other -/

/-- Behind a frame that is left out there is nothing but a return. -/
theorem exits_of_keepsFrame {q : Program} (hu : p.Untails q) {f : Frame} (hf : keepsFrame p q f = false) :
    Exits q.code f.returnAddress := by
  simp only [keepsFrame, Bool.or_eq_false_iff, decide_eq_false_iff_not] at hf
  obtain ⟨hzero, hdiffers⟩ := hf
  rcases hu.code (f.returnAddress - 1) with heq | ⟨target, -, -, hexits⟩
  · exact absurd heq hdiffers
  · rwa [Nat.sub_add_cancel (Nat.pos_of_ne_zero hzero)] at hexits

/-- **A return**, whatever the place and the closure of the machine that is ahead. -/
theorem matches_returned (hu : p.Untails image.program) (himage : n.image = image) (hstate : n.state = .running)
    (pc : Nat) (current : Option Handle) :
    Matches p image ({ n.thin (viewOf p image.program steps peakDepth) with pc, current } : Machine).returned
      n.returned := by
  cases hframes : n.frames with
  | nil =>
    rw [returned_of_nil hframes, returned_of_nil (by simp [thin, hframes])]
    exact Or.inl (.ended rfl rfl rfl)
  | cons f fs =>
    rw [returned_of_cons hframes]
    cases hkeep : keepsFrame p image.program f with
    | true =>
      have hthin : ({ n.thin (viewOf p image.program steps peakDepth) with pc, current } : Machine).frames =
          f :: fs.filter (keepsFrame p image.program) := by
        simp [thin, viewOf, hframes, hkeep]
      rw [returned_of_cons hthin]
      exact .level steps peakDepth himage rfl
    | false =>
      refine Or.inr ⟨himage, hstate, exits_of_keepsFrame hu hkeep, steps, peakDepth, pc, current, ?_⟩
      simp [thin, viewOf, hframes, hkeep]

/-! ### Calls -/

/-- **Which calls stand at a place of the two programs**: the same call, or a call in place of a tail call. -/
inductive Joins (p : Program) (image : Image) (pc : Nat) : Bool → Bool → Prop
  | tail : Joins p image pc true true
  | call (hsame : p.code[pc]? = image.program.code[pc]?) : Joins p image pc false false
  | cut (hdiffers : p.code[pc]? ≠ image.program.code[pc]?) (hexits : Exits image.program.code (pc + 1)) :
      Joins p image pc true false

/-- A continuation is resumed with the frames that it has. -/
theorem agrees_resume (hn : n.Poised image pc) (k : Continuation) :
    Agrees p image ((resume (k.thin (keepsFrame p image.program))).run (n.thin (viewOf p image.program steps peakDepth)))
      ((resume k).run n) := by
  refine .bind_quiet quiet_pop hn fun w n' hn' => ?_
  rw [run_get_bind, run_get_bind]
  rw [show (n'.thin (viewOf p image.program steps peakDepth)).image.labels = n'.image.labels from rfl,
    show (k.thin (keepsFrame p image.program)).resume = k.resume from rfl]
  split
  · exact .throw hn'.image _
  · exact .ok (.level steps peakDepth hn'.image rfl)

section Calls

variable {flag flag' : Bool} (hu : p.Untails image.program) (hj : Joins p image pc flag flag')
  (hn : n.Poised image pc)

include hj hn

/-- A frame is remembered by both or left out by the first. -/
theorem Joins.pushFrame : ∃ n', (pushFrame flag').run n = (.ok (), n') ∧ n'.image = image ∧
    (pushFrame flag).run (n.thin (viewOf p image.program steps peakDepth)) =
      (.ok (), n'.thin (viewOf p image.program steps peakDepth)) := by
  cases hj with
  | tail => exact ⟨n, rfl, hn.image, rfl⟩
  | call hsame =>
    have hkeep : keepsFrame p image.program ⟨n.current, n.pc + 1⟩ = true := by simp [keepsFrame, hn.pc, hsame]
    exact ⟨_, rfl, hn.image, by simp [Machine.pushFrame, thin, viewOf, hkeep]⟩
  | cut hdiffers _ =>
    have hkeep : keepsFrame p image.program ⟨n.current, n.pc + 1⟩ = false := by simp [keepsFrame, hn.pc, hdiffers]
    exact ⟨_, rfl, hn.image, by simp [Machine.pushFrame, thin, viewOf, hkeep]⟩

theorem Joins.enter (activation : Handle) :
    Agrees p image ((enter activation flag).run (n.thin (viewOf p image.program steps peakDepth)))
      ((enter activation flag').run n) := by
  obtain ⟨n', hframe, himage, hthin⟩ := hj.pushFrame hn
  unfold Machine.enter
  rw [run_bind_ok hthin, run_bind_ok hframe]
  exact .modify himage (by simp only [thin, Heap.closure?_thin]) rfl

theorem Joins.callObject (h : Handle) :
    Agrees p image ((callObject h flag).run (n.thin (viewOf p image.program steps peakDepth)))
      ((callObject h flag').run n) := by
  unfold Machine.callObject
  rw [run_get_bind, run_get_bind]
  have hget := n.heap.get?_thin (keepsFrame p image.program) h
  rw [show (n.thin (viewOf p image.program steps peakDepth)).heap.get? h = _ from hget]
  rcases n.heap.get? h with _ | (content | items | c | k)
  · exact .throw hn.image _
  · exact .throw hn.image _
  · exact .throw hn.image _
  · exact .bind_quiet (quiet_allocate rfl) hn fun activation n' hn' => hj.enter hn' activation
  · exact agrees_resume hn k

include hu

theorem Joins.finishCall : Agrees p image ((finishCall flag).run (n.thin (viewOf p image.program steps peakDepth)))
    ((finishCall flag').run n) := by
  cases hj with
  | tail => exact .ok (matches_returned hu hn.image hn.state n.pc n.current)
  | call => exact .ok (.level steps peakDepth hn.image rfl)
  | cut _ hexits =>
    refine .ok (Or.inr ⟨hn.image, hn.state, ?_, steps, peakDepth, n.pc, n.current, rfl⟩)
    rw [← hn.pc] at hexits
    exact hexits

theorem Joins.callNative {native : NativeFunction} (hblind : native.Blind) (library function : String) :
    Agrees p image ((callNative library function native flag).run (n.thin (viewOf p image.program steps peakDepth)))
      ((callNative library function native flag').run n) := by
  refine .bind_quiet (quiet_popArguments _) hn fun args n' hn' => ?_
  rw [run_get_bind, run_get_bind]
  have hinvoke := hblind (keepsFrame p image.program) n'.heap ⟨n'.pid, library, function, args⟩
  rw [show native.invoke (n'.thin (viewOf p image.program steps peakDepth)).heap
    ⟨(n'.thin (viewOf p image.program steps peakDepth)).pid, library, function, args⟩ = _ from hinvoke]
  split
  · exact .throw hn'.image _
  · exact .throw hn'.image _
  · exact .bind_quiet (quiet_push _) hn' fun _ n'' hn'' => hj.finishCall hu hn''
  · exact .bind_quiet (quiet_allocate rfl) hn' fun h n'' hn'' =>
      .bind_quiet (quiet_push _) hn'' fun _ n₃ hn₃ => hj.finishCall hu hn₃
  · obtain ⟨n'', hframe, himage, hthin⟩ := hj.pushFrame hn'
    rw [run_bind_ok hthin, run_bind_ok hframe]
    exact .modify himage rfl rfl

theorem Joins.callPrimitive (word : String) :
    Agrees p image ((callPrimitive word flag).run (n.thin (viewOf p image.program steps peakDepth)))
      ((callPrimitive word flag').run n) := by
  have hfinish (written : String) {n' : Machine} (hn' : n'.Poised image pc) :
      Agrees p image ((do Machine.finishCall flag; return written : Move String).run
          (n'.thin (viewOf p image.program steps peakDepth)))
        ((do Machine.finishCall flag'; return written : Move String).run n') :=
    (hj.finishCall hu hn').then_pure written
  unfold Machine.callPrimitive
  split
  · exact .throw hn.image _
  · refine .bind_quiet (quiet_operate _) hn fun written n' hn' => ?_
    dsimp only
    split
    · exact .bind_quiet (quiet_push _) hn' fun _ n'' hn'' => hfinish written hn''
    · exact hfinish written hn'

theorem Joins.callValue (w : Value) :
    Agrees p image ((callValue w flag).run (n.thin (viewOf p image.program steps peakDepth)))
      ((callValue w flag').run n) := by
  unfold Machine.callValue
  split
  · exact .bind_quiet (quiet_makeClosure _) hn fun h n' hn' => (hj.enter hn' h).then_pure ""
  · exact hj.callPrimitive hu hn _
  · exact (hj.callObject hn _).then_pure ""
  · exact .throw hn.image _

/-- **Calls agree**, whatever is called. -/
theorem Joins.call_agrees {host : Host} (hblind : host.registry.Blind) (target : Operand) :
    Agrees p image ((Machine.call host target flag).run (n.thin (viewOf p image.program steps peakDepth)))
      ((Machine.call host target flag').run n) := by
  unfold Machine.call
  split
  · next name =>
    rw [run_get_bind, run_get_bind]
    rw [show nativeTarget? host (n.thin (viewOf p image.program steps peakDepth)) name = nativeTarget? host n name from rfl]
    split
    · next library function native htarget =>
      have hlookup := (nativeTarget?_eq_some htarget).2
      exact (hj.callNative hu hn (hblind _ _ _ hlookup) library function).then_pure ""
    · exact .bind_quiet (quiet_dereference name) hn fun w n' hn' => hj.callValue hu hn' w
  · split
    · exact hj.callValue hu hn _
    · exact .throw hn.image _

end Calls

/-! ### Instructions -/

section Instructions

theorem agrees_advance (himage : n.image = image) (written : String) :
    Agrees p image ((do advance; return written : Move String).run (n.thin (viewOf p image.program steps peakDepth)))
      ((do advance; return written : Move String).run n) :=
  .ok (.level steps peakDepth himage rfl)

theorem agrees_jump (hn : n.Poised image pc) (label : String) :
    Agrees p image ((jump label).run (n.thin (viewOf p image.program steps peakDepth))) ((jump label).run n) := by
  unfold jump
  rw [run_get_bind, run_get_bind,
    show (n.thin (viewOf p image.program steps peakDepth)).image.labels = n.image.labels from rfl]
  split
  · exact .modify hn.image rfl rfl
  · exact .throw hn.image _

theorem agrees_branch (hn : n.Poised image pc) (op : Opcode) (operand : Option Operand) (condition : Bool) :
    Agrees p image ((branch op operand condition).run (n.thin (viewOf p image.program steps peakDepth)))
      ((branch op operand condition).run n) := by
  refine .bind_quiet (.require _) hn fun label n' hn' => .bind_quiet quiet_pop hn' fun w n'' hn'' => ?_
  split
  · exact agrees_jump hn'' label
  · exact .modify hn''.image rfl rfl

/-- A continuation is captured with the frames that there are. -/
theorem agrees_capture (hn : n.Poised image pc) (name : String) :
    Agrees p image ((capture name).run (n.thin (viewOf p image.program steps peakDepth))) ((capture name).run n) := by
  have hcontinuation : Quiet (viewOf p image.program steps peakDepth)
      (do let m ← get; allocate (.continuation ⟨m.current, m.stack, m.frames, name⟩)) :=
    ⟨fun m => run_allocate_thin (.continuation ⟨m.current, m.stack, m.frames, name⟩) m, fun _ => rfl, fun _ => rfl,
      fun _ => rfl⟩
  have hcapture : capture name = (do
      let h ← (do let m ← get; allocate (.continuation ⟨m.current, m.stack, m.frames, name⟩))
      store name (.handle h)
      advance) := rfl
  rw [hcapture]
  exact .bind_quiet hcontinuation hn fun h n₁ hn₁ => .bind_quiet (quiet_store name (.handle h)) hn₁ fun _ n₂ hn₂ =>
    .modify hn₂.image rfl rfl

variable {host : Host} (hu : p.Untails image.program) (hblind : host.registry.Blind)
  (hn : n.Poised image pc)

include hu hblind hn

/-- **The same operation** on both sides. -/
theorem agrees_execute (hsame : p.code[pc]? = image.program.code[pc]?) (op : Opcode) (operand : Option Operand) :
    Agrees p image ((execute host op operand).run (n.thin (viewOf p image.program steps peakDepth)))
      ((execute host op operand).run n) := by
  -- all but calls, returns and jumps are quiet: they see nothing of the program or of the frames
  unfold execute
  cases op with
  | store =>
    exact .bind_quiet (.require _) hn fun name n₁ hn₁ => .bind_quiet quiet_pop hn₁ fun w n₂ hn₂ =>
      .bind_quiet (quiet_store name w) hn₂ fun _ n₃ hn₃ => agrees_advance hn₃.image ""
  | load =>
    exact .bind_quiet (quiet_operandValue _ operand) hn fun w n₁ hn₁ => .bind_quiet (quiet_closed w) hn₁ fun u n₂ hn₂ =>
      .bind_quiet (quiet_push u) hn₂ fun _ n₃ hn₃ => agrees_advance hn₃.image ""
  | push =>
    exact .bind_quiet (quiet_operandValue _ operand) hn fun w n₁ hn₁ =>
      .bind_quiet (quiet_push w) hn₁ fun _ n₂ hn₂ => agrees_advance hn₂.image ""
  | loadClosure =>
    exact .bind_quiet (.require _) hn fun label n₁ hn₁ => .bind_quiet (quiet_makeClosure label) hn₁ fun h n₂ hn₂ =>
      .bind_quiet (quiet_push _) hn₂ fun _ n₃ hn₃ => agrees_advance hn₃.image ""
  | pop => exact .bind_quiet quiet_pop hn fun _ n₁ hn₁ => agrees_advance hn₁.image ""
  | swap => exact .bind_quiet quiet_swap hn fun _ n₁ hn₁ => agrees_advance hn₁.image ""
  | set =>
    exact .bind_quiet (.require _) hn fun name n₁ hn₁ => .bind_quiet quiet_pop hn₁ fun w n₂ hn₂ =>
      .bind_quiet (quiet_closed w) hn₂ fun u n₃ hn₃ => .bind_quiet (quiet_assign name u) hn₃ fun _ n₄ hn₄ =>
        agrees_advance hn₄.image ""
  | call =>
    dsimp only
    split
    · -- the same call on both sides: the frames that the two keep are pushed alike
      exact (Joins.call hsame).call_agrees hu hn hblind _
    · exact .throw hn.image _
  | tailCall =>
    dsimp only
    split
    · exact Joins.tail.call_agrees hu hn hblind _
    · exact .throw hn.image _
  | ret => exact .ok (matches_returned hu hn.image hn.state n.pc n.current)
  | capture => exact .bind_quiet (.require _) hn fun name n₁ hn₁ => (agrees_capture hn₁ name).then_pure ""
  | ifTrue => exact (agrees_branch hn _ operand true).then_pure ""
  | ifFalse => exact (agrees_branch hn _ operand false).then_pure ""
  | goto => exact .bind_quiet (.require _) hn fun label n₁ hn₁ => (agrees_jump hn₁ label).then_pure ""
  | fork =>
    dsimp only
    split
    · exact .bind_quiet (quiet_fork host _) hn fun _ n₁ hn₁ => agrees_advance hn₁.image ""
    · exact .throw hn.image _
  | nop => exact agrees_advance hn.image ""
  | pause => exact .ok (.level steps peakDepth hn.image rfl)
  | halt => exact .ok (.level steps peakDepth hn.image rfl)
  | _ => exact .bind_quiet (quiet_operate _) hn fun written n₁ hn₁ => agrees_advance hn₁.image written

/-- **The instructions at one place of the two programs.** -/
theorem agrees_dispatch {i j : Instruction} (hi : p.code[pc]? = some i) (hj : image.program.code[pc]? = some j) :
    Agrees p image ((dispatch host i).run (n.thin (viewOf p image.program steps peakDepth))) ((dispatch host j).run n) := by
  rcases hu.code pc with hsame | ⟨target, hi', hj', hexits⟩
  · obtain rfl := Option.some.inj (hi.symm.trans (hsame.trans hj))
    cases i with
    | comment text => exact agrees_advance hn.image ""
    | label name => exact agrees_advance hn.image ""
    | op opcode operand => exact agrees_execute hu hblind hn hsame opcode operand
  · obtain rfl := Option.some.inj (hi.symm.trans hi')
    obtain rfl := Option.some.inj (hj.symm.trans hj')
    have hdiffers : p.code[pc]? ≠ image.program.code[pc]? := by
      rw [hi, hj]
      simp [callTo]
    exact (Joins.cut hdiffers hexits).call_agrees hu hn hblind target

end Instructions

end SchemeMachine.Machine
