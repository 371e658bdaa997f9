import SchemeMachine.Proofs.Sound.Move

/-!
# Calls of a sound machine

A call enters the code of a closure, computes, resumes a continuation or asks a native function. Whatever it does,
its arguments make way for one value, with which its caller goes on.

* `Machine.Calling` says that a machine is about to call with a number of arguments.
* `Machine.arity?` is the number of arguments that the target of a call takes.
* `Machine.Calling.safe_call` is the result.
-/

namespace SchemeMachine

/-- **A native function that makes up no references**: a value that it answers is one of its arguments or refers to
nothing. -/
def NativeFunction.Modest (f : NativeFunction) : Prop :=
  ∀ H call v, f.invoke H call = .ok (.value v) → v ∈ call.arguments ∨ ∀ A H, v.Settled A H

/-- Libraries whose functions make up no references. -/
def Registry.Modest (r : Registry) : Prop :=
  ∀ library function f, r.lookup library function = some f → f.Modest

/-- A primitive that is a value takes a number of operands. -/
theorem Opcode.operandCount?_ofPrimitive? {word : String} {op : Opcode} (h : ofPrimitive? word = some op) :
    ∃ k, op.operandCount? = some k := by
  unfold ofPrimitive? at h
  split at h <;> cases h <;> exact ⟨_, rfl⟩

/-- The primitives that leave no value are those for output. -/
theorem Opcode.answers_eq_false {op : Opcode} : op.answers = false ↔ op = .display ∨ op = .newline := by
  cases op <;> simp [answers]

namespace Machine

/-- The instruction of a primitive carries it out and goes on. -/
theorem dispatch_plain (host : Host) {op : Opcode} {k : Nat} (hop : op.operandCount? = some k) :
    dispatch host (Lowering.plain op) = (operate op >>= fun written => advance >>= fun _ => pure written) := by
  cases op <;> first
    | rfl
    | cases hop

/-! ### The target of a call -/

/-- What a call goes to: a native function or a value. -/
def callee? (host : Host) (m : Machine) : Operand → Option (NativeFunction ⊕ Value)
  | .atom (.variable name) =>
    match nativeTarget? host m name with
    | some (_, _, native) => some (.inl native)
    | none => (m.seen? name).map .inr
  | other => (Value.ofOperand? other).map .inr

/-- How many arguments a value takes; `parameters` has the number for the lambda at a label. -/
def valueArity? (parameters : String → Option Nat) (heap : Heap) : Value → Option Nat
  | .label name => parameters name
  | .keyword word => (Opcode.ofPrimitive? word).bind Opcode.operandCount?
  | .handle h =>
    match heap.get? h with
    | some (.closure c) => parameters c.label
    | some (.continuation _) => some 1
    | _ => none
  | _ => none

/-- **How many arguments the target of a call takes**: as many as the lambda has parameters, as the native function
asks for, or as the primitive has operands; a continuation takes one. -/
def arity? (parameters : String → Option Nat) (host : Host) (m : Machine) (target : Operand) : Option Nat :=
  match callee? host m target with
  | some (.inl native) => some native.arity
  | some (.inr v) => valueArity? parameters m.heap v
  | none => none

variable {p : Program} {L : Layout p} {strict : Prop} {A : Handle → Prop} {m : Machine} {tail : Bool} {n : Nat}

/-- The calls under way during a call: the last call of its caller takes the place of the caller. -/
def framesFor (m : Machine) (tail : Bool) : List Frame :=
  if tail then m.frames else ⟨m.current, m.pc + 1⟩ :: m.frames

theorem run_pushFrame (tail : Bool) (m : Machine) :
    (pushFrame tail).run m = (.ok (), { m with frames := m.framesFor tail }) := by
  cases tail <;> rfl

/-- The code of a closure is entered at its address. -/
theorem run_enter {h : Handle} {c : Closure} (hc : m.heap.closure? h = some c) (tail : Bool) :
    (enter h tail).run m = (.ok (), { m with frames := m.framesFor tail, current := some h, pc := c.address }) := by
  unfold enter
  rw [run_bind_ok (run_pushFrame tail m), run_modify]
  simp only [hc, Option.map_some, Option.getD_some]

/-- A closure is called by entering a new one below it. -/
theorem run_callObject {h : Handle} {c : Closure} (hc : m.heap.closure? h = some c) (tail : Bool) :
    (callObject h tail).run m =
      (enter m.heap.nextSlot tail).run { m with
        heap := (m.heap.allocate
          (.closure { label := c.label, address := c.address, parent := some h, free := c.environment }) m.current).2 } := by
  unfold callObject
  rw [run_get_bind, Heap.closure?_eq_some.mp hc]
  exact run_bind_ok (run_allocate _ m)

/-- A call that has left its value goes back to the frame on top. -/
theorem run_finishCall {f : Frame} {fs : List Frame} (hf : m.framesFor tail = f :: fs) :
    (finishCall tail).run m = (.ok (), { m with current := f.closure, pc := f.returnAddress, frames := fs }) := by
  cases tail with
  | false =>
    cases hf
    rfl
  | true =>
    have hframes : m.frames = f :: fs := hf
    simp only [finishCall, if_true, doReturn, run_modify, hframes]

/-- **A machine about to call** with `n` arguments. -/
structure Calling (L : Layout p) (strict : Prop) (A : Handle → Prop) (m : Machine) (tail : Bool) (n : Nat) : Prop where
  sound : m.Sound L strict A
  running : m.state = .running
  operands : ∀ v ∈ m.stack, v.Settled A m.heap
  returns : ∃ b, (∀ o, Stacked L A m.heap (some o) (m.framesFor tail) b) ∧ (strict → m.stack.length = n + b)

/-! ### Returns -/

/-- Who returns goes on at the spot after the call, with one operand more. -/
theorem Sound.ready_return (hs : m.Sound L strict A) (hstate : m.state = .running) {f : Frame} {fs : List Frame}
    {o : String} {b : Nat} (hstacked : Stacked L A m.heap (some o) (f :: fs) b)
    (hoperands : ∀ v ∈ m.stack, v.Settled A m.heap) (hlength : strict → m.stack.length = b + 1) :
    ({ m with current := f.closure, pc := f.returnAddress, frames := fs } : Machine).Ready L strict A := by
  cases hstacked with
  | @frame _ below _ _ line d b hline hspot hruns hrest =>
    refine ⟨⟨hs.program, hs.labels, hs.heap, below, hruns⟩, ?_⟩
    unfold Keeps
    dsimp only
    rw [hstate]
    refine ⟨line.spot, ⟨line, hline, rfl⟩, ?_, ⟨b, ?_, fun h => ?_⟩, ?_⟩
    · rw [hspot]
      exact hruns
    · rw [hspot]
      exact hrest
    · rw [hspot]
      have := hlength h
      dsimp only
      omega
    · rw [hspot]
      exact hoperands

/-- A call that has left its value is over. -/
theorem Sound.safe_finishCall (hs : m.Sound L strict A) (hstate : m.state = .running) {o : String} {b : Nat}
    (hstacked : Stacked L A m.heap (some o) (m.framesFor tail) b) (hoperands : ∀ v ∈ m.stack, v.Settled A m.heap)
    (hlength : strict → m.stack.length = b + 1) :
    Safe L strict (finishCall tail) m fun _ m' => ∃ B, m'.Ready L strict B := by
  cases hframes : m.framesFor tail with
  | nil =>
    rw [hframes] at hstacked
    cases hstacked
  | cons f fs =>
    rw [hframes] at hstacked
    exact .ok (run_finishCall hframes) ⟨A, hs.ready_return hstate hstacked hoperands hlength⟩

/-! ### Entering code -/

namespace Calling

/-- **The code of an activation is entered** with its arguments on the stack. -/
theorem safe_enter (hc : Calling L strict A m tail n) {h : Handle} {c : Closure} (hact : A h)
    (hclosure : m.heap.closure? h = some c) (hentry : strict → L.Entry c.label n) :
    Safe L strict (enter h tail) m fun _ m' => ∃ B, m'.Ready L strict B := by
  obtain ⟨b, hstacked, hlength⟩ := hc.returns
  obtain ⟨line, k, hline, hi, hspot⟩ := (hc.sound.heap.closure hclosure).entry
  refine .ok (run_enter hclosure tail) ⟨A, ⟨hc.sound.program, hc.sound.labels, hc.sound.heap, _, .code hact hclosure⟩, ?_⟩
  unfold Keeps
  dsimp only
  rw [hc.running]
  refine ⟨line.spot, ⟨line, hline, rfl⟩, ?_, ⟨b, ?_, fun h => ?_⟩, ?_⟩
  · rw [hspot]
    exact .code hact hclosure
  · rw [hspot]
    exact hstacked _
  · rw [L.entry_unique hc.sound.labels hline hi (hentry h)]
    exact hlength h
  · rw [hspot]
    exact hc.operands

/-- A heap that has grown leaves a machine about to call. -/
theorem withHeap (hc : Calling L strict A m tail n) {A' : Handle → Prop} {H' : Heap} (hs : H'.Sound L strict A')
    (hg : Heap.Grows A m.heap A' H') : Calling L strict A' { m with heap := H' } tail n := by
  obtain ⟨b, hstacked, hlength⟩ := hc.returns
  exact ⟨hc.sound.withHeap hs hg, hc.running, fun v hv => hg.settled (hc.operands v hv), b,
    fun o => hg.stacked (hstacked o), hlength⟩

/-- A procedure that is still a label is closed and entered at once. -/
theorem safe_label (hc : Calling L strict A m tail n) {N : String} (hn : Closable L A m N)
    (hentry : strict → L.Entry N n) :
    Safe L strict (callValue (.label N) tail) m fun _ m' => ∃ B, m'.Ready L strict B := by
  obtain ⟨A', h, c, H', hrun, hsound, hgrows, hclosure, rfl, hact⟩ :=
    hn.run_makeClosure hc.sound True fun h => absurd trivial h
  refine .bind_ok hrun ?_
  exact ((hc.withHeap hsound hgrows).safe_enter (hact.mpr trivial) hclosure hentry).bind fun _ _ h => .pure h

/-- The program is started. -/
theorem safe_top (hc : Calling L strict A m tail n) {N : String} (hcurrent : m.current = none)
    (hout : p.enclosing.find? N = none) (hentry : L.Entry N n) :
    Safe L strict (callValue (.label N) tail) m fun _ m' => ∃ B, m'.Ready L strict B := by
  obtain ⟨A', h, c, H', hrun, hsound, hgrows, hclosure, rfl, hact⟩ :=
    hc.sound.run_makeClosure_top hcurrent hout hentry
  refine .bind_ok hrun ?_
  exact ((hc.withHeap hsound hgrows).safe_enter hact hclosure fun _ => hentry).bind fun _ _ h => .pure h

/-- **A closure is called**: it runs in a closure of its own. -/
theorem safe_closure (hc : Calling L strict A m tail n) {h : Handle} {c : Closure} (hnot : ¬A h)
    (hclosure : m.heap.closure? h = some c) (hentry : strict → L.Entry c.label n) :
    Safe L strict (callObject h tail) m fun _ m' => ∃ B, m'.Ready L strict B := by
  obtain ⟨hsound, hgrows, hnew⟩ := hc.sound.heap.allocateClosure (B := True)
    (c := { label := c.label, address := c.address, parent := some h, free := c.environment })
    (hc.sound.heap.closure hclosure).entry rfl (fun h => absurd trivial h)
    (.below rfl hclosure rfl (Or.inr ⟨trivial, hnot, rfl⟩)) m.current
  unfold Safe
  rw [run_callObject hclosure]
  exact (hc.withHeap hsound hgrows).safe_enter (Or.inr ⟨trivial, rfl⟩) hnew hentry

/-- **A continuation is resumed** with the value on top of the stack. -/
theorem safe_resume (hc : Calling L strict A m tail n) {k : Continuation} (hk : k.Sound L strict A m.heap)
    (hn : strict → n = 1) : Safe L strict (resume k) m fun _ m' => ∃ B, m'.Ready L strict B := by
  obtain ⟨o, d, b, hat, hruns, hstacked, hstack, hlength⟩ := hk
  -- the continuation names a place, with the operands that it has to find there
  obtain ⟨pc, line, hpc, hline, -, hspot⟩ := L.exists_place hc.sound.labels hat
  unfold resume
  refine hc.sound.pop_bind (fun h hnil => ?_) fun v rest hrest => .get_bind ?_
  · obtain ⟨b', -, hcount⟩ := hc.returns
    have := hcount h
    rw [hnil, hn h] at this
    simp at this
    omega
  · dsimp only
    rw [hpc]
    refine ⟨A, ⟨hc.sound.program, hc.sound.labels, hc.sound.heap, some o, hruns⟩, ?_⟩
    unfold Keeps
    dsimp only
    rw [hc.running]
    have hv : v.Settled A m.heap := hc.operands v (hrest ▸ List.mem_cons_self)
    refine ⟨line.spot, ⟨line, hline, rfl⟩, ?_, ⟨b, ?_, fun h => ?_⟩, ?_⟩
    · rw [hspot]
      exact hruns
    · rw [hspot]
      exact hstacked
    · rw [hspot]
      have := hlength h
      simp only [List.length_cons]
      omega
    · rw [hspot]
      intro w hw
      rcases List.mem_cons.mp hw with rfl | hw
      · exact hv
      · exact hstack w hw

end Calling

/-! ### Primitives and native functions -/

/-- Take the arguments of a call off the stack. -/
theorem Sound.safe_popArguments (count : Nat) (hs : m.Sound L strict A) (hcount : strict → count ≤ m.stack.length) :
    Safe L strict (popArguments count) m fun args m' =>
      ∃ rest, m.stack = args.reverse ++ rest ∧ args.length = count ∧ m' = { m with stack := rest } := by
  induction count generalizing m with
  | zero => exact .pure ⟨m.stack, rfl, rfl, rfl⟩
  | succ count ih =>
    refine hs.pop_bind (fun h hnil => by simpa [hnil] using hcount h) fun v rest hrest => ?_
    refine (ih (hs.withStack rest) fun h => ?_).bind ?_
    · have := hcount h
      rw [hrest] at this
      simpa using this
    · rintro args _ ⟨rest', hrest', hargs, rfl⟩
      obtain rfl : rest = args.reverse ++ rest' := hrest'
      exact .pure ⟨rest', by simp [hrest], by simp [hargs], rfl⟩

namespace Calling

/-- A value in place of the arguments. -/
theorem finish (hc : Calling L strict A m tail n) {args rest : List Value} {v : Value} {H' : Heap}
    (hstack : m.stack = args ++ rest) (hargs : strict → args.length = n) (hs : H'.Sound L strict A)
    (hg : Heap.Grows A m.heap A H') (hv : v.Settled A H') :
    Safe L strict (finishCall tail) { m with heap := H', stack := v :: rest } fun _ m' => ∃ B, m'.Ready L strict B := by
  obtain ⟨b, hstacked, hlength⟩ := hc.returns
  refine Sound.safe_finishCall (o := "") (b := b) ((hc.sound.withHeap hs hg).withStack _) hc.running
    (hg.stacked (hstacked "")) (fun w hw => ?_) fun h => ?_
  · rcases List.mem_cons.mp hw with rfl | hw
    · exact hv
    · exact hg.settled (hc.operands w (hstack ▸ List.mem_append_right _ hw))
  · have := hlength h
    rw [hstack, List.length_append, hargs h] at this
    simp only [List.length_cons]
    omega

/-- **A native function is called**; one that takes its time puts the machine to sleep. -/
theorem safe_native (hc : Calling L strict A m tail n) {library function : String} {native : NativeFunction}
    (hmodest : native.Modest) (harity : strict → native.arity = n) :
    Safe L strict (callNative library function native tail) m fun _ m' => ∃ B, m'.Ready L strict B := by
  obtain ⟨b, hstacked, hlength⟩ := hc.returns
  unfold callNative
  refine (hc.sound.safe_popArguments native.arity fun h => ?_).bind ?_
  · rw [hlength h, harity h]
    omega
  rintro args _ ⟨rest, hrest, hargs, rfl⟩
  -- the arguments are what the call has put there
  have hcount : strict → args.reverse.length = n := fun h => by rw [List.length_reverse, hargs, harity h]
  have hs := hc.sound.withStack rest
  refine .get_bind ?_
  dsimp only
  -- the answer is settled, in whichever way it is given
  cases hinvoke : native.invoke m.heap ⟨m.pid, library, function, args⟩ with
  | error e =>
    cases e with
    | io reason => exact hs.fail fun _ => rfl
    | _ => exact hs.fail fun _ => rfl
  | ok answer =>
    cases answer with
    | value v =>
      have hv : v.Settled A m.heap := by
        rcases hmodest _ _ v hinvoke with hmem | hplain
        · exact hc.operands v (hrest ▸ List.mem_append_left _ (List.mem_reverse.mpr hmem))
        · exact hplain A m.heap
      exact .bind_ok (run_push v _) (hc.finish hrest hcount hc.sound.heap .refl hv)
    | newString content =>
      refine hs.allocate_bind (by simp) trivial fun h H' hsound hgrows hv => ?_
      exact .bind_ok (run_push _ _) (hc.finish hrest hcount hsound hgrows hv)
    | pending job =>
      refine .bind_ok (run_pushFrame tail _) ⟨A, { hs with }, "", b, hstacked "", ?_, fun h => ?_⟩
      · exact fun v hv => hc.operands v (hrest ▸ List.mem_append_right _ hv)
      · have := hlength h
        rw [hrest, List.length_append, hcount h] at this
        dsimp only
        omega

/-- **A primitive is called** that is a value. -/
theorem safe_primitive (hc : Calling L strict A m tail n) {word : String}
    (harity : strict → ∀ k, (Opcode.ofPrimitive? word).bind Opcode.operandCount? = some k → k = n) :
    Safe L strict (callPrimitive word tail) m fun _ m' => ∃ B, m'.Ready L strict B := by
  unfold callPrimitive
  cases hop : Opcode.ofPrimitive? word with
  | none => exact hc.sound.fail fun _ => rfl
  | some op =>
    obtain ⟨k, hk⟩ := Opcode.operandCount?_ofPrimitive? hop
    have hkn : strict → k = n := fun h => harity h k (by rw [hop]; exact hk)
    obtain ⟨b, hstacked, hlength⟩ := hc.returns
    refine (hc.sound.safe_operate hk hc.operands fun h => ?_).bind ?_
    · rw [hlength h, hkn h]
      omega
    rintro written _ ⟨H', stack, rfl, hsound, hgrows, hstack, hcount⟩
    -- the primitives that answer leave their answer, the others leave room for a value
    have hfinish : ∀ stack' : List Value, (∀ v ∈ stack', v.Settled A H') → (strict → stack'.length = b + 1) →
        Safe L strict (finishCall tail >>= fun _ => (pure written : Move String))
          { m with heap := H', stack := stack' } fun _ m' => ∃ B, m'.Ready L strict B := by
      intro stack' hstack' hlength'
      exact (Sound.safe_finishCall (o := "") (b := b) ((hc.sound.withHeap hsound hgrows).withStack stack') hc.running
        (hgrows.stacked (hstacked "")) hstack' hlength').bind fun _ _ h => .pure h
    by_cases hout : op = .display ∨ op = .newline
    · rw [if_pos hout]
      refine .bind_ok (run_push _ _) (hfinish _ (fun v hv => ?_) fun h => ?_)
      · rcases List.mem_cons.mp hv with rfl | hv
        · trivial
        · exact hstack v hv
      · have hanswers := Opcode.answers_eq_false.mpr hout
        have := hlength h
        have := hkn h
        rw [hanswers] at hcount
        simp only [List.length_cons, Bool.toNat_false] at hcount ⊢
        omega
    · rw [if_neg hout]
      refine hfinish _ hstack fun h => ?_
      have hanswers : op.answers = true := by
        rw [not_or] at hout
        cases op <;> first
          | rfl
          | exact absurd rfl hout.1
          | exact absurd rfl hout.2
      have := hlength h
      have := hkn h
      rw [hanswers, Bool.toNat_true] at hcount
      omega

/-- **A value is called.** -/
theorem safe_value (hc : Calling L strict A m tail n) {v : Value} {parameters : String → Option Nat}
    (hparameters : strict → ∀ N k, (p.enclosing.find? N).isSome → L.Entry N k → parameters N = some k)
    (hv : Readable L A m v) (harity : strict → ∀ k, valueArity? parameters m.heap v = some k → k = n) :
    Safe L strict (callValue v tail) m fun _ m' => ∃ B, m'.Ready L strict B := by
  have hentry : ∀ {N : String}, (p.enclosing.find? N).isSome → (∃ k, L.Entry N k) →
      valueArity? parameters m.heap v = parameters N → strict → L.Entry N n := by
    rintro N henclosing ⟨k, hk⟩ heq h
    obtain rfl := harity h k (heq.trans (hparameters h N k henclosing hk))
    exact hk
  -- a settled value is called by its object; a label that is not closed makes its closure first
  rcases hv with hv | ⟨N, rfl, hn, henclosing⟩
  · cases v with
    | label N => exact hv.elim
    | keyword word => exact hc.safe_primitive harity
    | handle h =>
      obtain ⟨o, ho⟩ := Option.isSome_iff_exists.mp hv.1
      refine Safe.bind (Q := fun _ m' => ∃ B, m'.Ready L strict B) ?_ fun _ _ h => .pure h
      cases o with
      | closure c =>
        have hclosure := Heap.closure?_eq_some.mpr ho
        have hsound := hc.sound.heap.closure hclosure
        obtain ⟨line, k, hline, hi, hspot⟩ := hsound.entry
        refine hc.safe_closure hv.2 hclosure (hentry (hsound.still hv.2).2 ⟨k, ?_⟩ (by simp only [valueArity?, ho]))
        exact ⟨line, List.mem_of_getElem? hline, hi, hspot⟩
      | continuation k =>
        unfold callObject
        refine .get_bind ?_
        rw [ho]
        refine hc.safe_resume (hc.sound.heap.objects h _ ho) fun h => ?_
        exact (harity h 1 (by simp only [valueArity?, ho])).symm
      | _ =>
        unfold callObject
        refine .get_bind ?_
        rw [ho]
        exact hc.sound.fail fun _ => rfl
    | _ => exact hc.sound.fail fun _ => rfl
  · exact hc.safe_label hn (hentry henclosing hn.entry rfl)

/-- **What a variable stands for is called.** -/
theorem safe_call (hc : Calling L strict A m tail n) {host : Host} {o name : String} {parameters : String → Option Nat}
    (hmodest : host.registry.Modest) (hruns : Runs A m.heap m.current (some o))
    (hparameters : strict → ∀ N k, (p.enclosing.find? N).isSome → L.Entry N k → parameters N = some k)
    (harity : strict → ∀ k, arity? parameters host m (.atom (.variable name)) = some k → k = n) :
    Safe L strict (call host (.atom (.variable name)) tail) m fun _ m' => ∃ B, m'.Ready L strict B := by
  unfold call
  refine .get_bind ?_
  cases htarget : nativeTarget? host m name with
  | some found =>
    obtain ⟨library, function, native⟩ := found
    have hlookup : host.registry.lookup library function = some native := by
      unfold nativeTarget? at htarget
      obtain ⟨⟨before, after⟩, -, htarget⟩ := Option.bind_eq_some_iff.mp htarget
      dsimp only at htarget
      split at htarget
      · obtain ⟨found, hfound, htarget⟩ := Option.bind_eq_some_iff.mp htarget
        cases htarget
        exact hfound
      · cases htarget
    refine Safe.bind (hc.safe_native (hmodest _ _ _ hlookup) fun h => ?_) fun _ _ h => .pure h
    exact harity h native.arity (by simp only [arity?, callee?, htarget])
  | none =>
    refine hc.sound.dereference_bind hruns fun v hseen hv => hc.safe_value hparameters hv fun h k hk => ?_
    exact harity h k (by simp only [arity?, callee?, htarget, hseen, Option.map_some, hk])

end Calling

end Machine

end SchemeMachine
