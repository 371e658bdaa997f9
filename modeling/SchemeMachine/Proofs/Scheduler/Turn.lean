import SchemeMachine.Proofs.Move
import SchemeMachine.Proofs.Run

/-!
# What a turn leaves of a machine

A scheduler knows a machine by its number. An instruction leaves the number and the program of its machine as they
are, and it fails a machine only by reporting why. What is more, the number is of no consequence to it, unless a
native function asks for it, and the hash of the source that the program comes from is of none at all.

* `Machine.Persists` says that a machine is still the same process, some moves later.
* `Machine.Identity` is the number and the hash, `Machine.named` the machine under another identity.
* `Machine.Impersonal` says that a move leaves such a machine, and does the same under every identity; there is one
  lemma for each move, and `Machine.impersonal_dispatch` for every instruction.
* `Machine.persists_step` and `Machine.step_named` are the results for a whole step, `Machine.persists_deliver` and
  `Machine.deliver_named` for the delivery of a result.
* `Registry.Independent` is what natives must satisfy for another number: they answer at once, and whoever asks.
-/

namespace SchemeMachine

/-- **Natives that answer at once and whoever asks.** -/
def Registry.Independent (r : Registry) : Prop :=
  ∀ library function f, r.lookup library function = some f → ∀ heap call,
    (∀ job, f.invoke heap call ≠ .ok (.pending job)) ∧ ∀ pid, f.invoke heap { call with pid } = f.invoke heap call

/-- An image whose labels are those of its program. -/
def Image.Sound (i : Image) : Prop := Image.ofProgram i.program = .ok i

theorem Image.sound_of_ofProgram {p : Program} {i : Image} (h : Image.ofProgram p = .ok i) :
    i.program = p ∧ i.Sound := by
  obtain ⟨hp, -⟩ := Image.labels_of_ofProgram h
  exact ⟨hp, by rw [Image.Sound, hp, h]⟩

namespace Machine

/-! ### The same process -/

/-- **The same process some moves later.** It has not failed in between, and what it forked is fit to run. -/
structure Persists (m m' : Machine) : Prop where
  pid : m'.pid = m.pid
  image : m'.image = m.image
  failed : m'.state = .failed → m.state = .failed
  forked : (∀ i ∈ m.forked, i.Sound) → ∀ i ∈ m'.forked, i.Sound

theorem Persists.refl (m : Machine) : m.Persists m := ⟨rfl, rfl, id, id⟩

theorem Persists.trans {m m' m'' : Machine} (h : m.Persists m') (h' : m'.Persists m'') : m.Persists m'' where
  pid := h'.pid.trans h.pid
  image := h'.image.trans h.image
  failed hs := h.failed (h'.failed hs)
  forked hm := h'.forked (h.forked hm)

/-- **What tells a machine from another that does the same**: its number and the hash of its source. -/
structure Identity where
  pid : Nat
  hash : String

/-- The identity of a machine. -/
def identity (m : Machine) : Identity := ⟨m.pid, m.image.program.sourceHash⟩

/-- The machine under another identity. -/
def named (who : Identity) (m : Machine) : Machine :=
  { m with
    pid := who.pid
    image := { m.image with program := { m.image.program with sourceHash := who.hash } } }

@[simp] theorem named_pid (who : Identity) (m : Machine) : (m.named who).pid = who.pid := rfl

theorem named_self (m : Machine) : m.named m.identity = m := rfl

/-! ### Moves -/

/-- **A move to which the identity of its machine is of no consequence.** What depends on natives is said on condition
that they allow it: `sure` is that condition. -/
structure Impersonal {α : Type} (sure : Prop) (x : Move α) : Prop where
  keeps : ∀ m : Machine, m.Persists (x.run m).2
  awake : sure → ∀ m : Machine, (x.run m).2.state = .sleeping → m.state = .sleeping
  run : ∀ (m : Machine) (who : Identity), sure ∨ who.pid = m.pid →
    x.run (m.named who) = ((x.run m).1, (x.run m).2.named who)

section Rules

variable {α β : Type} {sure : Prop} {x : Move α} {f : α → Move β}

theorem Impersonal.pure (a : α) : Impersonal sure (pure a : Move α) :=
  ⟨fun m => .refl m, fun _ _ h => h, fun _ _ _ => rfl⟩

theorem Impersonal.throw (e : Fault) : Impersonal sure (throw e : Move α) :=
  ⟨fun m => .refl m, fun _ _ h => h, fun _ _ _ => rfl⟩

theorem Impersonal.bind (hx : Impersonal sure x) (hf : ∀ a, Impersonal sure (f a)) : Impersonal sure (x >>= f) := by
  constructor
  case keeps =>
    intro m
    have hfirst := hx.keeps m
    rw [run_bind]
    generalize x.run m = r at hfirst
    obtain ⟨(e | a), m'⟩ := r
    · exact hfirst
    · exact hfirst.trans ((hf a).keeps m')
  case awake =>
    intro hsure m
    have hfirst := hx.awake hsure m
    rw [run_bind]
    generalize x.run m = r at hfirst
    obtain ⟨(e | a), m'⟩ := r
    · exact hfirst
    · exact fun hs => hfirst ((hf a).awake hsure m' hs)
  case run =>
    intro m who hwho
    have hfirst := hx.run m who hwho
    have hkeeps := hx.keeps m
    rw [run_bind, run_bind, hfirst]
    generalize x.run m = r at hkeeps
    obtain ⟨(e | a), m'⟩ := r
    · rfl
    · exact (hf a).run m' who (hwho.imp_right fun h => h.trans hkeeps.pid.symm)

/-- A look at the machine, at anything but its identity. -/
theorem Impersonal.get_bind {f : Machine → Move β} (hsame : ∀ m who, f (m.named who) = f m)
    (hf : ∀ m, Impersonal sure (f m)) : Impersonal sure (get >>= f) := by
  refine ⟨fun m => (hf m).keeps m, fun hsure m => (hf m).awake hsure m, fun m who hwho => ?_⟩
  rw [run_get_bind, run_get_bind, hsame]
  exact (hf m).run m who hwho

/-- A change of registers that puts nothing to sleep and lets nothing fail. -/
theorem Impersonal.change {g : Machine → Machine} (hrun : ∀ m who, g (m.named who) = (g m).named who)
    (hkeeps : ∀ m : Machine, m.Persists (g m)) (hawake : ∀ m, (g m).state = .sleeping → m.state = .sleeping) :
    Impersonal sure (modify g : Move Unit) :=
  ⟨hkeeps, fun _ => hawake, fun m who _ => by rw [run_modify, run_modify, hrun]⟩

/-- A change of registers other than the state and what has been forked. -/
theorem Impersonal.register {g : Machine → Machine} (hrun : ∀ m who, g (m.named who) = (g m).named who)
    (himage : ∀ m, (g m).image = m.image) (hstate : ∀ m, (g m).state = m.state)
    (hforked : ∀ m, (g m).forked = m.forked) : Impersonal sure (modify g : Move Unit) := by
  refine .change hrun (fun m => ⟨?_, himage m, fun h => hstate m ▸ h, fun h => hforked m ▸ h⟩)
    fun m h => hstate m ▸ h
  -- the number can only be what it was: `g` commutes with setting it
  have hsame := hrun m m.identity
  rw [named_self] at hsame
  rw [hsame]
  rfl

theorem Impersonal.require (r : Except Fault α) : Impersonal sure (require r) := by
  cases r with
  | ok a => exact .pure a
  | error e => exact .throw e

/-- What a check answers is known to what follows. -/
theorem Impersonal.require_bind {r : Except Fault α} (hf : ∀ a, r = .ok a → Impersonal sure (f a)) :
    Impersonal sure (Machine.require r >>= f) := by
  cases r with
  | ok a => exact hf a rfl
  | error e => exact .throw e

end Rules

variable {sure : Prop}

theorem impersonal_advance : Impersonal sure advance :=
  .register (fun _ _ => rfl) (fun _ => rfl) (fun _ => rfl) fun _ => rfl

theorem impersonal_push (v : Value) : Impersonal sure (push v) :=
  .register (fun _ _ => rfl) (fun _ => rfl) (fun _ => rfl) fun _ => rfl

theorem impersonal_jump (label : String) : Impersonal sure (jump label) := by
  refine .get_bind (fun _ _ => rfl) fun m => ?_
  split
  · exact .register (fun _ _ => rfl) (fun _ => rfl) (fun _ => rfl) fun _ => rfl
  · exact .throw _

theorem impersonal_pop : Impersonal sure pop := by
  refine .get_bind (fun _ _ => rfl) fun m => ?_
  split
  · exact .bind (.register (fun _ _ => rfl) (fun _ => rfl) (fun _ => rfl) fun _ => rfl) fun _ => .pure _
  · exact .throw _

theorem impersonal_allocate (o : Object) : Impersonal sure (allocate o) :=
  ⟨fun _ => ⟨rfl, rfl, id, id⟩, fun _ _ h => h, fun _ _ _ => rfl⟩

theorem impersonal_doReturn : Impersonal sure doReturn := by
  refine .change (fun m who => ?_) (fun m => ?_) fun m h => ?_
  · cases hframes : m.frames <;> simp only [named, hframes]
  · cases hframes : m.frames with
    | nil => exact ⟨rfl, rfl, fun h => (by simp at h), id⟩
    | cons frame frames => exact ⟨rfl, rfl, id, id⟩
  · cases hframes : m.frames with
    | nil => simp [hframes] at h
    | cons frame frames => simpa [hframes] using h

/-! ### Variables -/

theorem impersonal_closureOf (h : Handle) : Impersonal sure (closureOf h) := by
  refine .get_bind (fun _ _ => rfl) fun m => ?_
  split
  · exact .pure _
  · exact .throw _

theorem impersonal_updateClosure (h : Handle) (f : Closure → Closure) : Impersonal sure (updateClosure h f) := by
  refine .get_bind (fun _ _ => rfl) fun m => ?_
  split
  · exact .register (fun _ _ => rfl) (fun _ => rfl) (fun _ => rfl) fun _ => rfl
  · exact .throw _

theorem impersonal_dereference (name : String) : Impersonal sure (dereference name) := by
  refine .get_bind (fun _ _ => rfl) fun m => ?_
  split
  · exact .throw _
  · refine .bind (impersonal_closureOf _) fun c => .get_bind (fun _ _ => rfl) fun m => ?_
    split
    · exact .pure _
    · exact .throw _

theorem impersonal_store (name : String) (v : Value) : Impersonal sure (store name v) := by
  refine .get_bind (fun _ _ => rfl) fun m => ?_
  split
  · exact .throw _
  · exact impersonal_updateClosure _ _

theorem impersonal_assign (name : String) (v : Value) : Impersonal sure (assign name v) := by
  refine .get_bind (fun _ _ => rfl) fun m => ?_
  split
  · exact .throw _
  · refine .get_bind (fun _ _ => rfl) fun m => ?_
    split
    · exact .throw _
    · split
      · exact impersonal_updateClosure _ _
      · dsimp only
        split
        · refine .bind (impersonal_updateClosure _ _) fun _ => .get_bind (fun _ _ => rfl) fun m => ?_
          split
          · exact impersonal_updateClosure _ _
          · exact .pure _
        · refine .get_bind (fun _ _ => rfl) fun m => ?_
          split
          · exact impersonal_updateClosure _ _
          · exact .throw _

theorem impersonal_lexicalParent (label : String) : Impersonal sure (lexicalParent label) := by
  refine .get_bind (fun _ _ => rfl) fun m => ?_
  split
  · exact .pure _
  · split
    · exact .throw _
    · exact .pure _
    · exact .throw _

theorem impersonal_makeClosure (label : String) : Impersonal sure (makeClosure label) := by
  refine .get_bind (fun _ _ => rfl) fun m => ?_
  split
  · exact .throw _
  · refine .bind (impersonal_lexicalParent label) fun parent => ?_
    cases parent with
    | none => exact .bind (.pure _) fun free => impersonal_allocate _
    | some h =>
      exact .bind (impersonal_closureOf h) fun c => .bind (.pure c.environment) fun free => impersonal_allocate _

/-! ### Primitives and calls -/

theorem impersonal_listItems (op : Opcode) (v : Value) : Impersonal sure (listItems op v) := by
  unfold listItems
  dsimp only
  split
  · exact .throw _
  · refine .get_bind (fun _ _ => rfl) fun m => ?_
    split
    · exact .pure _
    · exact .throw _
    · exact .throw _

theorem impersonal_operateNumeric (op : Opcode) : Impersonal sure (operateNumeric op) := by
  refine .bind impersonal_pop fun b => .bind impersonal_pop fun a => ?_
  dsimp only
  split
  · exact impersonal_push _
  · exact .throw _

theorem impersonal_operate (op : Opcode) : Impersonal sure (operate op) := by
  have hanswer (v : Value) : Impersonal sure (do push v; return "") := .bind (impersonal_push v) fun _ => .pure _
  unfold operate
  cases op with
  | add | sub | mul | div | mod | pow | ge | le | gt | lt => exact .bind (impersonal_operateNumeric _) fun _ => .pure _
  | eqn =>
    exact .bind impersonal_pop fun b => .bind impersonal_pop fun a => .get_bind (fun _ _ => rfl) fun m => hanswer _
  | and | or => exact .bind impersonal_pop fun b => .bind impersonal_pop fun a => hanswer _
  | not => exact .bind impersonal_pop fun a => hanswer _
  | car =>
    refine .bind impersonal_pop fun list => .bind (impersonal_listItems _ list) fun items => ?_
    split
    · exact hanswer _
    · exact .throw _
  | cdr =>
    refine .bind impersonal_pop fun list => .bind (impersonal_listItems _ list) fun items => ?_
    split
    · exact .bind (impersonal_allocate _) fun h => hanswer _
    · exact .throw _
  | cons =>
    exact .bind impersonal_pop fun list => .bind impersonal_pop fun head =>
      .bind (impersonal_listItems _ list) fun items => .bind (impersonal_allocate _) fun h => hanswer _
  | display => exact .bind impersonal_pop fun v => .get_bind (fun _ _ => rfl) fun m => .pure _
  | newline => exact .pure _
  | _ => exact .throw _

theorem impersonal_pushFrame (tail : Bool) : Impersonal sure (pushFrame tail) := by
  cases tail with
  | true => exact .pure _
  | false => exact .register (fun _ _ => rfl) (fun _ => rfl) (fun _ => rfl) fun _ => rfl

theorem impersonal_enter (activation : Handle) (tail : Bool) : Impersonal sure (enter activation tail) :=
  .bind (impersonal_pushFrame tail) fun _ =>
    .register (fun _ _ => rfl) (fun _ => rfl) (fun _ => rfl) fun _ => rfl

theorem impersonal_finishCall (tail : Bool) : Impersonal sure (finishCall tail) := by
  cases tail with
  | true => exact impersonal_doReturn
  | false => exact impersonal_advance

theorem impersonal_popArguments (count : Nat) : Impersonal sure (popArguments count) := by
  induction count with
  | zero => exact .pure _
  | succ count ih => exact .bind impersonal_pop fun v => .bind ih fun others => .pure _

/-- What is done with the answer of a native function. -/
def receive (answer : Except NativeError NativeAnswer) (tail : Bool) : Move Unit := do
  match answer with
  | .error (.io reason) => throw (.nativeIo reason)
  | .error e => throw (.native e)
  | .ok (.value v) => do
    push v
    finishCall tail
  | .ok (.newString content) => do
    push (.handle (← allocate (.string content)))
    finishCall tail
  | .ok (.pending job) => do
    pushFrame tail
    modify fun m => { m with pending := some job, state := .sleeping }

theorem callNative_eq (library function : String) (native : NativeFunction) (tail : Bool) :
    callNative library function native tail = (do
      let arguments ← popArguments native.arity
      let m ← get
      receive (native.invoke m.heap ⟨m.pid, library, function, arguments⟩) tail) := rfl

theorem impersonal_receive {answer : Except NativeError NativeAnswer} (tail : Bool)
    (hsure : sure → ∀ job, answer ≠ .ok (.pending job)) : Impersonal sure (receive answer tail) := by
  unfold receive
  split
  · exact .throw _
  · exact .throw _
  · exact .bind (impersonal_push _) fun _ => impersonal_finishCall tail
  · exact .bind (impersonal_allocate _) fun h => .bind (impersonal_push _) fun _ => impersonal_finishCall tail
  · next job =>
    -- a job puts the machine to sleep; natives that answer at once start none
    refine .bind (impersonal_pushFrame tail) fun _ => ⟨fun m => ⟨rfl, rfl, fun h => ?_, id⟩, fun hs => ?_, fun _ _ _ => rfl⟩
    · cases h
    · exact absurd rfl (hsure hs job)

theorem impersonal_callNative {registry : Registry} (hsure : sure → registry.Independent) {library function : String}
    {native : NativeFunction} (hnative : registry.lookup library function = some native) (tail : Bool) :
    Impersonal sure (callNative library function native tail) := by
  rw [callNative_eq]
  refine .bind (impersonal_popArguments _) fun arguments => ?_
  have hanswer (m : Machine) : Impersonal sure
      (receive (native.invoke m.heap ⟨m.pid, library, function, arguments⟩) tail) :=
    impersonal_receive tail fun hs => ((hsure hs) library function native hnative _ _).1
  refine ⟨fun m => (hanswer m).keeps m, fun hs m => (hanswer m).awake hs m, fun m who hwho => ?_⟩
  have hsame : native.invoke m.heap ⟨who.pid, library, function, arguments⟩ =
      native.invoke m.heap ⟨m.pid, library, function, arguments⟩ := by
    rcases hwho with hs | hpid
    · exact ((hsure hs) library function native hnative m.heap ⟨m.pid, library, function, arguments⟩).2 who.pid
    · rw [hpid]
  rw [run_get_bind, run_get_bind]
  change (receive (native.invoke m.heap ⟨who.pid, library, function, arguments⟩) tail).run (m.named who) = _
  rw [hsame]
  exact (hanswer m).run m who hwho

theorem impersonal_callPrimitive (word : String) (tail : Bool) : Impersonal sure (callPrimitive word tail) := by
  have hfinish (written : String) : Impersonal sure (do finishCall tail; return written) :=
    .bind (impersonal_finishCall tail) fun _ => .pure _
  unfold callPrimitive
  split
  · exact .throw _
  · refine .bind (impersonal_operate _) fun written => ?_
    dsimp only
    split
    · exact .bind (impersonal_push _) fun _ => hfinish written
    · exact hfinish written

theorem impersonal_resume (k : Continuation) : Impersonal sure (resume k) := by
  refine .bind impersonal_pop fun v => .get_bind (fun _ _ => rfl) fun m => ?_
  split
  · exact .throw _
  · exact .register (fun _ _ => rfl) (fun _ => rfl) (fun _ => rfl) fun _ => rfl

theorem impersonal_callObject (h : Handle) (tail : Bool) : Impersonal sure (callObject h tail) := by
  refine .get_bind (fun _ _ => rfl) fun m => ?_
  split
  · exact .bind (impersonal_allocate _) fun activation => impersonal_enter activation tail
  · exact impersonal_resume _
  · exact .throw _
  · exact .throw _

theorem impersonal_callValue (v : Value) (tail : Bool) : Impersonal sure (callValue v tail) := by
  unfold callValue
  split
  · exact .bind (impersonal_makeClosure _) fun h => .bind (impersonal_enter h tail) fun _ => .pure _
  · exact impersonal_callPrimitive _ tail
  · exact .bind (impersonal_callObject _ tail) fun _ => .pure _
  · exact .throw _

variable {host : Host}

theorem impersonal_call (hsure : sure → host.registry.Independent) (target : Operand) (tail : Bool) :
    Impersonal sure (call host target tail) := by
  unfold call
  split
  · refine .get_bind (fun _ _ => rfl) fun m => ?_
    split
    · next hnative =>
      exact .bind (impersonal_callNative hsure (nativeTarget?_eq_some hnative).2 tail) fun _ => .pure _
    · exact .bind (impersonal_dereference _) fun v => impersonal_callValue v tail
  · split
    · exact impersonal_callValue _ tail
    · exact .throw _

/-! ### Instructions -/

theorem impersonal_closed (v : Value) : Impersonal sure (closed v) := by
  cases v with
  | label name => exact .bind (impersonal_makeClosure name) fun h => .pure _
  | _ => exact .pure _

theorem impersonal_operandValue (op : Opcode) (operand : Option Operand) :
    Impersonal sure (operandValue op operand) := by
  unfold operandValue
  split
  · exact .throw _
  · exact impersonal_dereference _
  · split
    · exact .pure _
    · exact .throw _

theorem impersonal_branch (op : Opcode) (operand : Option Operand) (condition : Bool) :
    Impersonal sure (branch op operand condition) := by
  refine .bind (.require _) fun label => .bind impersonal_pop fun v => ?_
  split
  · exact impersonal_jump label
  · exact impersonal_advance

theorem impersonal_swap : Impersonal sure swap := by
  refine .get_bind (fun _ _ => rfl) fun m => ?_
  split
  · exact .register (fun _ _ => rfl) (fun _ => rfl) (fun _ => rfl) fun _ => rfl
  · exact .throw _

theorem impersonal_capture (name : String) : Impersonal sure (capture name) :=
  .get_bind (fun _ _ => rfl) fun _ => .bind (impersonal_allocate _) fun _ => .bind (impersonal_store _ _) fun _ =>
    impersonal_advance

/-- What is forked is an image made of a program. -/
theorem impersonal_fork (h : Handle) : Impersonal sure (fork host h) := by
  refine .get_bind (fun _ _ => rfl) fun m => .bind (.require _) fun program => .require_bind fun image himage => ?_
  refine .change (fun _ _ => rfl) (fun m => ⟨rfl, rfl, id, fun hm i hi => ?_⟩) fun _ h => h
  rcases List.mem_append.mp hi with hi | hi
  · exact hm i hi
  · rw [List.mem_singleton.mp hi]
    exact (Image.sound_of_ofProgram himage).2

/-- **The identity of its machine is of no consequence to an operation.** -/
theorem impersonal_execute (hsure : sure → host.registry.Independent) (op : Opcode) (operand : Option Operand) :
    Impersonal sure (execute host op operand) := by
  have hadvance (written : String) : Impersonal sure (do advance; return written) :=
    .bind impersonal_advance fun _ => .pure _
  -- setting a state that is neither failed nor asleep
  have hstate {state : RunState} (hf : state ≠ .failed) (hs : state ≠ .sleeping) :
      Impersonal sure (modify fun m => { m with state } : Move Unit) :=
    .change (fun _ _ => rfl) (fun _ => ⟨rfl, rfl, fun h => absurd h hf, id⟩) fun _ h => absurd h hs
  unfold execute
  cases op with
  | store =>
    exact .bind (.require _) fun name => .bind impersonal_pop fun v => .bind (impersonal_store name v) fun _ =>
      hadvance ""
  | load =>
    exact .bind (impersonal_operandValue _ operand) fun v => .bind (impersonal_closed v) fun w =>
      .bind (impersonal_push w) fun _ => hadvance ""
  | push => exact .bind (impersonal_operandValue _ operand) fun v => .bind (impersonal_push v) fun _ => hadvance ""
  | loadClosure =>
    exact .bind (.require _) fun label => .bind (impersonal_makeClosure label) fun h =>
      .bind (impersonal_push _) fun _ => hadvance ""
  | pop => exact .bind impersonal_pop fun _ => hadvance ""
  | swap => exact .bind impersonal_swap fun _ => hadvance ""
  | set =>
    exact .bind (.require _) fun name => .bind impersonal_pop fun v => .bind (impersonal_closed v) fun w =>
      .bind (impersonal_assign name w) fun _ => hadvance ""
  | call =>
    dsimp only
    split
    · exact impersonal_call hsure _ false
    · exact .throw _
  | tailCall =>
    dsimp only
    split
    · exact impersonal_call hsure _ true
    · exact .throw _
  | ret => exact .bind impersonal_doReturn fun _ => .pure _
  | capture => exact .bind (.require _) fun name => .bind (impersonal_capture name) fun _ => .pure _
  | ifTrue => exact .bind (impersonal_branch _ operand true) fun _ => .pure _
  | ifFalse => exact .bind (impersonal_branch _ operand false) fun _ => .pure _
  | goto => exact .bind (.require _) fun label => .bind (impersonal_jump label) fun _ => .pure _
  | fork =>
    dsimp only
    split
    · exact .bind (impersonal_fork _) fun _ => hadvance ""
    · exact .throw _
  | nop => exact hadvance ""
  | pause => exact .bind (hstate (by decide) (by decide)) fun _ => hadvance ""
  | halt => exact .bind (hstate (by decide) (by decide)) fun _ => .pure _
  | _ => exact .bind (impersonal_operate _) fun written => hadvance written

theorem impersonal_dispatch (hsure : sure → host.registry.Independent) (i : Instruction) :
    Impersonal sure (dispatch host i) := by
  cases i with
  | comment text => exact .bind impersonal_advance fun _ => .pure _
  | label name => exact .bind impersonal_advance fun _ => .pure _
  | op opcode operand => exact impersonal_execute hsure opcode operand

/-! ### Steps -/

variable {m : Machine}

theorem collectIfDue_named (settings : Settings) (m : Machine) (who : Identity) :
    (m.named who).collectIfDue settings = (m.collectIfDue settings).named who := by
  unfold collectIfDue
  cases settings.gcThreshold with
  | none => rfl
  | some threshold =>
    by_cases hdue : m.nextCollection < m.heap.dynamic
    · simp only [named, hdue, if_true, collectGarbage, roots]
    · simp only [named, hdue, if_false]

/-- Garbage collection concerns the heap alone. -/
theorem collectIfDue_registers (settings : Settings) (m : Machine) :
    m.Persists (m.collectIfDue settings) ∧ (m.collectIfDue settings).state = m.state := by
  unfold collectIfDue
  cases settings.gcThreshold with
  | none => exact ⟨.refl m, rfl⟩
  | some threshold =>
    dsimp only
    split
    · exact ⟨⟨rfl, rfl, id, id⟩, rfl⟩
    · exact ⟨.refl m, rfl⟩

/-- What is done after an instruction that succeeded concerns neither the process nor its state. -/
theorem afterwards_registers (i : Instruction) (settings : Settings) (m : Machine) :
    m.Persists ((if i.isCall then m.notePeak else m).collectIfDue settings) ∧
      ((if i.isCall then m.notePeak else m).collectIfDue settings).state = m.state := by
  split
  · obtain ⟨hkeeps, hstate⟩ := collectIfDue_registers settings m.notePeak
    exact ⟨⟨hkeeps.pid, hkeeps.image, hkeeps.failed, hkeeps.forked⟩, hstate⟩
  · exact collectIfDue_registers settings m

/-- **The ways a step of a running machine can go**: it is refused, its instruction fails, or it succeeds. -/
theorem stepRunning_cases (host : Host) (m : Machine) :
    (∃ fault, ∀ who, stepRunning host (m.named who) = halted (m.named who) fault) ∨
    ∃ i, (∀ who fault after, (dispatch host i).run { m.named who with steps := m.steps + 1 } = (.error fault, after) →
        stepRunning host (m.named who) =
          { machine := { after with state := .failed }
            error := some (RunError.located { fault } after.currentLabel m.pc) }) ∧
      ∀ who written after, (dispatch host i).run { m.named who with steps := m.steps + 1 } = (.ok written, after) →
        stepRunning host (m.named who) =
          { machine := (if i.isCall then after.notePeak else after).collectIfDue host.settings, written } := by
  by_cases hlimit : host.settings.maxSteps.any (· ≤ m.steps)
  · exact Or.inl ⟨_, fun who => stepRunning_of_limit (m := m.named who) hlimit⟩
  cases hi : m.image.program.code[m.pc]? with
  | none => exact Or.inl ⟨.placeOutOfRange m.pc, fun who => stepRunning_of_none (m := m.named who) hlimit hi⟩
  | some i =>
    exact Or.inr ⟨i, fun who _ _ hrun => stepRunning_of_error (m := m.named who) hlimit hi hrun,
      fun who _ _ hrun => stepRunning_of_ok (m := m.named who) hlimit hi hrun⟩

/-- The ways a step of a running machine can go, under its own identity. -/
theorem stepRunning_own (host : Host) (m : Machine) :
    (∃ fault, stepRunning host m = halted m fault) ∨
    ∃ i answer after, (dispatch host i).run { m with steps := m.steps + 1 } = (answer, after) ∧
      stepRunning host m =
        match answer with
        | .error fault =>
          { machine := { after with state := .failed }
            error := some (RunError.located { fault } after.currentLabel m.pc) }
        | .ok written =>
          { machine := (if i.isCall then after.notePeak else after).collectIfDue host.settings, written } := by
  rcases stepRunning_cases host m with ⟨fault, hhalted⟩ | ⟨i, herror, hok⟩
  · exact Or.inl ⟨fault, hhalted m.identity⟩
  · cases hrun : (dispatch host i).run { m with steps := m.steps + 1 } with
    | mk answer after =>
      refine Or.inr ⟨i, answer, after, hrun, ?_⟩
      cases answer with
      | error fault => exact herror m.identity fault after hrun
      | ok written => exact hok m.identity written after hrun

/-- A running machine after its step: the same process, not failed unless an error says why. -/
theorem persists_stepRunning (host : Host) (hm : m.state ≠ .failed) :
    m.Persists { (stepRunning host m).machine with state := m.state } ∧
      ((stepRunning host m).error = none → (stepRunning host m).machine.state ≠ .failed) := by
  rcases stepRunning_own host m with ⟨fault, hstep⟩ | ⟨i, answer, after, hrun, hstep⟩
  · rw [hstep]
    exact ⟨⟨rfl, rfl, id, id⟩, fun h => nomatch h⟩
  · have hdispatch : Impersonal False (dispatch host i) := impersonal_dispatch (fun h => h.elim) i
    have hkeeps := hdispatch.keeps { m with steps := m.steps + 1 }
    rw [hrun] at hkeeps
    rw [hstep]
    cases answer with
    | error fault => exact ⟨⟨hkeeps.pid, hkeeps.image, id, hkeeps.forked⟩, fun h => nomatch h⟩
    | ok written =>
      obtain ⟨hafter, hstate⟩ := afterwards_registers i host.settings after
      refine ⟨⟨hafter.pid.trans hkeeps.pid, hafter.image.trans hkeeps.image, id,
        fun h => hafter.forked (hkeeps.forked h)⟩, fun _ hfailed => ?_⟩
      exact hm (hkeeps.failed (hstate.symm.trans hfailed))

/-- **A step leaves the same process**, which fails only if an error says why. -/
theorem persists_step (host : Host) (hm : m.state ≠ .failed) :
    m.Persists { (m.step host).machine with state := m.state } ∧
      ((m.step host).error = none → (m.step host).machine.state ≠ .failed) := by
  unfold step
  split
  · obtain ⟨hkeeps, hfailed⟩ := persists_stepRunning (m := { m with state := .running }) host fun h => nomatch h
    exact ⟨⟨hkeeps.pid, hkeeps.image, id, hkeeps.forked⟩, hfailed⟩
  · obtain ⟨hkeeps, hfailed⟩ := persists_stepRunning (m := { m with state := .running }) host fun h => nomatch h
    exact ⟨⟨hkeeps.pid, hkeeps.image, id, hkeeps.forked⟩, hfailed⟩
  · exact ⟨.refl m, fun _ => hm⟩

/-- **What natives must allow** for a machine to do the same under another identity. -/
def Indifferent (host : Host) (m : Machine) (who : Identity) : Prop :=
  host.registry.Independent ∨ who.pid = m.pid

theorem stepRunning_named {who : Identity} (hwho : Indifferent host m who) :
    stepRunning host (m.named who) =
      { stepRunning host m with machine := (stepRunning host m).machine.named who } := by
  rcases stepRunning_cases host m with ⟨fault, hhalted⟩ | ⟨i, herror, hok⟩
  · have hstep := hhalted m.identity
    rw [named_self] at hstep
    rw [hhalted who, hstep]
    rfl
  · have hnamed := (impersonal_dispatch (fun hr => hr) i).run { m with steps := m.steps + 1 } who hwho
    cases hrun : (dispatch host i).run { m with steps := m.steps + 1 } with
    | mk answer after =>
      rw [hrun] at hnamed
      cases answer with
      | error fault =>
        have hstep := herror m.identity fault after hrun
        rw [named_self] at hstep
        rw [hstep, herror who fault (after.named who) hnamed]
        rfl
      | ok written =>
        have hstep := hok m.identity written after hrun
        rw [named_self] at hstep
        rw [hstep, hok who written (after.named who) hnamed]
        have hpeak : (if i.isCall then (after.named who).notePeak else after.named who) =
            (if i.isCall then after.notePeak else after).named who := by
          split <;> rfl
        rw [hpeak, collectIfDue_named]

/-- **A step is the same under every identity.** -/
theorem step_named {who : Identity} (hwho : Indifferent host m who) :
    (m.named who).step host = { m.step host with machine := (m.step host).machine.named who } := by
  unfold step
  cases hstate : m.state with
  | running | suspended =>
    simp only [named, hstate]
    exact stepRunning_named (m := { m with state := .running }) hwho
  | sleeping | stopped | failed =>
    simp only [named, hstate]

/-- **A step puts no machine to sleep** if natives answer at once. -/
theorem step_awake (hr : host.registry.Independent) (hm : m.state ≠ .sleeping) : (m.step host).machine.state ≠ .sleeping := by
  have hrunning : (stepRunning host { m with state := .running }).machine.state ≠ .sleeping := by
    rcases stepRunning_own host { m with state := .running } with ⟨fault, hstep⟩ | ⟨i, answer, after, hrun, hstep⟩
    · rw [hstep]
      exact fun h => nomatch h
    · have hawake := (impersonal_dispatch (fun _ => hr) i).awake trivial
        { m with state := .running, steps := m.steps + 1 }
      rw [show (dispatch host i).run { m with state := .running, steps := m.steps + 1 } = (answer, after) from hrun]
        at hawake
      rw [hstep]
      cases answer with
      | error fault => exact fun h => nomatch h
      | ok written =>
        obtain ⟨-, hstate⟩ := afterwards_registers i host.settings after
        exact fun h => nomatch hawake (hstate.symm.trans h)
  unfold step
  split
  · exact hrunning
  · exact hrunning
  · exact hm

/-! ### Delivery -/

/-- **A machine that is woken** is the same process, and goes on or is over. -/
theorem persists_deliver (m : Machine) (result : Except NativeError NativeOutput) :
    m.Persists (m.deliver result) ∧ (m.deliver result).state ≠ .sleeping := by
  have hvalue : m.Persists (resultValue m result).2 := by
    unfold resultValue
    split <;> exact ⟨rfl, rfl, id, id⟩
  unfold deliver
  generalize resultValue m result = r at hvalue
  obtain ⟨v, n⟩ := r
  have hpushed : m.Persists { n with stack := v :: n.stack } :=
    ⟨hvalue.pid, hvalue.image, hvalue.failed, hvalue.forked⟩
  have hreturn : Impersonal False doReturn := impersonal_doReturn
  have hkeeps := hpushed.trans (hreturn.keeps _)
  dsimp only
  split
  · exact ⟨⟨hkeeps.pid, hkeeps.image, (nomatch ·), hkeeps.forked⟩, (nomatch ·)⟩
  · next hasleep => exact ⟨hkeeps, hasleep⟩

/-- **Delivery is the same under every identity.** -/
theorem deliver_named (m : Machine) (result : Except NativeError NativeOutput) (who : Identity) :
    (m.named who).deliver result = (m.deliver result).named who := by
  have hvalue : resultValue (m.named who) result = ((resultValue m result).1, (resultValue m result).2.named who) := by
    unfold resultValue
    split <;> rfl
  unfold deliver
  rw [hvalue]
  generalize resultValue m result = r
  obtain ⟨v, n⟩ := r
  have himpersonal : Impersonal True doReturn := impersonal_doReturn
  have hreturn := congrArg Prod.snd (himpersonal.run { n with stack := v :: n.stack } who (Or.inl trivial))
  let roused (after : Machine) : Machine := if after.state = .sleeping then { after with state := .running } else after
  have hroused (after : Machine) : roused (after.named who) = (roused after).named who := by
    by_cases hasleep : after.state = .sleeping
    · simp only [roused, named, hasleep, if_true]
    · simp only [roused, named, hasleep, if_false]
  calc roused (doReturn.run (named who { n with stack := v :: n.stack })).2
      = roused ((doReturn.run { n with stack := v :: n.stack }).2.named who) := congrArg roused hreturn
    _ = (roused (doReturn.run { n with stack := v :: n.stack }).2).named who := hroused _

end Machine

end SchemeMachine
