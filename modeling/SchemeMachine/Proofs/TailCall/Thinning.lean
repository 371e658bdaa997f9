import SchemeMachine.Proofs.Move
import SchemeMachine.Proofs.Natives

/-!
# Machines with fewer frames

A machine whose program makes tail calls remembers fewer places to return to than one whose program does not, also in
the continuations on its heap. `Machine.thin` takes the frames away that it does not have. Nothing but a return looks
at frames, so that a move does the same with and without them.

* `Heap.thin` and `Machine.thin` take frames away; what a heap shows of a value does not change.
* `Machine.Quiet` says of a move that it does the same with and without frames, and stays where it is in the code;
  there is one lemma for each move.
* `NativeFunction.Blind` is what a native function must satisfy: it does not look at frames.
-/

namespace SchemeMachine

/-! ### Heaps -/

/-- A continuation without some of its frames. -/
def Continuation.thin (keep : Frame → Bool) (k : Continuation) : Continuation := { k with frames := k.frames.filter keep }

/-- An object without some of its frames; only continuations have any. -/
def Object.thin (keep : Frame → Bool) : Object → Object
  | .continuation k => .continuation (k.thin keep)
  | other => other

/-- A slot without some of its frames. -/
def Slot.thin (keep : Frame → Bool) (s : Slot) : Slot := { s with object := s.object.thin keep }

namespace Heap

variable (keep : Frame → Bool)

/-- **A heap without some of its frames.** -/
def thin (H : Heap) : Heap := { H with slots := H.slots.map (Option.map (Slot.thin keep)) }

@[simp] theorem size_thin (H : Heap) : (H.thin keep).slots.size = H.slots.size := Array.size_map

@[simp] theorem slot?_thin (H : Heap) (h : Handle) : (H.thin keep).slot? h = (H.slot? h).map (Slot.thin keep) := by
  unfold slot? thin
  rw [Array.getElem?_map]
  cases H.slots[h]? <;> rfl

@[simp] theorem get?_thin (H : Heap) (h : Handle) : (H.thin keep).get? h = (H.get? h).map (Object.thin keep) := by
  unfold get?
  rw [slot?_thin, Option.map_map, Option.map_map]
  rfl

@[simp] theorem closure?_thin (H : Heap) (h : Handle) : (H.thin keep).closure? h = H.closure? h := by
  unfold closure?
  rw [get?_thin]
  rcases H.get? h with _ | (_ | _ | _ | _) <;> rfl

@[simp] theorem string?_thin (H : Heap) (h : Handle) : (H.thin keep).string? h = H.string? h := by
  unfold string?
  rw [get?_thin]
  rcases H.get? h with _ | (_ | _ | _ | _) <;> rfl

@[simp] theorem mutableClosure?_thin (H : Heap) (h : Handle) : (H.thin keep).mutableClosure? h = H.mutableClosure? h := by
  unfold mutableClosure? isMutable
  rw [closure?_thin, slot?_thin]
  cases H.slot? h <;> rfl

theorem allocate_thin (H : Heap) (o : Object) (r : Option Handle) :
    (H.thin keep).allocate (o.thin keep) r = ((H.allocate o r).1, (H.allocate o r).2.thin keep) := by
  unfold allocate
  rw [show (H.thin keep).free = H.free from rfl]
  cases H.free with
  | nil => simp [thin, Slot.thin]
  | cons h free => simp [thin, Slot.thin, Array.map_setIfInBounds]

theorem put_thin (H : Heap) (h : Handle) (o : Object) :
    (H.thin keep).put h (o.thin keep) = (H.put h o).thin keep := by
  unfold put
  rw [slot?_thin]
  cases H.slot? h with
  | none => rfl
  | some s =>
    simp only [Option.map_some, Slot.thin]
    split
    · rfl
    · simp [thin, Slot.thin, Array.map_setIfInBounds]

/-! ### What a heap shows -/

theorem displayFrom_thin (H : Heap) (fuel : Nat) (v : Value) :
    (H.thin keep).displayFrom fuel v = H.displayFrom fuel v := by
  induction fuel generalizing v with
  | zero => rfl
  | succ fuel ih =>
    have hitems : displayFrom (H.thin keep) fuel = displayFrom H fuel := funext ih
    cases v with
    | handle h =>
      simp only [displayFrom, get?_thin, hitems]
      rcases H.get? h with _ | (_ | _ | _ | _) <;> rfl
    | _ => rfl

@[simp] theorem display_thin (H : Heap) (v : Value) : (H.thin keep).display v = H.display v := by
  rw [display, display, size_thin, displayFrom_thin]

theorem sourceFrom?_thin (H : Heap) (fuel : Nat) (v : Value) :
    (H.thin keep).sourceFrom? fuel v = H.sourceFrom? fuel v := by
  induction fuel generalizing v with
  | zero => rfl
  | succ fuel ih =>
    have hitems : sourceFrom? (H.thin keep) fuel = sourceFrom? H fuel := funext ih
    cases v with
    | handle h =>
      simp only [sourceFrom?, get?_thin, hitems]
      rcases H.get? h with _ | (_ | _ | _ | _) <;> rfl
    | _ => rfl

@[simp] theorem source?_thin (H : Heap) (v : Value) : (H.thin keep).source? v = H.source? v := by
  rw [source?, source?, size_thin, sourceFrom?_thin]

theorem equalFrom_thin (H : Heap) (fuel : Nat) (v w : Value) :
    (H.thin keep).equalFrom fuel v w = H.equalFrom fuel v w := by
  induction fuel generalizing v w with
  | zero => rfl
  | succ fuel ih =>
    cases v with
    | handle x =>
      cases w with
      | handle y =>
        simp only [equalFrom, get?_thin, ih]
        rcases H.get? x with _ | (_ | _ | _ | _) <;> rcases H.get? y with _ | (_ | _ | _ | _) <;> rfl
      | _ => rfl
    | _ => rfl

@[simp] theorem equal_thin (H : Heap) (v w : Value) : (H.thin keep).equal v w = H.equal v w := by
  rw [equal, equal, size_thin, equalFrom_thin]

end Heap

/-! ### Variables -/

namespace Machine

section Environment

variable (keep : Frame → Bool)

theorem binderFrom_thin (H : Heap) (name : String) (fuel : Nat) (start : Option Handle) :
    binderFrom (H.thin keep) name fuel start = binderFrom H name fuel start := by
  induction fuel generalizing start with
  | zero => rfl
  | succ fuel ih =>
    cases start with
    | none => rfl
    | some h => simp only [binderFrom, Heap.closure?_thin, ih]

@[simp] theorem binder?_thin (H : Heap) (start : Option Handle) (name : String) :
    binder? (H.thin keep) start name = binder? H start name := by
  rw [binder?, binder?, Heap.size_thin, binderFrom_thin]

theorem activationFrom_thin (H : Heap) (label : String) (fuel : Nat) (start : Option Handle) :
    activationFrom (H.thin keep) label fuel start = activationFrom H label fuel start := by
  induction fuel generalizing start with
  | zero => rfl
  | succ fuel ih =>
    cases start with
    | none => rfl
    | some h => simp only [activationFrom, Heap.closure?_thin, ih]

@[simp] theorem lookup?_thin (H : Heap) (c : Closure) (name : String) :
    lookup? (H.thin keep) c name = lookup? H c name := by
  have houter : outerBinding? (H.thin keep) c name = outerBinding? H c name := by
    unfold outerBinding?
    rw [binder?_thin]
    cases binder? H c.parent name with
    | none => rfl
    | some h => simp only [Option.bind_some, Heap.closure?_thin]
  unfold lookup?
  rw [houter]

end Environment

/-! ### Machines -/

/-- **How one program looks at a machine that runs another**: the code in place of the other's, the frames that it
keeps, and its own count of steps and calls. -/
structure View where
  code : Array Instruction
  keep : Frame → Bool
  steps : Nat
  peakDepth : Nat

/-- **A machine without some of its frames**, running other code. -/
def thin (v : View) (m : Machine) : Machine :=
  { m with
    image := { m.image with program := { m.image.program with code := v.code } }
    frames := m.frames.filter v.keep
    heap := m.heap.thin v.keep
    steps := v.steps
    peakDepth := v.peakDepth }

/-- **A move that frames do not matter to**, and that stays where it is in the code. -/
structure Quiet {α : Type} (v : View) (x : Move α) : Prop where
  run : ∀ m : Machine, x.run (m.thin v) = ((x.run m).1, (x.run m).2.thin v)
  pc : ∀ m : Machine, (x.run m).2.pc = m.pc
  state : ∀ m : Machine, (x.run m).2.state = m.state
  image : ∀ m : Machine, (x.run m).2.image = m.image

variable {v : View}

section Rules

variable {α β : Type} {x : Move α} {f : α → Move β}

theorem Quiet.pure (a : α) : Quiet v (pure a : Move α) := ⟨fun _ => rfl, fun _ => rfl, fun _ => rfl, fun _ => rfl⟩

theorem Quiet.throw (e : Fault) : Quiet v (throw e : Move α) := ⟨fun _ => rfl, fun _ => rfl, fun _ => rfl, fun _ => rfl⟩

theorem Quiet.bind (hx : Quiet v x) (hf : ∀ a, Quiet v (f a)) : Quiet v (x >>= f) := by
  have hcases (m : Machine) : (∃ e m', x.run m = (.error e, m')) ∨ ∃ a m', x.run m = (.ok a, m') := by
    rcases x.run m with ⟨(e | a), m'⟩
    · exact Or.inl ⟨e, m', rfl⟩
    · exact Or.inr ⟨a, m', rfl⟩
  -- a register that the first move leaves alone is left alone by both
  have hkept {γ : Type} (g : Machine → γ) (hfirst : ∀ m, g (x.run m).2 = g m)
      (hrest : ∀ a m, g ((f a).run m).2 = g m) (m : Machine) : g ((x >>= f).run m).2 = g m := by
    have hm := hfirst m
    rcases hcases m with ⟨e, m', hr⟩ | ⟨a, m', hr⟩
    · rw [run_bind_error hr]
      rwa [hr] at hm
    · rw [run_bind_ok hr, hrest]
      rwa [hr] at hm
  refine ⟨fun m => ?_, hkept _ hx.pc fun a => (hf a).pc, hkept _ hx.state fun a => (hf a).state,
    hkept _ hx.image fun a => (hf a).image⟩
  have hm := hx.run m
  rcases hcases m with ⟨e, m', hr⟩ | ⟨a, m', hr⟩ <;> rw [hr] at hm
  · rw [run_bind_error hr, run_bind_error hm]
  · rw [run_bind_ok hr, run_bind_ok hm]
    exact (hf a).run m'

/-- A look at the machine, at what frames do not matter to. -/
theorem Quiet.get_bind {f : Machine → Move β} (hsame : ∀ m : Machine, f (m.thin v) = f m)
    (hf : ∀ m, Quiet v (f m)) : Quiet v (get >>= f) := by
  refine ⟨fun m => ?_, fun m => (hf m).pc m, fun m => (hf m).state m, fun m => (hf m).image m⟩
  rw [run_get_bind, run_get_bind, hsame]
  exact (hf m).run m

theorem Quiet.modify {g : Machine → Machine} (hrun : ∀ m : Machine, g (m.thin v) = (g m).thin v)
    (hpc : ∀ m, (g m).pc = m.pc) (hstate : ∀ m, (g m).state = m.state) (himage : ∀ m, (g m).image = m.image) :
    Quiet v (modify g : Move Unit) :=
  ⟨fun m => by rw [run_modify, run_modify, hrun], hpc, hstate, himage⟩

theorem Quiet.require (r : Except Fault α) : Quiet v (require r) := by
  cases r with
  | ok a => exact .pure a
  | error e => exact .throw e

end Rules

theorem quiet_push (w : Value) : Quiet v (push w) :=
  .modify (fun _ => rfl) (fun _ => rfl) (fun _ => rfl) fun _ => rfl

theorem quiet_pop : Quiet v pop := by
  refine .get_bind (fun _ => rfl) fun m => ?_
  split
  · exact .bind (.modify (fun _ => rfl) (fun _ => rfl) (fun _ => rfl) fun _ => rfl) fun _ => .pure _
  · exact .throw _

theorem run_allocate_thin (o : Object) (m : Machine) :
    (allocate (o.thin v.keep)).run (m.thin v) = (((allocate o).run m).1, ((allocate o).run m).2.thin v) := by
  have h := Heap.allocate_thin v.keep m.heap o m.current
  unfold allocate
  rw [run_modifyGet, run_modifyGet]
  simp only [thin, h]

/-- Continuations apart, an object is placed as it is. -/
theorem quiet_allocate {o : Object} (ho : o.thin v.keep = o) : Quiet v (allocate o) :=
  ⟨fun m => by rw [← run_allocate_thin, ho], fun _ => rfl, fun _ => rfl, fun _ => rfl⟩

theorem quiet_closureOf (h : Handle) : Quiet v (closureOf h) := by
  refine .get_bind (fun m => by simp only [thin, Heap.closure?_thin]) fun m => ?_
  split
  · exact .pure _
  · exact .throw _

theorem quiet_updateClosure (h : Handle) (f : Closure → Closure) : Quiet v (updateClosure h f) := by
  refine .get_bind (fun m => by simp only [thin, Heap.mutableClosure?_thin]) fun m => ?_
  split
  · next c _ =>
    refine .modify (fun m => ?_) (fun _ => rfl) (fun _ => rfl) fun _ => rfl
    simp only [thin, ← Heap.put_thin v.keep m.heap h (.closure (f c)), Object.thin]
  · exact .throw _

theorem quiet_dereference (name : String) : Quiet v (dereference name) := by
  refine .get_bind (fun _ => rfl) fun m => ?_
  split
  · exact .throw _
  · refine .bind (quiet_closureOf _) fun c => .get_bind (fun m => by simp only [thin, lookup?_thin]) fun m => ?_
    split
    · exact .pure _
    · exact .throw _

theorem quiet_store (name : String) (w : Value) : Quiet v (store name w) := by
  refine .get_bind (fun _ => rfl) fun m => ?_
  split
  · exact .throw _
  · exact quiet_updateClosure _ _

theorem quiet_assign (name : String) (w : Value) : Quiet v (assign name w) := by
  refine .get_bind (fun _ => rfl) fun m => ?_
  split
  · exact .throw _
  · refine .get_bind (fun m => by simp only [thin, Heap.mutableClosure?_thin]) fun m => ?_
    split
    · exact .throw _
    · split
      · exact quiet_updateClosure _ _
      · dsimp only
        split
        · refine .bind (quiet_updateClosure _ _) fun _ => .get_bind (fun m => by simp only [thin, binder?_thin]) fun m => ?_
          split
          · exact quiet_updateClosure _ _
          · exact .pure _
        · refine .get_bind (fun m => by simp only [thin, binder?_thin]) fun m => ?_
          split
          · exact quiet_updateClosure _ _
          · exact .throw _

theorem quiet_lexicalParent (label : String) : Quiet v (lexicalParent label) := by
  refine .get_bind (fun m => by simp only [thin, Heap.size_thin, activationFrom_thin]) fun m => ?_
  split
  · exact .pure _
  · split
    · exact .throw _
    · exact .pure _
    · exact .throw _

theorem quiet_makeClosure (label : String) : Quiet v (makeClosure label) := by
  refine .get_bind (fun _ => rfl) fun m => ?_
  split
  · exact .throw _
  · refine .bind (quiet_lexicalParent label) fun parent => ?_
    cases parent with
    | none => exact .bind (.pure _) fun free => quiet_allocate rfl
    | some h => exact .bind (quiet_closureOf h) fun c => .bind (.pure c.environment) fun free => quiet_allocate rfl

/-! ### Primitives -/

theorem quiet_listItems (op : Opcode) (w : Value) : Quiet v (listItems op w) := by
  unfold listItems
  dsimp only
  split
  · exact .throw _
  · next h _ =>
    refine .get_bind (fun m => ?_) fun m => ?_
    · simp only [thin, Heap.get?_thin]
      rcases m.heap.get? h with _ | (_ | _ | _ | _) <;> rfl
    · split
      · exact .pure _
      · exact .throw _
      · exact .throw _

theorem quiet_operateNumeric (op : Opcode) : Quiet v (operateNumeric op) := by
  refine .bind quiet_pop fun b => .bind quiet_pop fun a => ?_
  dsimp only
  split
  · exact quiet_push _
  · exact .throw _

theorem quiet_operate (op : Opcode) : Quiet v (operate op) := by
  unfold operate
  cases op with
  | add | sub | mul | div | mod | pow | ge | le | gt | lt => exact .bind (quiet_operateNumeric _) fun _ => .pure _
  | eqn =>
    refine .bind quiet_pop fun b => .bind quiet_pop fun a =>
      .get_bind (fun m => by simp only [thin, Heap.equal_thin]) fun m => .bind (quiet_push _) fun _ => .pure _
  | and | or => exact .bind quiet_pop fun b => .bind quiet_pop fun a => .bind (quiet_push _) fun _ => .pure _
  | not => exact .bind quiet_pop fun a => .bind (quiet_push _) fun _ => .pure _
  | car =>
    refine .bind quiet_pop fun list => .bind (quiet_listItems _ list) fun items => ?_
    split
    · exact .bind (quiet_push _) fun _ => .pure _
    · exact .throw _
  | cdr =>
    refine .bind quiet_pop fun list => .bind (quiet_listItems _ list) fun items => ?_
    split
    · exact .bind (quiet_allocate rfl) fun h => .bind (quiet_push _) fun _ => .pure _
    · exact .throw _
  | cons =>
    exact .bind quiet_pop fun list => .bind quiet_pop fun head => .bind (quiet_listItems _ list) fun items =>
      .bind (quiet_allocate rfl) fun h => .bind (quiet_push _) fun _ => .pure _
  | display =>
    exact .bind quiet_pop fun w => .get_bind (fun m => by simp only [thin, Heap.display_thin]) fun m => .pure _
  | newline => exact .pure _
  | _ => exact .throw _

/-! ### Instructions -/

theorem quiet_popArguments (count : Nat) : Quiet v (popArguments count) := by
  induction count with
  | zero => exact .pure _
  | succ count ih => exact .bind quiet_pop fun w => .bind ih fun others => .pure _

theorem quiet_closed (w : Value) : Quiet v (closed w) := by
  cases w with
  | label name => exact .bind (quiet_makeClosure name) fun h => .pure _
  | _ => exact .pure _

theorem quiet_operandValue (op : Opcode) (operand : Option Operand) : Quiet v (operandValue op operand) := by
  unfold operandValue
  split
  · exact .throw _
  · exact quiet_dereference _
  · split
    · exact .pure _
    · exact .throw _

theorem quiet_swap : Quiet v swap := by
  refine .get_bind (fun _ => rfl) fun m => ?_
  split
  · exact .modify (fun _ => rfl) (fun _ => rfl) (fun _ => rfl) fun _ => rfl
  · exact .throw _

theorem quiet_fork (host : Host) (h : Handle) : Quiet v (fork host h) := by
  refine .get_bind (fun m => ?_) fun m => .bind (.require _) fun _ => .bind (.require _) fun _ =>
    .modify (fun _ => rfl) (fun _ => rfl) (fun _ => rfl) fun _ => rfl
  have hprogram : forkProgram host (m.thin v).heap h = forkProgram host m.heap h := by
    simp only [forkProgram, thin, Heap.get?_thin, Heap.source?_thin]
    rcases m.heap.get? h with _ | (_ | _ | _ | _) <;> rfl
  rw [hprogram]

end Machine

/-! ### Native functions -/

/-- **A native function that does not look at frames.** -/
def NativeFunction.Blind (f : NativeFunction) : Prop :=
  ∀ (keep : Frame → Bool) (H : Heap) (call : NativeCall), f.invoke (H.thin keep) call = f.invoke H call

/-- Libraries whose functions do not look at frames. -/
def Registry.Blind (r : Registry) : Prop := ∀ library function f, r.lookup library function = some f → f.Blind

@[simp] theorem NativeCall.string?_thin (call : NativeCall) (keep : Frame → Bool) (H : Heap) (i : Nat) :
    call.string? (H.thin keep) i = call.string? H i := by
  unfold NativeCall.string?
  cases (call.argument i).handle? with
  | none => rfl
  | some h => exact H.string?_thin keep h

/-- **The built-in functions do not look at frames.** -/
theorem Registry.blind_builtins : builtins.Blind := by
  intro library function f hf keep H call
  cases lookup_builtins hf with
  | unary f => rfl
  | binary f => rfl
  | fromNumber => rfl
  | text f => simp only [NativeFunction.ofText, NativeCall.string, NativeCall.string?_thin]
  | length => simp only [stringLength, NativeCall.string, NativeCall.string?_thin]
  | concat => simp only [stringConcat, NativeCall.string, NativeCall.string?_thin]
  | read => simp only [fileRead, NativeCall.path, NativeCall.string?_thin]
  | write => simp only [fileWrite, NativeCall.path, NativeCall.string?_thin, Heap.display_thin]

end SchemeMachine
