import SchemeMachine.Proofs.Move
import SchemeMachine.Proofs.Sound.Heap

/-!
# What moves leave alone

Most moves only read the machine, take operands off the stack, put values on it and place objects: strings, lists, and
closures for code of the program. What does not depend on the stack and survives such objects is true after these moves if
it was true before, whether they fail or not. What is left are the moves that go elsewhere in the code and those that bind
names.

* `Machine.Brings` is what holds of the machine after a move, `Machine.Preserves` says it of all machines.
* `Machine.Steady` says what a property must survive; there is one lemma for each move that stays where it is.
* `Machine.Mobile` is a property that does not depend on the place either. `Machine.Mobile.dispatch` is the result for all
  instructions but those that bind names, `Machine.Mobile.dispatch_of_put` for these as well.
-/

namespace SchemeMachine

/-- **Natives that answer at once.** -/
def Registry.Synchronous (r : Registry) : Prop :=
  ∀ library function f, r.lookup library function = some f → ∀ heap call job, f.invoke heap call ≠ .ok (.pending job)

/-- Whether an instruction binds a name, or binds it anew. -/
def Instruction.binds : Instruction → Bool
  | .op .store _ | .op .set _ | .op .capture _ => true
  | _ => false

namespace Machine

/-! ### Moves in sequence -/

/-- **What holds of the machine after a move**, whether it fails or not. -/
def Brings {α : Type} (x : Move α) (m : Machine) (Q : Machine → Prop) : Prop := Q (x.run m).2

/-- **A move that leaves a property alone.** -/
def Preserves (I : Machine → Prop) {α : Type} (x : Move α) : Prop := ∀ m, I m → Brings x m I

section Rules

variable {α β : Type} {x : Move α} {f : α → Move β} {m : Machine} {I Q R : Machine → Prop}

/-- One move and then another; the first one may fail. -/
theorem Brings.bind (hx : Brings x m Q) (hstop : ∀ m', Q m' → R m') (hf : ∀ a m', Q m' → Brings (f a) m' R) :
    Brings (x >>= f) m R := by
  unfold Brings at hx ⊢
  rw [run_bind]
  generalize x.run m = r at hx
  obtain ⟨(e | a), m'⟩ := r
  · exact hstop m' hx
  · exact hf a m' hx

/-- A look at the machine. -/
theorem Brings.get_bind {f : Machine → Move β} (h : Brings (f m) m Q) : Brings (get >>= f) m Q := h

/-- An answer that is known does not matter. -/
theorem Brings.then_pure (hx : Brings x m Q) (b : β) : Brings (x >>= fun _ => pure b) m Q :=
  hx.bind (fun _ h => h) fun _ _ h => h

theorem Preserves.pure (a : α) : Preserves I (pure a : Move α) := fun _ h => h

theorem Preserves.throw (e : Fault) : Preserves I (throw e : Move α) := fun _ h => h

theorem Preserves.get : Preserves I (get : Move Machine) := fun _ h => h

theorem Preserves.bind (hx : Preserves I x) (hf : ∀ a, Preserves I (f a)) : Preserves I (x >>= f) :=
  fun m h => (hx m h).bind (fun _ h => h) fun a m' h => hf a m' h

theorem Preserves.require (r : Except Fault α) : Preserves I (require r) := by
  cases r with
  | ok a => exact .pure a
  | error e => exact .throw e

end Rules

/-! ### Moves that only read -/

section Reading

variable {I : Machine → Prop}

theorem preserves_closureOf (h : Handle) : Preserves I (closureOf h) := by
  refine .bind .get fun m => ?_
  split
  · exact .pure _
  · exact .throw _

theorem preserves_dereference (name : String) : Preserves I (dereference name) := by
  refine .bind .get fun m => ?_
  split
  · exact .throw _
  · refine .bind (preserves_closureOf _) fun c => .bind .get fun m => ?_
    split
    · exact .pure _
    · exact .throw _

theorem preserves_operandValue (op : Opcode) (operand : Option Operand) : Preserves I (operandValue op operand) := by
  unfold operandValue
  split
  · exact .throw _
  · exact preserves_dereference _
  · split
    · exact .pure _
    · exact .throw _

theorem preserves_lexicalParent (label : String) : Preserves I (lexicalParent label) := by
  refine .bind .get fun m => ?_
  split
  · exact .pure _
  · split
    · exact .throw _
    · exact .pure _
    · exact .throw _

theorem preserves_listItems (op : Opcode) (v : Value) : Preserves I (listItems op v) := by
  unfold listItems
  dsimp only
  split
  · exact .throw _
  · refine .bind .get fun m => ?_
    split
    · exact .pure _
    · exact .throw _
    · exact .throw _

end Reading

/-! ### Moves that place objects -/

/-- A machine with one more object. -/
def placing (m : Machine) (o : Object) : Machine := { m with heap := (m.heap.allocate o m.current).2 }

/-- **A property of the machines with one image** that the stack does not matter for, and new objects neither. -/
structure Steady (image : Image) (I : Machine → Prop) : Prop where
  runs {m : Machine} (h : I m) : m.image = image
  stack {m : Machine} (h : I m) (stack : List Value) : I { m with stack }
  forked {m : Machine} (h : I m) (forked : List Image) : I { m with forked }
  string {m : Machine} (h : I m) (content : String) : I (m.placing (.string content))
  list {m : Machine} (h : I m) (items : List Value) : I (m.placing (.list items))
  /-- A new closure is at a label of the program, and binds nothing yet. -/
  closure {m : Machine} (h : I m) {label : String} {address : Nat} (hlabel : image.labels.find? label = some address)
    (parent : Option Handle) (free : Table String Value) : I (m.placing (.closure { label, address, parent, free }))

namespace Steady

variable {image : Image} {I : Machine → Prop} (hI : Steady image I)

include hI

theorem push (v : Value) : Preserves I (push v) := fun _ h => hI.stack h _

theorem pop : Preserves I pop := by
  intro m h
  show I (Machine.pop.run m).2
  cases hstack : m.stack with
  | nil =>
    rw [run_pop_nil hstack]
    exact h
  | cons v rest =>
    rw [run_pop_cons hstack]
    exact hI.stack h rest

theorem newString (content : String) : Preserves I (allocate (.string content)) := fun _ h => hI.string h content

theorem newList (items : List Value) : Preserves I (allocate (.list items)) := fun _ h => hI.list h items

/-- **A closure is made for code at a label.** -/
theorem makeClosure (label : String) : Preserves I (makeClosure label) := by
  intro m h
  refine .get_bind ?_
  split
  · exact h
  next address hlabel =>
  rw [hI.runs h] at hlabel
  have hallocate (parent : Option Handle) (free : Table String Value) :
      Preserves I (allocate (.closure { label, address, parent, free })) := fun m h => hI.closure h hlabel parent free
  refine (preserves_lexicalParent label m h).bind (fun _ h => h) fun parent m₁ h₁ => ?_
  cases parent with
  | none => exact hallocate _ _ m₁ h₁
  | some g =>
    exact (preserves_closureOf g).bind (fun c => (Preserves.pure c.environment).bind fun free => hallocate _ free) m₁ h₁

theorem closed (v : Value) : Preserves I (closed v) := by
  cases v with
  | label name => exact .bind (hI.makeClosure name) fun h => .pure _
  | _ => exact .pure _

/-! ### Primitives -/

theorem operateNumeric (op : Opcode) : Preserves I (operateNumeric op) := by
  refine .bind hI.pop fun b => .bind hI.pop fun a => ?_
  dsimp only
  split
  · exact hI.push _
  · exact .throw _

/-- **A primitive leaves alone** what the stack does not matter for. -/
theorem operate (op : Opcode) : Preserves I (operate op) := by
  unfold Machine.operate
  cases op with
  | add | sub | mul | div | mod | pow | ge | le | gt | lt => exact .bind (hI.operateNumeric _) fun _ => .pure _
  | eqn => exact .bind hI.pop fun b => .bind hI.pop fun a => .bind .get fun m => .bind (hI.push _) fun _ => .pure _
  | and | or => exact .bind hI.pop fun b => .bind hI.pop fun a => .bind (hI.push _) fun _ => .pure _
  | not => exact .bind hI.pop fun a => .bind (hI.push _) fun _ => .pure _
  | car =>
    refine .bind hI.pop fun list => .bind (preserves_listItems _ list) fun items => ?_
    split
    · exact .bind (hI.push _) fun _ => .pure _
    · exact .throw _
  | cdr =>
    refine .bind hI.pop fun list => .bind (preserves_listItems _ list) fun items => ?_
    split
    · exact .bind (hI.newList _) fun h => .bind (hI.push _) fun _ => .pure _
    · exact .throw _
  | cons =>
    exact .bind hI.pop fun list => .bind hI.pop fun head => .bind (preserves_listItems _ list) fun items =>
      .bind (hI.newList _) fun h => .bind (hI.push _) fun _ => .pure _
  | display => exact .bind hI.pop fun v => .bind .get fun m => .pure _
  | newline => exact .pure _
  | _ => exact .throw _

/-! ### Natives and forks -/

theorem popArguments (count : Nat) : Preserves I (popArguments count) := by
  induction count with
  | zero => exact .pure _
  | succ count ih => exact .bind hI.pop fun v => .bind ih fun others => .pure _

theorem fork (host : Host) (h : Handle) : Preserves I (fork host h) :=
  .bind .get fun _ => .bind (.require _) fun _ => .bind (.require _) fun _ => fun _ hm => hI.forked hm _

/-! ### Moves that bind names -/

section Binding

variable (hput : ∀ {m : Machine} {h : Handle} {c c' : Closure}, I m → m.heap.closure? h = some c → c.Alters c' →
  I { m with heap := m.heap.put h (.closure c') })

include hput

omit hI in
/-- Bindings may change, code and parent may not. -/
theorem updateClosure (h : Handle) {f : Closure → Closure} (hf : ∀ c : Closure, c.Alters (f c)) :
    Preserves I (updateClosure h f) := by
  intro m hm
  refine .get_bind ?_
  split
  · next c hc =>
    have hc : m.heap.closure? h = some c := by
      unfold Heap.mutableClosure? at hc
      split at hc
      · exact hc
      · cases hc
    exact hput hm hc (hf c)
  · exact hm

omit hI in
theorem store (name : String) (v : Value) : Preserves I (store name v) := by
  refine .bind .get fun m => ?_
  split
  · exact .throw _
  · exact updateClosure hput _ fun c => c.alters_bind name v

omit hI in
theorem assign (name : String) (v : Value) : Preserves I (assign name v) := by
  have hbound (h : Handle) := updateClosure hput h fun c => Closure.alters_setBound c name v
  have hfree (h : Handle) := updateClosure hput h fun c => Closure.alters_setFree c name v
  refine .bind .get fun m => ?_
  split
  · exact .throw _
  refine .bind .get fun m => ?_
  split
  · exact .throw _
  split
  · exact hbound _
  dsimp only
  split
  · refine .bind (hfree _) fun _ => .bind .get fun m => ?_
    split
    · exact hbound _
    · exact .pure _
  · refine .bind .get fun m => ?_
    split
    · exact hbound _
    · exact .throw _

end Binding

end Steady

/-! ### Moves that go elsewhere -/

/-- **A property that the place does not matter for either**, nor what calls leave behind: activations, which bind nothing
yet, and continuations. It survives the end of a run and a pause, and also a native job unless there are none. -/
structure Mobile (registry : Registry) (image : Image) (I : Machine → Prop) : Prop extends Steady image I where
  place {m : Machine} (h : I m) (pc : Nat) (frames : List Frame) (current : Option Handle) : I { m with pc, frames, current }
  stopped {m : Machine} (h : I m) : I { m with state := .stopped }
  suspended {m : Machine} (h : I m) : I { m with state := .suspended }
  sleeping : (∀ m job, I m → I { m with pending := some job, state := .sleeping }) ∨ registry.Synchronous
  activation {m : Machine} (h : I m) (label : String) (address : Nat) (parent : Option Handle) (free : Table String Value) :
    I (m.placing (.closure { label, address, parent, free }))
  continuation {m : Machine} (h : I m) (k : Continuation) : I (m.placing (.continuation k))

namespace Mobile

variable {registry : Registry} {image : Image} {I : Machine → Prop} (hI : Mobile registry image I)

include hI

theorem advance : Preserves I advance := fun _ h => hI.place h _ _ _

theorem jump (label : String) : Preserves I (jump label) := by
  refine .bind .get fun m => ?_
  split
  · exact fun _ h => hI.place h _ _ _
  · exact .throw _

theorem doReturn : Preserves I doReturn := by
  intro m h
  show I (Machine.doReturn.run m).2
  unfold Machine.doReturn
  rw [run_modify]
  split
  · exact hI.place h _ _ _
  · exact hI.stopped h

theorem pushFrame (tail : Bool) : Preserves I (pushFrame tail) := by
  cases tail with
  | true => exact .pure _
  | false => exact fun _ h => hI.place h _ _ _

theorem finishCall (tail : Bool) : Preserves I (finishCall tail) := by
  cases tail with
  | true => exact hI.doReturn
  | false => exact hI.advance

theorem enter (activation : Handle) (tail : Bool) : Preserves I (enter activation tail) :=
  .bind (hI.pushFrame tail) fun _ _ h => hI.place h _ _ _

theorem resume (k : Continuation) : Preserves I (resume k) := by
  refine .bind hI.pop fun v => .bind .get fun m => ?_
  split
  · exact .throw _
  · exact fun m h => hI.place (hI.stack h (v :: k.stack)) _ _ _

theorem callNative {library function : String} {native : NativeFunction}
    (hnative : registry.lookup library function = some native) (tail : Bool) :
    Preserves I (callNative library function native tail) := by
  refine .bind (hI.popArguments _) fun arguments => .bind .get fun m => ?_
  split
  · exact .throw _
  · exact .throw _
  · exact .bind (hI.push _) fun _ => hI.finishCall tail
  · exact .bind (hI.newString _) fun h => .bind (hI.push _) fun _ => hI.finishCall tail
  · next job hjob =>
    rcases hI.sleeping with hsleeping | hsync
    · exact .bind (hI.pushFrame tail) fun _ m h => hsleeping m job h
    · exact absurd hjob (hsync _ _ _ hnative _ _ _)

theorem callPrimitive (word : String) (tail : Bool) : Preserves I (callPrimitive word tail) := by
  unfold Machine.callPrimitive
  split
  · exact .throw _
  · refine .bind (hI.operate _) fun written => ?_
    dsimp only
    split
    · exact .bind (hI.push _) fun _ => .bind (hI.finishCall tail) fun _ => .pure _
    · exact .bind (hI.finishCall tail) fun _ => .pure _

theorem callObject (h : Handle) (tail : Bool) : Preserves I (callObject h tail) := by
  refine .bind .get fun m => ?_
  split
  · next c _ =>
    have hallocate : Preserves I (allocate (.closure
        { label := c.label, address := c.address, parent := some h, free := c.environment })) :=
      fun _ h => hI.activation h _ _ _ _
    exact .bind hallocate fun activation => hI.enter activation tail
  · exact hI.resume _
  · exact .throw _
  · exact .throw _

theorem callValue (v : Value) (tail : Bool) : Preserves I (callValue v tail) := by
  unfold Machine.callValue
  split
  · exact .bind (hI.makeClosure _) fun h => .bind (hI.enter h tail) fun _ => .pure _
  · exact hI.callPrimitive _ tail
  · exact .bind (hI.callObject _ tail) fun _ => .pure _
  · exact .throw _

/-- **A call leaves alone** what the place does not matter for. -/
theorem call {host : Host} (hhost : host.registry = registry) (target : Operand) (tail : Bool) :
    Preserves I (call host target tail) := by
  unfold Machine.call
  split
  · refine .bind .get fun m => ?_
    split
    · next library function native htarget =>
      have hnative : registry.lookup library function = some native := hhost ▸ (nativeTarget?_eq_some htarget).2
      exact .bind (hI.callNative hnative tail) fun _ => .pure _
    · exact .bind (preserves_dereference _) fun v => hI.callValue v tail
  · split
    · exact hI.callValue _ tail
    · exact .throw _

theorem branch (op : Opcode) (operand : Option Operand) (condition : Bool) : Preserves I (branch op operand condition) := by
  refine .bind (.require _) fun label => .bind hI.pop fun v => ?_
  split
  · exact hI.jump label
  · exact hI.advance

theorem swap : Preserves I swap := by
  refine .bind .get fun m => ?_
  split
  · exact fun _ h => hI.stack h _
  · exact .throw _

/-- **An instruction that binds no name leaves alone** what neither operands nor places matter for. -/
theorem dispatch {host : Host} (hhost : host.registry = registry) {i : Instruction} (hi : i.binds = false) :
    Preserves I (dispatch host i) := by
  have hon (written : String) : Preserves I (Machine.advance >>= fun _ => (pure written : Move String)) :=
    .bind hI.advance fun _ => .pure _
  cases i with
  | comment => exact hon ""
  | label => exact hon ""
  | op opcode operand =>
    -- each operation is a sequence of moves that leave it alone
    cases opcode with
    | store | set | capture => cases hi
    | load =>
      exact .bind (preserves_operandValue _ _) fun v => .bind (hI.closed v) fun w => .bind (hI.push w) fun _ => hon ""
    | push => exact .bind (preserves_operandValue _ _) fun v => .bind (hI.push v) fun _ => hon ""
    | loadClosure =>
      exact .bind (.require _) fun label => .bind (hI.makeClosure label) fun h => .bind (hI.push _) fun _ => hon ""
    | pop => exact .bind hI.pop fun _ => hon ""
    | swap => exact .bind hI.swap fun _ => hon ""
    | call =>
      cases operand with
      | none => exact .throw _
      | some target => exact hI.call hhost target false
    | tailCall =>
      cases operand with
      | none => exact .throw _
      | some target => exact hI.call hhost target true
    | ret => exact .bind hI.doReturn fun _ => .pure _
    | ifTrue => exact .bind (hI.branch _ _ _) fun _ => .pure _
    | ifFalse => exact .bind (hI.branch _ _ _) fun _ => .pure _
    | goto => exact .bind (.require _) fun label => .bind (hI.jump label) fun _ => .pure _
    | fork =>
      unfold Machine.dispatch Machine.execute
      dsimp only
      split
      · exact .bind (hI.fork host _) fun _ => hon ""
      · exact .throw _
    | nop => exact hon ""
    | pause =>
      have hpause : Preserves I (modify fun m => { m with state := .suspended } : Move Unit) := fun _ h => hI.suspended h
      exact .bind hpause fun _ => hon ""
    | halt => exact fun _ h => hI.stopped h
    | _ => exact .bind (hI.operate _) fun written => hon written

/-- **An instruction leaves alone** what new bindings do not matter for either. -/
theorem dispatch_of_put (hput : ∀ {m : Machine} {h : Handle} {c c' : Closure}, I m → m.heap.closure? h = some c →
      c.Alters c' → I { m with heap := m.heap.put h (.closure c') })
    {host : Host} (hhost : host.registry = registry) (i : Instruction) : Preserves I (Machine.dispatch host i) := by
  have hon (written : String) : Preserves I (Machine.advance >>= fun _ => (pure written : Move String)) :=
    .bind hI.advance fun _ => .pure _
  cases hi : i.binds with
  | false => exact hI.dispatch hhost hi
  | true =>
    cases i with
    | comment => cases hi
    | label => cases hi
    | op opcode operand =>
      cases opcode with
      | store =>
        exact .bind (.require _) fun name => .bind hI.pop fun v => .bind (Steady.store hput name v) fun _ => hon ""
      | set =>
        exact .bind (.require _) fun name => .bind hI.pop fun v => .bind (hI.closed v) fun w =>
          .bind (Steady.assign hput name w) fun _ => hon ""
      | capture =>
        have hcapture (name : String) : Preserves I (capture name) := by
          refine .bind .get fun m => ?_
          have hallocate : Preserves I (allocate (.continuation ⟨m.current, m.stack, m.frames, name⟩)) :=
            fun _ h => hI.continuation h _
          exact .bind hallocate fun h => .bind (Steady.store hput name _) fun _ => hI.advance
        exact .bind (.require _) fun name => .bind (hcapture name) fun _ => .pure _
      | _ => cases hi

end Mobile

end Machine

end SchemeMachine
