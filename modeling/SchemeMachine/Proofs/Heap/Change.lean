import SchemeMachine.Proofs.Move
import SchemeMachine.Proofs.Sound.Heap

/-!
# What moves do to the heap

Moves place objects and bind the names of closures anew; nothing else happens to a heap but for collections. So a
relation that survives both holds between the heap before a move and the heap after it. Lists are special: only the
primitives make them, from operands and from the items of lists.

* `Heap.Change` is such a relation, `Machine.Changes` says that a move keeps to it, with one lemma for each move.
* `Machine.Makes` says what a new list holds, `Machine.ChangesAt` is about moves of one machine that may make one.
* `Machine.changesAt_dispatch` is the result for every instruction.
-/

namespace SchemeMachine

/-- **A relation between heaps that changes keep to.** -/
structure Heap.Change where
  Rel : Heap → Heap → Prop
  refl {H : Heap} (ht : H.Tidy) : Rel H H
  trans {H H' H'' : Heap} (h : Rel H H') (h' : Rel H' H'') : Rel H H''
  tidy {H H' : Heap} (h : Rel H H') : H'.Tidy
  /-- An object other than a list is placed. -/
  allocate {H : Heap} (ht : H.Tidy) {o : Object} (ho : ∀ items, o ≠ .list items) (r : Option Handle) :
    Rel H (H.allocate o r).2
  /-- A closure is bound anew. -/
  put {H : Heap} (ht : H.Tidy) {h : Handle} {c c' : Closure} (hc : H.closure? h = some c) (halters : c.Alters c') :
    Rel H (H.put h (.closure c'))

namespace Machine

variable {R : Heap.Change}

/-- **A move that keeps to a relation between heaps**, whether it fails or not. -/
def Changes (R : Heap.Change) {α : Type} (x : Move α) : Prop :=
  ∀ m : Machine, m.heap.Tidy → R.Rel m.heap (x.run m).2.heap

section Rules

variable {α β : Type} {x : Move α} {f : α → Move β}

theorem Changes.pure (a : α) : Changes R (pure a : Move α) := fun _ ht => R.refl ht

theorem Changes.throw (e : Fault) : Changes R (throw e : Move α) := fun _ ht => R.refl ht

theorem Changes.get : Changes R (get : Move Machine) := fun _ ht => R.refl ht

theorem Changes.bind (hx : Changes R x) (hf : ∀ a, Changes R (f a)) : Changes R (x >>= f) := by
  intro m ht
  have hfirst := hx m ht
  rw [run_bind]
  generalize x.run m = r at hfirst
  obtain ⟨(e | a), m'⟩ := r
  · exact hfirst
  · exact R.trans hfirst (hf a m' (R.tidy hfirst))

/-- Registers do not matter. -/
theorem Changes.modify {g : Machine → Machine} (hg : ∀ m, (g m).heap = m.heap) : Changes R (modify g : Move Unit) := by
  intro m ht
  rw [run_modify, hg]
  exact R.refl ht

end Rules

theorem changes_advance : Changes R advance := .modify fun _ => rfl

theorem changes_push (v : Value) : Changes R (push v) := .modify fun _ => rfl

theorem changes_jump (label : String) : Changes R (jump label) := by
  refine .bind .get fun m => ?_
  split
  · exact .modify fun _ => rfl
  · exact .throw _

theorem changes_pop : Changes R pop := by
  refine .bind .get fun m => ?_
  split
  · exact .bind (.modify fun _ => rfl) fun _ => .pure _
  · exact .throw _

theorem changes_allocate {o : Object} (ho : ∀ items, o ≠ .list items) : Changes R (allocate o) :=
  fun m ht => R.allocate ht ho m.current

theorem changes_doReturn : Changes R doReturn := by
  refine .modify fun m => ?_
  split <;> rfl

theorem changes_require {α : Type} (r : Except Fault α) : Changes R (require r) := by
  cases r with
  | ok a => exact .pure a
  | error e => exact .throw e

/-! ### Variables -/

theorem changes_closureOf (h : Handle) : Changes R (closureOf h) := by
  refine .bind .get fun m => ?_
  split
  · exact .pure _
  · exact .throw _

/-- Bindings may change, code and parent may not. -/
theorem changes_updateClosure (h : Handle) {f : Closure → Closure} (hf : ∀ c : Closure, c.Alters (f c)) :
    Changes R (updateClosure h f) := by
  intro m ht
  unfold updateClosure
  rw [run_get_bind]
  cases hm : m.heap.mutableClosure? h with
  | none => exact R.refl ht
  | some c =>
    have hc : m.heap.closure? h = some c := by
      unfold Heap.mutableClosure? at hm
      split at hm
      · exact hm
      · cases hm
    exact R.put ht hc (hf c)

theorem changes_dereference (name : String) : Changes R (dereference name) := by
  refine .bind .get fun m => ?_
  split
  · exact .throw _
  · refine .bind (changes_closureOf _) fun c => .bind .get fun m => ?_
    split
    · exact .pure _
    · exact .throw _

/-- Reading a variable changes nothing. -/
theorem run_dereference_machine (name : String) (m : Machine) : ((dereference name).run m).2 = m := by
  unfold dereference
  rw [run_get_bind]
  split
  · rfl
  · next h _ =>
    have hclosure : ((closureOf h).run m).2 = m := by
      unfold closureOf
      rw [run_get_bind]
      split <;> rfl
    rw [run_bind]
    generalize (closureOf h).run m = r at hclosure
    obtain ⟨(e | c), m'⟩ := r
    · exact hclosure
    · obtain rfl : m' = m := hclosure
      dsimp only
      rw [run_get_bind]
      split <;> rfl

theorem changes_store (name : String) (v : Value) : Changes R (store name v) := by
  refine .bind .get fun m => ?_
  split
  · exact .throw _
  · exact changes_updateClosure _ fun c => c.alters_bind name v

theorem changes_assign (name : String) (v : Value) : Changes R (assign name v) := by
  have hbound (h : Handle) := changes_updateClosure (R := R) h fun c => Closure.alters_setBound c name v
  have hfree (h : Handle) := changes_updateClosure (R := R) h fun c => Closure.alters_setFree c name v
  refine .bind .get fun m => ?_
  split
  · exact .throw _
  · refine .bind .get fun m => ?_
    split
    · exact .throw _
    · split
      · exact hbound _
      · dsimp only
        split
        · refine .bind (hfree _) fun _ => .bind .get fun m => ?_
          split
          · exact hbound _
          · exact .pure _
        · refine .bind .get fun m => ?_
          split
          · exact hbound _
          · exact .throw _

theorem changes_lexicalParent (label : String) : Changes R (lexicalParent label) := by
  refine .bind .get fun m => ?_
  split
  · exact .pure _
  · split
    · exact .throw _
    · exact .pure _
    · exact .throw _

theorem changes_makeClosure (label : String) : Changes R (makeClosure label) := by
  refine .bind .get fun m => ?_
  split
  · exact .throw _
  · refine .bind (changes_lexicalParent label) fun parent => ?_
    cases parent with
    | none => exact .bind (.pure _) fun free => changes_allocate nofun
    | some h =>
      refine .bind (changes_closureOf h) fun c => .bind (.pure c.environment) fun free => changes_allocate nofun

/-! ### Primitives and calls -/

theorem changes_listItems (op : Opcode) (v : Value) : Changes R (listItems op v) := by
  unfold listItems
  dsimp only
  split
  · exact .throw _
  · refine .bind .get fun m => ?_
    split
    · exact .pure _
    · exact .throw _
    · exact .throw _

theorem changes_operateNumeric (op : Opcode) : Changes R (operateNumeric op) := by
  refine .bind changes_pop fun b => .bind changes_pop fun a => ?_
  dsimp only
  split
  · exact changes_push _
  · exact .throw _

/-! ### Lists -/

/-- **A move of one machine that keeps to a relation**, whether it fails or not. -/
def ChangesAt (R : Heap.Change) (m : Machine) {α : Type} (x : Move α) : Prop := R.Rel m.heap (x.run m).2.heap

theorem ChangesAt.of_changes {α : Type} {x : Move α} {m : Machine} (ht : m.heap.Tidy) (hx : Changes R x) : ChangesAt R m x :=
  hx m ht

theorem ChangesAt.bind {α β : Type} {x : Move α} {f : α → Move β} {m : Machine} (hx : ChangesAt R m x) (hf : ∀ a, Changes R (f a)) : ChangesAt R m (x >>= f) := by
  unfold ChangesAt at hx ⊢
  rw [run_bind]
  generalize x.run m = r at hx
  obtain ⟨(e | a), m'⟩ := r
  · exact hx
  · exact R.trans hx (hf a m' (R.tidy hx))

/-- **What a new list can hold**: operands, and items of lists. -/
def Makes (m : Machine) (items : List Value) : Prop :=
  ∀ v ∈ items, v ∈ m.stack ∨ ∃ h vs, m.heap.get? h = some (.list vs) ∧ v ∈ vs

/-- A list has items, or the move fails; nothing changes. -/
theorem run_listItems (op : Opcode) (v : Value) (m : Machine) :
    (∃ e, (listItems op v).run m = (.error e, m)) ∨
      ∃ h items, v = .handle h ∧ m.heap.get? h = some (.list items) ∧ (listItems op v).run m = (.ok items, m) := by
  unfold listItems
  dsimp only
  cases v with
  | handle h =>
    dsimp only [Value.handle?]
    rw [run_get_bind]
    split
    · next items ho => exact Or.inr ⟨h, items, rfl, ho, rfl⟩
    · exact Or.inl ⟨_, rfl⟩
    · exact Or.inl ⟨_, rfl⟩
  | _ => exact Or.inl ⟨_, rfl⟩

/-- **A primitive keeps to a relation** if that holds between a heap and the one with a new list. -/
theorem changesAt_operate {m : Machine} (ht : m.heap.Tidy)
    (hlist : ∀ items, m.Makes items → R.Rel m.heap (m.heap.allocate (.list items) m.current).2) (op : Opcode) :
    ChangesAt R m (operate op) := by
  -- a boolean from two operands
  have hanswer (f : Value → Value → Machine → Value) :
      Changes R (do let b ← pop; let a ← pop; push (f a b (← get)); return "") :=
    .bind changes_pop fun b => .bind changes_pop fun a => .bind .get fun m =>
      .bind (changes_push _) fun _ => .pure _
  have hsame : R.Rel m.heap m.heap := R.refl ht
  unfold operate
  cases op with
  | add | sub | mul | div | mod | pow | ge | le | gt | lt => exact .of_changes ht (.bind (changes_operateNumeric _) fun _ => .pure _)
  | eqn => exact .of_changes ht (hanswer fun a b m => .boolean (m.heap.equal a b))
  | and | or =>
    exact .of_changes ht (.bind changes_pop fun b => .bind changes_pop fun a => .bind (changes_push _) fun _ => .pure _)
  | not => exact .of_changes ht (.bind changes_pop fun a => .bind (changes_push _) fun _ => .pure _)
  | car =>
    refine .of_changes ht (.bind changes_pop fun list => .bind (changes_listItems _ list) fun items => ?_)
    split
    · exact .bind (changes_push _) fun _ => .pure _
    · exact .throw _
  | cdr =>
    unfold ChangesAt
    cases hstack : m.stack with
    | nil =>
      rw [run_bind_error (run_pop_nil hstack)]
      exact hsame
    | cons list rest =>
      rw [run_bind_ok (run_pop_cons hstack)]
      rcases run_listItems .cdr list { m with stack := rest } with ⟨e, hrun⟩ | ⟨h, items, rfl, ho, hrun⟩
      · rw [run_bind_error hrun]
        exact hsame
      · rw [run_bind_ok hrun]
        cases items with
        | nil => exact hsame
        | cons first others => exact hlist others fun v hv => Or.inr ⟨h, _, ho, List.mem_cons_of_mem _ hv⟩
  | cons =>
    unfold ChangesAt
    cases hstack : m.stack with
    | nil =>
      rw [run_bind_error (run_pop_nil hstack)]
      exact hsame
    | cons list rest =>
      rw [run_bind_ok (run_pop_cons hstack)]
      cases rest with
      | nil =>
        rw [run_bind_error (run_pop_nil rfl)]
        exact hsame
      | cons head rest =>
        rw [run_bind_ok (run_pop_cons rfl)]
        rcases run_listItems .cons list { m with stack := rest } with ⟨e, hrun⟩ | ⟨h, items, rfl, ho, hrun⟩
        · rw [run_bind_error hrun]
          exact hsame
        · rw [run_bind_ok hrun]
          refine hlist (head :: items) fun v hv => ?_
          rcases List.mem_cons.mp hv with rfl | hv
          · exact Or.inl (by simp [hstack])
          · exact Or.inr ⟨h, _, ho, hv⟩
  | display => exact .of_changes ht (.bind changes_pop fun v => .bind .get fun m => .pure _)
  | newline => exact hsame
  | _ => exact hsame

/-! ### Calls -/

theorem changes_pushFrame (tail : Bool) : Changes R (pushFrame tail) := by
  cases tail with
  | true => exact .pure _
  | false => exact .modify fun _ => rfl

theorem changes_enter (activation : Handle) (tail : Bool) : Changes R (enter activation tail) :=
  .bind (changes_pushFrame tail) fun _ => .modify fun _ => rfl

theorem changes_finishCall (tail : Bool) : Changes R (finishCall tail) := by
  cases tail with
  | true => exact changes_doReturn
  | false => exact changes_advance

theorem changes_popArguments (count : Nat) : Changes R (popArguments count) := by
  induction count with
  | zero => exact .pure _
  | succ count ih => exact .bind changes_pop fun v => .bind ih fun others => .pure _

theorem changes_callNative (library function : String) (native : NativeFunction) (tail : Bool) :
    Changes R (callNative library function native tail) := by
  refine .bind (changes_popArguments _) fun args => .bind .get fun m => ?_
  split
  · exact .throw _
  · exact .throw _
  · exact .bind (changes_push _) fun _ => changes_finishCall tail
  · exact .bind (changes_allocate nofun) fun h => .bind (changes_push _) fun _ => changes_finishCall tail
  · exact .bind (changes_pushFrame tail) fun _ => .modify fun _ => rfl

theorem changes_resume (k : Continuation) : Changes R (resume k) := by
  refine .bind changes_pop fun v => .bind .get fun m => ?_
  split
  · exact .throw _
  · exact .modify fun _ => rfl

theorem changes_callObject (h : Handle) (tail : Bool) : Changes R (callObject h tail) := by
  refine .bind .get fun m => ?_
  split
  · exact .bind (changes_allocate nofun) fun activation => changes_enter activation tail
  · exact changes_resume _
  · exact .throw _
  · exact .throw _

section Calls

variable {m : Machine} (ht : m.heap.Tidy)
  (hlist : ∀ items, m.Makes items → R.Rel m.heap (m.heap.allocate (.list items) m.current).2)
include ht hlist

theorem changesAt_callPrimitive (word : String) (tail : Bool) : ChangesAt R m (callPrimitive word tail) := by
  have hfinish (written : String) : Changes R (do finishCall tail; return written) :=
    .bind (changes_finishCall tail) fun _ => .pure _
  unfold callPrimitive
  split
  · exact R.refl ht
  · refine .bind (changesAt_operate ht hlist _) fun written => ?_
    dsimp only
    split
    · exact .bind (changes_push _) fun _ => hfinish written
    · exact hfinish written

theorem changesAt_callValue (v : Value) (tail : Bool) : ChangesAt R m (callValue v tail) := by
  unfold callValue
  split
  · exact .of_changes ht (.bind (changes_makeClosure _) fun h => .bind (changes_enter h tail) fun _ => .pure _)
  · exact changesAt_callPrimitive ht hlist _ tail
  · exact .of_changes ht (.bind (changes_callObject _ tail) fun _ => .pure _)
  · exact R.refl ht

theorem changesAt_call (host : Host) (target : Operand) (tail : Bool) : ChangesAt R m (call host target tail) := by
  unfold call
  split
  · next name =>
    unfold ChangesAt
    rw [run_get_bind]
    split
    · exact ChangesAt.of_changes ht (.bind (changes_callNative _ _ _ tail) fun _ => .pure _)
    · -- reading the variable changes nothing
      rcases hrun : (dereference name).run m with ⟨(e | v), m'⟩
      all_goals obtain rfl : m' = m := by simpa only [hrun] using run_dereference_machine name m
      · rw [run_bind_error hrun]
        exact R.refl ht
      · rw [run_bind_ok hrun]
        exact changesAt_callValue ht hlist v tail
  · split
    · exact changesAt_callValue ht hlist _ tail
    · exact R.refl ht

end Calls

/-! ### Instructions -/

theorem changes_closed (v : Value) : Changes R (closed v) := by
  cases v with
  | label name => exact .bind (changes_makeClosure name) fun h => .pure _
  | _ => exact .pure _

theorem changes_operandValue (op : Opcode) (operand : Option Operand) : Changes R (operandValue op operand) := by
  unfold operandValue
  split
  · exact .throw _
  · exact changes_dereference _
  · split
    · exact .pure _
    · exact .throw _

theorem changes_branch (op : Opcode) (operand : Option Operand) (condition : Bool) :
    Changes R (branch op operand condition) := by
  refine .bind (changes_require _) fun label => .bind changes_pop fun v => ?_
  split
  · exact changes_jump label
  · exact changes_advance

theorem changes_swap : Changes R swap := by
  refine .bind .get fun m => ?_
  split
  · exact .modify fun _ => rfl
  · exact .throw _

theorem changes_capture (name : String) : Changes R (capture name) :=
  .bind .get fun _ => .bind (changes_allocate nofun) fun _ => .bind (changes_store _ _) fun _ => changes_advance

theorem changes_fork (host : Host) (h : Handle) : Changes R (fork host h) :=
  .bind .get fun _ => .bind (changes_require _) fun _ => .bind (changes_require _) fun _ => .modify fun _ => rfl

section Instructions

variable {m : Machine} (ht : m.heap.Tidy)
  (hlist : ∀ items, m.Makes items → R.Rel m.heap (m.heap.allocate (.list items) m.current).2)
include ht hlist

theorem changesAt_execute (host : Host) (op : Opcode) (operand : Option Operand) :
    ChangesAt R m (execute host op operand) := by
  have hadvance (written : String) : Changes R (do advance; return written) :=
    .bind changes_advance fun _ => .pure _
  unfold execute
  -- an operation is a sequence of moves, each of which changes the heap in an allowed way
  cases op with
  | call | tailCall =>
    dsimp only
    split
    · exact changesAt_call ht hlist host _ _
    · exact R.refl ht
  | store =>
    exact .of_changes ht (.bind (changes_require _) fun name => .bind changes_pop fun v =>
      .bind (changes_store name v) fun _ => hadvance "")
  | load =>
    exact .of_changes ht (.bind (changes_operandValue _ operand) fun v => .bind (changes_closed v) fun w =>
      .bind (changes_push w) fun _ => hadvance "")
  | push =>
    exact .of_changes ht (.bind (changes_operandValue _ operand) fun v => .bind (changes_push v) fun _ => hadvance "")
  | loadClosure =>
    exact .of_changes ht (.bind (changes_require _) fun label => .bind (changes_makeClosure label) fun h =>
      .bind (changes_push _) fun _ => hadvance "")
  | pop => exact .of_changes ht (.bind changes_pop fun _ => hadvance "")
  | swap => exact .of_changes ht (.bind changes_swap fun _ => hadvance "")
  | set =>
    exact .of_changes ht (.bind (changes_require _) fun name => .bind changes_pop fun v => .bind (changes_closed v) fun w =>
      .bind (changes_assign name w) fun _ => hadvance "")
  | ret => exact .of_changes ht (.bind changes_doReturn fun _ => .pure _)
  | capture =>
    exact .of_changes ht (.bind (changes_require _) fun name => .bind (changes_capture name) fun _ => .pure _)
  | ifTrue => exact .of_changes ht (.bind (changes_branch _ operand true) fun _ => .pure _)
  | ifFalse => exact .of_changes ht (.bind (changes_branch _ operand false) fun _ => .pure _)
  | goto => exact .of_changes ht (.bind (changes_require _) fun label => .bind (changes_jump label) fun _ => .pure _)
  | fork =>
    refine .of_changes ht ?_
    dsimp only
    split
    · exact .bind (changes_fork host _) fun _ => hadvance ""
    · exact .throw _
  | nop => exact .of_changes ht (hadvance "")
  | pause => exact .of_changes ht (.bind (.modify fun _ => rfl) fun _ => hadvance "")
  | halt => exact .of_changes ht (.bind (.modify fun _ => rfl) fun _ => .pure _)
  | _ => exact .bind (changesAt_operate ht hlist _) hadvance

/-- **Every instruction keeps to a relation** between heaps, if that holds between a heap and the one with a list that
a primitive makes. -/
theorem changesAt_dispatch (host : Host) (i : Instruction) : ChangesAt R m (dispatch host i) := by
  cases i with
  | comment text => exact .of_changes ht (.bind changes_advance fun _ => .pure _)
  | label name => exact .of_changes ht (.bind changes_advance fun _ => .pure _)
  | op opcode operand => exact changesAt_execute ht hlist host opcode operand

end Instructions

/-- What a job delivers is placed, if it is a string. -/
theorem rel_deliver {m : Machine} (ht : m.heap.Tidy) (result : Except NativeError NativeOutput) :
    R.Rel m.heap (m.deliver result).heap := by
  have hresult : R.Rel m.heap (resultValue m result).2.heap := by
    unfold resultValue
    split
    · exact R.refl ht
    · exact R.refl ht
    · exact R.allocate (o := .string _) ht nofun _
    · exact R.refl ht
    · exact R.refl ht
  have hheap : (m.deliver result).heap = (resultValue m result).2.heap := by
    unfold Machine.deliver doReturn
    dsimp only
    rw [run_modify]
    dsimp only
    split <;> split <;> rfl
  rwa [hheap]

end Machine

end SchemeMachine
