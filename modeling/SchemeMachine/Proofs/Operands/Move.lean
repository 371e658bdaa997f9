import SchemeMachine.Proofs.Balance
import SchemeMachine.Proofs.Continuation

/-!
# What an instruction does to the operands

An instruction takes some operands off the stack and leaves others in their place; the operands further down stay as
they are. Apart from that it goes on in the code, enters other code or returns.

* `Machine.Touches` says how many operands a move can touch, with one lemma for each move.
* `Line.taken` is how many operands a line takes, `Machine.Goes` what it does to stack, frames and place.
* `Machine.leads_dispatch` says of every line of laid out code that it does just that, `Machine.way_dispatch` where it
  goes whatever the number of arguments.
-/

namespace SchemeMachine

open Lowering

namespace Machine

/-! ### Moves -/

/-- **A machine of which at most `k` operands have been touched**, and neither frames nor place nor state. -/
structure Touched (k : Nat) (m m' : Machine) : Prop where
  stack : m.stack.drop k <:+ m'.stack
  frames : m'.frames = m.frames
  current : m'.current = m.current
  pc : m'.pc = m.pc
  state : m'.state = m.state
  image : m'.image = m.image

/-- What is left of a stack below some operands is left of a larger stack below as many. -/
theorem drop_suffix_drop {vs ws : List Value} (h : vs <:+ ws) (k : Nat) : vs.drop k <:+ ws.drop k := by
  refine List.suffix_of_suffix_length_le ((List.drop_suffix k vs).trans h) (List.drop_suffix k ws) ?_
  have := h.length_le
  simp only [List.length_drop]
  omega

theorem Touched.refl (k : Nat) (m : Machine) : Touched k m m := ⟨List.drop_suffix _ _, rfl, rfl, rfl, rfl, rfl⟩

theorem Touched.trans {k l : Nat} {m m' m'' : Machine} (h : Touched k m m') (h' : Touched l m' m'') :
    Touched (k + l) m m'' := by
  refine ⟨?_, h'.frames.trans h.frames, h'.current.trans h.current, h'.pc.trans h.pc, h'.state.trans h.state,
    h'.image.trans h.image⟩
  rw [← List.drop_drop]
  exact (drop_suffix_drop h.stack l).trans h'.stack

/-- **A move that touches `k` operands at most.** -/
def Touches {α : Type} (k : Nat) (x : Move α) : Prop := ∀ m : Machine, Touched k m (x.run m).2

section Rules

variable {α β : Type} {x : Move α} {f : α → Move β} {k l : Nat}

theorem Touches.pure (a : α) : Touches 0 (pure a : Move α) := fun m => .refl 0 m

theorem Touches.throw (e : Fault) (k : Nat) : Touches k (throw e : Move α) := fun m => .refl k m

/-- One move after the other touches as many operands as both together. -/
theorem Touches.bind (hx : Touches k x) (hf : ∀ a, Touches l (f a)) : Touches (k + l) (x >>= f) := by
  intro m
  have hfirst := hx m
  rw [run_bind]
  generalize x.run m = r at hfirst
  obtain ⟨(e | a), m'⟩ := r
  · exact hfirst.trans (.refl l m')
  · exact hfirst.trans (hf a m')

theorem Touches.bind_zero (hx : Touches 0 x) (hf : ∀ a, Touches k (f a)) : Touches k (x >>= f) := by
  have h := hx.bind hf
  rwa [Nat.zero_add] at h

/-- A look at the machine. -/
theorem Touches.get_bind {f : Machine → Move β} (hf : ∀ m, Touches k (f m)) : Touches k (get >>= f) :=
  fun m => hf m m

theorem Touches.require (r : Except Fault α) : Touches 0 (require r) := by
  cases r with
  | ok a => exact .pure a
  | error e => exact .throw e 0

end Rules

theorem touches_push (v : Value) : Touches 0 (push v) :=
  fun _ => ⟨List.suffix_cons _ _, rfl, rfl, rfl, rfl, rfl⟩

theorem touches_pop : Touches 1 pop := by
  intro m
  cases hm : m.stack with
  | nil =>
    rw [run_pop_nil hm]
    exact .refl 1 m
  | cons v rest =>
    rw [run_pop_cons hm]
    exact ⟨by rw [hm]; exact List.suffix_rfl, rfl, rfl, rfl, rfl, rfl⟩

theorem Touches.pop_bind {α : Type} {f : Value → Move α} {k : Nat} (hf : ∀ v, Touches k (f v)) :
    Touches (k + 1) (pop >>= f) := by
  have h := touches_pop.bind hf
  rwa [Nat.add_comm] at h

theorem touches_allocate (o : Object) : Touches 0 (allocate o) :=
  fun _ => ⟨List.suffix_rfl, rfl, rfl, rfl, rfl, rfl⟩

theorem touches_closureOf (h : Handle) : Touches 0 (closureOf h) := by
  refine .get_bind fun m => ?_
  split
  · exact .pure _
  · exact .throw _ 0

theorem touches_updateClosure (h : Handle) (f : Closure → Closure) : Touches 0 (updateClosure h f) := by
  refine .get_bind fun m => ?_
  split
  · exact fun _ => ⟨List.suffix_rfl, rfl, rfl, rfl, rfl, rfl⟩
  · exact .throw _ 0

theorem touches_dereference (name : String) : Touches 0 (dereference name) := by
  refine .get_bind fun m => ?_
  split
  · exact .throw _ 0
  · refine (touches_closureOf _).bind_zero fun c => .get_bind fun m => ?_
    split
    · exact .pure _
    · exact .throw _ 0

theorem touches_store (name : String) (v : Value) : Touches 0 (store name v) := by
  refine .get_bind fun m => ?_
  split
  · exact .throw _ 0
  · exact touches_updateClosure _ _

theorem touches_assign (name : String) (v : Value) : Touches 0 (assign name v) := by
  refine .get_bind fun m => ?_
  split
  · exact .throw _ 0
  · refine .get_bind fun m => ?_
    split
    · exact .throw _ 0
    · split
      · exact touches_updateClosure _ _
      · dsimp only
        split
        · refine (touches_updateClosure _ _).bind_zero fun _ => .get_bind fun m => ?_
          split
          · exact touches_updateClosure _ _
          · exact .pure _
        · refine .get_bind fun m => ?_
          split
          · exact touches_updateClosure _ _
          · exact .throw _ 0

theorem touches_lexicalParent (label : String) : Touches 0 (lexicalParent label) := by
  refine .get_bind fun m => ?_
  split
  · exact .pure _
  · split
    · exact .throw _ 0
    · exact .pure _
    · exact .throw _ 0

theorem touches_makeClosure (label : String) : Touches 0 (makeClosure label) := by
  refine .get_bind fun m => ?_
  split
  · exact .throw _ 0
  · refine (touches_lexicalParent label).bind_zero fun parent => ?_
    cases parent with
    | none => exact (Touches.pure _).bind_zero fun free => touches_allocate _
    | some h => exact (touches_closureOf h).bind_zero fun c => (Touches.pure c.environment).bind_zero fun free => touches_allocate _

theorem touches_closed (v : Value) : Touches 0 (closed v) := by
  cases v with
  | label name => exact (touches_makeClosure name).bind_zero fun h => .pure _
  | _ => exact .pure _

theorem touches_operandValue (op : Opcode) (operand : Option Operand) : Touches 0 (operandValue op operand) := by
  unfold operandValue
  split
  · exact .throw _ 0
  · exact touches_dereference _
  · split
    · exact .pure _
    · exact .throw _ 0

theorem touches_listItems (op : Opcode) (v : Value) : Touches 0 (listItems op v) := by
  unfold listItems
  dsimp only
  split
  · exact .throw _ 0
  · refine .get_bind fun m => ?_
    split
    · exact .pure _
    · exact .throw _ 0
    · exact .throw _ 0

theorem touches_operateNumeric (op : Opcode) : Touches 2 (operateNumeric op) := by
  refine .pop_bind fun b => .pop_bind fun a => ?_
  dsimp only
  split
  · exact touches_push _
  · exact .throw _ 0

/-- **A primitive touches its operands.** -/
theorem touches_operate {op : Opcode} {k : Nat} (h : op.operandCount? = some k) : Touches k (operate op) := by
  -- every operand is taken once, and then one answer is put in their place
  unfold operate
  cases op with
  | add | sub | mul | div | mod | pow | ge | le | gt | lt =>
    cases h
    exact (touches_operateNumeric _).bind fun _ => .pure _
  | eqn =>
    cases h
    exact .pop_bind fun b => .pop_bind fun a => .get_bind fun m => (touches_push _).bind_zero fun _ => .pure _
  | and | or =>
    cases h
    exact .pop_bind fun b => .pop_bind fun a => (touches_push _).bind_zero fun _ => .pure _
  | not =>
    cases h
    exact .pop_bind fun a => (touches_push _).bind_zero fun _ => .pure _
  | car =>
    cases h
    refine .pop_bind fun list => (touches_listItems _ list).bind_zero fun items => ?_
    split
    · exact (touches_push _).bind_zero fun _ => .pure _
    · exact .throw _ 0
  | cdr =>
    cases h
    refine .pop_bind fun list => (touches_listItems _ list).bind_zero fun items => ?_
    split
    · exact (touches_allocate _).bind_zero fun h => (touches_push _).bind_zero fun _ => .pure _
    · exact .throw _ 0
  | cons =>
    cases h
    exact .pop_bind fun list => .pop_bind fun head => (touches_listItems _ list).bind_zero fun items =>
      (touches_allocate _).bind_zero fun h => (touches_push _).bind_zero fun _ => .pure _
  | display =>
    cases h
    exact .pop_bind fun v => .get_bind fun m => .pure _
  | newline =>
    cases h
    exact .pure _
  | _ => exact .throw _ k

theorem touches_popArguments (count : Nat) : Touches count (popArguments count) := by
  induction count with
  | zero => exact .pure _
  | succ count ih => exact .pop_bind fun v => ih.bind fun others => .pure _

theorem touches_fork (host : Host) (h : Handle) : Touches 0 (fork host h) := by
  refine .get_bind fun m => (Touches.require _).bind_zero fun _ => (Touches.require _).bind_zero fun _ => ?_
  exact fun _ => ⟨List.suffix_rfl, rfl, rfl, rfl, rfl, rfl⟩

end Machine

/-! ### Lines -/

namespace Line

/-- **How many operands a line takes off the stack.** -/
def taken (line : Line) : Nat :=
  match line.instruction with
  | .op .call _ | .op .tailCall _ => line.arguments
  | .op .store _ | .op .set _ | .op .pop _ | .op .ifTrue _ | .op .ifFalse _ => 1
  | .op op _ => op.operandCount?.getD 0
  | _ => 0

/-- The label that a line may jump to. -/
def jump? (line : Line) : Option String :=
  match line.instruction with
  | .op .ifTrue (some (.label name)) | .op .ifFalse (some (.label name)) | .op .goto (some (.label name)) => some name
  | _ => none

/-- Whether the code is left at a line for good. -/
def leaves (line : Line) : Bool :=
  match line.instruction with
  | .op .tailCall _ | .op .ret _ | .op .halt _ => true
  | _ => false

/-- Whether a line can be followed by the next one. -/
def falls (line : Line) : Bool :=
  match line.instruction with
  | .op .goto _ => false
  | _ => !line.leaves

variable {line : Line} {tail : Bool} {target : Operand}

theorem taken_of_call (hi : line.instruction = callTo tail target) : line.taken = line.arguments := by
  unfold taken
  rw [hi]
  cases tail <;> rfl

theorem leaves_of_call (hi : line.instruction = callTo tail target) : line.leaves = tail := by
  unfold leaves
  rw [hi]
  cases tail <;> rfl

theorem falls_of_call (hi : line.instruction = callTo false target) : line.falls = true := by
  unfold falls
  rw [leaves_of_call hi, hi]
  rfl

/-- A primitive takes its operands and goes on. -/
theorem of_operation {op : Opcode} {k : Nat} (hop : op.operandCount? = some k) (s : Spot) (n : Nat) :
    taken ⟨s, plain op, n⟩ = k ∧ falls ⟨s, plain op, n⟩ = true ∧ leaves ⟨s, plain op, n⟩ = false ∧
      jump? ⟨s, plain op, n⟩ = none := by
  cases op <;> first
    | (cases hop; exact ⟨rfl, rfl, rfl, rfl⟩)
    | cases hop

end Line

namespace Machine

/-- **Where a line goes.** -/
inductive Way (line : Line) (m m' : Machine) : Prop
  /-- On in the code: to the next line or to a label. -/
  | on (hframes : m'.frames = m.frames) (hcurrent : m'.current = m.current) (hstate : m'.state = .running)
      (hpc : line.falls = true ∧ m'.pc = m.pc + 1 ∨ ∃ name ∈ line.jump?, m.image.labels.find? name = some m'.pc)
  /-- Into other code, to come back. -/
  | calls {target : Operand} (hi : line.instruction = callTo false target)
      (hframes : m'.frames = ⟨m.current, m.pc + 1⟩ :: m.frames)
  /-- Into other code for good. -/
  | instead (hleaves : line.leaves = true) (hframes : m'.frames = m.frames)
  /-- Back to the code that has called. -/
  | back {f : Frame} (hleaves : line.leaves = true) (hframes : m.frames = f :: m'.frames)
      (hcurrent : m'.current = f.closure) (hpc : m'.pc = f.returnAddress) (hstate : m'.state = .running)
  | ends (hstate : m'.state = .stopped)

/-- **What a line does** to stack, frames and place. -/
structure Goes (line : Line) (m m' : Machine) : Prop where
  stack : m.stack.drop line.taken <:+ m'.stack
  way : Way line m m'

/-- **What holds of the machine after a move** that does not fail. -/
def Leads {α : Type} (x : Move α) (m : Machine) (Q : Machine → Prop) : Prop := ∀ a m', x.run m = (.ok a, m') → Q m'

section Leads

variable {α β : Type} {x : Move α} {f : α → Move β} {m : Machine} {Q : Machine → Prop} {k : Nat}

theorem Leads.throw (e : Fault) : Leads (throw e : Move α) m Q := by
  intro a m' h
  cases h

theorem Leads.modify {g : Machine → Machine} (h : Q (g m)) : Leads (modify g : Move Unit) m Q := by
  intro a m' hrun
  cases hrun
  exact h

theorem Leads.pure {a : α} (h : Q m) : Leads (pure a : Move α) m Q := by
  intro a' m' hrun
  cases hrun
  exact h

theorem Leads.get_bind {f : Machine → Move β} (h : Leads (f m) m Q) : Leads (get >>= f) m Q := h

/-- A move whose touches are known, and then another. -/
theorem Touches.leads (hx : Touches k x) (hf : ∀ a m', Touched k m m' → Leads (f a) m' Q) : Leads (x >>= f) m Q := by
  intro b m'' hrun
  have hm := hx m
  rw [run_bind] at hrun
  generalize x.run m = r at hm hrun
  obtain ⟨(e | a), m'⟩ := r
  · cases hrun
  · exact hf a m' hm b m'' hrun

theorem Leads.then_pure (hx : Leads x m Q) (b : β) : Leads (x >>= fun _ => Pure.pure b) m Q := by
  intro b' m'' hrun
  rw [run_bind] at hrun
  rcases hr : x.run m with ⟨(e | a), m'⟩ <;> rw [hr] at hrun <;> cases hrun
  exact hx a m'' hr

end Leads

/-! ### Calls -/

section Calls

variable {m m' : Machine} {line : Line} {tail : Bool} {target : Operand}

/-- A call that has left its value goes on, or back if it was a tail call. -/
theorem Touched.leads_finishCall (ht : Touched line.taken m m') (hstate : m.state = .running)
    (hi : line.instruction = callTo tail target) : Leads (finishCall tail) m' (Goes line m) := by
  cases tail with
  | false =>
    exact .modify ⟨ht.stack, .on ht.frames ht.current (ht.state.trans hstate) (Or.inl ⟨Line.falls_of_call hi, by rw [← ht.pc]⟩)⟩
  | true =>
    have hleaves := Line.leaves_of_call hi
    refine .modify ?_
    have hframes := ht.frames
    split
    · next f fs hfs => exact ⟨ht.stack, .back hleaves (by rw [← hframes, hfs]) rfl rfl (ht.state.trans hstate)⟩
    · exact ⟨ht.stack, .ends rfl⟩

/-- A call that enters other code. -/
theorem Touched.way_of_frames (ht : Touched line.taken m m') (hi : line.instruction = callTo tail target)
    {m'' : Machine} (hframes : m''.frames = m'.framesFor tail) : Way line m m'' := by
  cases tail with
  | false =>
    refine .calls hi (hframes.trans ?_)
    rw [framesFor, if_neg Bool.false_ne_true, ht.current, ht.pc, ht.frames]
  | true => exact .instead (Line.leaves_of_call hi) (hframes.trans ht.frames)

theorem Touched.leads_enter (ht : Touched line.taken m m') (hi : line.instruction = callTo tail target) (h : Handle) :
    Leads (enter h tail) m' (Goes line m) := by
  intro a m'' hrun
  rw [enter, run_bind_ok (run_pushFrame tail m'), run_modify] at hrun
  cases hrun
  exact ⟨ht.stack, ht.way_of_frames hi rfl⟩

theorem leads_callNative (hstate : m.state = .running) (hi : line.instruction = callTo tail target)
    {library function : String} {native : NativeFunction} (harity : native.arity = line.arguments) :
    Leads (callNative library function native tail) m (Goes line m) := by
  rw [← Line.taken_of_call hi] at harity
  refine (touches_popArguments _).leads fun args m₁ h₁ => .get_bind ?_
  rw [harity] at h₁
  split
  · exact .throw _
  · exact .throw _
  · exact (touches_push _).leads fun _ m₂ h₂ => (h₁.trans h₂).leads_finishCall hstate hi
  · exact (touches_allocate _).leads fun h m₂ h₂ => (touches_push _).leads fun _ m₃ h₃ =>
      ((h₁.trans h₂).trans h₃).leads_finishCall hstate hi
  · intro a m₂ hrun
    rw [run_bind_ok (run_pushFrame tail m₁), run_modify] at hrun
    cases hrun
    exact ⟨h₁.stack, h₁.way_of_frames hi rfl⟩

theorem leads_callPrimitive (hstate : m.state = .running) (hi : line.instruction = callTo tail target) {word : String}
    (harity : ∀ k, (Opcode.ofPrimitive? word).bind Opcode.operandCount? = some k → k = line.arguments) :
    Leads (callPrimitive word tail) m (Goes line m) := by
  unfold callPrimitive
  cases hop : Opcode.ofPrimitive? word with
  | none => exact .throw _
  | some op =>
    obtain ⟨k, hk⟩ := Opcode.operandCount?_ofPrimitive? hop
    obtain rfl : k = line.taken := (harity k (by rw [hop]; exact hk)).trans (Line.taken_of_call hi).symm
    refine (touches_operate hk).leads fun written m₁ h₁ => ?_
    dsimp only
    split
    · exact (touches_push _).leads fun _ m₂ h₂ => ((h₁.trans h₂).leads_finishCall hstate hi).then_pure written
    · exact (h₁.leads_finishCall hstate hi).then_pure written

theorem leads_callValue (hstate : m.state = .running) (hi : line.instruction = callTo tail target)
    {parameters : String → Option Nat} {v : Value}
    (harity : ∀ k, valueArity? parameters m.heap v = some k → k = line.arguments)
    (hresumes : ∀ h k, v = .handle h → m.heap.get? h ≠ some (.continuation k)) :
    Leads (callValue v tail) m (Goes line m) := by
  unfold callValue
  split
  · refine (touches_makeClosure _).leads fun h m₁ h₁ => (Touched.leads_enter ?_ hi h).then_pure ""
    exact Nat.zero_add line.taken ▸ h₁.trans (.refl line.taken m₁)
  · exact leads_callPrimitive hstate hi harity
  · next h =>
    refine Leads.then_pure (.get_bind ?_) ""
    split
    · refine (touches_allocate _).leads fun activation m₁ h₁ => Touched.leads_enter ?_ hi activation
      exact Nat.zero_add line.taken ▸ h₁.trans (.refl line.taken m₁)
    · next k hk => exact absurd hk (hresumes h k rfl)
    · exact .throw _
    · exact .throw _
  · exact .throw _

/-- A variable that can be read is what the current closure sees. -/
theorem seen?_of_dereference {name : String} {v : Value} (h : (dereference name).run m = (.ok v, m')) :
    m' = m ∧ m.seen? name = some v := by
  cases hcurrent : m.current with
  | none =>
    unfold dereference at h
    rw [run_get_bind, hcurrent] at h
    cases h
  | some g =>
    cases hc : m.heap.closure? g with
    | none =>
      unfold dereference closureOf at h
      rw [run_get_bind, hcurrent] at h
      dsimp only at h
      rw [run_bind_error (by rw [run_get_bind, hc]; rfl)] at h
      cases h
    | some c =>
      rw [run_dereference name hcurrent hc] at h
      rw [seen?, hcurrent, Option.bind_some, hc, Option.bind_some]
      cases hlookup : lookup? m.heap c name with
      | none =>
        rw [hlookup] at h
        cases h
      | some w =>
        rw [hlookup] at h
        cases h
        exact ⟨rfl, rfl⟩

/-- **What a call does**, unless it calls a continuation. -/
theorem leads_call {host : Host} (hstate : m.state = .running) (hi : line.instruction = callTo tail target)
    {parameters : String → Option Nat} (harity : ∀ k, arity? parameters host m target = some k → k = line.arguments)
    (hresumes : ∀ h k, callee? host m target = some (.inr (.handle h)) → m.heap.get? h ≠ some (.continuation k)) :
    Leads (call host target tail) m (Goes line m) := by
  -- a callee that is a value, however it was found
  have hvalue (v : Value) (hcallee : callee? host m target = some (.inr v)) : Leads (callValue v tail) m (Goes line m) :=
    leads_callValue hstate hi (fun k hk => harity k (by rw [arity?, hcallee]; exact hk))
      fun h k hv => hresumes h k (hv ▸ hcallee)
  unfold call
  split
  · next name =>
    refine .get_bind ?_
    split
    · next library function native htarget =>
      exact (leads_callNative hstate hi (harity _ (by simp only [arity?, callee?, htarget]))).then_pure ""
    · next htarget =>
      -- a name that is no native is read first
      intro a m' hrun
      rw [run_bind] at hrun
      rcases hr : (dereference name).run m with ⟨(e | v), m₁⟩ <;> rw [hr] at hrun
      · cases hrun
      · obtain ⟨rfl, hseen⟩ := seen?_of_dereference hr
        exact hvalue v (by simp only [callee?, htarget, hseen, Option.map_some]) a m' hrun
  · next hother =>
    split
    · next v hv =>
      refine hvalue v ?_
      unfold callee?
      split
      · next name => exact absurd rfl (hother name)
      · rw [hv, Option.map_some]
    · exact .throw _

end Calls

/-! ### Instructions -/

section Dispatch

variable {p : Program} {P : Plan} {m : Machine} {line : Line} {next : Option Spot} {host : Host}

/-- A line that goes on to the next one. -/
theorem Touched.leads_advance {m' : Machine} {k : Nat} (ht : Touched k m m') (hk : line.taken = k)
    (hstate : m.state = .running) (hfalls : line.falls = true) : Leads advance m' (Goes line m) :=
  .modify ⟨hk ▸ ht.stack, .on ht.frames ht.current (ht.state.trans hstate) (Or.inl ⟨hfalls, by rw [← ht.pc]⟩)⟩

theorem Touched.advances {m' : Machine} {k : Nat} (ht : Touched k m m') (hk : line.taken = k)
    (hstate : m.state = .running) (hfalls : line.falls = true) (written : String) :
    Leads (advance >>= fun _ => (pure written : Move String)) m' (Goes line m) :=
  (ht.leads_advance hk hstate hfalls).then_pure written

/-- A line that jumps. -/
theorem Touched.leads_jump {m' : Machine} {k : Nat} (ht : Touched k m m') (hk : line.taken = k)
    (hstate : m.state = .running) {name : String} (hjump : line.jump? = some name) :
    Leads (jump name) m' (Goes line m) := by
  refine .get_bind ?_
  split
  · next place hplace =>
    rw [ht.image] at hplace
    exact .modify ⟨hk ▸ ht.stack, .on ht.frames ht.current (ht.state.trans hstate) (Or.inr ⟨name, hjump, hplace⟩)⟩
  · exact .throw _

/-- A line that branches. -/
theorem leads_branch (hstate : m.state = .running) (htaken : line.taken = 1) (hfalls : line.falls = true)
    {op : Opcode} {name : String} (hjump : line.jump? = some name) (condition : Bool) :
    Leads (branch op (some (.label name)) condition) m (Goes line m) := by
  refine touches_pop.leads fun v m₁ h₁ => ?_
  split
  · exact h₁.leads_jump htaken hstate hjump
  · exact h₁.leads_advance htaken hstate hfalls

/-- A line that captures a continuation. -/
theorem leads_capture (hstate : m.state = .running) (htaken : line.taken = 0) (hfalls : line.falls = true)
    (name : String) : Leads (capture name) m (Goes line m) :=
  .get_bind <| (touches_allocate _).leads fun _ _ h₁ => (touches_store _ _).leads fun _ _ h₂ =>
    (h₁.trans h₂).leads_advance htaken hstate hfalls

/-- A return goes back, or the run is over. -/
theorem leads_doReturn (hstate : m.state = .running) (hleaves : line.leaves = true) :
    Leads doReturn m (Goes line m) := by
  refine .modify ?_
  split
  · next f fs hfs => exact ⟨List.drop_suffix _ _, .back hleaves hfs rfl rfl hstate⟩
  · exact ⟨List.drop_suffix _ _, .ends rfl⟩

/-- **What a line of laid out code does**, unless it calls a continuation; a call has as many arguments as its target
takes. -/
theorem leads_dispatch {s s' : Spot} {i : Instruction} {k l : Nat} (hflow : Flows p P ⟨s, i, k⟩ next)
    (hstate : m.state = .running) {parameters : String → Option Nat}
    (harity : ∀ tail target n, i = callTo tail target → arity? parameters host m target = some n → n = l)
    (hresumes : ∀ tail target h k, i = callTo tail target → callee? host m target = some (.inr (.handle h)) →
      m.heap.get? h ≠ some (.continuation k)) : Leads (dispatch host i) m (Goes ⟨s', i, l⟩ m) := by
  have hcall (tail : Bool) (target : Operand) (hi : i = callTo tail target) :
      Leads (call host target tail) m (Goes ⟨s', i, l⟩ m) :=
    leads_call hstate hi (fun k => harity tail target k hi) fun h k => hresumes tail target h k hi
  have hself : Touched 0 m m := .refl 0 m
  -- the plan of the code says which instruction stands where
  cases hflow with
  | comment => exact hself.advances rfl hstate rfl ""
  | label => exact hself.advances rfl hstate rfl ""
  | store =>
    exact touches_pop.leads fun v m₁ h₁ => (touches_store _ v).leads fun _ m₂ h₂ =>
      (h₁.trans h₂).advances rfl hstate rfl ""
  | load =>
    exact (touches_dereference _).leads fun v m₁ h₁ => (touches_closed v).leads fun w m₂ h₂ =>
      (touches_push w).leads fun _ m₃ h₃ => ((h₁.trans h₂).trans h₃).advances rfl hstate rfl ""
  | loadClosure =>
    exact (touches_makeClosure _).leads fun h m₁ h₁ => (touches_push _).leads fun _ m₂ h₂ =>
      (h₁.trans h₂).advances rfl hstate rfl ""
  | push | pushLabel =>
    exact (touches_operandValue _ _).leads fun v m₁ h₁ => (touches_push v).leads fun _ m₂ h₂ =>
      (h₁.trans h₂).advances rfl hstate rfl ""
  | pop => exact touches_pop.leads fun v m₁ h₁ => h₁.advances rfl hstate rfl ""
  | set =>
    exact touches_pop.leads fun v m₁ h₁ => (touches_closed v).leads fun w m₂ h₂ => (touches_assign _ w).leads
      fun _ m₃ h₃ => ((h₁.trans h₂).trans h₃).advances rfl hstate rfl ""
  | start => exact hcall false _ rfl
  | call => exact hcall false _ rfl
  | callLabel => exact hcall false _ rfl
  | tailCall => exact hcall true _ rfl
  | tailCallLabel => exact hcall true _ rfl
  | ret => exact (leads_doReturn hstate rfl).then_pure ""
  | capture => exact (leads_capture hstate rfl rfl _).then_pure ""
  | branch hop =>
    rcases hop with rfl | rfl
    · exact (leads_branch hstate rfl rfl rfl true).then_pure ""
    · exact (leads_branch hstate rfl rfl rfl false).then_pure ""
  | goto => exact (hself.leads_jump rfl hstate rfl).then_pure ""
  | @operation o d k op hop =>
    obtain ⟨htaken, hfalls, -, -⟩ := Line.of_operation hop s' l
    rw [dispatch_plain host hop]
    exact (touches_operate hop).leads fun written m₁ h₁ => h₁.advances htaken hstate hfalls written
  | fork => exact (touches_fork _ _).leads fun _ m₁ h₁ => h₁.advances rfl hstate rfl ""
  | halt => exact Leads.then_pure (.modify ⟨List.drop_suffix _ _, .ends rfl⟩) ""

/-- **Where a line of laid out code goes**, unless it calls a continuation. Nothing is asked of the arguments of calls. -/
theorem way_dispatch (hflow : Flows p P line next) (hstate : m.state = .running)
    (hresumes : ∀ tail target h k, line.instruction = callTo tail target →
      callee? host m target = some (.inr (.handle h)) → m.heap.get? h ≠ some (.continuation k)) :
    Leads (dispatch host line.instruction) m (Way line m) := by
  -- what is not known of the line does not matter: let it have as many arguments as its target takes
  let n := (line.instruction.callTarget?.bind (arity? (fun _ => none) host m)).getD 0
  have harity : ∀ tail target k, line.instruction = callTo tail target →
      arity? (fun _ => none) host m target = some k → k = n := by
    intro tail target k hi hk
    simp only [n]
    rw [Instruction.callTarget?_eq_some.mpr ⟨tail, hi⟩, Option.bind_some, hk, Option.getD_some]
  have hleads : Leads (dispatch host line.instruction) m (Goes ⟨line.spot, line.instruction, n⟩ m) :=
    leads_dispatch hflow hstate harity hresumes
  intro a m' hrun
  cases (hleads a m' hrun).way with
  | on hframes hcurrent hstate hpc => exact .on hframes hcurrent hstate hpc
  | calls hi hframes => exact .calls hi hframes
  | instead hleaves hframes => exact .instead hleaves hframes
  | back hleaves hframes hcurrent hpc hstate => exact .back hleaves hframes hcurrent hpc hstate
  | ends hstate => exact .ends hstate

end Dispatch

end Machine

end SchemeMachine
