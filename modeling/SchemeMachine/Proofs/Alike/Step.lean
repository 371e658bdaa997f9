import SchemeMachine.Proofs.Alike.Machine

/-!
# Alike machines take alike steps

The lemmas of `Machine.Alike` for primitives, calls, continuations and forks, and from them the result
for every instruction.

* `Machine.Alike.operate` is about primitives, `Machine.Alike.call` about calls.
* `Machine.Alike.dispatch` is about any instruction whose handle, if it has one, is a constant.
-/

namespace SchemeMachine

namespace Machine.Alike

variable {ps qs : Pairing} {m n : Machine}

/-! ### Primitives -/

theorem numberOf (op : Opcode) {v w : Value} (hv : v.Alike ps w) :
    (∃ x, Machine.numberOf op v = .ok x ∧ Machine.numberOf op w = .ok x) ∨
    ∃ e f, Machine.numberOf op v = .error e ∧ Machine.numberOf op w = .error f ∧ e.Alike f := by
  unfold Machine.numberOf
  rw [hv.number?, hv.typeName]
  cases w.number? with
  | some x => exact Or.inl ⟨x, rfl, rfl⟩
  | none => exact Or.inr ⟨_, _, rfl, rfl, .typeError (hv.text _)⟩

/-- Numbers compute to plain values. -/
theorem numeric_plain {op : Opcode} {x y : Float} {v : Value} (h : numeric op x y = .ok v) :
    v.handle? = none := by
  cases op <;> simp only [numeric] at h
  case div | mod =>
    split at h
    · cases h
    · cases h; rfl
  all_goals first | (cases h; rfl) | cases h

theorem operateNumeric (ha : m.Alike ps n) (op : Opcode) :
    AgreeUnit ps ((operateNumeric op).run m) ((operateNumeric op).run n) := by
  unfold Machine.operateNumeric
  refine ha.pop.bind fun qs m n b b' hs ha hb => ?_
  refine ha.pop.bind fun rs m n a a' hs ha haa => ?_
  rcases numberOf op haa with ⟨x, hx, hx'⟩ | ⟨e, f, he, hf, hef⟩
  · rcases numberOf op (hb.mono hs.subset) with ⟨y, hy, hy'⟩ | ⟨e, f, he, hf, hef⟩
    · simp only [hx, hx', hy, hy', bind, Except.bind]
      cases hv : Machine.numeric op x y with
      | ok v => exact ha.push (.plain (numeric_plain hv))
      | error e => exact Agree.fail ha (.refl e)
    · simp only [hx, hx', he, hf, bind, Except.bind]
      exact Agree.fail ha hef
  · simp only [he, hf, bind, Except.bind]
    exact Agree.fail ha hef

theorem listItems (ha : m.Alike ps n) (op : Opcode) {v w : Value} (hv : v.Alike ps w) :
    Agree ps (fun qs => List.Forall₂ (Value.Alike qs))
      ((listItems op v).run m) ((listItems op w).run n) := by
  unfold Machine.listItems
  rw [hv.typeName]
  cases hv with
  | plain hp => rw [hp]; exact Agree.fail ha (.refl _)
  | @handle h k hm =>
    obtain ⟨o, o', ho, ho', hoo⟩ := ha.heap.get? hm
    simp only [Value.handle?]
    rw [run_get_bind, run_get_bind, ho, ho']
    cases hoo with
    | list hlm => exact Agree.ok ha hlm
    | _ => exact Agree.fail ha (.refl _)

theorem operate (ha : m.Alike ps n) (op : Opcode) :
    AgreeText ps ((operate op).run m) ((operate op).run n) := by
  -- arithmetic and comparison
  have numeric : AgreeText ps ((do Machine.operateNumeric op; return "" : Move String).run m)
      ((do Machine.operateNumeric op; return "" : Move String).run n) :=
    (ha.operateNumeric op).bind fun _ _ _ _ _ _ ha _ => Agree.ok ha rfl
  -- every other primitive ends with one value on the stack
  have leave : ∀ {qs : Pairing} {m n : Machine} {v w : Value}, m.Alike qs n → v.Alike qs w →
      AgreeText qs ((do Machine.push v; return "" : Move String).run m)
        ((do Machine.push w; return "" : Move String).run n) :=
    fun ha hv => (ha.push hv).bind fun _ _ _ _ _ _ ha _ => Agree.ok ha rfl
  unfold Machine.operate
  cases op with
  | eqn =>
    refine ha.pop.bind fun qs m n b b' hs ha hb => ?_
    refine ha.pop.bind fun rs m n a a' hs ha haa => ?_
    rw [run_get_bind, run_get_bind, ha.heap.equal haa (hb.mono hs.subset)]
    exact leave ha (.plain rfl)
  | and =>
    refine ha.pop.bind fun qs m n b b' hs ha hb => ?_
    refine ha.pop.bind fun rs m n a a' hs ha haa => ?_
    rw [haa.isTruthy, hb.isTruthy]
    exact leave ha (.plain rfl)
  | or =>
    refine ha.pop.bind fun qs m n b b' hs ha hb => ?_
    refine ha.pop.bind fun rs m n a a' hs ha haa => ?_
    rw [haa.isTruthy, hb.isTruthy]
    exact leave ha (.plain rfl)
  | not =>
    refine ha.pop.bind fun qs m n b b' hs ha hb => ?_
    rw [hb.isTruthy]
    exact leave ha (.plain rfl)
  | car =>
    refine ha.pop.bind fun qs m n b b' hs ha hb => ?_
    refine (ha.listItems _ hb).bind fun rs m n l l' hs ha hl => ?_
    cases hl with
    | nil => exact Agree.fail ha (.refl _)
    | cons hv _ => exact leave ha hv
  | cdr =>
    refine ha.pop.bind fun qs m n b b' hs ha hb => ?_
    refine (ha.listItems _ hb).bind fun rs m n l l' hs ha hl => ?_
    cases hl with
    | nil => exact Agree.fail ha (.refl _)
    | cons _ hrest =>
      exact (ha.allocate (.list hrest)).bind fun _ _ _ _ _ _ ha hm => leave ha (.handle hm)
  | cons =>
    refine ha.pop.bind fun qs m n b b' hs ha hb => ?_
    refine ha.pop.bind fun rs m n a a' hs ha haa => ?_
    refine (ha.listItems _ (hb.mono hs.subset)).bind fun us m n l l' hs ha hl => ?_
    exact (ha.allocate (.list (.cons (haa.mono hs.subset) hl))).bind
      fun _ _ _ _ _ _ ha hm => leave ha (.handle hm)
  | display =>
    refine ha.pop.bind fun qs m n b b' hs ha hb => ?_
    rw [run_get_bind, run_get_bind, ha.heap.display hb]
    exact Agree.ok ha rfl
  | newline => exact Agree.ok ha rfl
  | add | sub | mul | div | mod | pow | ge | le | gt | lt => exact numeric
  | _ => exact Agree.fail ha (.refl _)

/-! ### Calls -/

theorem pushFrame (ha : m.Alike ps n) (tail : Bool) :
    AgreeUnit ps ((pushFrame tail).run m) ((pushFrame tail).run n) := by
  unfold Machine.pushFrame
  cases tail with
  | true => exact Agree.ok ha trivial
  | false =>
    refine Agree.ok ?_ trivial
    exact { ha with frames := .cons ⟨ha.current, congrArg (· + 1) ha.pc⟩ ha.frames }

theorem enter (ha : m.Alike ps n) {h k : Handle} (hm : (h, k) ∈ ps) (tail : Bool) :
    AgreeUnit ps ((enter h tail).run m) ((enter k tail).run n) := by
  refine (ha.pushFrame tail).bind fun qs m n _ _ hs ha _ => ?_
  refine Agree.ok ?_ trivial
  refine { ha with current := .some (hs.subset hm), pc := ?_ }
  have hcd := ha.heap.closure? (hs.subset hm)
  dsimp only
  generalize m.heap.closure? h = c at hcd ⊢
  generalize n.heap.closure? k = d at hcd ⊢
  cases hcd with
  | some hcd => exact hcd.address
  | none => exact ha.pc

theorem finishCall (ha : m.Alike ps n) (tail : Bool) :
    AgreeUnit ps ((finishCall tail).run m) ((finishCall tail).run n) := by
  cases tail with
  | true => exact ha.doReturn
  | false => exact ha.advance

theorem popArguments (ha : m.Alike ps n) (count : Nat) :
    Agree ps (fun qs => List.Forall₂ (Value.Alike qs))
      ((popArguments count).run m) ((popArguments count).run n) := by
  induction count generalizing ps m n with
  | zero => exact Agree.ok ha .nil
  | succ count ih =>
    refine ha.pop.bind fun qs m n v w hs ha hv => ?_
    refine (ih ha).bind fun rs m n l l' hs ha hl => ?_
    exact Agree.ok ha (List.rel_append hl (.cons (hv.mono hs.subset) .nil))

theorem callNative (ha : m.Alike ps n) (library function : String) {native : NativeFunction}
    (hn : native.Uniform) (tail : Bool) :
    AgreeUnit ps ((callNative library function native tail).run m)
      ((callNative library function native tail).run n) := by
  refine (ha.popArguments native.arity).bind fun qs m n args args' hs ha hargs => ?_
  rw [run_get_bind, run_get_bind, ← ha.pid]
  rcases hn qs m.heap n.heap m.pid library function args args' ha.heap hargs with
    ⟨e, he, hf⟩ | ⟨a, b, haa, hbb, hab⟩
  · rw [he, hf]
    cases e <;> exact Agree.fail ha (.refl _)
  · rw [haa, hbb]
    cases hab with
    | value hv => exact (ha.push hv).bind fun _ _ _ _ _ _ ha _ => ha.finishCall tail
    | newString content =>
      refine (ha.allocate (.string content)).bind fun _ _ _ _ _ _ ha hm => ?_
      exact (ha.push (.handle hm)).bind fun _ _ _ _ _ _ ha _ => ha.finishCall tail
    | pending job =>
      refine (ha.pushFrame tail).bind fun _ _ _ _ _ _ ha _ => ?_
      refine Agree.ok ?_ trivial
      exact { ha with pending := rfl, state := rfl }

theorem callPrimitive (ha : m.Alike ps n) (word : String) (tail : Bool) :
    AgreeText ps ((callPrimitive word tail).run m) ((callPrimitive word tail).run n) := by
  unfold Machine.callPrimitive
  cases Opcode.ofPrimitive? word with
  | none => exact Agree.fail ha (.refl _)
  | some op =>
    have finish : ∀ {qs : Pairing} {m n : Machine} (written : String), m.Alike qs n →
        AgreeText qs ((do Machine.finishCall tail; return written : Move String).run m)
          ((do Machine.finishCall tail; return written : Move String).run n) :=
      fun written ha => (ha.finishCall tail).bind fun _ _ _ _ _ _ ha _ => Agree.ok ha rfl
    refine (ha.operate op).bind fun qs m n s t hs ha hst => ?_
    subst hst
    dsimp only
    split
    · exact (ha.push (.plain rfl)).bind fun _ _ _ _ _ _ ha _ => finish s ha
    · exact finish s ha

theorem resume (ha : m.Alike ps n) {k l : Continuation} (hk : k.Alike ps l) :
    AgreeUnit ps ((resume k).run m) ((resume l).run n) := by
  refine ha.pop.bind fun qs m n v w hs ha hv => ?_
  have hk := hk.mono hs.subset
  rw [run_get_bind, run_get_bind, ha.image, hk.resume]
  cases n.image.labels.find? l.resume with
  | none => exact Agree.fail ha (.refl _)
  | some place =>
    refine Agree.ok ?_ trivial
    exact { ha with stack := .cons hv hk.stack, frames := hk.frames, current := hk.closure, pc := rfl }

theorem callObject (ha : m.Alike ps n) {h k : Handle} (hm : (h, k) ∈ ps) (tail : Bool) :
    AgreeUnit ps ((callObject h tail).run m) ((callObject k tail).run n) := by
  obtain ⟨o, o', ho, ho', hoo⟩ := ha.heap.get? hm
  unfold Machine.callObject
  rw [run_get_bind, run_get_bind, ho, ho']
  cases hoo with
  | string content => exact Agree.fail ha (.refl _)
  | list h => exact Agree.fail ha (.refl _)
  | continuation hk => exact ha.resume hk
  | @closure c d hcd =>
    have hnew : Closure.Alike ps
        { label := c.label, address := c.address, parent := some h, free := c.environment }
        { label := d.label, address := d.address, parent := some k, free := d.environment } :=
      ⟨hcd.label, hcd.address, .some hm, .nil, hcd.environment, rfl⟩
    exact (ha.allocate (.closure hnew)).bind fun _ _ _ _ _ _ ha hm => ha.enter hm tail

theorem callValue (ha : m.Alike ps n) {v w : Value} (hv : v.Alike ps w) (tail : Bool) :
    AgreeText ps ((callValue v tail).run m) ((callValue w tail).run n) := by
  cases hv with
  | handle hm => exact (ha.callObject hm tail).bind fun _ _ _ _ _ _ ha _ => Agree.ok ha rfl
  | plain hp =>
    cases v with
    | handle h => cases hp
    | label name =>
      refine (ha.makeClosure name).bind fun _ _ _ _ _ _ ha hm => ?_
      exact (ha.enter hm tail).bind fun _ _ _ _ _ _ ha _ => Agree.ok ha rfl
    | keyword word => exact ha.callPrimitive word tail
    | _ => exact Agree.fail ha (.refl _)

/-- The value of an operand is alike if its handle, should it be one, is a constant. -/
theorem ofOperand? {operand : Operand} (hop : ∀ h, operand = .handle h → (h, h) ∈ ps) {v : Value}
    (hv : Value.ofOperand? operand = some v) : v.Alike ps v := by
  cases operand with
  | handle h =>
    obtain rfl : v = .handle h := (Option.some.inj hv).symm
    exact .handle (hop h rfl)
  | label name =>
    obtain rfl : v = .label name := (Option.some.inj hv).symm
    exact .plain rfl
  | atom a =>
    cases a with
    | «variable» name => cases hv
    | _ => exact (Option.some.inj hv) ▸ .plain rfl

theorem call (ha : m.Alike ps n) {host : Host} (hr : host.registry.Uniform) {target : Operand}
    (hop : ∀ h, target = .handle h → (h, h) ∈ ps) (tail : Bool) :
    AgreeText ps ((call host target tail).run m) ((call host target tail).run n) := by
  have other : ∀ v, Value.ofOperand? target = some v →
      AgreeText ps ((Machine.callValue v tail).run m) ((Machine.callValue v tail).run n) :=
    fun v hv => ha.callValue (ofOperand? hop hv) tail
  unfold Machine.call
  cases target with
  | handle h => exact other _ rfl
  | label name => exact other _ rfl
  | atom a =>
    cases a with
    | «variable» name =>
      dsimp only
      rw [run_get_bind, run_get_bind]
      have htarget : nativeTarget? host m name = nativeTarget? host n name := by
        unfold nativeTarget?; rw [ha.image]
      rw [htarget]
      cases hn : nativeTarget? host n name with
      | none => exact (ha.dereference name).bind fun _ _ _ _ _ _ ha hv => ha.callValue hv tail
      | some found =>
        obtain ⟨library, function, native⟩ := found
        have hu : native.Uniform := hr _ _ _ (nativeTarget?_eq_some hn).2
        exact (ha.callNative library function hu tail).bind fun _ _ _ _ _ _ ha _ => Agree.ok ha rfl
    | _ => exact other _ rfl

/-! ### Continuations and forks -/

theorem capture (ha : m.Alike ps n) (name : String) :
    AgreeUnit ps ((capture name).run m) ((capture name).run n) := by
  unfold Machine.capture
  rw [run_get_bind, run_get_bind]
  have hk : Continuation.Alike ps ⟨m.current, m.stack, m.frames, name⟩
      ⟨n.current, n.stack, n.frames, name⟩ := ⟨ha.current, ha.stack, ha.frames, rfl⟩
  refine (ha.allocate (.continuation hk)).bind fun _ _ _ _ _ _ ha hm => ?_
  exact (ha.store name (.handle hm)).bind fun _ _ _ _ _ _ ha _ => ha.advance

/-- Forking corresponding objects runs the same program. -/
theorem forkProgram {H G : Heap} (ha : H.Alike ps G) (host : Host) {h k : Handle} (hm : (h, k) ∈ ps) :
    Machine.forkProgram host H h = Machine.forkProgram host G k := by
  obtain ⟨o, o', ho, ho', hoo⟩ := ha.get? hm
  unfold Machine.forkProgram
  rw [ho, ho']
  cases hoo with
  | string content => rfl
  | list hl => dsimp only; rw [ha.source? (.handle hm)]
  | closure hc => rfl
  | continuation hk => rfl

theorem fork (ha : m.Alike ps n) (host : Host) {h k : Handle} (hm : (h, k) ∈ ps) :
    AgreeUnit ps ((fork host h).run m) ((fork host k).run n) := by
  unfold Machine.fork
  rw [run_get_bind, run_get_bind, forkProgram ha.heap host hm]
  refine (ha.require _).bind fun _ _ _ p _ _ ha hp => ?_
  subst hp
  refine (ha.require _).bind fun _ _ _ image _ _ ha hi => ?_
  subst hi
  refine Agree.ok ?_ trivial
  exact { ha with forked := congrArg (· ++ [image]) ha.forked }

/-! ### Instructions -/

theorem closed (ha : m.Alike ps n) {v w : Value} (hv : v.Alike ps w) :
    Agree ps Value.Alike ((closed v).run m) ((closed w).run n) := by
  cases hv with
  | handle hm => exact Agree.ok ha (.handle hm)
  | plain hp =>
    cases v with
    | label name => exact (ha.makeClosure name).bind fun _ _ _ _ _ _ ha hm => Agree.ok ha (.handle hm)
    | _ => exact Agree.ok ha (.plain hp)

theorem operandValue (ha : m.Alike ps n) (op : Opcode) {operand : Option Operand}
    (hop : ∀ h, operand = some (.handle h) → (h, h) ∈ ps) :
    Agree ps Value.Alike ((operandValue op operand).run m) ((operandValue op operand).run n) := by
  have other : ∀ o v, operand = some o → Value.ofOperand? o = some v →
      Agree ps Value.Alike (Except.ok v, m) (Except.ok v, n) :=
    fun o v ho hv => Agree.ok ha (ofOperand? (fun h hh => hop h (by rw [ho, hh])) hv)
  unfold Machine.operandValue
  cases operand with
  | none => exact Agree.fail ha (.refl _)
  | some o =>
    cases o with
    | handle h => exact other _ _ rfl rfl
    | label name => exact other _ _ rfl rfl
    | atom a =>
      cases a with
      | «variable» name => exact ha.dereference name
      | _ => exact other _ _ rfl rfl

theorem branch (ha : m.Alike ps n) (op : Opcode) (operand : Option Operand) (condition : Bool) :
    AgreeUnit ps ((branch op operand condition).run m) ((branch op operand condition).run n) := by
  refine (ha.require _).bind fun _ _ _ label _ _ ha hl => ?_
  subst hl
  refine ha.pop.bind fun _ _ _ v w _ ha hv => ?_
  rw [hv.isTruthy]
  split
  · exact ha.jump label
  · exact ha.advance

/-- After a move without an answer: nothing is written. -/
private theorem silently {x y : Except Fault Unit × Machine} {a b : Move Unit}
    (hx : a.run m = x) (hy : b.run n = y) (h : AgreeUnit ps x y) :
    AgreeText ps ((do a; return "" : Move String).run m) ((do b; return "" : Move String).run n) := by
  subst hx hy
  exact h.bind fun _ _ _ _ _ _ ha _ => Agree.ok ha rfl

/-- After which the machine goes on to the next instruction. -/
private theorem onward (ha : m.Alike ps n) :
    AgreeText ps ((do Machine.advance; return "" : Move String).run m)
      ((do Machine.advance; return "" : Move String).run n) :=
  silently rfl rfl ha.advance

/-- **Alike machines carry out an operation alike.** -/
theorem execute (ha : m.Alike ps n) {host : Host} (hr : host.registry.Uniform) (op : Opcode)
    {operand : Option Operand} (hop : ∀ h, operand = some (.handle h) → (h, h) ∈ ps) :
    AgreeText ps ((execute host op operand).run m) ((execute host op operand).run n) := by
  -- the primitives differ in what they make of the stack only
  have primitive : AgreeText ps
      ((do let written ← Machine.operate op; Machine.advance; return written : Move String).run m)
      ((do let written ← Machine.operate op; Machine.advance; return written : Move String).run n) := by
    refine (ha.operate op).bind fun _ _ _ s _ _ ha hst => ?_
    subst hst
    exact ha.advance.bind fun _ _ _ _ _ _ ha _ => Agree.ok ha rfl
  -- each operation is a sequence of moves that alike machines make alike
  unfold Machine.execute
  cases op with
  | store =>
    refine (ha.require _).bind fun _ _ _ name _ _ ha hn => ?_
    subst hn
    refine ha.pop.bind fun _ _ _ v w _ ha hv => ?_
    exact (ha.store name hv).bind fun _ _ _ _ _ _ ha _ => onward ha
  | load =>
    refine (ha.operandValue _ hop).bind fun _ _ _ v w _ ha hv => ?_
    refine (ha.closed hv).bind fun _ _ _ v w _ ha hv => ?_
    exact (ha.push hv).bind fun _ _ _ _ _ _ ha _ => onward ha
  | push =>
    refine (ha.operandValue _ hop).bind fun _ _ _ v w _ ha hv => ?_
    exact (ha.push hv).bind fun _ _ _ _ _ _ ha _ => onward ha
  | loadClosure =>
    refine (ha.require _).bind fun _ _ _ label _ _ ha hl => ?_
    subst hl
    refine (ha.makeClosure label).bind fun _ _ _ _ _ _ ha hm => ?_
    exact (ha.push (.handle hm)).bind fun _ _ _ _ _ _ ha _ => onward ha
  | pop => exact ha.pop.bind fun _ _ _ _ _ _ ha _ => onward ha
  | swap => exact ha.swap.bind fun _ _ _ _ _ _ ha _ => onward ha
  | set =>
    refine (ha.require _).bind fun _ _ _ name _ _ ha hn => ?_
    subst hn
    refine ha.pop.bind fun _ _ _ v w _ ha hv => ?_
    refine (ha.closed hv).bind fun _ _ _ v w _ ha hv => ?_
    exact (ha.assign name hv).bind fun _ _ _ _ _ _ ha _ => onward ha
  | call =>
    cases operand with
    | none => exact Agree.fail ha (.refl _)
    | some target => exact ha.call hr (fun h hh => hop h (by rw [hh])) false
  | tailCall =>
    cases operand with
    | none => exact Agree.fail ha (.refl _)
    | some target => exact ha.call hr (fun h hh => hop h (by rw [hh])) true
  | ret => exact silently rfl rfl ha.doReturn
  | capture =>
    refine (ha.require _).bind fun _ _ _ name _ _ ha hn => ?_
    subst hn
    exact silently rfl rfl (ha.capture name)
  | ifTrue => exact silently rfl rfl (ha.branch _ operand true)
  | ifFalse => exact silently rfl rfl (ha.branch _ operand false)
  | goto =>
    refine (ha.require _).bind fun _ _ _ label _ _ ha hl => ?_
    subst hl
    exact silently rfl rfl (ha.jump label)
  | fork =>
    match operand, hop with
    | some (.handle h), hop =>
      exact (ha.fork host (hop h rfl)).bind fun _ _ _ _ _ _ ha _ => onward ha
    | none, _ => exact Agree.fail ha (.refl _)
    | some (.atom _), _ => exact Agree.fail ha (.refl _)
    | some (.label _), _ => exact Agree.fail ha (.refl _)
  | nop => exact onward ha
  | pause =>
    have hm : ({ m with state := .suspended } : Machine).Alike ps { n with state := .suspended } :=
      { ha with state := rfl }
    exact onward hm
  | halt =>
    refine Agree.ok ?_ rfl
    exact { ha with state := rfl }
  | _ => exact primitive

/-- **Alike machines carry out an instruction alike.** -/
theorem dispatch (ha : m.Alike ps n) {host : Host} (hr : host.registry.Uniform) {i : Instruction}
    (hi : i.Grounded m.image.program) :
    AgreeText ps ((dispatch host i).run m) ((dispatch host i).run n) := by
  cases i with
  | comment text => exact onward ha
  | label name => exact onward ha
  | op opcode operand =>
    refine ha.execute hr opcode fun h hh => ha.constants h ?_
    subst hh
    exact hi opcode h rfl

end Machine.Alike

end SchemeMachine
