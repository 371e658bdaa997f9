import SchemeMachine.Proofs.Sound.Environment

/-!
# Moves of a sound machine

A move is safe if it ends with what is wanted of it, or fails and leaves a sound machine; a run that keeps count of
its operands does not fail for a structural reason.

* `Machine.Safe` is the notion, with one rule for each move that is followed by others.
* `Machine.Sound.safe_operate` covers the primitives.
-/

namespace SchemeMachine

variable {p : Program} {L : Layout p} {strict : Prop} {A : Handle → Prop} {m : Machine} {α β : Type}

namespace Machine

/-- **A move ends well**: `Q` holds of its answer and the machine after it, or it fails and the machine is sound. -/
def Safe (L : Layout p) (strict : Prop) (x : Move α) (m : Machine) (Q : α → Machine → Prop) : Prop :=
  match x.run m with
  | (.ok a, m') => Q a m'
  | (.error e, m') => (∃ A, m'.Sound L strict A) ∧ (strict → e.isStructural = false)

variable {x : Move α} {f : α → Move β} {Q : α → Machine → Prop} {R : β → Machine → Prop}

/-! ### Rules -/

theorem Safe.ok {a : α} {m' : Machine} (h : x.run m = (.ok a, m')) (hQ : Q a m') : Safe L strict x m Q := by
  unfold Safe
  rw [h]
  exact hQ

theorem Safe.pure {a : α} (h : Q a m) : Safe L strict (pure a : Move α) m Q := h

theorem Sound.fail (hs : m.Sound L strict A) {e : Fault} (he : strict → e.isStructural = false) :
    Safe L strict (throw e : Move α) m Q :=
  ⟨⟨A, hs⟩, he⟩

/-- **One move after the other.** -/
theorem Safe.bind (h : Safe L strict x m Q) (hf : ∀ a m', Q a m' → Safe L strict (f a) m' R) :
    Safe L strict (x >>= f) m R := by
  unfold Safe at h ⊢
  rw [run_bind]
  generalize x.run m = r at h
  obtain ⟨(e | a), m'⟩ := r
  · exact h
  · exact hf a m' h

theorem Safe.bind_ok {a : α} {m' : Machine} (h : x.run m = (.ok a, m')) (hf : Safe L strict (f a) m' R) :
    Safe L strict (x >>= f) m R := by
  unfold Safe at hf ⊢
  rwa [run_bind_ok h]

theorem Sound.fail_bind (hs : m.Sound L strict A) {e : Fault} (h : x.run m = (.error e, m))
    (he : strict → e.isStructural = false) : Safe L strict (x >>= f) m R := by
  unfold Safe
  rw [run_bind_error h]
  exact ⟨⟨A, hs⟩, he⟩

theorem Safe.get_bind {f : Machine → Move β} (h : Safe L strict (f m) m R) : Safe L strict (get >>= f) m R := h

theorem Safe.require_bind {r : Except Fault α} {a : α} (hr : r = .ok a) (h : Safe L strict (f a) m R) :
    Safe L strict (require r >>= f) m R :=
  .bind_ok (by rw [run_require, hr]) h

/-! ### Stack and heap -/

/-- A machine whose heap has grown. -/
theorem Sound.withHeap (hs : m.Sound L strict A) {A' : Handle → Prop} {H' : Heap} (hh : H'.Sound L strict A')
    (hg : Heap.Grows A m.heap A' H') : ({ m with heap := H' } : Machine).Sound L strict A' := by
  obtain ⟨owner, hruns⟩ := hs.current
  exact ⟨hs.program, hs.labels, hh, owner, hg.runs hruns⟩

theorem Sound.withStack (hs : m.Sound L strict A) (stack : List Value) :
    ({ m with stack } : Machine).Sound L strict A :=
  { hs with }

theorem Sound.pop_bind {f : Value → Move β} (hs : m.Sound L strict A) (hne : strict → m.stack ≠ [])
    (hf : ∀ v rest, m.stack = v :: rest → Safe L strict (f v) { m with stack := rest } R) :
    Safe L strict (pop >>= f) m R := by
  cases hstack : m.stack with
  | nil => exact hs.fail_bind (run_pop_nil hstack) fun h => absurd hstack (hne h)
  | cons v rest => exact .bind_ok (run_pop_cons hstack) (hf v rest hstack)

/-- Place an object other than a closure. -/
theorem Sound.allocate_bind {f : Handle → Move β} {o : Object} (hs : m.Sound L strict A) (hnot : ∀ c, o ≠ .closure c)
    (ho : o.Sound L strict A m.heap m.heap.nextSlot)
    (hf : ∀ h H', H'.Sound L strict A → Heap.Grows A m.heap A H' → (Value.handle h).Settled A H' →
      Safe L strict (f h) { m with heap := H' } R) :
    Safe L strict (allocate o >>= f) m R := by
  obtain ⟨hsound, hgrows, hsettled⟩ := hs.heap.allocate hnot ho m.current
  exact .bind_ok (run_allocate o m) (hf m.heap.nextSlot _ hsound hgrows hsettled)

/-! ### Variables -/

/-- What a variable may stand for: a value, or a procedure that can be closed. -/
def Readable (L : Layout p) (A : Handle → Prop) (m : Machine) (v : Value) : Prop :=
  v.Settled A m.heap ∨ ∃ N, v = .label N ∧ Closable L A m N ∧ (p.enclosing.find? N).isSome

/-- What the current closure sees of a name. -/
def seen? (m : Machine) (name : String) : Option Value :=
  (m.current.bind m.heap.closure?).bind (lookup? m.heap · name)

theorem Sound.dereference_bind {f : Value → Move β} {o name : String} (hs : m.Sound L strict A)
    (hruns : Runs A m.heap m.current (some o))
    (hf : ∀ v, m.seen? name = some v → Readable L A m v → Safe L strict (f v) m R) :
    Safe L strict (dereference name >>= f) m R := by
  cases hcurrent : m.current with
  | none =>
    rw [hcurrent] at hruns
    cases hruns
  | some h =>
    obtain ⟨c, hc⟩ : ∃ c, m.heap.closure? h = some c := by
      rw [hcurrent] at hruns
      cases hruns with
      | code _ hc => exact ⟨_, hc⟩
    obtain ⟨l, hl⟩ := hs.heap.exists_lineage hc
    have hrun := run_dereference name hcurrent hc
    cases hb : Ancestry.binder? ((h, c) :: l) name with
    | none =>
      rw [hs.heap.lookup?_eq_none hc hl hb] at hrun
      exact hs.fail_bind hrun fun _ => rfl
    | some e =>
      obtain ⟨w, hw⟩ := Ancestry.bound_of_binder? hb
      obtain ⟨v, hv, -, hheld⟩ := hs.heap.lookup?_eq_some hc hl hb hw
      rw [hv] at hrun
      have hseen : m.seen? name = some v := by simp only [seen?, hcurrent, Option.bind_some, hc, hv]
      refine .bind_ok hrun (hf v hseen (hheld.imp_right ?_))
      rintro ⟨N, rfl, hwaits⟩
      refine ⟨N, rfl, .outer (hcurrent ▸ hl) (Ancestry.mem_of_binder? hb) hwaits, by simp [hwaits.enclosing]⟩

/-- **A value that may still be a label is closed.** -/
theorem Sound.run_closed {v : Value} (hs : m.Sound L strict A) (hv : Readable L A m v) :
    ∃ A' H' w, (closed v).run m = (.ok w, { m with heap := H' }) ∧ H'.Sound L strict A' ∧
      Heap.Grows A m.heap A' H' ∧ w.Settled A' H' := by
  rcases hv with hv | ⟨N, rfl, hn, henclosing⟩
  · refine ⟨A, m.heap, v, ?_, hs.heap, .refl, hv⟩
    cases v with
    | label N => exact hv.elim
    | _ => rfl
  · obtain ⟨A', h, c, H', hrun, hsound, hgrows, hc, -, hact⟩ := hn.run_makeClosure hs False fun _ => henclosing
    exact ⟨A', H', .handle h, run_bind_ok hrun, hsound, hgrows, by simp [Heap.closure?_eq_some.mp hc], hact.mp⟩

theorem Sound.closed_bind {f : Value → Move β} {v : Value} (hs : m.Sound L strict A) (hv : Readable L A m v)
    (hf : ∀ A' H' w, H'.Sound L strict A' → Heap.Grows A m.heap A' H' → w.Settled A' H' →
      Safe L strict (f w) { m with heap := H' } R) :
    Safe L strict (closed v >>= f) m R := by
  obtain ⟨A', H', w, hrun, hsound, hgrows, hw⟩ := hs.run_closed hv
  exact .bind_ok hrun (hf A' H' w hsound hgrows hw)

theorem Sound.makeClosure_bind {f : Handle → Move β} {N : String} (hs : m.Sound L strict A) (hn : Closable L A m N)
    (henclosing : (p.enclosing.find? N).isSome)
    (hf : ∀ A' H' h, H'.Sound L strict A' → Heap.Grows A m.heap A' H' → (Value.handle h).Settled A' H' →
      Safe L strict (f h) { m with heap := H' } R) :
    Safe L strict (makeClosure N >>= f) m R := by
  obtain ⟨A', h, c, H', hrun, hsound, hgrows, hc, -, hact⟩ := hn.run_makeClosure hs False fun _ => henclosing
  refine .bind_ok hrun (hf A' H' h hsound hgrows ⟨?_, hact.mp⟩)
  simp [Heap.closure?_eq_some.mp hc]

theorem Sound.store_bind {f : Unit → Move β} {o name : String} {v : Value} (hs : m.Sound L strict A)
    (hruns : Runs A m.heap m.current (some o)) (howns : L.owns o name) (hv : v.Held L A m.heap o)
    (hf : ∀ H', H'.Sound L strict A → Heap.Grows A m.heap A H' → Safe L strict (f ()) { m with heap := H' } R) :
    Safe L strict (store name v >>= f) m R := by
  cases hcurrent : m.current with
  | none =>
    rw [hcurrent] at hruns
    cases hruns
  | some h =>
    rw [hcurrent] at hruns
    cases hruns with
    | code hact hc =>
      obtain ⟨hsound, hgrows⟩ := hs.heap.bind hact hc howns hv
      exact .bind_ok (hs.run_store hcurrent hc) (hf _ hsound hgrows)

theorem Sound.assign_bind {f : Unit → Move β} {o name : String} {v : Value} (hs : m.Sound L strict A)
    (hruns : Runs A m.heap m.current (some o)) (hv : v.Settled A m.heap)
    (hf : ∀ H', H'.Sound L strict A → Heap.Grows A m.heap A H' → Safe L strict (f ()) { m with heap := H' } R) :
    Safe L strict (assign name v >>= f) m R := by
  cases hcurrent : m.current with
  | none =>
    rw [hcurrent] at hruns
    cases hruns
  | some h =>
    rw [hcurrent] at hruns
    cases hruns with
    | code hact hc =>
      obtain ⟨l, hl⟩ := hs.heap.exists_lineage hc
      cases hb : Ancestry.binder? _ name with
      | none => exact hs.fail_bind (hs.run_assign_of_none hcurrent hc hl hb) fun _ => rfl
      | some e =>
        obtain ⟨H', hrun, hchanges⟩ := hs.run_assign_of_some (v := v) hcurrent hc hl hb
        obtain ⟨hsound, hgrows⟩ := hs.heap.assign hl hb hv hchanges
        exact .bind_ok hrun (hf H' hsound hgrows)

/-! ### Primitives -/

theorem Sound.listItems_bind {f : List Value → Move β} {op : Opcode} {v : Value} (hs : m.Sound L strict A)
    (hv : v.Settled A m.heap) (hf : ∀ items : List Value, (∀ w ∈ items, w.Settled A m.heap) → Safe L strict (f items) m R) :
    Safe L strict (listItems op v >>= f) m R := by
  cases v with
  | handle h =>
    obtain ⟨o, ho⟩ := Option.isSome_iff_exists.mp hv.1
    cases o with
    | list items =>
      refine .bind_ok ?_ (hf items (hs.heap.objects h _ ho))
      unfold listItems
      dsimp only [Value.handle?]
      rw [run_get_bind, ho]
      rfl
    | _ =>
      refine hs.fail_bind (e := .typeError (op.mnemonic ++ " expects a list, got " ++ (Value.handle h).typeName)) ?_
        fun _ => rfl
      unfold listItems
      dsimp only [Value.handle?]
      rw [run_get_bind, ho]
      rfl
  | _ => exact hs.fail_bind (e := .typeError _) rfl fun _ => rfl

theorem numberOf_benign (op : Opcode) (v : Value) :
    (∃ x, numberOf op v = .ok x) ∨ ∃ e, numberOf op v = .error e ∧ e.isStructural = false := by
  unfold numberOf
  cases v.number? with
  | some x => exact Or.inl ⟨x, rfl⟩
  | none => exact Or.inr ⟨_, rfl, rfl⟩

/-- An operation on two numbers gives a number or a truth value, or fails for a reason that lies in its operands. -/
theorem numeric_benign {op : Opcode} (hop : op.operandCount? = some 2)
    (hne : op ≠ .eqn ∧ op ≠ .and ∧ op ≠ .or ∧ op ≠ .cons) (x y : Float) :
    (∃ v : Value, numeric op x y = .ok v ∧ ∀ A H, v.Settled A H) ∨
      ∃ e, numeric op x y = .error e ∧ e.isStructural = false := by
  cases op <;> simp_all [Opcode.operandCount?] <;> unfold numeric <;> dsimp only
  case div =>
    split
    · exact Or.inr ⟨_, rfl, rfl⟩
    · exact Or.inl ⟨_, rfl, fun _ _ => trivial⟩
  case mod =>
    split
    · exact Or.inr ⟨_, rfl, rfl⟩
    · exact Or.inl ⟨_, rfl, fun _ _ => trivial⟩
  all_goals exact Or.inl ⟨_, rfl, fun _ _ => trivial⟩

theorem result_benign {op : Opcode} (hop : op.operandCount? = some 2)
    (hne : op ≠ .eqn ∧ op ≠ .and ∧ op ≠ .or ∧ op ≠ .cons) (a b : Value) :
    (∃ v : Value, (do numeric op (← numberOf op a) (← numberOf op b)) = .ok v ∧ ∀ A H, v.Settled A H) ∨
      ∃ e, (do numeric op (← numberOf op a) (← numberOf op b)) = .error e ∧ e.isStructural = false := by
  rcases numberOf_benign op a with ⟨x, hx⟩ | ⟨e, he, hbenign⟩
  · rcases numberOf_benign op b with ⟨y, hy⟩ | ⟨e, he, hbenign⟩
    · rw [hx, hy]
      exact numeric_benign hop hne x y
    · rw [hx, he]
      exact Or.inr ⟨e, rfl, hbenign⟩
  · rw [he]
    exact Or.inr ⟨e, rfl, hbenign⟩

/-- What a primitive leaves: the heap has grown, and its operands have made way for its answer. -/
def Operated (L : Layout p) (strict : Prop) (A : Handle → Prop) (m : Machine) (op : Opcode) (k : Nat) (m' : Machine) :
    Prop :=
  ∃ H' stack, m' = { m with heap := H', stack } ∧ H'.Sound L strict A ∧ Heap.Grows A m.heap A H' ∧
    (∀ v ∈ stack, v.Settled A H') ∧ stack.length + k = m.stack.length + op.answers.toNat

/-- Two operands, which make way for an answer. -/
theorem Sound.pop_pop_bind {f : Value → Value → Move β} (hs : m.Sound L strict A) (hk : strict → 2 ≤ m.stack.length)
    (hf : ∀ b a rest, m.stack = b :: a :: rest → Safe L strict (f b a) { m with stack := rest } R) :
    Safe L strict (pop >>= fun b => pop >>= fun a => f b a) m R := by
  refine hs.pop_bind (fun h hnil => by simpa [hnil] using hk h) fun b rest hrest => ?_
  refine (hs.withStack rest).pop_bind (fun h hnil => ?_) fun a rest' hrest' => ?_
  · have hlength := hk h
    rw [hrest, show rest = [] from hnil] at hlength
    simp at hlength
  · obtain rfl : rest = a :: rest' := hrest'
    exact hf b a rest' hrest

theorem Sound.operateNumeric_bind {f : Unit → Move β} {op : Opcode} (hs : m.Sound L strict A)
    (hop : op.operandCount? = some 2) (hne : op ≠ .eqn ∧ op ≠ .and ∧ op ≠ .or ∧ op ≠ .cons)
    (hk : strict → 2 ≤ m.stack.length)
    (hf : ∀ v b a rest, m.stack = b :: a :: rest → v.Settled A m.heap →
      Safe L strict (f ()) { m with stack := v :: rest } R) :
    Safe L strict (operateNumeric op >>= f) m R := by
  have hmain : Safe L strict (operateNumeric op) m fun _ m' =>
      ∃ v b a rest, m.stack = b :: a :: rest ∧ v.Settled A m.heap ∧ m' = { m with stack := v :: rest } := by
    unfold operateNumeric
    refine hs.pop_pop_bind hk fun b a rest hrest => ?_
    rcases result_benign hop hne a b with ⟨v, hv, hsettled⟩ | ⟨e, he, hbenign⟩
    · dsimp only
      rw [hv]
      exact .ok (run_push v _) ⟨v, b, a, rest, hrest, hsettled _ _, rfl⟩
    · dsimp only
      rw [he]
      exact (hs.withStack rest).fail fun _ => hbenign
  refine hmain.bind ?_
  rintro _ _ ⟨v, b, a, rest, hrest, hv, rfl⟩
  exact hf v b a rest hrest hv

/-- Operands that make way for an answer, on a heap that has grown. -/
theorem Operated.of_stack {op : Opcode} {k : Nat} {H' : Heap} (taken : List Value) {rest : List Value} {v : Value}
    (hanswers : op.answers = true) (hstack : m.stack = taken ++ rest) (hk : taken.length = k)
    (hrest : ∀ w ∈ m.stack, w.Settled A m.heap) (hsound : H'.Sound L strict A) (hgrows : Heap.Grows A m.heap A H')
    (hv : v.Settled A H') : Operated L strict A m op k { m with heap := H', stack := v :: rest } := by
  refine ⟨H', v :: rest, rfl, hsound, hgrows, fun w hw => ?_, ?_⟩
  · rcases List.mem_cons.mp hw with rfl | hw
    · exact hv
    · exact hgrows.settled (hrest w (hstack ▸ List.mem_append_right _ hw))
  · simp only [hstack, hanswers, List.length_append, List.length_cons, Bool.toNat_true, hk]
    omega

/-- **The primitives are safe**, on a stack with enough operands. -/
theorem Sound.safe_operate {op : Opcode} {k : Nat} (hs : m.Sound L strict A) (hop : op.operandCount? = some k)
    (hstack : ∀ v ∈ m.stack, v.Settled A m.heap) (hk : strict → k ≤ m.stack.length) :
    Safe L strict (operate op) m fun _ m' => Operated L strict A m op k m' := by
  have hnil : k = 1 → strict → m.stack ≠ [] := by
    rintro rfl h hnil
    simpa [hnil] using hk h
  -- arithmetic and comparison differ in the number that they answer only
  have numericCase : op.operandCount? = some 2 → op ≠ .eqn ∧ op ≠ .and ∧ op ≠ .or ∧ op ≠ .cons → op.answers = true →
      Safe L strict (operateNumeric op >>= fun _ => (pure "" : Move String)) m fun _ m' => Operated L strict A m op 2 m' := by
    intro hop' hne hanswers
    obtain rfl : 2 = k := Option.some.inj (hop'.symm.trans hop)
    refine hs.operateNumeric_bind hop' hne hk fun v b a rest hrest hv => .pure ?_
    exact .of_stack [b, a] hanswers hrest rfl hstack hs.heap .refl hv
  have settled : ∀ b : Bool, (Value.boolean b).Settled A m.heap := fun _ => trivial
  unfold operate
  cases op
  case add | sub | mul | div | mod | pow | ge | le | gt | lt =>
    cases hop
    exact numericCase rfl (by simp) rfl
  case eqn | and | or =>
    cases hop
    refine hs.pop_pop_bind hk fun b a rest hrest => ?_
    exact .of_stack [b, a] rfl hrest rfl hstack hs.heap .refl (settled _)
  case not =>
    cases hop
    refine hs.pop_bind (hnil rfl) fun a rest hrest => ?_
    exact .of_stack [a] rfl hrest rfl hstack hs.heap .refl (settled _)
  case car =>
    cases hop
    refine hs.pop_bind (hnil rfl) fun a rest hrest => ?_
    have ha : a.Settled A m.heap := hstack a (hrest ▸ List.mem_cons_self)
    refine (hs.withStack rest).listItems_bind ha fun items hitems => ?_
    cases items with
    | nil => exact (hs.withStack rest).fail fun _ => rfl
    | cons first others =>
      exact .of_stack [a] rfl hrest rfl hstack hs.heap .refl (hitems first List.mem_cons_self)
  case cdr =>
    cases hop
    refine hs.pop_bind (hnil rfl) fun a rest hrest => ?_
    have ha : a.Settled A m.heap := hstack a (hrest ▸ List.mem_cons_self)
    refine (hs.withStack rest).listItems_bind ha fun items hitems => ?_
    cases items with
    | nil => exact (hs.withStack rest).fail fun _ => rfl
    | cons first others =>
      -- the rest of a list is a new list
      refine (hs.withStack rest).allocate_bind (by simp) (fun w hw => hitems w (List.mem_cons_of_mem _ hw)) ?_
      intro h H' hsound hgrows hsettled
      exact .of_stack [a] rfl hrest rfl hstack hsound hgrows hsettled
  case cons =>
    cases hop
    refine hs.pop_pop_bind hk fun b a rest hrest => ?_
    have ha : a.Settled A m.heap := hstack a (hrest ▸ List.mem_cons_of_mem _ List.mem_cons_self)
    have hb : b.Settled A m.heap := hstack b (hrest ▸ List.mem_cons_self)
    refine (hs.withStack rest).listItems_bind hb fun items hitems => ?_
    refine (hs.withStack rest).allocate_bind (by simp) (fun w hw => ?_) ?_
    · rcases List.mem_cons.mp hw with rfl | hw
      · exact ha
      · exact hitems w hw
    · intro h H' hsound hgrows hsettled
      exact .of_stack [b, a] rfl hrest rfl hstack hsound hgrows hsettled
  case display =>
    cases hop
    refine hs.pop_bind (hnil rfl) fun a rest hrest => .get_bind (.pure ?_)
    refine ⟨m.heap, rest, rfl, hs.heap, .refl, fun w hw => hstack w (hrest ▸ List.mem_cons_of_mem _ hw), ?_⟩
    simp [hrest, Opcode.answers]
  case newline =>
    cases hop
    exact .pure ⟨m.heap, m.stack, rfl, hs.heap, .refl, hstack, rfl⟩
  all_goals cases hop

end Machine

end SchemeMachine
