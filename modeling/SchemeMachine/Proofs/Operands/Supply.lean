import SchemeMachine.Proofs.Layout.Supply
import SchemeMachine.Proofs.Operands.Move

/-!
# A value is there where one is supplied

Nothing compares the arguments of a call with the parameters of its target, so the number of operands on the stack can be
anything. But a line that has just left a value has left it on top of the stack, and so has a call that comes back. Hence
a machine that runs compiled code never finds the stack empty at an assignment.

* `Machine.Supplied` is the invariant: where a value is supplied, there is one.
* `Machine.Arrived` is what a call comes to: a value, a machine that does not run, or code that is entered.
* `Machine.leads_arrived` is the step, one case for each kind of line, and `Process.run_supplied` the result for a run.
-/

namespace SchemeMachine

open Lowering

namespace Machine

/-- **A machine has a value on top of the stack where one is supplied.** -/
def Supplied (P : Plan) (m : Machine) : Prop := m.state = .running → P.SuppliedAt m.pc → m.stack ≠ []

/-! ### Calls -/

/-- **What a call comes to**: it has left a value, the machine does not run on, or it is at the entry of a closure. -/
def Arrived (m : Machine) : Prop :=
  m.stack ≠ [] ∨ m.state ≠ .running ∨ ∃ h, m.current = some h ∧ ∀ c, m.heap.closure? h = some c → m.pc = c.address

section Moves

variable {α β : Type} {x : Move α} {f : α → Move β} {m : Machine} {Q R : Machine → Prop} {tail : Bool}

theorem Leads.bind (hx : Leads x m Q) (hf : ∀ a m', Q m' → Leads (f a) m' R) : Leads (x >>= f) m R := by
  intro b m'' hrun
  rw [run_bind] at hrun
  rcases hr : x.run m with ⟨(e | a), m'⟩ <;> rw [hr] at hrun
  · cases hrun
  · exact hf a m' (hx a m' hr) b m'' hrun

/-- What a move leads to does not depend on the moves before it. -/
theorem Leads.after (hf : ∀ a m', Leads (f a) m' R) : Leads (x >>= f) m R :=
  Leads.bind (Q := fun _ => True) (fun _ _ _ => trivial) fun a m' _ => hf a m'

theorem Leads.push_bind {v : Value} {f : Unit → Move β} (hf : ∀ m', m'.stack ≠ [] → Leads (f ()) m' R) :
    Leads (push v >>= f) m R :=
  Leads.bind (Q := fun m' => m'.stack ≠ []) (.modify (List.cons_ne_nil _ _)) fun _ m' h => hf m' h

/-- A primitive that answers leaves its answer. -/
theorem leads_operate {op : Opcode} (hanswers : op.answers = true) (hop : op.operandCount?.isSome = true) :
    Leads (operate op) m fun m' => m'.stack ≠ [] := by
  -- what is answered is pushed last
  have hpushed : ∀ (v : Value) (m : Machine), Leads (push v >>= fun _ => (pure "" : Move String)) m fun m' => m'.stack ≠ [] :=
    fun v m => .push_bind fun m' h => .pure h
  have hnumeric : ∀ (op : Opcode) (m : Machine),
      Leads (operateNumeric op >>= fun _ => (pure "" : Move String)) m fun m' => m'.stack ≠ [] := by
    intro op m
    refine Leads.bind (Q := fun m' => m'.stack ≠ []) ?_ fun _ _ h => .pure h
    refine .after fun b _ => .after fun a _ => ?_
    dsimp only
    split
    · exact .modify (List.cons_ne_nil _ _)
    · exact .throw _
  unfold operate
  cases op with
  | add | sub | mul | div | mod | pow | ge | le | gt | lt => exact hnumeric _ m
  | eqn => exact .after fun _ _ => .after fun _ _ => .after fun _ _ => hpushed _ _
  | and | or => exact .after fun _ _ => .after fun _ _ => hpushed _ _
  | not => exact .after fun _ _ => hpushed _ _
  | car =>
    refine .after fun _ _ => .after fun _ _ => ?_
    split
    · exact hpushed _ _
    · exact .throw _
  | cdr =>
    refine .after fun _ _ => .after fun _ _ => ?_
    split
    · exact .after fun _ _ => hpushed _ _
    · exact .throw _
  | cons => exact .after fun _ _ => .after fun _ _ => .after fun _ _ => .after fun _ _ => hpushed _ _
  | display | newline => cases hanswers
  | _ => exact .throw _

theorem arrived_finishCall (h : m.stack ≠ []) : Leads (finishCall tail) m Arrived := by
  cases tail with
  | false => exact .modify (Or.inl h)
  | true =>
    refine .modify (Or.inl ?_)
    split
    · exact h
    · exact h

theorem arrived_enter (h : Handle) : Leads (enter h tail) m Arrived := by
  intro a m' hrun
  rw [enter, run_bind_ok (run_pushFrame tail m), run_modify] at hrun
  cases hrun
  refine Or.inr (Or.inr ⟨h, rfl, fun c hc => ?_⟩)
  dsimp only at hc ⊢
  rw [hc]
  rfl

theorem arrived_resume (k : Continuation) : Leads (resume k) m Arrived := by
  refine .after fun v m₁ => .after fun _ _ => ?_
  split
  · exact .throw _
  · exact .modify (Or.inl (List.cons_ne_nil _ _))

theorem arrived_callNative {library function : String} {native : NativeFunction} :
    Leads (callNative library function native tail) m Arrived := by
  refine .after fun arguments _ => .after fun _ _ => ?_
  split
  · exact .throw _
  · exact .throw _
  · exact .push_bind fun m' h => arrived_finishCall h
  · exact .after fun _ _ => .push_bind fun m' h => arrived_finishCall h
  · exact .after fun _ _ => .modify (Or.inr (Or.inl (by simp)))

theorem arrived_callPrimitive {word : String} : Leads (callPrimitive word tail) m Arrived := by
  unfold callPrimitive
  cases hop : Opcode.ofPrimitive? word with
  | none => exact .throw _
  | some op =>
    obtain ⟨k, hk⟩ := Opcode.operandCount?_ofPrimitive? hop
    dsimp only
    by_cases hout : op = .display ∨ op = .newline
    · refine .after fun written _ => ?_
      rw [if_pos hout]
      exact .push_bind fun m' h => (arrived_finishCall h).then_pure written
    · have hanswers : op.answers = true := by simpa using fun h => hout (Opcode.answers_eq_false.mp h)
      refine (leads_operate hanswers (by rw [hk]; rfl)).bind fun written m' h => ?_
      rw [if_neg hout]
      exact (arrived_finishCall h).then_pure written

theorem arrived_callValue (v : Value) : Leads (callValue v tail) m Arrived := by
  unfold callValue
  split
  · exact .after fun h _ => (arrived_enter h).then_pure ""
  · exact arrived_callPrimitive
  · refine Leads.then_pure (.after fun _ _ => ?_) ""
    split
    · exact .after fun activation _ => arrived_enter activation
    · exact arrived_resume _
    · exact .throw _
    · exact .throw _
  · exact .throw _

/-- **What a call comes to**, whatever is called. -/
theorem arrived_call (host : Host) (target : Operand) : Leads (call host target tail) m Arrived := by
  unfold call
  split
  · refine .after fun _ _ => ?_
    split
    · exact arrived_callNative.then_pure ""
    · exact .after fun v _ => arrived_callValue v
  · split
    · exact arrived_callValue _
    · exact .throw _

end Moves

/-! ### Lines -/

section Lines

variable {p : Program} {L : Layout p} {strict : Prop} {A : Handle → Prop} {m : Machine} {line : Line} {host : Host}

/-- What a line comes to: it has arrived, or no value is supplied where it goes. -/
def Lands (P : Plan) (m : Machine) : Prop := m.Arrived ∨ ¬P.SuppliedAt m.pc

/-- A line that leaves no value goes on to the next line. -/
theorem Touched.lands_advance {m' : Machine} {k : Nat} (ht : Touched k m m') (hline : L.lines[m.pc]? = some line)
    (hnot : ¬line.instruction.Supplies) : Leads advance m' (Lands L.toPlan) := by
  refine .modify (Or.inr ?_)
  dsimp only
  rwa [ht.pc, Plan.suppliedAt_succ hline]

theorem Touched.lands_on {m' : Machine} {k : Nat} (ht : Touched k m m') (hline : L.lines[m.pc]? = some line)
    (hnot : ¬line.instruction.Supplies) (written : String) :
    Leads (advance >>= fun _ => (pure written : Move String)) m' (Lands L.toPlan) :=
  (ht.lands_advance hline hnot).then_pure written

/-- A line that has left a value goes on. -/
theorem lands_pushed {v : Value} (written : String) :
    Leads (push v >>= fun _ => advance >>= fun _ => (pure written : Move String)) m (Lands L.toPlan) :=
  .push_bind fun _ h => Leads.then_pure (.modify (Or.inl (Or.inl h))) written

/-- A jump goes to its label. -/
theorem leads_jump (hlabels : LabelTable.ofCode p.code = .ok m.image.labels) {name : String} {Q : Machine → Prop}
    (hQ : ∀ pc line, L.lines[pc]? = some line → line.instruction = .label name → Q { m with pc }) :
    Leads (jump name) m Q := by
  refine .get_bind ?_
  split
  · next pc hpc =>
    obtain ⟨line, hline, hi⟩ := (L.find?_eq_some hlabels).mp hpc
    exact .modify (hQ pc line hline hi)
  · exact .throw _

/-- **What a line comes to.** -/
theorem lands_dispatch (hsupplied : L.Supplied) (hs : m.Sound L strict A) (hstate : m.state = .running)
    (hline : L.lines[m.pc]? = some line) (hm : m.Supplied L.toPlan) :
    Leads (dispatch host line.instruction) m (Lands L.toPlan) := by
  obtain ⟨next, hflow, -⟩ := L.flows m.pc line hline
  have hself : Touched 0 m m := .refl 0 m
  have hcall (tail : Bool) (target : Operand) : Leads (dispatch host (callTo tail target)) m (Lands L.toPlan) := by
    cases tail <;> exact fun a m' hrun => Or.inl (arrived_call host target a m' hrun)
  -- either the instruction leaves a value, or it goes on to a line where none is asked for
  cases hflow with
  | comment => exact hself.lands_on hline id ""
  | @label s name n =>
    -- past the label of a join the value is the one that was there at the label
    by_cases hjoin : Piece.IsJoin name
    · have hstack := hm hstate ((hsupplied.label _ _ _ hline rfl).mpr hjoin)
      exact Leads.then_pure (.modify (Or.inl (Or.inl hstack))) ""
    · exact hself.lands_on hline hjoin ""
  | store =>
    exact touches_pop.leads fun v m₁ h₁ => (touches_store _ v).leads fun _ m₂ h₂ =>
      (h₁.trans h₂).lands_on hline (not_supplies (by decide) rfl) ""
  | load => exact .after fun _ _ => .after fun _ _ => lands_pushed ""
  | loadClosure => exact .after fun _ _ => .after fun _ _ => lands_pushed ""
  | push | pushLabel => exact .after fun _ _ => lands_pushed ""
  | pop =>
    exact touches_pop.leads fun v m₁ h₁ =>
      h₁.lands_on hline (not_supplies (by decide) rfl) ""
  | set =>
    exact touches_pop.leads fun v m₁ h₁ => (touches_closed v).leads fun w m₂ h₂ => (touches_assign _ w).leads
      fun _ m₃ h₃ => ((h₁.trans h₂).trans h₃).lands_on hline
        (not_supplies (by decide) rfl) ""
  | start => exact hcall false _
  | call => exact hcall false _
  | callLabel => exact hcall false _
  | tailCall => exact hcall true _
  | tailCallLabel => exact hcall true _
  | ret =>
    have hstack := hm hstate (hsupplied.ret _ _ hline rfl)
    refine Leads.then_pure (.modify (Or.inl (Or.inl ?_))) ""
    split
    · exact hstack
    · exact hstack
  | @capture o name d howns hat =>
    have hcapture : Leads (capture name) m (Lands L.toPlan) :=
      .get_bind <| (touches_allocate _).leads fun _ _ h₁ => (touches_store _ _).leads fun _ _ h₂ =>
        (h₁.trans h₂).lands_advance hline (not_supplies (by decide) rfl)
    exact hcapture.then_pure ""
  | @branch o name d op hop hat =>
    have hbranch : ∀ condition, Leads (branch op (some (.label name)) condition) m (Lands L.toPlan) := by
      intro condition
      have hname := hsupplied.branch _ _ op name hline hop rfl
      refine touches_pop.leads fun v m₁ h₁ => ?_
      split
      · refine leads_jump (L := L) (h₁.image ▸ hs.labels) fun pc line' hline' hi => Or.inr ?_
        exact fun h => hname ((hsupplied.label _ _ _ hline' hi).mp h)
      · refine h₁.lands_advance hline ?_
        rcases hop with rfl | rfl <;> exact not_supplies (by decide) rfl
    rcases hop with rfl | rfl
    · exact (hbranch true).then_pure ""
    · exact (hbranch false).then_pure ""
  | @goto o name d hat =>
    refine Leads.then_pure (leads_jump (L := L) hs.labels fun pc line' hline' hi => ?_) ""
    by_cases hjoin : Piece.IsJoin name
    · exact Or.inl (Or.inl (hm hstate (hsupplied.goto _ _ _ hline rfl hjoin)))
    · exact Or.inr fun h => hjoin ((hsupplied.label _ _ _ hline' hi).mp h)
  | @operation o d k op hop =>
    rw [dispatch_plain host hop]
    cases hanswers : op.answers with
    | true =>
      refine (leads_operate hanswers (by rw [hop]; rfl)).bind fun written m' h => ?_
      exact Leads.then_pure (.modify (Or.inl (Or.inl h))) written
    | false =>
      refine (touches_operate hop).leads fun written m₁ h₁ => h₁.lands_on hline ?_ written
      rintro (hmem | ⟨h, -⟩)
      · cases op <;> first
          | exact absurd hmem (by decide)
          | cases hop
      · rw [hanswers] at h
        cases h
  | fork =>
    exact (touches_fork _ _).leads fun _ m₁ h₁ =>
      h₁.lands_on hline (not_supplies (by decide) rfl) ""
  | halt => exact Leads.then_pure (.modify (Or.inl (Or.inr (Or.inl (by simp))))) ""

/-- **Where a line has landed, a value is there if one is supplied.** -/
theorem Lands.supplied (h : m.Lands L.toPlan) (hsupplied : L.Supplied) (hs : m.Sound L strict A) : m.Supplied L.toPlan := by
  intro hstate hat
  rcases h with (hstack | hrunning | ⟨h, hcurrent, hpc⟩) | hnot
  · exact hstack
  · exact absurd hstate hrunning
  · obtain ⟨owner, hruns⟩ := hs.current
    rw [hcurrent] at hruns
    cases hruns with
    | code _ hc =>
      obtain ⟨line, n, hline, hi, hspot⟩ := (hs.heap.closure hc).entry
      rw [hpc _ hc] at hat
      exact absurd hat (hsupplied.entry _ _ _ hline hi (by rw [hspot]))
  · exact absurd hat hnot

/-- **A step keeps a value where one is supplied.** Nothing is asked of the calls. -/
theorem Ready.supplied_step (hr : m.Ready L False A) (hsupplied : L.Supplied) (hm : m.Supplied L.toPlan)
    (hmodest : host.registry.Modest) : (Machine.step host m).machine.Supplied L.toPlan := by
  unfold Machine.step
  cases hstate : m.state with
  | running =>
    have hsame : ({ m with state := .running } : Machine) = m := by rw [← hstate]
    dsimp only
    rw [hsame]
    by_cases hlimit : host.settings.maxSteps.any (· ≤ m.steps)
    · rw [stepRunning_of_limit hlimit]
      exact fun h => nomatch h
    have hkeeps := hr.keeps
    unfold Keeps at hkeeps
    rw [hstate] at hkeeps
    obtain ⟨s, hstands⟩ := hkeeps
    obtain ⟨line, hline, rfl⟩ := hstands.line
    have hi : m.image.program.code[m.pc]? = some line.instruction := by
      rw [hr.sound.program, ← Array.getElem?_toList, ← L.code, List.getElem?_map, hline, Option.map_some]
    let parameters : String → Option Nat := fun _ => none
    have hparameters : False → ∀ N k, (p.enclosing.find? N).isSome → L.Entry N k → parameters N = some k := False.elim
    have hsafe : Safe L False (dispatch host line.instruction) { m with steps := m.steps + 1 } fun _ m' =>
        ∃ B, m'.Ready L False B :=
      Stands.safe_dispatch { hr.sound with } hstate hline { hstands with } hmodest hparameters False.elim
    have hlands : Leads (dispatch host line.instruction) { m with steps := m.steps + 1 } (Lands L.toPlan) :=
      lands_dispatch hsupplied { hr.sound with } hstate hline hm
    unfold Safe at hsafe
    rcases hrun : (dispatch host line.instruction).run { m with steps := m.steps + 1 } with ⟨(e | written), after⟩ <;>
      rw [hrun] at hsafe
    · rw [stepRunning_of_error hlimit hi hrun]
      exact fun h => nomatch h
    · rw [stepRunning_of_ok hlimit hi hrun]
      obtain ⟨B, hready⟩ := hsafe
      have hafter : after.Supplied L.toPlan := (hlands _ _ hrun).supplied hsupplied hready.sound
      -- noting the depth and collecting garbage leave stack, place and state
      obtain ⟨H, n, hcollected⟩ := collectIfDue_eq host.settings
        (if line.instruction.isCall then after.notePeak else after)
      rw [hcollected]
      split
      · exact hafter
      · exact hafter
  | suspended =>
    have hkeeps := hr.keeps
    unfold Keeps at hkeeps
    rw [hstate] at hkeeps
    exact hkeeps.elim
  | _ =>
    intro h
    rw [show ({ machine := m } : Outcome).machine = m from rfl, hstate] at h
    cases h

/-- The result of a job is left on the stack. -/
theorem supplied_deliver (m : Machine) (P : Plan) (result : Except NativeError NativeOutput) :
    (m.deliver result).Supplied P := by
  intro _ _
  have hstack : ∃ v rest, (m.deliver result).stack = v :: rest := by
    unfold deliver
    rcases resultValue m result with ⟨v, m'⟩
    dsimp only [doReturn, run_modify]
    split <;> split <;> exact ⟨v, m'.stack, rfl⟩
  obtain ⟨v, rest, hrest⟩ := hstack
  rw [hrest]
  exact List.cons_ne_nil v rest

end Lines

end Machine

/-- **A run never lacks a value where one is supplied.** -/
theorem Process.run_supplied {p : Program} {t : Tree} {roots : List Term} {blocks : List Block}
    (hp : p.Compiled t roots blocks) {L : Layout p} (hsupplied : L.Supplied) {image : Image}
    (himage : Image.ofProgram p = .ok image) {registry : Registry} (hmodest : registry.Modest) (settings : Settings)
    (pid : Nat) (moments : List Moment) :
    (Process.run settings registry pid image moments).machine.Supplied L.toPlan := by
  induction moments using List.reverseRecOn with
  | nil =>
    rintro - ⟨k, line, hk, -⟩
    cases hk
  | append_singleton moments now ih =>
    obtain ⟨⟨A, hready⟩, -⟩ := run_ready hp L False himage hmodest (fun _ => none) False.elim settings pid moments
      False.elim
    have hstep : (Machine.step (hostAt settings registry now)
        (run settings registry pid image moments).machine).machine.Supplied L.toPlan :=
      hready.supplied_step hsupplied ih hmodest
    rw [run_append]
    unfold next
    cases (run settings registry pid image moments).machine.state with
    | sleeping => exact Machine.supplied_deliver _ _ _
    | _ => exact hstep

end SchemeMachine
