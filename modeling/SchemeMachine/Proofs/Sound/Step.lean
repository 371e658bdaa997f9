import SchemeMachine.Proofs.Run
import SchemeMachine.Proofs.Sound.Call
import SchemeMachine.Proofs.Sound.Collection

/-!
# Steps of a sound machine

Every instruction takes a machine from its spot to the next one. So a machine that runs laid out code is sound in
every state that it can reach; as long as its calls pass as many arguments as their targets take, it keeps count of
its operands and does not fail for a structural reason.

* `Machine.Going.safe_dispatch` is the result for an instruction, one case for each kind of line.
* `Machine.Ready.step` and `Machine.Ready.deliver` are the results for a step and for the result of a job.
* `Process.run_ready` is the result for a run.
-/

namespace SchemeMachine

open Lowering

variable {p : Program} {L : Layout p} {strict : Prop} {A : Handle → Prop} {m : Machine} {host : Host}

/-- Whose code runs upon calls does not matter to them. -/
theorem Stacked.relabel {H : Heap} {o : String} {fs : List Frame} {b : Nat} (h : Stacked L A H (some o) fs b)
    (o' : String) : Stacked L A H (some o') fs b := by
  cases h with
  | frame hline hspot hruns hrest => exact .frame hline hspot hruns hrest

/-- At the start no call is under way. -/
theorem Stacked.of_start {H : Heap} {fs : List Frame} {b : Nat} (h : Stacked L A H none fs b) : fs = [] ∧ b = 0 := by
  cases h
  exact ⟨rfl, rfl⟩

/-- The running code can close the procedures written in it. -/
theorem Runs.closable {o N : String} (h : Runs A m.heap m.current (some o)) (hin : L.inside N o)
    (hentry : ∃ n, L.Entry N n) : Machine.Closable L A m N := by
  obtain ⟨n, hentry⟩ := hentry
  generalize hcurrent : m.current = current at h
  cases h with
  | code hact hc => exact .own hcurrent hact hc hin hentry

namespace Machine

/-! ### Going on -/

/-- **A machine about to go on** at a spot: the next line has the spot, and `b` operands belong to the calls under
way. -/
structure Going (L : Layout p) (strict : Prop) (A : Handle → Prop) (m : Machine) (s : Spot) (b : Nat) : Prop where
  sound : m.Sound L strict A
  running : m.state = .running
  next : ∃ line, L.lines[m.pc + 1]? = some line ∧ line.spot = s
  runs : Runs A m.heap m.current s.owner
  stacked : Stacked L A m.heap s.owner m.frames b

namespace Going

variable {s : Spot} {b : Nat}

theorem withHeap (hg : Going L strict A m s b) {A' : Handle → Prop} {H' : Heap} (hs : H'.Sound L strict A')
    (hgrows : Heap.Grows A m.heap A' H') : Going L strict A' { m with heap := H' } s b :=
  ⟨hg.sound.withHeap hs hgrows, hg.running, hg.next, hgrows.runs hg.runs, hgrows.stacked hg.stacked⟩

theorem withStack (hg : Going L strict A m s b) (stack : List Value) : Going L strict A { m with stack } s b :=
  ⟨hg.sound.withStack stack, hg.running, hg.next, hg.runs, hg.stacked⟩

/-- With the operands that the spot asks for, the machine goes on. -/
theorem safe_advance (hg : Going L strict A m s b) (hoperands : Operands A m.heap s.pending m.stack)
    (hlength : strict → m.stack.length = s.depth + b) :
    Safe L strict Machine.advance m fun _ m' => ∃ B, m'.Ready L strict B := by
  refine .ok (run_advance m) ⟨A, { hg.sound with }, ?_⟩
  unfold Keeps
  dsimp only
  rw [hg.running]
  exact ⟨s, hg.next, hg.runs, ⟨b, hg.stacked, hlength⟩, hoperands⟩

theorem advance (hg : Going L strict A m s b) (hoperands : Operands A m.heap s.pending m.stack)
    (hlength : strict → m.stack.length = s.depth + b) {α : Type} (a : α) :
    Safe L strict (Machine.advance >>= fun _ => (pure a : Move α)) m fun _ m' => ∃ B, m'.Ready L strict B :=
  (hg.safe_advance hoperands hlength).bind fun _ _ h => .pure h

/-- With one operand more, the machine goes on. -/
theorem pushes (hg : Going L strict A m s b) (hpending : s.pending = none) {v : Value} (hv : v.Settled A m.heap)
    (hstack : ∀ w ∈ m.stack, w.Settled A m.heap) (hlength : strict → m.stack.length + 1 = s.depth + b) {α : Type}
    (a : α) :
    Safe L strict (push v >>= fun _ => Machine.advance >>= fun _ => (pure a : Move α)) m fun _ m' =>
      ∃ B, m'.Ready L strict B := by
  refine .bind_ok (run_push v m) ((hg.withStack (v :: m.stack)).advance ?_ hlength a)
  rw [hpending]
  exact .push hv hstack

end Going

/-- A jump goes on where the label stands. -/
theorem Sound.safe_jump (hs : m.Sound L strict A) (hstate : m.state = .running) {name : String} {s : Spot} {b : Nat}
    (hat : L.At name s) (hruns : Runs A m.heap m.current s.owner) (hstacked : Stacked L A m.heap s.owner m.frames b)
    (hoperands : Operands A m.heap s.pending m.stack) (hlength : strict → m.stack.length = s.depth + b) :
    Safe L strict (Machine.jump name) m fun _ m' => ∃ B, m'.Ready L strict B := by
  obtain ⟨pc, line, hpc, hline, -, hspot⟩ := L.exists_place hs.labels hat
  unfold Machine.jump
  refine .get_bind ?_
  rw [hpc]
  refine ⟨A, { hs with }, ?_⟩
  unfold Keeps
  dsimp only
  rw [hstate]
  exact ⟨s, ⟨line, hline, hspot⟩, hruns, ⟨b, hstacked, hlength⟩, hoperands⟩

/-! ### Forks -/

/-- What is forked is compiled or loaded, or the fork fails for a reason that lies in what is forked. -/
theorem forkProgram_benign (host : Host) {heap : Heap} {h : Handle} {o : Object} (ho : heap.get? h = some o) :
    (∃ program, forkProgram host heap h = .ok program ∧ program.Produced) ∨
      ∃ e, forkProgram host heap h = .error e ∧ e.isStructural = false := by
  unfold forkProgram
  rw [ho]
  cases o with
  | list items =>
    dsimp only
    cases heap.source? (.handle h) with
    | none => exact Or.inr ⟨_, rfl, rfl⟩
    | some source =>
      dsimp only
      cases hcompile : Program.compile source with
      | error e => exact Or.inr ⟨_, rfl, rfl⟩
      | ok program => exact Or.inl ⟨program, rfl, .compiled hcompile⟩
  | string name =>
    dsimp only
    split
    · next loaded hload => exact Or.inl ⟨_, rfl, .loaded hload⟩
    · exact Or.inr ⟨_, rfl, rfl⟩
  | _ => exact Or.inr ⟨_, rfl, rfl⟩

/-- A fork changes nothing but the list of forked programs. -/
theorem Sound.fork_bind {α : Type} {f : Unit → Move α} {R : α → Machine → Prop} (hs : m.Sound L strict A) {h : Handle}
    (hh : p.constants.contains h) (hf : ∀ forked, Safe L strict (f ()) { m with forked } R) :
    Safe L strict (fork host h >>= f) m R := by
  obtain ⟨o, ho⟩ := Option.isSome_iff_exists.mp (hs.heap.settled_of_constant hh).1
  have hfork : Safe L strict (fork host h) m fun _ m' => ∃ forked, m' = { m with forked } := by
    unfold fork
    refine .get_bind ?_
    rcases forkProgram_benign host ho with ⟨program, hprogram, hproduced⟩ | ⟨e, he, hbenign⟩
    · obtain ⟨image, himage, -⟩ := hproduced.exists_image
      exact .require_bind hprogram (.require_bind himage ⟨_, rfl⟩)
    · exact hs.fail_bind (by rw [run_require, he]) fun _ => hbenign
  refine hfork.bind ?_
  rintro _ _ ⟨forked, rfl⟩
  exact hf forked

/-! ### Instructions -/

section Dispatch

variable {line : Line} {parameters : String → Option Nat}

/-- **An instruction at its spot is safe.** -/
theorem Stands.safe_dispatch (hs : m.Sound L strict A) (hstate : m.state = .running)
    (hline : L.lines[m.pc]? = some line) (hstands : m.Stands L strict A line.spot) (hmodest : host.registry.Modest)
    (hparameters : strict → ∀ N k, (p.enclosing.find? N).isSome → L.Entry N k → parameters N = some k)
    (harity : strict → ∀ tail target k, line.instruction = callTo tail target →
      arity? parameters host m target = some k → k = line.arguments) :
    Safe L strict (dispatch host line.instruction) m fun _ m' => ∃ B, m'.Ready L strict B := by
  obtain ⟨next, hflow, hnext⟩ := L.flows m.pc line hline
  obtain ⟨-, hruns, ⟨b, hstacked, hlength⟩, hoperands⟩ := hstands
  -- what comes next, how many operands there are, and the ways to call: each is used by several instructions
  have going : ∀ s, s ∈ next → s.owner = line.spot.owner → Going L strict A m s b := fun s hs' howner =>
    ⟨hs, hstate, hnext s hs', howner ▸ hruns, howner ▸ hstacked⟩
  have nonempty : ∀ {d}, line.spot.depth = d + 1 → strict → m.stack ≠ [] := by
    intro d hd h hnil
    have := hlength h
    rw [hnil, hd] at this
    simp at this
    omega
  have below : ∀ {d v rest}, line.spot.depth = d + 1 → m.stack = v :: rest → strict → rest.length = d + b := by
    intro d v rest hd hrest h
    have := hlength h
    rw [hrest, hd, List.length_cons] at this
    omega
  have above : ∀ {d}, line.spot.depth = d → strict → m.stack.length + 1 = d + 1 + b := by
    intro d hd h
    rw [hlength h, hd]
    omega
  have calling : ∀ {owner d n}, line.spot = ⟨owner, d + n, none⟩ → ⟨owner, d + 1, none⟩ ∈ next →
      Calling L strict A m false n := by
    intro owner d n hspot hmem
    obtain ⟨line', hline', hspot'⟩ := hnext _ hmem
    rw [hspot] at hruns hstacked hlength hoperands
    refine ⟨hs, hstate, hoperands, d + b, fun o => .frame hline' hspot' hruns hstacked, fun h => ?_⟩
    rw [hlength h]
    dsimp only
    omega
  have callingLast : ∀ {o n}, line.spot = ⟨some o, n, none⟩ → Calling L strict A m true n := by
    intro o n hspot
    rw [hspot] at hstacked hlength hoperands
    exact ⟨hs, hstate, hoperands, b, fun o' => hstacked.relabel o', hlength⟩
  -- a block is entered with as many operands as it takes; the arity is checked where it has an enclosing lambda
  have entered : ∀ {tail N k}, line.instruction = callTo tail (.label N) → L.Entry N k →
      (p.enclosing.find? N = none → k = line.arguments) → strict → L.Entry N line.arguments := by
    intro tail N k hi hentry hblock h
    cases henclosing : p.enclosing.find? N with
    | none => exact hblock henclosing ▸ hentry
    | some o =>
      have hk := hparameters h N k (by simp [henclosing]) hentry
      exact harity h tail (.label N) k hi hk ▸ hentry
  -- one case for every way that control flows from a line
  cases hflow with
  | comment => exact (going _ rfl rfl).advance hoperands hlength ""
  | label => exact (going _ rfl rfl).advance hoperands hlength ""
  | @store o name d pending howns hpending =>
    refine .require_bind rfl (hs.pop_bind (nonempty rfl) fun v rest hrest => ?_)
    obtain ⟨hsettled, hv⟩ := Operands.cons (hrest ▸ hoperands)
    have hheld : v.Held L A m.heap o := by
      refine hv.imp_right ?_
      rintro ⟨N, hN, hv⟩
      exact ⟨N, hv, hpending N hN⟩
    refine (hs.withStack rest).store_bind hruns howns hheld fun H' hsound hgrows => ?_
    exact (((going _ rfl rfl).withStack rest).withHeap hsound hgrows).advance
      (fun w hw => hgrows.settled (hsettled w hw)) (below rfl hrest) ""
  | @load o name d =>
    refine hs.dereference_bind hruns fun v _ hv => hs.closed_bind hv fun A' H' w hsound hgrows hw => ?_
    exact ((going _ rfl rfl).withHeap hsound hgrows).pushes rfl hw (fun u hu => hgrows.settled (hoperands u hu))
      (above rfl) ""
  | @loadClosure o N d hwaits =>
    refine .require_bind rfl (hs.makeClosure_bind (hruns.closable hwaits.inside hwaits.entry) (by simp [hwaits.enclosing]) ?_)
    intro A' H' h hsound hgrows hh
    exact ((going _ rfl rfl).withHeap hsound hgrows).pushes rfl hh (fun u hu => hgrows.settled (hoperands u hu))
      (above rfl) ""
  | @push o d operand v hv hlabel hhandle =>
    have hsettled : v.Settled A m.heap := by
      cases v with
      | label N => exact absurd rfl (hlabel N)
      | handle h => exact hs.heap.settled_of_constant (hhandle h rfl)
      | _ => trivial
    have hrun : (operandValue .push (some operand)).run m = (.ok v, m) := by
      cases operand with
      | atom a =>
        cases a with
        | «variable» name => cases hv
        | _ => cases hv; rfl
      | _ => cases hv; rfl
    exact .bind_ok hrun ((going _ rfl rfl).pushes rfl hsettled hoperands (above rfl) "")
  | @pushLabel o N d =>
    refine .bind_ok (a := .label N) rfl (.bind_ok (run_push _ _) ?_)
    exact ((going _ rfl rfl).withStack (.label N :: m.stack)).advance ⟨rfl, hoperands⟩ (above rfl) ""
  | @pop o d =>
    refine hs.pop_bind (nonempty rfl) fun v rest hrest => ?_
    have hsettled := (Operands.cons (hrest ▸ hoperands)).1
    exact ((going _ rfl rfl).withStack rest).advance hsettled (below rfl hrest) ""
  | @set o name d pending hpending =>
    refine .require_bind rfl (hs.pop_bind (nonempty rfl) fun v rest hrest => ?_)
    obtain ⟨hsettled, hv⟩ := Operands.cons (hrest ▸ hoperands)
    have hreadable : Readable L A { m with stack := rest } v := by
      refine hv.imp_right ?_
      rintro ⟨N, hN, hv⟩
      refine ⟨N, hv, ?_, by simp [(hpending N hN).enclosing]⟩
      exact Runs.closable hruns (hpending N hN).inside (hpending N hN).entry
    refine (hs.withStack rest).closed_bind hreadable fun A' H' w hsound hgrows hw => ?_
    refine ((hs.withStack rest).withHeap hsound hgrows).assign_bind (hgrows.runs hruns) hw fun H'' hsound' hgrows' => ?_
    exact ((((going _ rfl rfl).withStack rest).withHeap hsound hgrows).withHeap hsound' hgrows').advance
      (fun u hu => hgrows'.settled (hgrows.settled (hsettled u hu))) (below rfl hrest) ""
  | @start N hout hentry hnot =>
    -- nothing runs yet
    have hcurrent : m.current = none := by
      cases hcurrent : m.current with
      | none => rfl
      | some h =>
        rw [hcurrent] at hruns
        cases hruns
    exact (calling (d := 0) rfl rfl).safe_top hcurrent hout hentry
  | @call o name d n =>
    exact (calling rfl rfl).safe_call hmodest hruns hparameters fun h k => harity h false _ k rfl
  | @callLabel o N d n k hin hentry hblock =>
    exact (calling rfl rfl).safe_label (hruns.closable hin ⟨k, hentry⟩) (entered rfl hentry hblock)
  | @tailCall o name n =>
    exact (callingLast rfl).safe_call hmodest hruns hparameters fun h k => harity h true _ k rfl
  | @tailCallLabel o N n k hin hentry hblock =>
    exact (callingLast rfl).safe_label (hruns.closable hin ⟨k, hentry⟩) (entered rfl hentry hblock)
  | @ret o =>
    have hfinish : Safe L strict (finishCall true) m fun _ m' => ∃ B, m'.Ready L strict B :=
      hs.safe_finishCall hstate hstacked hoperands fun h => (hlength h).trans (Nat.add_comm _ _)
    exact hfinish.bind fun _ _ h => .pure h
  | @capture o name d howns hat =>
    refine .require_bind rfl (Safe.bind (Q := fun _ m' => ∃ B, m'.Ready L strict B) (.get_bind ?_) fun _ _ h => .pure h)
    refine hs.allocate_bind (by simp) ⟨o, d, b, hat, hruns, hstacked, hoperands, hlength⟩ ?_
    intro h H' hsound hgrows hh
    refine (hs.withHeap hsound hgrows).store_bind (hgrows.runs hruns) howns (Or.inl hh) fun H'' hsound' hgrows' => ?_
    exact (((going _ rfl rfl).withHeap hsound hgrows).withHeap hsound' hgrows').safe_advance
      (fun u hu => hgrows'.settled (hgrows.settled (hoperands u hu))) hlength
  | @branch o name d op hop hat =>
    have hbranch : ∀ condition, Safe L strict (branch op (some (.label name)) condition) m fun _ m' =>
        ∃ B, m'.Ready L strict B := by
      intro condition
      refine .require_bind rfl (hs.pop_bind (nonempty rfl) fun v rest hrest => ?_)
      have hsettled := (Operands.cons (hrest ▸ hoperands)).1
      split
      · exact (hs.withStack rest).safe_jump hstate hat hruns hstacked hsettled (below rfl hrest)
      · exact ((going _ rfl rfl).withStack rest).safe_advance hsettled (below rfl hrest)
    rcases hop with rfl | rfl
    · exact (hbranch true).bind fun _ _ h => .pure h
    · exact (hbranch false).bind fun _ _ h => .pure h
  | @goto o name d hat =>
    exact .require_bind rfl ((hs.safe_jump hstate hat hruns hstacked hoperands hlength).bind fun _ _ h => .pure h)
  | @operation o d k op hop =>
    rw [dispatch_plain host hop]
    refine (hs.safe_operate hop hoperands fun h => ?_).bind ?_
    · rw [hlength h]
      dsimp only
      omega
    · rintro written _ ⟨H', stack, rfl, hsound, hgrows, hstack, hcount⟩
      refine (((going _ rfl rfl).withHeap hsound hgrows).withStack stack).advance hstack (fun h => ?_) written
      have := hlength h
      dsimp only at this ⊢
      omega
  | @fork o d h hh =>
    refine hs.fork_bind hh fun forked => ?_
    have hgoing := going _ rfl rfl
    have hforked : Going L strict A { m with forked } _ b :=
      ⟨{ hs with }, hstate, hgoing.next, hgoing.runs, hgoing.stacked⟩
    exact hforked.advance hoperands hlength ""
  | halt =>
    refine .bind_ok (run_modify _ m) (.pure ⟨A, { hs with }, ?_⟩)
    obtain ⟨hframes, rfl⟩ := hstacked.of_start
    exact ⟨hframes, hlength⟩

end Dispatch

/-! ### Steps -/

/-- **The call that a machine is about to make passes as many arguments as its target takes**, if it is about to
make one. -/
def CallMatches (lines : List Line) (parameters : String → Option Nat) (host : Host) (m : Machine) : Prop :=
  m.state = .running → ∀ line, lines[m.pc]? = some line → ∀ tail target k, line.instruction = callTo tail target →
    arity? parameters host m target = some k → k = line.arguments

/-- An outcome that leaves a machine that is ready, and no error for a structural reason in a run that keeps count. -/
structure Outcome.Ready (L : Layout p) (strict : Prop) (x : Outcome) : Prop where
  machine : ∃ A, x.machine.Ready L strict A
  error : strict → ∀ e ∈ x.error, e.fault.isStructural = false

theorem Sound.fails (hs : m.Sound L strict A) : ({ m with state := .failed } : Machine).Ready L strict A :=
  ⟨{ hs with }, trivial⟩

section Step

variable {parameters : String → Option Nat}

/-- **One instruction** of a machine that is ready. -/
theorem Ready.stepRunning (hr : m.Ready L strict A) (hstate : m.state = .running) (hmodest : host.registry.Modest)
    (hparameters : strict → ∀ N k, (p.enclosing.find? N).isSome → L.Entry N k → parameters N = some k)
    (hcall : strict → m.CallMatches L.lines parameters host) : (Machine.stepRunning host m).Ready L strict := by
  by_cases hlimit : host.settings.maxSteps.any (· ≤ m.steps)
  · rw [stepRunning_of_limit hlimit]
    exact ⟨⟨A, hr.sound.fails⟩, fun _ e he => by cases he; rfl⟩
  have hkeeps := hr.keeps
  unfold Keeps at hkeeps
  rw [hstate] at hkeeps
  -- a running machine stands at a line of the layout
  obtain ⟨s, hstands⟩ := hkeeps
  obtain ⟨line, hline, rfl⟩ := hstands.line
  have hi : m.image.program.code[m.pc]? = some line.instruction := by
    rw [hr.sound.program, ← Array.getElem?_toList, ← L.code, List.getElem?_map, hline, Option.map_some]
  have hsafe : Safe L strict (dispatch host line.instruction) { m with steps := m.steps + 1 } fun _ m' =>
      ∃ B, m'.Ready L strict B :=
    Stands.safe_dispatch { hr.sound with } hstate hline { hstands with } hmodest hparameters fun h tail target k =>
      hcall h hstate line hline tail target k
  unfold Safe at hsafe
  rcases hrun : (dispatch host line.instruction).run { m with steps := m.steps + 1 } with ⟨(e | written), after⟩ <;>
    rw [hrun] at hsafe
  · rw [stepRunning_of_error hlimit hi hrun]
    obtain ⟨⟨B, hsound⟩, hbenign⟩ := hsafe
    refine ⟨⟨B, hsound.fails⟩, fun h e' he' => ?_⟩
    cases he'
    exact hbenign h
  · rw [stepRunning_of_ok hlimit hi hrun]
    obtain ⟨B, hready⟩ := hsafe
    have hnoted : (if line.instruction.isCall then after.notePeak else after).Ready L strict B := by
      split
      · exact hready.congr ⟨rfl, rfl, rfl, rfl, rfl, rfl, rfl⟩
      · exact hready
    exact ⟨hnoted.collectIfDue host.settings, fun _ e he => nomatch he⟩

/-- **One step** of a machine that is ready. -/
theorem Ready.step (hr : m.Ready L strict A) (hmodest : host.registry.Modest)
    (hparameters : strict → ∀ N k, (p.enclosing.find? N).isSome → L.Entry N k → parameters N = some k)
    (hcall : strict → m.CallMatches L.lines parameters host) : (Machine.step host m).Ready L strict := by
  have hidle : Outcome.Ready L strict { machine := m } := ⟨⟨A, hr⟩, fun _ e he => nomatch he⟩
  unfold Machine.step
  cases hstate : m.state with
  | running =>
    have heq : ({ m with state := .running } : Machine) = m := by rw [← hstate]
    dsimp only
    rw [heq]
    exact hr.stepRunning hstate hmodest hparameters hcall
  | suspended =>
    have hkeeps := hr.keeps
    unfold Keeps at hkeeps
    rw [hstate] at hkeeps
    exact hkeeps.elim
  | _ => exact hidle

/-- What a job delivers is a value. -/
theorem Sound.resultValue (hs : m.Sound L strict A) (result : Except NativeError NativeOutput) :
    ∃ v H', Machine.resultValue m result = (v, { m with heap := H' }) ∧ H'.Sound L strict A ∧
      Heap.Grows A m.heap A H' ∧ v.Settled A H' := by
  have hplain : ∀ v : Value, v.Settled A m.heap → ∃ v' H', (v, m) = (v', { m with heap := H' }) ∧
      H'.Sound L strict A ∧ Heap.Grows A m.heap A H' ∧ v'.Settled A H' :=
    fun v hv => ⟨v, m.heap, rfl, hs.heap, .refl, hv⟩
  cases result with
  | error e => exact hplain _ trivial
  | ok output =>
    cases output with
    | text content =>
      obtain ⟨hsound, hgrows, hv⟩ := hs.heap.allocate (o := .string content) (by simp) trivial m.current
      refine ⟨_, _, ?_, hsound, hgrows, hv⟩
      simp only [Machine.resultValue, newString, Heap.allocate_fst]
    | _ => exact hplain _ trivial

/-- **The result of a job** lets a machine that sleeps go on. -/
theorem Ready.deliver (hr : m.Ready L strict A) (hstate : m.state = .sleeping)
    (result : Except NativeError NativeOutput) : ∃ B, (m.deliver result).Ready L strict B := by
  obtain ⟨v, H', hresult, hsound, hgrows, hv⟩ := hr.sound.resultValue result
  have hkeeps := hr.keeps
  unfold Keeps at hkeeps
  rw [hstate] at hkeeps
  obtain ⟨o, b, hstacked, hoperands, hlength⟩ := hkeeps
  obtain ⟨f, fs, hframes⟩ : ∃ f fs, m.frames = f :: fs := by
    cases hframes : m.frames with
    | nil =>
      rw [hframes] at hstacked
      cases hstacked
    | cons f fs => exact ⟨f, fs, rfl⟩
  have hdeliver : m.deliver result = { m with
      heap := H', stack := v :: m.stack, current := f.closure, pc := f.returnAddress, frames := fs,
      state := .running } := by
    unfold Machine.deliver
    rw [hresult]
    simp only [doReturn, run_modify, hframes, hstate, if_true]
  rw [hdeliver]
  let awake : Machine := { m with heap := H', stack := v :: m.stack, state := .running }
  have hawake : awake.Sound L strict A := { hr.sound.withHeap hsound hgrows with }
  refine ⟨A, hawake.ready_return rfl (hgrows.stacked (hframes ▸ hstacked)) ?_ fun h => ?_⟩
  · exact Operands.push hv fun w hw => hgrows.settled (hoperands w hw)
  · exact congrArg (· + 1) (hlength h)

end Step

/-! ### The start of a run -/

variable {t : Tree} {roots : List Term} {blocks : List Block}

/-- The constants of a compiled program are sound. -/
theorem sound_ofConstants (hp : p.Compiled t roots blocks) :
    (Heap.ofConstants p.constants).Sound L strict fun _ => False := by
  have hslot := Heap.slot?_ofConstants hp.sorted.nodup
  -- the heap holds constants only, and they refer to each other
  have hconstant : ∀ h, p.constants.contains h → (Heap.ofConstants p.constants).IsConstant h := by
    intro h hh
    obtain ⟨c, hc⟩ := Table.contains_iff.mp hh
    exact ⟨_, by rw [hslot, hc]; rfl, rfl⟩
  have hobject : ∀ {h o}, (Heap.ofConstants p.constants).get? h = some o →
      ∃ c, p.constants.find? h = some c ∧ o = Object.ofConstant c := by
    intro h o ho
    obtain ⟨s, hs, rfl⟩ := Option.map_eq_some_iff.mp ho
    rw [hslot] at hs
    obtain ⟨c, hc, rfl⟩ := Option.map_eq_some_iff.mp hs
    exact ⟨c, hc, rfl⟩
  refine ⟨Heap.tidy_ofConstants _, fun _ h => h.elim, fun h c hc => ?_, fun h o ho => ?_, hconstant⟩
  · obtain ⟨d, -, hd⟩ := hobject (Heap.closure?_eq_some.mp hc)
    cases d <;> cases hd
  · obtain ⟨d, hd, rfl⟩ := hobject ho
    cases d with
    | string content => trivial
    | list items =>
      intro v hv
      obtain ⟨operand, hoperand, hv⟩ := List.mem_filterMap.mp hv
      cases operand with
      | label name => exact absurd hoperand (hp.data h items hd name)
      | handle j =>
        cases hv
        obtain ⟨s, hs, -⟩ := hconstant j (hp.lists h items hd j hoperand).2
        exact ⟨by simp [Heap.get?, hs], fun h => h⟩
      | atom a =>
        cases a with
        | «variable» name => cases hv
        | _ =>
          cases hv
          trivial

/-- **A machine about to run a compiled program is ready.** -/
theorem ready_start (hp : p.Compiled t roots blocks) (L : Layout p) (strict : Prop) {image : Image}
    (himage : Image.ofProgram p = .ok image) (settings : Settings) (pid : Nat) :
    (Machine.start settings pid image).Ready L strict fun _ => False := by
  obtain ⟨rfl, hlabels⟩ := Image.labels_of_ofProgram himage
  obtain ⟨line, hline, hspot⟩ := L.start
  refine ⟨⟨rfl, hlabels, sound_ofConstants hp, none, .start⟩, ⟨none, 0, none⟩, ⟨line, hline, hspot⟩, .start,
    ⟨0, .start, fun _ => rfl⟩, fun v hv => nomatch hv⟩

end Machine

/-! ### Runs -/

namespace Process

variable {t : Tree} {roots : List Term} {blocks : List Block} {image : Image} {registry : Registry}

/-- **Every call of a run passes as many arguments as its target takes.** -/
def CallsMatch (settings : Settings) (registry : Registry) (pid : Nat) (image : Image) (lines : List Line)
    (parameters : String → Option Nat) (moments : List Moment) : Prop :=
  ∀ before now, before ++ [now] <+: moments →
    (run settings registry pid image before).machine.CallMatches lines parameters (hostAt settings registry now)

/-- **A process is ready in every state that it can reach.** -/
theorem run_ready (hp : p.Compiled t roots blocks) (L : Layout p) (strict : Prop)
    (himage : Image.ofProgram p = .ok image) (hmodest : registry.Modest) (parameters : String → Option Nat)
    (hparameters : strict → ∀ N k, (p.enclosing.find? N).isSome → L.Entry N k → parameters N = some k)
    (settings : Settings) (pid : Nat) (moments : List Moment)
    (hcalls : strict → CallsMatch settings registry pid image L.lines parameters moments) :
    (∃ A, (run settings registry pid image moments).machine.Ready L strict A) ∧
      (strict → ∀ e ∈ (run settings registry pid image moments).error, e.fault.isStructural = false) := by
  -- by induction on the moments: calls match up to the last one, too
  induction moments using List.reverseRecOn with
  | nil => exact ⟨⟨_, Machine.ready_start hp L strict himage settings pid⟩, fun _ e he => nomatch he⟩
  | append_singleton moments now ih =>
    have hbefore : strict → CallsMatch settings registry pid image L.lines parameters moments :=
      fun h before now' hinit => hcalls h before now' (hinit.trans (List.prefix_append _ _))
    obtain ⟨⟨A, hready⟩, herror⟩ := ih hbefore
    rw [run_append]
    have hstep : (Machine.step (hostAt settings registry now)
        (run settings registry pid image moments).machine).Ready L strict :=
      hready.step hmodest hparameters fun h => hcalls h moments now List.prefix_rfl
    -- the first error stays
    have hawake : (∃ A, (Machine.step (hostAt settings registry now)
          (run settings registry pid image moments).machine).machine.Ready L strict A) ∧
        (strict → ∀ e ∈ ((run settings registry pid image moments).error <|> (Machine.step (hostAt settings registry now)
          (run settings registry pid image moments).machine).error), e.fault.isStructural = false) := by
      refine ⟨hstep.machine, fun h e he => ?_⟩
      have hold := herror h
      generalize (run settings registry pid image moments).error = old at he hold
      cases old with
      | none => exact hstep.error h e he
      | some e' => exact hold e he
    unfold next
    cases hstate : (run settings registry pid image moments).machine.state with
    | sleeping =>
      -- an answer is delivered to a machine that waits for nothing any more
      have hidle : ({ (run settings registry pid image moments).machine with pending := none } : Machine).Ready
          L strict A := hready.congr ⟨rfl, rfl, rfl, rfl, rfl, rfl, rfl⟩
      exact ⟨hidle.deliver hstate now.result, herror⟩
    | _ => exact hawake

end Process

end SchemeMachine
