import SchemeMachine.Proofs.Continuation
import SchemeMachine.Proofs.Lookup
import SchemeMachine.Proofs.Operands.Supply

/-!
# Names that nothing binds

The analysis leaves a name as it was written if no lambda around it binds it. Such a name must not be seen by anything
that the compiled program binds of its own accord: variables of a lambda, captured continuations, and the parameters of
computed calls.

* `Program.Binds` says that the code of a program binds a name, `MadeUp` that a name is spelled like those that are bound.
* `Layout.narrow` is a layout in which code owns the names that it binds and no others. So closures bind no others
  (`Machine.Sound.binder?_eq_none`).
* `Machine.Refuses` is a step that fails because a name is not bound, and changes nothing.
* `Process.run_unbound` is the result for every state that a process can reach: reading a name that is not bound, changing
  it and calling it all fail.

A text may itself write a name such as `&0.x`. Then it means the variable of that name, see `Process.run_scoped_name`.
-/

namespace SchemeMachine

open Lowering Piece

variable {p : Program} {L : Layout p} {strict : Prop} {A : Handle → Prop} {m : Machine} {l : Ancestry} {name : String}
  {host : Host}

/-- **The code binds a name**: it stores a variable or a continuation under it. -/
def Program.Binds (p : Program) (name : String) : Prop :=
  onVariable .store name ∈ p.code ∨ onVariable .capture name ∈ p.code

instance (p : Program) (name : String) : Decidable (p.Binds name) := inferInstanceAs (Decidable (_ ∨ _))

/-- **A name that is made up by the analysis or by the lowering**: a variable of a lambda, a continuation, or a parameter
of a computed call. -/
def MadeUp (name : String) : Prop :=
  (∃ N x, name = Tree.scopedName N x) ∨ (∃ n, name = resumeLabel n) ∨
    ∃ n i : Nat, name = blockLabel n ++ s!".p{i}"

/-! ### Names that code owns -/

/-- The names that code owns, without those that nothing binds. -/
def Plan.narrow (P : Plan) (p : Program) : Plan where
  lines := P.lines
  inside := P.inside
  owns o name := P.owns o name ∧ p.Binds name

/-- A line that is in order stays in order if its code owns the name that it binds. -/
theorem Flows.narrow {P : Plan} {line : Line} {next : Option Spot} (hflow : Flows p P line next)
    (hmem : line.instruction ∈ p.code) : Flows p (P.narrow p) line next := by
  have hwaits : ∀ {o N}, P.Waits p o N → (P.narrow p).Waits p o N := fun h => ⟨h.inside, h.enclosing, h.entry⟩
  cases hflow with
  | store howns hpending => exact .store ⟨howns, Or.inl hmem⟩ fun N hN => hwaits (hpending N hN)
  | capture howns hat => exact .capture ⟨howns, Or.inr hmem⟩ hat
  | comment => exact .comment
  | label => exact .label
  | load => exact .load
  | loadClosure h => exact .loadClosure (hwaits h)
  | push hv hlabel hhandle => exact .push hv hlabel hhandle
  | pushLabel => exact .pushLabel
  | pop => exact .pop
  | set hpending => exact .set fun N hN => hwaits (hpending N hN)
  | start hout hentry hnot => exact .start hout hentry hnot
  | call => exact .call
  | callLabel hin hentry hblock => exact .callLabel hin hentry hblock
  | tailCall => exact .tailCall
  | tailCallLabel hin hentry hblock => exact .tailCallLabel hin hentry hblock
  | ret => exact .ret
  | branch hop hat => exact .branch hop hat
  | goto hat => exact .goto hat
  | operation hop => exact .operation hop
  | fork hh => exact .fork hh
  | halt => exact .halt

namespace Layout

/-- A line is in the code. -/
theorem instruction_mem (L : Layout p) {pc : Nat} {line : Line} (hline : L.lines[pc]? = some line) :
    line.instruction ∈ p.code := by
  rw [← Array.mem_toList_iff, ← L.code]
  exact List.mem_map_of_mem (List.mem_of_getElem? hline)

/-- **The layout in which code owns the names that it binds.** -/
def narrow (L : Layout p) : Layout p where
  toPlan := L.toPlan.narrow p
  code := L.code
  start := L.start
  flows pc line hline := by
    obtain ⟨next, hflow, hnext⟩ := L.flows pc line hline
    exact ⟨next, hflow.narrow (L.instruction_mem hline), hnext⟩
  inside_unique := L.inside_unique
  rank := L.rank
  rank_lt := L.rank_lt
  owns_unique o o' name h h' := L.owns_unique o o' name h.1 h'.1
  enclosing := L.enclosing

/-- A name that is bound is owned. -/
theorem exists_owner (L : Layout p) (h : p.Binds name) : ∃ o, L.owns o name := by
  have hline : ∀ {op : Opcode}, onVariable op name ∈ p.code →
      ∃ line next, line.instruction = onVariable op name ∧ Flows p L.toPlan line next := by
    intro op hmem
    rw [← Array.mem_toList_iff, ← L.code] at hmem
    obtain ⟨line, hline, hi⟩ := List.mem_map.mp hmem
    obtain ⟨pc, hpc⟩ := List.getElem?_of_mem hline
    obtain ⟨next, hflow, -⟩ := L.flows pc line hpc
    exact ⟨line, next, hi, hflow⟩
  rcases h with hstore | hcapture
  · obtain ⟨line, next, hi, hflow⟩ := hline hstore
    cases hflow with
    | store howns => cases hi; exact ⟨_, howns⟩
    | branch hop => rcases hop with rfl | rfl <;> cases hi
    | _ => cases hi
  · obtain ⟨line, next, hi, hflow⟩ := hline hcapture
    cases hflow with
    | capture howns => cases hi; exact ⟨_, howns⟩
    | branch hop => rcases hop with rfl | rfl <;> cases hi
    | _ => cases hi

end Layout

/-- **A compiled program binds no names but those that are made up.** -/
theorem Program.Compiled.madeUp {t : Tree} {roots : List Term} {blocks : List Block} (hp : p.Compiled t roots blocks)
    (h : p.Binds name) : MadeUp name := by
  obtain ⟨o, ⟨M, y, -, rfl⟩ | ⟨n, rfl, -⟩ | ⟨n, i, -, rfl⟩⟩ := hp.layout.exists_owner h
  · exact Or.inl ⟨M, y, rfl⟩
  · exact Or.inr (Or.inl ⟨n, rfl⟩)
  · exact Or.inr (Or.inr ⟨n, i, rfl⟩)

/-- **A name that the code does not bind is bound by no closure.** -/
theorem Machine.Sound.binder?_eq_none (hs : m.Sound L.narrow strict A) {start : Option Handle}
    (hl : m.heap.Lineage start l) (hname : ¬p.Binds name) : l.binder? name = none := by
  rw [Ancestry.binder?_eq_none]
  intro e he
  cases hbound : e.2.bound.find? name with
  | none => rfl
  | some v => exact absurd ((hs.heap.closure (hl.closure?_of_mem he)).owned name v hbound).1.2 hname

/-! ### Steps that fail -/

namespace Machine

/-- **A step that fails on a name**, as nothing binds it: the error says so, nothing is written, and every object of the
heap, the bindings of every closure among them, is as it was. -/
structure Refuses (host : Host) (m : Machine) (name : String) : Prop where
  failed : (step host m).machine.state = .failed
  error : (step host m).error = some (RunError.located { fault := .unboundVariable name } m.currentLabel m.pc)
  written : (step host m).written = ""
  objects : ∀ h o, m.heap.get? h = some o → (step host m).machine.heap.get? h = some o

/-- An instruction that fails on a name, in the code of a closure. -/
theorem IsAbout.refuses {i : Instruction} (ha : m.IsAbout host.settings i) {after : Machine}
    (hrun : (dispatch host i).run { m with steps := m.steps + 1 } = (.error (.unboundVariable name), after))
    {h : Handle} {c : Closure} (hcurrent : m.current = some h) (hc : m.heap.closure? h = some c)
    (hsame : after.current = m.current) (hobjects : ∀ g o, m.heap.get? g = some o → after.heap.get? g = some o) :
    m.Refuses host name := by
  have hc' : after.heap.closure? h = some c := Heap.closure?_eq_some.mpr (hobjects h _ (Heap.closure?_eq_some.mp hc))
  have hlabel : after.currentLabel = m.currentLabel := by
    rw [currentLabel, currentLabel, hsame, hcurrent, Option.bind_some, Option.bind_some, hc, hc']
  have hstep := ha.step_eq.trans (stepRunning_of_error ha.below ha.instruction hrun)
  exact ⟨by rw [hstep], by rw [hstep, hlabel], by rw [hstep], by rw [hstep]; exact hobjects⟩

/-- A machine that has more on its heap and is the same otherwise. -/
structure Extends (m m' : Machine) : Prop where
  rest : m' = { m with heap := m'.heap }
  objects : ∀ h o, m.heap.get? h = some o → m'.heap.get? h = some o

/-- Making a closure leaves what is there. -/
theorem leads_makeClosure (ht : m.heap.Tidy) (label : String) : Leads (makeClosure label) m (Extends m) := by
  have hparent : Leads (lexicalParent label) m (· = m) := by
    refine .get_bind ?_
    split
    · exact .pure rfl
    · split
      · exact .throw _
      · exact .pure rfl
      · exact .throw _
  have hallocate (c : Closure) : Leads (allocate (.closure c)) m (Extends m) := by
    intro a m' hrun
    rw [allocate, run_modifyGet] at hrun
    cases hrun
    exact ⟨rfl, fun h o ho => ht.get?_allocate_of_some _ _ ho⟩
  refine .get_bind ?_
  split
  · exact .throw _
  · refine hparent.bind ?_
    rintro (_ | h) m' rfl
    · exact hallocate _
    · refine Leads.bind (Q := (· = m')) ?_ ?_
      · refine .get_bind ?_
        split
        · exact .pure rfl
        · exact .throw _
      · rintro c m'' rfl
        exact hallocate _

/-- Closing a procedure leaves what is there. -/
theorem leads_closed (ht : m.heap.Tidy) (v : Value) : Leads (closed v) m (Extends m) := by
  cases v with
  | label N => exact (leads_makeClosure ht N).bind fun h m' hm' => .pure hm'
  | _ => exact .pure ⟨rfl, fun _ _ h => h⟩

/-- Neither can such a name be read, nor changed. -/
theorem Sound.unbound (hs : m.Sound L.narrow strict A) {h : Handle} {c : Closure} (hcurrent : m.current = some h)
    (hc : m.heap.closure? h = some c) (hname : ¬p.Binds name) :
    (dereference name).run m = (.error (.unboundVariable name), m) ∧
      ∀ v, (assign name v).run m = (.error (.unboundVariable name), m) := by
  obtain ⟨l, hl⟩ := hs.heap.exists_lineage hc
  exact (hs.resolves hcurrent hc hl name).unbound (hs.binder?_eq_none hl hname)

/-- **A ready machine that is about to change a name** takes a value from the stack and closes it, if it is a procedure
that is still to be closed. The objects that are there stay. -/
theorem Ready.run_set (hr : m.Ready L False A) (ha : m.IsAbout host.settings (onVariable .set name)) {v : Value}
    {rest : List Value} (hstack : m.stack = v :: rest) :
    ∃ A' H' w, (closed v).run { m with steps := m.steps + 1, stack := rest } =
        (.ok w, { m with steps := m.steps + 1, stack := rest, heap := H' }) ∧
      (dispatch host (onVariable .set name)).run { m with steps := m.steps + 1 } =
        (assign name w >>= fun _ => advance >>= fun _ => pure "").run
          { m with steps := m.steps + 1, stack := rest, heap := H' } ∧
      ({ m with steps := m.steps + 1, stack := rest, heap := H' } : Machine).Sound L False A' ∧
      ∀ g o, m.heap.get? g = some o → H'.get? g = some o := by
  obtain ⟨line, hline, hi, hstands⟩ := hr.exists_line ha
  obtain ⟨next, hflow, -⟩ := L.flows m.pc line hline
  have hs : ({ m with steps := m.steps + 1 } : Machine).Sound L False A := { hr.sound with }
  have hruns := hstands.runs
  have hoperands := hstands.operands
  -- the plan of the code knows what is on the stack, and whether a procedure there can be closed
  cases hflow with
  | @set o x d pending hpending =>
    cases hi
    have hreadable : Readable L A { m with steps := m.steps + 1, stack := rest } v := by
      refine (Operands.cons (hstack ▸ hoperands)).2.imp_right ?_
      rintro ⟨N, hN, hv⟩
      refine ⟨N, hv, ?_, by simp [(hpending N hN).enclosing]⟩
      exact Runs.closable hruns (hpending N hN).inside (hpending N hN).entry
    obtain ⟨A', H', w, hclosed, hsound, hgrows, -⟩ := (hs.withStack rest).run_closed hreadable
    refine ⟨A', H', w, hclosed, ?_, (hs.withStack rest).withHeap hsound hgrows,
      (leads_closed (m := { m with steps := m.steps + 1, stack := rest }) hs.heap.tidy v w _ hclosed).objects⟩
    show (pop >>= fun v => closed v >>= fun w => assign name w >>= fun _ => advance >>= fun _ => pure "").run _ = _
    rw [run_bind_ok (run_pop_cons (m := { m with steps := m.steps + 1 }) hstack), run_bind_ok hclosed]
  | branch hop => rcases hop with rfl | rfl <;> cases hi
  | _ => cases hi

/-- **A ready machine that is about to do something with a name that the code does not bind** fails. If a procedure is
assigned to the name, it is closed first. -/
theorem Ready.refuses (hr : m.Ready L.narrow False A) (hsupplied : L.narrow.Supplied) (hm : m.Supplied L.narrow.toPlan)
    (hname : ¬p.Binds name) {op : Opcode} (ha : m.IsAbout host.settings (onVariable op name))
    (hnative : op = .call ∨ op = .tailCall → nativeTarget? host m name = none) : m.Refuses host name := by
  obtain ⟨line, hline, hi, hstands⟩ := hr.exists_line ha
  obtain ⟨next, hflow, -⟩ := L.narrow.flows m.pc line hline
  have hs : ({ m with steps := m.steps + 1 } : Machine).Sound L.narrow False A := { hr.sound with }
  have hruns := hstands.runs
  -- code that names variables runs in a closure
  have hcode : ∀ {o}, line.spot.owner = some o → ∃ h c, m.current = some h ∧ m.heap.closure? h = some c := by
    intro o ho
    rw [ho] at hruns
    generalize hcurrent : m.current = current at hruns
    cases hruns with
    | code _ hc => exact ⟨_, _, rfl, hc⟩
  -- reading fails at once, and so does a call of what is read
  have hread : ∀ {o}, line.spot.owner = some o → ∀ {f : Value → Move String},
      (dispatch host (onVariable op name)).run { m with steps := m.steps + 1 } =
        (dereference name >>= f).run { m with steps := m.steps + 1 } → m.Refuses host name := by
    intro o ho f hrun
    obtain ⟨h, c, hcurrent, hc⟩ := hcode ho
    exact ha.refuses (hrun.trans (run_bind_error (hs.unbound hcurrent hc hname).1)) hcurrent hc rfl fun _ _ h => h
  have hcall : (op = .call ∨ op = .tailCall) → ∀ {o}, line.spot.owner = some o → m.Refuses host name := by
    intro hop o ho
    have hnot : nativeTarget? host { m with steps := m.steps + 1 } name = none := hnative hop
    rcases hop with rfl | rfl
    · refine hread ho (f := fun v => callValue v false) ?_
      show (call host (.atom (.variable name)) false).run _ = _
      rw [call, run_get_bind, hnot]
    · refine hread ho (f := fun v => callValue v true) ?_
      show (call host (.atom (.variable name)) true).run _ = _
      rw [call, run_get_bind, hnot]
  cases hflow with
  | store howns => cases hi; exact absurd howns.2 hname
  | capture howns => cases hi; exact absurd howns.2 hname
  | load => cases hi; exact hread rfl rfl
  | call => cases hi; exact hcall (Or.inl rfl) rfl
  | tailCall => cases hi; exact hcall (Or.inr rfl) rfl
  | set =>
    cases hi
    obtain ⟨h, c, hcurrent, hc⟩ := hcode rfl
    obtain ⟨v, rest, hstack⟩ := List.exists_cons_of_ne_nil (hm ha.running (hsupplied.set _ _ _ hline rfl))
    obtain ⟨A', H', w, -, hrun, hsound, hkept⟩ := hr.run_set ha hstack
    have hc' : H'.closure? h = some c := Heap.closure?_eq_some.mpr (hkept h _ (Heap.closure?_eq_some.mp hc))
    rw [run_bind_error ((hsound.unbound hcurrent hc' hname).2 w)] at hrun
    exact ha.refuses hrun hcurrent hc rfl hkept
  | branch hop => rcases hop with rfl | rfl <;> cases hi
  | push hv => cases hi; cases hv
  | _ => cases hi

end Machine

/-! ### Runs -/

/-- **A name that nothing binds can be neither read nor changed nor called.** A program that was compiled or loaded binds
made-up names only. Whatever its run has done before, when it comes to a name that it does not bind, and that is not a
call of a native function, then the run fails with this name as an unbound variable, writes nothing and changes no object. -/
theorem Process.run_unbound (hp : p.Produced) {registry : Registry} (hmodest : registry.Modest) :
    (∀ name, p.Binds name → MadeUp name) ∧
    ∃ image, Image.ofProgram p = .ok image ∧
      ∀ (settings : Settings) (pid : Nat) (moments : List Moment) (now : Moment) (op : Opcode) (name : String),
        ¬p.Binds name → (run settings registry pid image moments).machine.IsAbout settings (onVariable op name) →
        (op = .call ∨ op = .tailCall → Machine.nativeTarget? (hostAt settings registry now)
          (run settings registry pid image moments).machine name = none) →
        (run settings registry pid image moments).machine.Refuses (hostAt settings registry now) name := by
  obtain ⟨t, roots, blocks, hcompiled⟩ := hp.exists_compiled
  obtain ⟨image, himage, -⟩ := hp.exists_image
  refine ⟨fun name => hcompiled.madeUp, image, himage, fun settings pid moments now op name hname ha hnative => ?_⟩
  have hsupplied : hcompiled.layout.narrow.Supplied := Linked.supplied hcompiled.linked
  -- nothing is asked of the calls, so the numbers of parameters do not matter
  obtain ⟨⟨A, hready⟩, -⟩ := run_ready hcompiled hcompiled.layout.narrow False himage hmodest (fun _ => none) False.elim
    settings pid moments False.elim
  have hm := run_supplied hcompiled hsupplied himage hmodest settings pid moments
  have ha : (run settings registry pid image moments).machine.IsAbout (hostAt settings registry now).settings
      (onVariable op name) := ha
  exact hready.refuses hsupplied hm hname ha hnative

/-- A procedure is assigned to a name that nothing binds. -/
theorem Process.run_unbound_assignment :
    ∃ p image now, Program.compile "(define x 1) (set! y (lambda () x))" = .ok p ∧ Image.ofProgram p = .ok image ∧
      (∀ name, p.Binds name → MadeUp name) ∧
      (run {} Registry.builtins 0 image (List.replicate 5 now)).machine.Refuses (hostAt {} Registry.builtins now) "y" := by
  let now : Moment := ⟨{}, .ok .nothing⟩
  have hrun : (do
      let p ← (Program.compile "(define x 1) (set! y (lambda () x))").toOption
      let image ← (Image.ofProgram p).toOption
      let m := (run {} Registry.builtins 0 image (List.replicate 5 now)).machine
      return decide (¬p.Binds "y" ∧ m.state = .running ∧
        m.image.program.code[m.pc]? = some (onVariable .set "y"))) = some true := by
    decide +kernel
  cases hp : Program.compile "(define x 1) (set! y (lambda () x))" with
  | error e =>
    rw [hp] at hrun
    cases hrun
  | ok p =>
    obtain ⟨hbinds, image, himage, hrefuses⟩ := run_unbound (.compiled hp) Registry.modest_builtins
    rw [hp] at hrun
    simp only [Except.toOption, Option.bind_eq_bind, Option.bind_some, himage, Option.pure_def, Option.some.injEq,
      decide_eq_true_eq] at hrun
    obtain ⟨hname, hstate, hi⟩ := hrun
    exact ⟨p, image, now, rfl, himage, hbinds,
      hrefuses {} 0 (List.replicate 5 now) now .set "y" hname ⟨hstate, by simp, hi⟩ (by simp)⟩

/-- **A text can name a variable as the analysis would.** No lambda binds `&0.x` here, and still it is read as the
variable `x` of the outermost code. -/
theorem Process.run_scoped_name :
    ∃ p t image now, Program.compile "(define x 1) (display &0.x)" = .ok p ∧
      (Tree.parse "(define x 1) (display &0.x)" >>= Tree.analyse) = .ok t ∧ t.resolve Tree.top "&0.x" = none ∧
      Image.ofProgram p = .ok image ∧
      (run {} Registry.builtins 0 image (List.replicate 4 now)).machine.IsAbout {} (onVariable .load "&0.x") ∧
      (run {} Registry.builtins 0 image (List.replicate 5 now)).machine.stack = [.number 1.0] ∧
      (run {} Registry.builtins 0 image (List.replicate 9 now)).machine.state = .stopped ∧
      (run {} Registry.builtins 0 image (List.replicate 9 now)).output = "1" := by
  let now : Moment := ⟨{}, .ok .nothing⟩
  have hrun : (do
      let p ← (Program.compile "(define x 1) (display &0.x)").toOption
      let t ← (Tree.parse "(define x 1) (display &0.x)" >>= Tree.analyse).toOption
      let image ← (Image.ofProgram p).toOption
      let m := (run {} Registry.builtins 0 image (List.replicate 4 now)).machine
      return decide (t.resolve Tree.top "&0.x" = none ∧ m.state = .running ∧
        m.image.program.code[m.pc]? = some (onVariable .load "&0.x") ∧
        (run {} Registry.builtins 0 image (List.replicate 5 now)).machine.stack = [.number 1.0] ∧
        (run {} Registry.builtins 0 image (List.replicate 9 now)).machine.state = .stopped ∧
        (run {} Registry.builtins 0 image (List.replicate 9 now)).output = "1")) = some true := by
    decide +kernel
  simp only [Option.bind_eq_bind, Option.pure_def, Option.bind_eq_some_iff, Except.toOption_eq_some] at hrun
  obtain ⟨p, hp, t, ht, image, himage, hrun⟩ := hrun
  simp only [Option.some.injEq, decide_eq_true_eq] at hrun
  obtain ⟨hresolve, hstate, hi, hstack, hstopped, houtput⟩ := hrun
  exact ⟨p, t, image, now, hp, ht, hresolve, himage, ⟨hstate, by simp, hi⟩, hstack, hstopped, houtput⟩

end SchemeMachine
