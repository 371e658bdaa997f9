import SchemeMachine.Proofs.Invisibility
import SchemeMachine.Proofs.Meaning.Expression

/-!
# Programs keep their meaning

A compiled program does what the evaluator says of its source text: it writes the same, and ends well, or fails for the same
reason, where the evaluation does.

* `Meaning.exists_build` is what compilation gives, `Meaning.Build.tracks_run` says that a machine that starts with it
  keeps up with the evaluator.
* `Meaning.Agrees` compares a process with an evaluation that has come to an end.
* `Process.run_meaning` is the result for runs, whenever garbage is collected.
-/

namespace SchemeMachine

open Expression Lowering

namespace Meaning

variable {B : Build} {S : Store} {r : Registers} {e : Eval Denoted} {result : Except Stop Denoted × Store}
  {names : List String} {body : List Expression} {settings : Settings} {registry : Registry}

/-! ### The start of a run -/

/-- **What the compilation of an expression gives.** -/
theorem exists_build {source : String} {t : Tree} {e : Expression} {p : Program} (ht : Tree.parse source = .ok t)
    (he : t.expression? = some e) (hp : Program.compile source = .ok p) :
    ∃ B : Build, Image.ofProgram p = .ok B.image ∧ ∃ names body, e = .lambda Tree.top [] names body ∧
      HasCode B [] Tree.top [] names body := by
  obtain ⟨t', roots, blocks, names, body, hcompiled, rfl, hcode⟩ := compilesCode ht he hp
  obtain ⟨labels, hlabels⟩ := hcompiled.labels
  have hnatives : ∀ library, p.natives.contains library = false := by
    rw [natives_compile ht he hp]
    exact fun _ => rfl
  refine ⟨⟨t', roots, blocks, p, labels, hcompiled, hlabels, hnatives⟩, ?_, names, body, rfl, hcode⟩
  rw [Image.ofProgram, hlabels]
  rfl

namespace Build

/-- The world before the first instruction: there are the constants. -/
def start (B : Build) : World := ⟨Heap.ofConstants B.program.constants, fun _ => False, [], []⟩

/-- The registers before the first instruction. -/
def registers (B : Build) : Registers := ⟨0, [], [], none, B.start.heap⟩

theorem process_start (B : Build) (settings : Settings) (pid : Nat) :
    Process.start settings pid B.image =
      B.registers.process B.image ⟨pid, 0, 0, [], none, settings.gcThreshold.getD 0⟩ "" := rfl

theorem mirrors_start (B : Build) : Mirrors B B.start {} where
  sound := Machine.sound_ofConstants B.compiled
  constants h c hc := by
    rw [start, Heap.get?, Heap.slot?_ofConstants B.compiled.sorted.nodup, hc]
    rfl
  founded := B.compiled.founded_ofConstants
  activations := rfl
  regions i g r hr := by cases hr
  region_unique i j g r r' hr := by cases hr
  unentered _ _ _ := rfl
  lists := rfl
  list_unique m n h hh := by cases hh
  lists_live h hh := by cases hh
  lists_made h hh := by cases hh

/-- **A machine that starts with a program keeps up with the evaluator**, and halts. -/
theorem tracks_run (hcode : HasCode B [] Tree.top [] names body) (fuel : Nat) :
    Tracks B.image B.registers {} (eval fuel [] (.call (.lambda Tree.top [] names body) [])) fun _ _ => Halts B.image := by
  cases fuel with
  | zero =>
    have hstop : (eval 0 [] (.call (.lambda Tree.top [] names body) [])).run {} = (.error .exhausted, {}) := rfl
    exact .of_open hstop fun failure h => by cases h
  | succ fuel =>
    have hself := faithful_eval B fuel
    -- a program without operands calls its top lambda, which makes the first activation
    show Tracks B.image B.registers {} (eval fuel [] (.lambda Tree.top [] names body) >>= fun d =>
      evalAll (eval fuel []) [] >>= fun ds => apply (eval fuel) d ds) _
    refine hself.bind_lambda ?_
    show Tracks B.image B.registers {} (do
      let a ← enter [] []
      evalForms (eval fuel [⟨a, Tree.top, names⟩]) body) _
    -- the top lambda is closed
    have hcall : B.layout.lines[0]? = some ⟨⟨none, 0, none⟩, callTo false (.label (Handle.label Tree.top)), 0⟩ := rfl
    have hhalt : B.layout.lines[1]? = some ⟨⟨none, 1, none⟩, plain .halt, 0⟩ := rfl
    obtain ⟨next, hflow, -⟩ := B.layout.flows 0 _ hcall
    obtain ⟨hout, hentry⟩ : B.program.enclosing.find? (Handle.label Tree.top) = none ∧
        B.layout.Entry (Handle.label Tree.top) 0 := by
      cases hflow with
      | start hout hentry => exact ⟨hout, hentry⟩
    obtain ⟨place, line, -, hline, hi, hspot⟩ := B.layout.exists_place B.ofCode hentry
    have hm := B.mirrors_start
    have hfresh : Closure.Fresh B.layout B.start.acts B.start.heap True
        { label := Handle.label Tree.top, address := place, parent := none, free := {} } := .top trivial rfl rfl
    obtain ⟨w, hrun, hw, hm', hregions, hact, hc⟩ := hm.run_makeClosure hline hi hspot
      (fun m hmachine => run_lexicalParent_outermost hmachine hout) hfresh fun h => absurd trivial h
    have hcalls : Calls B B.registers (.label (Handle.label Tree.top)) false := B.calls_label (B.instruction_of_line hcall)
    have hmoves := hcalls.moves hc fun b => Machine.run_bind_ok (hrun _ (World.has_machine b))
    refine .silent hmoves ?_
    -- its code is carried out, and returns to the halt
    obtain ⟨l, hl⟩ := hm'.sound.exists_lineage hc
    have hnew : ∀ (i : Nat) r, w.regions[i]? ≠ some (B.start.heap.nextSlot, r) := by
      rw [hregions]
      exact hm.nextSlot_fresh
    have henters : Tracks B.image ⟨place, ([] : List Value).reverse ++ [], [⟨none, 1⟩], some B.start.heap.nextSlot, w.heap⟩
        {} _ (Returns B w ⟨none, 1⟩ [] []) :=
      hself.enters hm' (hact.mpr trivial) hc rfl rfl hnew ⟨_, hl, fun r hr => absurd hr List.not_mem_nil⟩ (Or.inr rfl) hcode .nil rfl
    refine henters.mono fun d S r hr => ?_
    obtain ⟨w', v, -, -, -, rfl⟩ := hr
    exact ⟨_, B.instruction_of_line hhalt, fun _ _ => ⟨_, rfl, rfl⟩⟩

end Build

/-! ### The end of a run -/

/-- **A process agrees with an evaluation**: it has written the same; it has stopped if the evaluation ends with a value, and
has failed for the same reason if it fails. Nothing is said if the evaluation is left open or not deep enough. -/
def Agrees (a : Process) : Except Stop Denoted × Store → Prop
  | (.ok _, S) => a.machine.state = .stopped ∧ a.output = S.output ∧ a.error = none
  | (.error (.failed failure), S) => a.machine.state = .failed ∧ a.output = S.output ∧
      ∃ error, a.error = some error ∧ failure.Describes error.fault
  | (.error _, _) => True

/-- Faults that are alike have the same reason. -/
theorem Failure.Describes.of_alike {failure : Failure} {f g : Fault} (h : failure.Describes g) (hfg : f.Alike g) :
    failure.Describes f := by
  cases hfg with
  | refl => exact h
  | typeError => cases failure <;> exact h
  | invalidHandle => cases failure <;> cases h

/-- Processes that are alike agree with the same evaluations. -/
theorem Agrees.of_alike {a a' : Process} (h : Agrees a' result) (ha : a.Alike a') : Agrees a result := by
  obtain ⟨ps, hmachine⟩ := ha.machine
  have herror := ha.error
  obtain ⟨(stop | d), S⟩ := result
  · cases stop with
    | failed failure =>
      obtain ⟨hstate, houtput, error, he, hfault⟩ := h
      rw [he] at herror
      generalize hf : a.error = o at herror
      cases herror with
      | some halike => exact ⟨hmachine.state.trans hstate, ha.output.trans houtput, _, hf, hfault.of_alike halike.fault⟩
    | _ => trivial
  · obtain ⟨hstate, houtput, he⟩ := h
    rw [he] at herror
    generalize hf : a.error = o at herror
    cases herror with
    | none => exact ⟨hmachine.state.trans hstate, ha.output.trans houtput, hf⟩

/-- A process that agrees with an evaluation goes on agreeing. -/
theorem Agrees.append {pid : Nat} {image : Image} {early : List Moment}
    (h : Agrees (Process.run settings registry pid image early) result) (late : List Moment) :
    Agrees (Process.run settings registry pid image (early ++ late)) result := by
  -- a process that has stopped or failed does not change any more
  obtain ⟨(stop | d), S⟩ := result
  · cases stop with
    | failed failure => rwa [Process.run_append_of_isTerminated (by rw [h.1]; rfl)]
    | _ => trivial
  · rwa [Process.run_append_of_isTerminated (by rw [h.1]; rfl)]

section

variable (hsteps : settings.maxSteps = none) (hcollect : settings.gcThreshold = none)
include hsteps hcollect

/-- Instructions are carried out, and then one more. -/
theorem Leads.exists_run_next {image : Image} {r r' : Registers} {output output' : String}
    (h : Leads image r output r' output') (P : Process → Prop)
    (hnext : ∀ b now, P (Process.next settings registry (r'.process image b output') now)) :
    ∃ n, ∀ (b : Books) (moments : List Moment), moments.length = n →
      P (moments.foldl (Process.next settings registry) (r.process image b output)) := by
  obtain ⟨n, hrun⟩ : ∃ n, ∀ (b : Books) (moments : List Moment), moments.length = n → ∃ b',
      moments.foldl (Process.next settings registry) (r.process image b output) = r'.process image b' output' :=
    h.exists_run hsteps hcollect
  refine ⟨n + 1, fun b moments hlength => ?_⟩
  rcases List.eq_nil_or_concat moments with rfl | ⟨before, now, rfl⟩
  · cases hlength
  · rw [List.concat_eq_append, List.length_append] at hlength
    obtain ⟨b', hthere⟩ := hrun b before (Nat.succ.inj hlength)
    rw [List.concat_eq_append, List.foldl_append, hthere]
    exact hnext b' now

/-- **A machine that keeps up with an evaluation and halts** comes to agree with it. -/
theorem Tracks.exists_run {image : Image} (h : Tracks image r S e fun _ _ => Halts image) :
    ∃ n, ∀ (b : Books) (moments : List Moment), moments.length = n →
      Agrees (moments.foldl (Process.next settings registry) (r.process image b S.output)) (e.run S) := by
  unfold Tracks at h
  rcases he : e.run S with ⟨(stop | d), S'⟩
  · rw [he] at h
    cases stop with
    | failed failure =>
      obtain ⟨r', hleads, hfails⟩ := h
      refine hleads.exists_run_next hsteps hcollect (Agrees · (.error (.failed failure), S')) fun b now => ?_
      obtain ⟨m, error, hnext, hstate, hfault⟩ := hfails.next hsteps b S'.output now
      rw [hnext]
      exact ⟨hstate, rfl, error, rfl, hfault⟩
    | _ => exact ⟨0, fun _ _ _ => trivial⟩
  · rw [he] at h
    obtain ⟨r', hleads, hhalts⟩ := h
    refine hleads.exists_run_next hsteps hcollect (Agrees · (.ok d, S')) fun b now => ?_
    obtain ⟨m, hnext, hstate⟩ := hhalts.next hsteps hcollect b S'.output now
    rw [hnext]
    exact ⟨hstate, rfl, rfl⟩

end

/-- **A run of a program** comes to agree with the evaluation, if there are no collections. -/
theorem Build.exists_run (settings : Settings) (registry : Registry) (hsteps : settings.maxSteps = none)
    (hcollect : settings.gcThreshold = none) (hcode : HasCode B [] Tree.top [] names body) (fuel : Nat) :
    ∃ n, ∀ (pid : Nat) (moments : List Moment), moments.length = n →
      Agrees (Process.run settings registry pid B.image moments) (Meaning.run fuel (.lambda Tree.top [] names body)) := by
  obtain ⟨n, hrun⟩ := (B.tracks_run hcode fuel).exists_run hsteps hcollect
  refine ⟨n, fun pid moments hlength => ?_⟩
  rw [Process.run, B.process_start]
  exact hrun _ moments hlength

end Meaning

/-! ### Runs -/

/-- **Compiling and running preserves the meaning of programs.** Take a source text that is an expression of the core, and
that compiles. If the evaluation of the expression ends, at whatever depth, so does the run of the program, without a limit of
steps and whenever garbage is collected: it has written the same, and has stopped, or failed for the same reason. -/
theorem Process.run_meaning {source : String} {t : Tree} {e : Expression} {p : Program} (ht : Tree.parse source = .ok t)
    (he : t.expression? = some e) (hp : Program.compile source = .ok p) {registry : Registry} (hr : registry.Uniform) :
    ∃ image, Image.ofProgram p = .ok image ∧ ∀ (fuel : Nat) (settings : Settings) (pid : Nat), settings.maxSteps = none →
      ∃ n, ∀ moments : List Moment, n ≤ moments.length →
        Meaning.Agrees (Process.run settings registry pid image moments) (Meaning.run fuel e) := by
  obtain ⟨B, himage, names, body, rfl, hcode⟩ := Meaning.exists_build ht he hp
  refine ⟨B.image, himage, fun fuel settings pid hsteps => ?_⟩
  -- without collections first
  obtain ⟨n, hrun⟩ := B.exists_run { settings with gcThreshold := none } registry hsteps rfl hcode fuel
  refine ⟨n, fun moments hlength => ?_⟩
  -- what comes later changes nothing, and neither do collections
  have hagrees := (hrun pid (moments.take n) (List.length_take_of_le hlength)).append (moments.drop n)
  rw [List.take_append_drop] at hagrees
  exact hagrees.of_alike (Process.run_alike B.compiled.grounded hr settings none pid moments)

/-- A counter that is a list, and a procedure that reads a variable defined after it. -/
def counterText : String :=
  "(define (make n) (lambda () (set! n (cons 'x n)) n)) (define a (make '())) (a) (display (a)) " ++
    "(define (late) later) (define later \"seen\") (display (late))"

theorem Process.run_meaning_counter :
    ∃ t e p image n, Tree.parse counterText = .ok t ∧ t.expression? = some e ∧ Program.compile counterText = .ok p ∧
      Image.ofProgram p = .ok image ∧ ∀ moments : List Moment, n ≤ moments.length →
        (Process.run {} Registry.builtins 0 image moments).machine.state = .stopped ∧
          (Process.run {} Registry.builtins 0 image moments).output = "(x x)seen" := by
  -- the program is compiled and evaluated, but not run
  have hcompiles : (Program.compile counterText).isOk = true := by decide +kernel
  have hmeans : ((Tree.parse counterText).toOption.bind Tree.expression?).any (fun e =>
      (Meaning.run 40 e).1.isOk && (Meaning.run 40 e).2.output == "(x x)seen") = true := by decide +kernel
  cases hp : Program.compile counterText with
  | error error =>
    rw [hp] at hcompiles
    cases hcompiles
  | ok p =>
    cases ht : Tree.parse counterText with
    | error error =>
      rw [ht] at hmeans
      cases hmeans
    | ok t =>
      rw [ht] at hmeans
      obtain ⟨e, he, hmeans⟩ := (Option.any_eq_true _ _).mp hmeans
      obtain ⟨hvalue, houtput⟩ := Bool.and_eq_true_iff.mp hmeans
      obtain ⟨image, himage, hrun⟩ := Process.run_meaning ht he hp Registry.uniform_builtins
      obtain ⟨n, hagrees⟩ := hrun 40 {} 0 rfl
      refine ⟨t, e, p, image, n, rfl, he, rfl, himage, fun moments hlength => ?_⟩
      have hhere := hagrees moments hlength
      rcases hresult : Meaning.run 40 e with ⟨(stop | d), S⟩
      · rw [hresult] at hvalue
        cases hvalue
      · rw [hresult] at houtput hhere
        exact ⟨hhere.1, hhere.2.1.trans (eq_of_beq houtput)⟩

end SchemeMachine
