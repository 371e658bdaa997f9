import SchemeMachine.Proofs.Lookup

/-!
# Compiled code is balanced

Every expression leaves one value and every statement none, so that code, calls under way and operands always fit
together. As long as each call passes as many arguments as its target takes, a run of compiled code never misses an
operand, a label, an object or an instruction, and it ends with one value on an otherwise empty machine.

* `Tree.parameterCount?` is the number of parameters of the lambda at a label.
* `Process.run_balanced` is the result for every run.
-/

namespace SchemeMachine

open Lowering

/-- **How many parameters the lambda at a label has.** -/
def Tree.parameterCount? (t : Tree) (label : String) : Option Nat :=
  (t.lambdas.find? fun h => Handle.label h = label).bind fun h =>
    match t.get? h with
    | some (.lambda _ parameters _) => some parameters.length
    | _ => none

variable {t : Tree} {roots : List Term} {blocks : List Block} {p : Program}

theorem Tree.parameterCount?_label {N : Handle} {parent : Option Handle} {parameters : List String}
    {children : List Child} (hn : t.get? N = some (.lambda parent parameters children)) :
    t.parameterCount? (Handle.label N) = some parameters.length := by
  have hfind : (t.lambdas.find? fun h => Handle.label h = Handle.label N) = some N := by
    cases hfind : t.lambdas.find? fun h => Handle.label h = Handle.label N with
    | none =>
      have hnot := List.find?_eq_none.mp hfind N (Tree.mem_lambdas.mpr ⟨_, _, _, hn⟩)
      simp at hnot
    | some K =>
      have hlabel : Handle.label K = Handle.label N := by simpa using List.find?_some hfind
      rw [Handle.label_injective hlabel]
  rw [parameterCount?, hfind, Option.bind_some, hn]

/-- A lambda is entered with as many arguments as it has parameters. -/
theorem Program.Compiled.parameterCount? (hp : p.Compiled t roots blocks) {N : String} {k : Nat}
    (henclosing : (p.enclosing.find? N).isSome) (hentry : hp.layout.Entry N k) : t.parameterCount? N = some k := by
  obtain ⟨o, ho⟩ := Option.isSome_iff_exists.mp henclosing
  obtain ⟨K, q, parameters, children, rfl, hn, -⟩ := hp.enclosing_eq_some.mp ho
  obtain ⟨labels, hlabels⟩ := hp.labels
  obtain ⟨line, hline, hi, hspot⟩ := exists_entry hp hn
  obtain ⟨pc, hpc⟩ := List.getElem?_of_mem hline
  have hsame := hp.layout.entry_unique hlabels hpc hi hentry
  rw [hspot] at hsame
  cases hsame
  exact Tree.parameterCount?_label hn

/-! ### Runs that can be computed -/

/-- The target of an instruction that is a call. -/
def Instruction.callTarget? : Instruction → Option Operand
  | .op .call target => target
  | .op .tailCall target => target
  | _ => none

theorem Instruction.callTarget?_eq_some {i : Instruction} {target : Operand} :
    i.callTarget? = some target ↔ ∃ tail, i = callTo tail target := by
  constructor
  · intro h
    unfold callTarget? at h
    split at h
    · exact ⟨false, by rw [h]; rfl⟩
    · exact ⟨true, by rw [h]; rfl⟩
    · cases h
  · rintro ⟨tail, rfl⟩
    cases tail <;> rfl

/-- Whether the next call matches can be computed. -/
instance (lines : List Line) (parameters : String → Option Nat) (host : Host) (m : Machine) :
    Decidable (m.CallMatches lines parameters host) :=
  decidable_of_iff (m.state = .running → ∀ line ∈ lines[m.pc]?, ∀ target ∈ line.instruction.callTarget?,
      ∀ k ∈ Machine.arity? parameters host m target, k = line.arguments) <| by
    unfold Machine.CallMatches
    simp only [Option.mem_def, Instruction.callTarget?_eq_some]
    constructor
    · intro h hstate line hline tail target k hi hk
      exact h hstate line hline target ⟨tail, hi⟩ k hk
    · rintro h hstate line hline target ⟨tail, hi⟩ k hk
      exact h hstate line hline tail target k hi hk

/-- A run in which every moment is the same. -/
theorem Process.callsMatch_replicate {settings : Settings} {registry : Registry} {pid : Nat} {image : Image}
    {lines : List Line} {parameters : String → Option Nat} {now : Moment} {n : Nat}
    (h : ∀ i < n, (run settings registry pid image (List.replicate i now)).machine.CallMatches lines parameters
      (hostAt settings registry now)) :
    CallsMatch settings registry pid image lines parameters (List.replicate n now) := by
  intro before now' hinit
  -- a beginning of equal moments is itself made of that moment
  have hsame : before ++ [now'] = List.replicate (before.length + 1) now := by
    rw [List.eq_replicate_iff]
    exact ⟨by simp, fun b hb => List.eq_of_mem_replicate (hinit.subset hb)⟩
  have hlt : before.length < n := by
    have := hinit.length_le
    simp only [List.length_append, List.length_singleton, List.length_replicate] at this
    omega
  rw [List.replicate_succ'] at hsame
  obtain ⟨hbefore, hnow⟩ := List.append_inj' hsame rfl
  cases hnow
  rw [hbefore]
  exact h _ hlt

/-! ### Balance -/

/-- **Compiled code is balanced.** Take a source that compiles, with the tree and the blocks of code that it compiles
to, and any run with the built-in libraries in which each call passes as many arguments as its target takes. The
process never fails for a structural reason; if it has stopped, no call is under way and one value is left. -/
theorem Process.run_balanced {source : String} (hp : Program.compile source = .ok p) :
    ∃ t blocks stock image, (Tree.parse source >>= Tree.analyse) = .ok t ∧ t.blocks = .ok (blocks, stock) ∧
      p.code = (Program.codeOf blocks).toArray ∧ Image.ofProgram p = .ok image ∧
      ∀ (settings : Settings) (pid : Nat) (moments : List Moment),
        CallsMatch settings Registry.builtins pid image (Program.linesOf blocks) t.parameterCount? moments →
        (∀ e ∈ (run settings Registry.builtins pid image moments).error, e.fault.isStructural = false) ∧
        ((run settings Registry.builtins pid image moments).machine.state = .stopped →
          (run settings Registry.builtins pid image moments).machine.frames = [] ∧
          ∃ v, (run settings Registry.builtins pid image moments).machine.stack = [v]) := by
  obtain ⟨t, roots, blocks, ht, hcompiled⟩ := Program.compiled_compile hp
  obtain ⟨stock, hblocks⟩ := hcompiled.lowered
  obtain ⟨image, himage, -⟩ := (Program.Produced.compiled hp).exists_image
  refine ⟨t, blocks, stock, image, ht, hblocks, hcompiled.code, himage, fun settings pid moments hcalls => ?_⟩
  -- the invariant of all states; that calls match is what lets it pass a call
  obtain ⟨⟨A, hready⟩, herror⟩ := run_ready hcompiled hcompiled.layout True himage Registry.modest_builtins
    t.parameterCount? (fun _ N k => hcompiled.parameterCount?) settings pid moments fun _ => hcalls
  refine ⟨herror trivial, fun hstopped => ?_⟩
  -- what the invariant says of a machine that has stopped
  have hkeeps := hready.keeps
  unfold Machine.Keeps at hkeeps
  rw [hstopped] at hkeeps
  exact ⟨hkeeps.1, List.length_eq_one_iff.mp (hkeeps.2 trivial)⟩

/-- A program that calls a procedure, run to its end. -/
theorem Process.run_balanced_cons :
    ∃ p image moments, Program.compile "(define (f x) (cons x '())) (display (f \"a\"))" = .ok p ∧
      Image.ofProgram p = .ok image ∧ (run {} Registry.builtins 0 image moments).machine.state = .stopped ∧
      (run {} Registry.builtins 0 image moments).machine.frames = [] ∧
      ∃ v, (run {} Registry.builtins 0 image moments).machine.stack = [v] := by
  let now : Moment := ⟨{}, .ok .nothing⟩
  have hend : (do
      let p ← (Program.compile "(define (f x) (cons x '())) (display (f \"a\"))").toOption
      let t ← (Tree.parse "(define (f x) (cons x '())) (display (f \"a\"))" >>= Tree.analyse).toOption
      let lowered ← t.blocks.toOption
      let image ← (Image.ofProgram p).toOption
      return decide (
        (∀ i ∈ List.range 16, (run {} Registry.builtins 0 image (List.replicate i now)).machine.CallMatches
          (Program.linesOf lowered.1) t.parameterCount? (hostAt {} Registry.builtins now)) ∧
        (run {} Registry.builtins 0 image (List.replicate 16 now)).machine.state = .stopped)) = some true := by
    decide +kernel
  cases hp : Program.compile "(define (f x) (cons x '())) (display (f \"a\"))" with
  | error e =>
    rw [hp] at hend
    cases hend
  | ok p =>
    obtain ⟨t, blocks, stock, image, ht, hblocks, -, himage, hbalanced⟩ := Process.run_balanced hp
    rw [hp, ht] at hend
    simp only [Except.toOption, Option.bind_eq_bind, Option.bind_some, hblocks, himage, Option.pure_def,
      Option.some.injEq, decide_eq_true_eq, List.mem_range] at hend
    obtain ⟨hcalls, hstopped⟩ := hend
    obtain ⟨-, hend⟩ := hbalanced {} 0 _ (callsMatch_replicate hcalls)
    exact ⟨p, image, List.replicate 16 now, rfl, himage, hstopped, hend hstopped⟩

end SchemeMachine
