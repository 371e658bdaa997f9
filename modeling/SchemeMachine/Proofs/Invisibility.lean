import SchemeMachine.Proofs.Collection
import SchemeMachine.Proofs.Layout.Compiled
import SchemeMachine.Proofs.Natives

/-!
# Programs do not see collections

Every program that the compiler or the module loader gives is one to which the comparison of runs applies: its
code refers to its own constants only. So no choice of the threshold for collections shows in a run.

* `Program.Produced.grounded` says that the handles of programs are constants.
* `Process.run_threshold_invisible` compares two runs that differ in the threshold.
-/

namespace SchemeMachine

namespace Program

variable {p : Program}

/-- The handles of a compiled program are its constants. -/
theorem Compiled.grounded {t : Tree} {roots : List Term} {blocks : List Block} (hp : p.Compiled t roots blocks) :
    p.Grounded where
  code _ hi _ _ hop := hp.layout.grounded hi hop
  sorted := hp.sorted
  lists := hp.lists

theorem Produced.grounded (h : p.Produced) : p.Grounded := by
  obtain ⟨t, roots, blocks, hp⟩ := h.exists_compiled
  exact hp.grounded

end Program

theorem SameButHandle.prepend {s t : String} (h : SameButHandle s t) (text : String) :
    SameButHandle (text ++ s) (text ++ t) := by
  rcases h with rfl | ⟨before, after, h, k, rfl, rfl⟩
  · exact Or.inl rfl
  · exact Or.inr ⟨text ++ before, after, h, k, by simp only [String.append_assoc], by simp only [String.append_assoc]⟩

theorem SameButHandle.append {s t : String} (h : SameButHandle s t) (text : String) :
    SameButHandle (s ++ text) (t ++ text) := by
  rcases h with rfl | ⟨before, after, h, k, rfl, rfl⟩
  · exact Or.inl rfl
  · exact Or.inr ⟨before, after ++ text, h, k, by simp only [String.append_assoc], by simp only [String.append_assoc]⟩

theorem SameButHandle.label (h k : Handle) : SameButHandle (Handle.label h) (Handle.label k) :=
  Or.inr ⟨"", "", h, k, by simp only [String.empty_append, String.append_empty],
    by simp only [String.empty_append, String.append_empty]⟩

theorem Fault.Alike.message {f g : Fault} (h : f.Alike g) : SameButHandle f.message g.message := by
  cases h with
  | refl => exact Or.inl rfl
  | typeError hs => exact hs.prepend "type error: "
  | invalidHandle h k => exact (SameButHandle.label h k).prepend "invalid handle "

/-- Errors that are alike have the same text but for the number of a handle. -/
theorem RunError.Alike.message {e f : RunError} (h : e.Alike f) : SameButHandle e.message f.message := by
  unfold RunError.message
  rw [h.place]
  cases f.place with
  | none => exact h.fault.message
  | some place => exact ((h.fault.message.append " (in @").append place.1).append _

/-- **Runs that nobody can tell apart**: they are at the same instruction of the same program, have written the
same, are in the same state after as many steps and with the same greatest number of calls, and have failed
alike, with the same text but for the number of a handle in it. -/
structure Process.SameToSee (one two : Process) : Prop where
  program : one.machine.image = two.machine.image
  place : one.machine.pc = two.machine.pc
  output : one.output = two.output
  state : one.machine.state = two.machine.state
  steps : one.machine.steps = two.machine.steps
  peakDepth : one.machine.peakDepth = two.machine.peakDepth
  error : Option.Rel (fun e f => RunError.Alike e f ∧ SameButHandle e.message f.message) one.error two.error

theorem Process.Alike.sameToSee {one two : Process} (h : one.Alike two) : one.SameToSee two := by
  obtain ⟨ps, ha⟩ := h.machine
  refine ⟨ha.image, ha.pc, h.output, ha.state, ha.steps, ha.peakDepth, ?_⟩
  -- two runs that differ in handles may still quote different handles in the text of an error
  have herror := h.error
  generalize one.error = a at herror ⊢
  generalize two.error = b at herror ⊢
  cases herror with
  | none => exact .none
  | some h => exact .some ⟨h, h.message⟩

/-- **Collections are invisible.** Take a program that was compiled or loaded. Two runs of it that meet the same
moments and differ in when garbage is collected cannot be told apart after any of the moments. -/
theorem Process.run_threshold_invisible {p : Program} (hp : p.Produced) {registry : Registry}
    (hr : registry.Uniform) :
    ∃ image, Image.ofProgram p = .ok image ∧
      ∀ (settings : Settings) (threshold : Option Nat) (pid : Nat) (moments : List Moment),
        (Process.run settings registry pid image moments).SameToSee
          (Process.run { settings with gcThreshold := threshold } registry pid image moments) := by
  obtain ⟨image, himage, hprogram⟩ := hp.exists_image
  refine ⟨image, himage, fun settings threshold pid moments => ?_⟩
  exact (Process.run_alike (hprogram ▸ hp.grounded) hr settings threshold pid moments).sameToSee

/-- A program that makes lists and closures, with the built-in libraries. -/
theorem Process.run_threshold_invisible_lists :
    ∃ p image, Program.compile "(define (f x) (cons x '())) (display (f \"a\"))" = .ok p ∧
      Image.ofProgram p = .ok image ∧
      ∀ (settings : Settings) (threshold : Option Nat) (pid : Nat) (moments : List Moment),
        (Process.run settings Registry.builtins pid image moments).SameToSee
          (Process.run { settings with gcThreshold := threshold } Registry.builtins pid image moments) := by
  have hok : (Program.compile "(define (f x) (cons x '())) (display (f \"a\"))").isOk = true := by decide +kernel
  cases h : Program.compile "(define (f x) (cons x '())) (display (f \"a\"))" with
  | error e => rw [h] at hok; cases hok
  | ok p =>
    obtain ⟨image, hrun⟩ := Process.run_threshold_invisible (.compiled h) Registry.uniform_builtins
    exact ⟨p, image, rfl, hrun⟩

end SchemeMachine
