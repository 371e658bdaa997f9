import SchemeMachine.Proofs.Meaning.Evaluator
import SchemeMachine.Proofs.Watchdog

/-!
# Machines that keep up with an evaluation

A machine keeps up with an evaluation if it writes what the evaluation writes, and comes to a good end, or fails for the same
reason, where the evaluation does. The rules follow how evaluations are put together, so that a proof goes along the
evaluator while the machine catches up from place to place.

* `Registers` are what instructions work on; the other fields of a machine (`Books`) are left alone by the instructions
  of the core.
* `Meaning.Moves` is one instruction, `Meaning.Leads` are several, with the text written before and after.
* `Meaning.Tracks` says that a machine keeps up; `Meaning.Tracks.bind` is the rule for one evaluation after another.
* `Meaning.Leads.exists_run` and its like carry the result over to processes.
-/

namespace SchemeMachine

/-! ### Registers -/

/-- **What instructions work on.** -/
structure Registers where
  pc : Nat
  stack : List Value
  frames : List Frame
  current : Option Handle
  heap : Heap

/-- What a machine has besides: who it is, how far it has come, and what waits for others. -/
structure Books where
  pid : Nat
  steps : Nat
  peakDepth : Nat
  forked : List Image
  pending : Option Job
  nextCollection : Nat

/-- A running machine with given registers. -/
def Registers.machine (r : Registers) (image : Image) (b : Books) : Machine where
  pid := b.pid
  image
  pc := r.pc
  stack := r.stack
  frames := r.frames
  current := r.current
  heap := r.heap
  state := .running
  steps := b.steps
  peakDepth := b.peakDepth
  forked := b.forked
  pending := b.pending
  nextCollection := b.nextCollection

/-- The calls under way during a call: the last call of its caller takes the place of the caller. -/
def Registers.callers (r : Registers) (tail : Bool) : List Frame :=
  if tail then r.frames else ⟨r.current, r.pc + 1⟩ :: r.frames

/-- A process with a running machine. -/
def Registers.process (r : Registers) (image : Image) (b : Books) (output : String) : Process :=
  { machine := r.machine image b, output }

/-- The books after an instruction. -/
def Books.step (b : Books) : Books := { b with steps := b.steps + 1 }

namespace Meaning

/-- **The fault of a machine where a program fails.** A name that is unbound is blamed as it is spelt in the code. -/
def Failure.Describes : Failure → Fault → Prop
  | .unbound name, .unboundVariable spelling => spelling = name ∨ ∃ M, spelling = Tree.scopedName M name
  | .type, .typeError _ => True
  | .arithmetic reason, .arithmeticError reason' => reason' = reason
  | _, _ => False

/-! ### Instructions -/

section

variable (image : Image)

/-- An instruction stands at a place and does something to the registers, whatever surrounds the machine. -/
def Moves (r : Registers) (written : String) (r' : Registers) : Prop :=
  ∃ i, image.program.code[r.pc]? = some i ∧
    ∀ host b, (Machine.dispatch host i).run (r.machine image b) = (.ok written, r'.machine image b)

/-- **Instructions one after the other**, with what has been written before and after them. -/
inductive Leads : Registers → String → Registers → String → Prop
  | refl (r : Registers) (output : String) : Leads r output r output
  | head {r r' r'' : Registers} {output output'' written : String} (h : Moves image r written r')
      (h' : Leads r' (output ++ written) r'' output'') : Leads r output r'' output''

/-- The next instruction fails. -/
def Fails (r : Registers) (failure : Failure) : Prop :=
  ∃ i, image.program.code[r.pc]? = some i ∧ ∀ host b, ∃ fault m,
    (Machine.dispatch host i).run (r.machine image b) = (.error fault, m) ∧ failure.Describes fault

/-- The next instruction ends the run. -/
def Halts (r : Registers) : Prop :=
  ∃ i, image.program.code[r.pc]? = some i ∧ ∀ host b, ∃ m,
    (Machine.dispatch host i).run (r.machine image b) = (.ok "", m) ∧ m.state = .stopped

/-- **A machine keeps up with an evaluation**: it writes the same, and fails where the evaluation fails. `Q` says how the
machine stands when the evaluation has come to its end. Nothing is said if the evaluation is left open or not deep
enough. -/
def Tracks {α : Type} (r : Registers) (S : Store) (e : Eval α) (Q : α → Store → Registers → Prop) : Prop :=
  match e.run S with
  | (.ok a, S') => ∃ r', Leads image r S.output r' S'.output ∧ Q a S' r'
  | (.error (.failed failure), S') => ∃ r', Leads image r S.output r' S'.output ∧ Fails image r' failure
  | (.error _, _) => True

end

variable {image : Image} {r r' r'' : Registers} {output output' output'' written : String} {α β : Type} {S S' : Store}
  {e : Eval α} {f : α → Eval β} {Q Q' : α → Store → Registers → Prop} {R : β → Store → Registers → Prop}

namespace Leads

theorem single (h : Moves image r written r') : Leads image r output r' (output ++ written) := .head h (.refl r' _)

/-- An instruction that writes nothing. -/
theorem silent (h : Moves image r "" r') (h' : Leads image r' output r'' output'') :
    Leads image r output r'' output'' := .head h (by rwa [String.append_empty])

theorem trans (h : Leads image r output r' output') (h' : Leads image r' output' r'' output'') :
    Leads image r output r'' output'' := by
  induction h with
  | refl => exact h'
  | head hmoves _ ih => exact .head hmoves (ih h')

end Leads

/-! ### Evaluations one after the other -/

theorem run_bind (e : Eval α) (f : α → Eval β) (S : Store) :
    (e >>= f).run S =
      match e.run S with
      | (.ok a, S') => (f a).run S'
      | (.error stop, S') => (.error stop, S') := by
  change (StateT.bind e.run (ExceptT.bindCont f)) S = _
  unfold StateT.bind
  change (match (e.run S : Except Stop α × Store) with | (a, s) => _) = _
  generalize (e.run S : Except Stop α × Store) = x
  obtain ⟨(stop | a), S'⟩ := x <;> rfl

namespace Tracks

/-- An evaluation that has come to its end. -/
theorem of_ok {a : α} (he : e.run S = (.ok a, S')) (hr : Leads image r S.output r' S'.output) (h : Q a S' r') :
    Tracks image r S e Q := by
  unfold Tracks
  rw [he]
  exact ⟨r', hr, h⟩

theorem pure {a : α} (h : Q a S r) : Tracks image r S (pure a) Q := of_ok rfl (.refl r _) h

theorem fail {failure : Failure} (h : Fails image r failure) : Tracks image r S (Meaning.fail failure : Eval α) Q :=
  ⟨r, .refl r _, h⟩

/-- What is left open asks nothing of the machine. -/
theorem of_open {S' : Store} {stop : Stop} (he : e.run S = (.error stop, S'))
    (hstop : ∀ failure, stop ≠ .failed failure) : Tracks image r S e Q := by
  unfold Tracks
  rw [he]
  cases stop with
  | failed failure => exact absurd rfl (hstop failure)
  | _ => trivial

theorem unspecified : Tracks image r S (throw .unspecified : Eval α) Q := by
  have he : (throw .unspecified : Eval α).run S = (.error .unspecified, S) := rfl
  exact of_open he nofun

/-- A machine that keeps up comes to where the evaluation does. -/
theorem exists_leads {a : α} (h : Tracks image r S e Q) (he : e.run S = (.ok a, S')) :
    ∃ r', Leads image r S.output r' S'.output ∧ Q a S' r' := by
  unfold Tracks at h
  rwa [he] at h

/-- **One evaluation after another.** -/
theorem bind (h : Tracks image r S e Q) (h' : ∀ a S' r', Q a S' r' → Tracks image r' S' (f a) R) :
    Tracks image r S (e >>= f) R := by
  unfold Tracks at h ⊢
  rw [run_bind]
  rcases he : e.run S with ⟨(stop | a), S'⟩
  · rw [he] at h
    cases stop with
    | failed failure => exact h
    | _ => trivial
  · rw [he] at h
    obtain ⟨r', hr, hQ⟩ := h
    have hrest := h' a S' r' hQ
    unfold Tracks at hrest
    dsimp only
    rcases hf : (f a).run S' with ⟨(stop | b), S''⟩
    · rw [hf] at hrest
      cases stop with
      | failed failure =>
        obtain ⟨r'', hr', hfails⟩ := hrest
        exact ⟨r'', hr.trans hr', hfails⟩
      | _ => trivial
    · rw [hf] at hrest
      obtain ⟨r'', hr', hR⟩ := hrest
      exact ⟨r'', hr.trans hr', hR⟩

theorem mono (h : Tracks image r S e Q) (h' : ∀ a S' r', Q a S' r' → Q' a S' r') : Tracks image r S e Q' := by
  have hbind := h.bind (f := Pure.pure) (R := Q') fun a S' r' hQ => .pure (h' a S' r' hQ)
  rwa [bind_pure] at hbind

/-- The machine goes on by itself before the evaluation does. -/
theorem leads (hr : Leads image r S.output r' S.output) (h : Tracks image r' S e Q) : Tracks image r S e Q := by
  unfold Tracks at h ⊢
  rcases he : e.run S with ⟨(stop | a), S'⟩
  · rw [he] at h
    cases stop with
    | failed failure =>
      obtain ⟨r'', hr', hfails⟩ := h
      exact ⟨r'', hr.trans hr', hfails⟩
    | _ => trivial
  · rw [he] at h
    obtain ⟨r'', hr', hQ⟩ := h
    exact ⟨r'', hr.trans hr', hQ⟩

theorem silent (hr : Moves image r "" r') (h : Tracks image r' S e Q) : Tracks image r S e Q :=
  h.leads (.silent hr (.refl r' _))

/-- The machine has come to where an evaluation ends, and another one follows. -/
theorem bind_leads {a : α} (he : e.run S = (.ok a, S')) (hr : Leads image r S.output r' S'.output)
    (h : Tracks image r' S' (f a) R) : Tracks image r S (e >>= f) R := by
  have hthere : Tracks image r S e fun b T s => b = a ∧ T = S' ∧ s = r' := of_ok he hr ⟨rfl, rfl, rfl⟩
  refine hthere.bind ?_
  rintro _ _ _ ⟨rfl, rfl, rfl⟩
  exact h

/-- An evaluation that changes nothing and asks nothing of the machine. -/
theorem bind_of_ok {a : α} (he : e.run S = (.ok a, S)) (h : Tracks image r S (f a) R) : Tracks image r S (e >>= f) R :=
  bind_leads he (.refl r _) h

/-- The machine goes on by itself after the evaluation has come to its end. -/
theorem andThen (h : Tracks image r S e Q)
    (h' : ∀ a S' r', Q a S' r' → ∃ r'', Leads image r' S'.output r'' S'.output ∧ Q' a S' r'') :
    Tracks image r S e Q' := by
  have hbind := h.bind (f := Pure.pure) (R := Q') fun a S' r' hQ => by
    obtain ⟨r'', hr, hQ'⟩ := h' a S' r' hQ
    exact .leads hr (.pure hQ')
  rwa [bind_pure] at hbind

end Tracks

/-! ### Processes -/

section

variable {settings : Settings} {registry : Registry} {b : Books} {failure : Failure}

/-- The next moment carries out the next instruction. -/
theorem next_process (now : Moment) :
    Process.next settings registry (r.process image b output) now =
      { machine := (Machine.stepRunning (Process.hostAt settings registry now) (r.machine image b)).machine
        output := output ++ (Machine.stepRunning (Process.hostAt settings registry now) (r.machine image b)).written
        error := (Machine.stepRunning (Process.hostAt settings registry now) (r.machine image b)).error } := by
  rw [Process.next_of_goes (a := r.process image b output) nofun rfl]
  rfl

variable (hsteps : settings.maxSteps = none)
include hsteps

theorem unlimited (now : Moment) (n : Nat) : ¬(Process.hostAt settings registry now).settings.maxSteps.any (· ≤ n) := by
  rw [Process.hostAt, hsteps]
  exact Bool.false_ne_true

/-- An instruction that fails ends the run. -/
theorem Fails.next (h : Fails image r failure) (b : Books) (output : String) (now : Moment) :
    ∃ m error, Process.next settings registry (r.process image b output) now =
        { machine := m, output := output, error := some error } ∧ m.state = .failed ∧ failure.Describes error.fault := by
  obtain ⟨i, hi, hrun⟩ := h
  obtain ⟨fault, m, hrun, hfault⟩ := hrun (Process.hostAt settings registry now) b.step
  have hstep := Machine.stepRunning_of_error (m := r.machine image b) (unlimited hsteps now _) hi hrun
  refine ⟨{ m with state := .failed }, RunError.located { fault } m.currentLabel r.pc, ?_, rfl, hfault⟩
  rw [next_process, hstep, String.append_empty]
  rfl

variable (hcollect : settings.gcThreshold = none)
include hcollect

theorem stepRunning_of_dispatch {i : Instruction} {m : Machine} (hi : image.program.code[r.pc]? = some i) (now : Moment)
    (hrun : (Machine.dispatch (Process.hostAt settings registry now) i).run (r.machine image b.step) = (.ok written, m)) :
    Machine.stepRunning (Process.hostAt settings registry now) (r.machine image b) =
      { machine := if i.isCall then m.notePeak else m, written } := by
  have hkeep : ∀ m : Machine, m.collectIfDue (Process.hostAt settings registry now).settings = m := by
    intro m
    simp only [Machine.collectIfDue, Process.hostAt, hcollect]
  rw [Machine.stepRunning_of_ok (m := r.machine image b) (unlimited hsteps now _) hi hrun, hkeep]

theorem Moves.next (h : Moves image r written r') (b : Books) (output : String) (now : Moment) :
    ∃ b', Process.next settings registry (r.process image b output) now = r'.process image b' (output ++ written) := by
  obtain ⟨i, hi, hrun⟩ := h
  rw [next_process, stepRunning_of_dispatch hsteps hcollect hi now (hrun _ b.step)]
  by_cases hcall : i.isCall = true
  · exact ⟨{ b.step with peakDepth := max b.peakDepth r'.frames.length }, by rw [if_pos hcall]; rfl⟩
  · exact ⟨b.step, by rw [if_neg hcall]; rfl⟩

/-- **Instructions are carried out** one a moment. -/
theorem Leads.exists_run (h : Leads image r output r' output') :
    ∃ n, ∀ (b : Books) (moments : List Moment), moments.length = n → ∃ b',
      moments.foldl (Process.next settings registry) (r.process image b output) = r'.process image b' output' := by
  induction h with
  | refl r output => exact ⟨0, fun b moments hlength => ⟨b, by rw [List.length_eq_zero_iff.mp hlength]; rfl⟩⟩
  | head hmoves _ ih =>
    obtain ⟨n, hrun⟩ := ih
    refine ⟨n + 1, fun b moments hlength => ?_⟩
    cases moments with
    | nil => cases hlength
    | cons now moments =>
      obtain ⟨b', hnext⟩ := hmoves.next hsteps hcollect b _ now
      rw [List.foldl_cons, hnext]
      exact hrun b' moments (Nat.succ.inj hlength)

/-- An instruction that ends the run. -/
theorem Halts.next (h : Halts image r) (b : Books) (output : String) (now : Moment) :
    ∃ m, Process.next settings registry (r.process image b output) now = { machine := m, output } ∧ m.state = .stopped := by
  obtain ⟨i, hi, hrun⟩ := h
  obtain ⟨m, hrun, hstate⟩ := hrun (Process.hostAt settings registry now) b.step
  rw [next_process, stepRunning_of_dispatch hsteps hcollect hi now hrun, String.append_empty]
  refine ⟨_, rfl, ?_⟩
  split
  · exact hstate
  · exact hstate

end

end Meaning

end SchemeMachine
