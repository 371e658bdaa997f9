import SchemeMachine.Proofs.Confinement
import SchemeMachine.Proofs.Scheduler.Isolation

/-!
# A limit only cuts a run off

A run with a limit does what the run without it does, instruction by instruction. It is cut off before the first instruction
beyond the limit, if the run has not ended by then.

* `Machine.stepRunning_withLimit`: a step that the limit allows does not depend on it.
* `Process.Counted` says that an unlimited run carries out one instruction a moment until it ends.
* `Process.run_withLimit` is the result.
-/

namespace SchemeMachine

/-- The settings with another limit. -/
def Settings.withLimit (settings : Settings) (limit : Option Nat) : Settings := { settings with maxSteps := limit }

/-- Natives that do not depend on who asks answer at once. -/
theorem Registry.Independent.synchronous {r : Registry} (h : r.Independent) : r.Synchronous :=
  fun library function f hf heap call => (h library function f hf heap call).1

variable {settings : Settings} {registry : Registry} {now : Moment}

namespace Machine

variable {m : Machine}

/-! ### Instructions do not see the limit -/

theorem dispatch_withLimit (limit : Option Nat) (i : Instruction) :
    dispatch (Process.hostAt (settings.withLimit limit) registry now) i = dispatch (Process.hostAt settings registry now) i := by
  cases i with
  | comment text => rfl
  | label name => rfl
  | op opcode operand =>
    cases opcode with
    | fork => simp only [dispatch, execute, fork, forkProgram, Process.hostAt, Settings.withLimit]
    | call => simp only [dispatch, execute, call, nativeTarget?, Process.hostAt]
    | tailCall => simp only [dispatch, execute, call, nativeTarget?, Process.hostAt]
    | _ => rfl

/-- **A step that the limit allows** is the step of a machine without limit. -/
theorem stepRunning_withLimit (settings : Settings) (registry : Registry) (now : Moment) {limit : Nat} (h : m.steps < limit) :
    stepRunning (Process.hostAt (settings.withLimit (some limit)) registry now) m =
      stepRunning (Process.hostAt (settings.withLimit none) registry now) m := by
  have hlimited : ¬(Process.hostAt (settings.withLimit (some limit)) registry now).settings.maxSteps.any (· ≤ m.steps) := by
    show ¬(decide (limit ≤ m.steps)) = true
    simpa using h
  have hfree : ¬(Process.hostAt (settings.withLimit none) registry now).settings.maxSteps.any (· ≤ m.steps) :=
    Bool.false_ne_true
  cases hi : m.image.program.code[m.pc]? with
  | none => rw [stepRunning_of_none hlimited hi, stepRunning_of_none hfree hi]
  | some i =>
    have hsame : dispatch (Process.hostAt (settings.withLimit (some limit)) registry now) i =
        dispatch (Process.hostAt (settings.withLimit none) registry now) i :=
      (dispatch_withLimit (some limit) i).trans (dispatch_withLimit none i).symm
    rcases hrun : (dispatch (Process.hostAt (settings.withLimit none) registry now) i).run { m with steps := m.steps + 1 }
      with ⟨(e | written), after⟩
    · rw [stepRunning_of_error hfree hi hrun]
      rw [← hsame] at hrun
      rw [stepRunning_of_error hlimited hi hrun]
    · rw [stepRunning_of_ok hfree hi hrun]
      rw [← hsame] at hrun
      rw [stepRunning_of_ok hlimited hi hrun]
      rfl

/-! ### Instructions are counted -/

/-- A machine that is in the course of an instruction: the number of instructions is `n`, and it does not wait. -/
def CountedAt (image : Image) (n : Nat) (m : Machine) : Prop :=
  m.image = image ∧ m.steps = n ∧ m.state ≠ .sleeping ∧ m.state ≠ .failed

theorem CountedAt.mobile (hsync : registry.Synchronous) (image : Image) (n : Nat) :
    Mobile registry image (CountedAt image n) where
  runs h := h.1
  stack h _ := h
  forked h _ := h
  string h _ := h
  list h _ := h
  closure h _ _ _ _ _ := h
  place h _ _ _ := h
  stopped h := ⟨h.1, h.2.1, nofun, nofun⟩
  suspended h := ⟨h.1, h.2.1, nofun, nofun⟩
  sleeping := Or.inr hsync
  activation h _ _ _ _ := h
  continuation h _ := h

/-- **A step carries out one instruction**, or the machine fails. -/
theorem stepRunning_counted (settings : Settings) (now : Moment) (hsync : registry.Synchronous) (hstate : m.state = .running) :
    (stepRunning (Process.hostAt settings registry now) m).machine.state = .failed ∨
      (stepRunning (Process.hostAt settings registry now) m).error = none ∧
        (stepRunning (Process.hostAt settings registry now) m).machine.CountedAt m.image (m.steps + 1) := by
  by_cases hlimit : (Process.hostAt settings registry now).settings.maxSteps.any (· ≤ m.steps)
  · rw [stepRunning_of_limit hlimit]
    exact Or.inl rfl
  cases hi : m.image.program.code[m.pc]? with
  | none =>
    rw [stepRunning_of_none hlimit hi]
    exact Or.inl rfl
  | some i =>
    -- the count grows before the instruction, and no instruction changes it
    have hbefore : ({ m with steps := m.steps + 1 } : Machine).CountedAt m.image (m.steps + 1) :=
      ⟨rfl, rfl, by rw [hstate]; nofun, by rw [hstate]; nofun⟩
    have hregistry : (Process.hostAt settings registry now).registry = registry := rfl
    have hafter := (CountedAt.mobile hsync m.image (m.steps + 1)).dispatch_of_put (fun h _ _ => h) hregistry i _ hbefore
    unfold Brings at hafter
    rcases hrun : (dispatch (Process.hostAt settings registry now) i).run { m with steps := m.steps + 1 } with
      ⟨(e | written), after⟩ <;> rw [hrun] at hafter
    · rw [stepRunning_of_error hlimit hi hrun]
      exact Or.inl rfl
    · rw [stepRunning_of_ok hlimit hi hrun]
      refine Or.inr ⟨rfl, ?_⟩
      obtain ⟨H, n, hcollected⟩ := collectIfDue_eq (Process.hostAt settings registry now).settings
        (if i.isCall then after.notePeak else after)
      rw [hcollected]
      split
      · exact hafter
      · exact hafter

end Machine

namespace Process

/-! ### Processes that have ended -/

/-- **A process that has ended stays as it is.** -/
theorem next_of_isTerminated {a : Process} (h : a.machine.state.isTerminated = true) :
    next settings registry a now = a := by
  have hstep : a.machine.step (hostAt settings registry now) = { machine := a.machine } := by
    unfold Machine.step
    split
    · next hstate => rw [hstate] at h; cases h
    · next hstate => rw [hstate] at h; cases h
    · rfl
  unfold next
  split
  · next hstate => rw [hstate] at h; cases h
  · rw [hstep]
    obtain ⟨machine, output, error⟩ := a
    cases error <;> simp

/-- A process that goes on carries out an instruction. -/
theorem next_of_goes {a : Process} (hawake : a.machine.state ≠ .sleeping) (hgoes : a.machine.state.isTerminated = false) :
    next settings registry a now =
      { machine := (Machine.stepRunning (hostAt settings registry now) { a.machine with state := .running }).machine
        output := a.output ++
          (Machine.stepRunning (hostAt settings registry now) { a.machine with state := .running }).written
        error := a.error <|>
          (Machine.stepRunning (hostAt settings registry now) { a.machine with state := .running }).error } := by
  have hstep : a.machine.step (hostAt settings registry now) =
      Machine.stepRunning (hostAt settings registry now) { a.machine with state := .running } := by
    unfold Machine.step
    cases hstate : a.machine.state with
    | running => rfl
    | suspended => rfl
    | sleeping => exact absurd hstate hawake
    | stopped | failed =>
      rw [hstate] at hgoes
      cases hgoes
  unfold next
  split
  · next hstate => exact absurd hstate hawake
  · rw [hstep]

theorem run_append_of_isTerminated {pid : Nat} {image : Image} {early : List Moment}
    (h : (run settings registry pid image early).machine.state.isTerminated = true) (late : List Moment) :
    run settings registry pid image (early ++ late) = run settings registry pid image early := by
  -- on the later moments: none of them changes what has ended
  induction late using List.reverseRecOn with
  | nil => rw [List.append_nil]
  | append_singleton late now ih =>
    rw [← List.append_assoc, run_append, ih]
    exact next_of_isTerminated h

/-! ### Processes with and without limit -/

/-- **A process that its limit has cut off.** -/
def cutOff (a : Process) (limit : Nat) : Process :=
  { a with machine := { a.machine with state := .failed }, error := some { fault := .instructionLimit limit } }

/-- **A process after some moments** that has carried out one instruction a moment, unless it has ended. -/
structure Counted (count : Nat) (a : Process) : Prop where
  awake : a.machine.state ≠ .sleeping
  steps : a.machine.state.isTerminated = false → a.machine.steps = count
  error : a.machine.state.isTerminated = false → a.error = none

variable {a : Process}

theorem Counted.next {count : Nat} (h : Counted count a) (hsync : registry.Synchronous) :
    Counted (count + 1) (next settings registry a now) := by
  cases hterminated : a.machine.state.isTerminated with
  | true =>
    rw [next_of_isTerminated hterminated]
    refine ⟨h.awake, fun hgoes => ?_, fun hgoes => ?_⟩
    · rw [hterminated] at hgoes
      cases hgoes
    · rw [hterminated] at hgoes
      cases hgoes
  | false =>
    rw [next_of_goes h.awake hterminated]
    rcases Machine.stepRunning_counted (m := { a.machine with state := .running }) settings now hsync rfl with
      hfailed | ⟨herror, -, hsteps, hawake, -⟩
    · refine ⟨by rw [hfailed]; nofun, fun hgoes => ?_, fun hgoes => ?_⟩
      · rw [hfailed] at hgoes
        cases hgoes
      · rw [hfailed] at hgoes
        cases hgoes
    · refine ⟨hawake, fun _ => ?_, fun _ => ?_⟩
      · rw [hsteps, h.steps hterminated]
      · show (a.error <|> _) = none
        rw [herror, h.error hterminated]
        rfl

theorem run_counted (settings : Settings) (hsync : registry.Synchronous) (pid : Nat) (image : Image) (moments : List Moment) :
    Counted moments.length (run settings registry pid image moments) := by
  induction moments using List.reverseRecOn with
  | nil => exact ⟨nofun, fun _ => rfl, fun _ => rfl⟩
  | append_singleton moments now ih =>
    rw [run_append, List.length_append]
    exact ih.next hsync

/-- Below the limit, a moment does not depend on it. -/
theorem next_withLimit {limit : Nat} (hawake : a.machine.state ≠ .sleeping) (h : a.machine.steps < limit) :
    next (settings.withLimit (some limit)) registry a now = next (settings.withLimit none) registry a now := by
  cases hterminated : a.machine.state.isTerminated with
  | true => rw [next_of_isTerminated hterminated, next_of_isTerminated hterminated]
  | false =>
    have hstep := Machine.stepRunning_withLimit (m := { a.machine with state := .running }) settings registry now h
    rw [next_of_goes hawake hterminated, next_of_goes hawake hterminated, hstep]

/-- At the limit, a process that goes on is cut off. -/
theorem next_of_limit {limit : Nat} (h : Counted limit a) (hgoes : a.machine.state.isTerminated = false) :
    next (settings.withLimit (some limit)) registry a now = a.cutOff limit := by
  have hlimit : (hostAt (settings.withLimit (some limit)) registry now).settings.maxSteps.any
      (· ≤ ({ a.machine with state := .running } : Machine).steps) := by
    show decide (limit ≤ a.machine.steps) = true
    rw [h.steps hgoes]
    exact decide_eq_true (Nat.le_refl limit)
  rw [next_of_goes h.awake hgoes, Machine.stepRunning_of_limit hlimit, h.error hgoes]
  unfold cutOff Machine.halted
  simp [hostAt, Settings.withLimit]

/-- **A limit that is not reached does not matter.** -/
theorem run_withLimit_of_le (settings : Settings) (hsync : registry.Synchronous) (pid : Nat) (image : Image) {limit : Nat}
    {moments : List Moment} (h : moments.length ≤ limit) :
    run (settings.withLimit (some limit)) registry pid image moments =
      run (settings.withLimit none) registry pid image moments := by
  induction moments using List.reverseRecOn with
  | nil => rfl
  | append_singleton moments now ih =>
    rw [List.length_append, List.length_singleton] at h
    rw [run_append, run_append, ih (by omega)]
    -- one instruction a moment, so that the limit has not been reached
    have hcounted := run_counted (settings.withLimit none) hsync pid image moments
    cases hterminated : (run (settings.withLimit none) registry pid image moments).machine.state.isTerminated with
    | true => rw [next_of_isTerminated hterminated, next_of_isTerminated hterminated]
    | false => exact next_withLimit hcounted.awake (by rw [hcounted.steps hterminated]; omega)

/-- **A limit only cuts a run off.** Take a program that was compiled or loaded, natives that answer at once, and any settings
and limit; each moment of a run is one instruction, until the run ends.

* With the limit and without, the place is in the program in every state.
* Up to as many moments as the limit allows the two runs are the same process: registers, objects, output and error. As long
  as it has not ended, it has carried out one instruction a moment.
* If the run has ended by then, the one with the limit ends in the same way, whatever comes after.
* If not, the next moment cuts it off: it has failed on account of the limit, and is for the rest what it was after just as
  many instructions. -/
theorem run_withLimit {p : Program} (hp : p.Produced) (hsync : registry.Synchronous) :
    ∃ image, Image.ofProgram p = .ok image ∧ ∀ (settings : Settings) (limit pid : Nat),
      let free := run (settings.withLimit none) registry pid image
      let limited := run (settings.withLimit (some limit)) registry pid image
      (∀ moments, (free moments).machine.pc < p.code.size ∧ (limited moments).machine.pc < p.code.size) ∧
      (∀ early : List Moment, early.length ≤ limit → limited early = free early ∧
        ((free early).machine.state.isTerminated = false → (free early).machine.steps = early.length)) ∧
      ∀ early : List Moment, early.length = limit → ∀ now late,
        ((free early).machine.state.isTerminated = true →
          free (early ++ now :: late) = free early ∧ limited (early ++ now :: late) = free early) ∧
        ((free early).machine.state.isTerminated = false →
          limited (early ++ now :: late) = (free early).cutOff limit ∧
            (limited (early ++ now :: late)).machine.steps = limit) := by
  obtain ⟨t, roots, blocks, hcompiled⟩ := hp.exists_compiled
  obtain ⟨image, himage, hprogram⟩ := hp.exists_image
  refine ⟨image, himage, fun settings limit pid => ?_⟩
  dsimp only
  refine ⟨fun moments => ⟨?_, ?_⟩, fun early hearly => ⟨run_withLimit_of_le settings hsync pid image hearly, ?_⟩, ?_⟩
  · rw [← hprogram]
    exact (run_confined hcompiled himage _ registry pid moments).place
  · rw [← hprogram]
    exact (run_confined hcompiled himage _ registry pid moments).place
  · exact (run_counted _ hsync pid image early).steps
  · intro early hearly now late
    have hsame := run_withLimit_of_le settings hsync pid image (Nat.le_of_eq hearly)
    have hcounted := run_counted (settings.withLimit none) hsync pid image early
    rw [hearly] at hcounted
    refine ⟨fun hended => ⟨run_append_of_isTerminated hended _, ?_⟩, fun hgoes => ?_⟩
    · -- up to here both runs are the same, so that they have ended alike
      rw [← hsame] at hended ⊢
      exact run_append_of_isTerminated hended _
    · -- the moment after the limit ends the run
      have hcut : run (settings.withLimit (some limit)) registry pid image (early ++ [now]) =
          (run (settings.withLimit none) registry pid image early).cutOff limit := by
        rw [run_append, hsame]
        exact next_of_limit hcounted hgoes
      have hlater : run (settings.withLimit (some limit)) registry pid image (early ++ now :: late) =
          (run (settings.withLimit none) registry pid image early).cutOff limit := by
        rw [List.append_cons, run_append_of_isTerminated (by rw [hcut]; rfl), hcut]
      exact ⟨hlater, by rw [hlater]; exact hcounted.steps hgoes⟩

/-- A procedure that calls itself for ever is cut off, whatever it has called and written before. -/
theorem run_withLimit_forever :
    ∃ p image, Program.compile "(native String) (define (f) (display (String.concat \"a\" \"b\")) (f)) (f)" = .ok p ∧
      Image.ofProgram p = .ok image ∧
      ∀ late, run { maxSteps := some 40 } Registry.synchronous 0 image (List.replicate 41 ⟨{}, .ok .nothing⟩ ++ late) =
        (run {} Registry.synchronous 0 image (List.replicate 40 ⟨{}, .ok .nothing⟩)).cutOff 40 ∧
      (run {} Registry.synchronous 0 image (List.replicate 40 ⟨{}, .ok .nothing⟩)).output = "abababababab" := by
  have hrun : (do
      let p ← (Program.compile "(native String) (define (f) (display (String.concat \"a\" \"b\")) (f)) (f)").toOption
      let image ← (Image.ofProgram p).toOption
      let a := run {} Registry.synchronous 0 image (List.replicate 40 ⟨{}, .ok .nothing⟩)
      return decide (a.machine.state.isTerminated = false ∧ a.output = "abababababab")) = some true := by
    decide +kernel
  simp only [Option.bind_eq_bind, Option.pure_def, Option.bind_eq_some_iff, Except.toOption_eq_some, Option.some.injEq,
    decide_eq_true_eq] at hrun
  obtain ⟨p, hp, image, himage, hgoes, houtput⟩ := hrun
  obtain ⟨image', himage', hlimited⟩ := run_withLimit (.compiled hp) Registry.independent_synchronous.synchronous
  obtain rfl : image = image' := Except.ok.inj (himage.symm.trans himage')
  obtain ⟨-, -, hcut⟩ := hlimited {} 40 0
  refine ⟨p, image, hp, himage, fun late => ⟨?_, houtput⟩⟩
  have hlater := (hcut (List.replicate 40 ⟨{}, .ok .nothing⟩) List.length_replicate ⟨{}, .ok .nothing⟩ late).2 hgoes
  rw [List.append_cons] at hlater
  exact hlater.1

end Process

end SchemeMachine
