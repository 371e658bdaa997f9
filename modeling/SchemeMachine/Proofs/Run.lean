import Mathlib.Data.List.Induction
import SchemeMachine.Machine.Step

/-!
# Runs of a machine

A run is a sequence of moments. At each moment the machine takes a step, or, if it sleeps, is woken with
the result of its job. What surrounds the machine, the files and the results of jobs, is given for each
moment; nothing is assumed about it.

* `Process` is a machine under way with what it has written and why it failed.
* `Process.run` is the process after a sequence of moments. Its states for all sequences are the states that
  the machine can reach.
-/

namespace SchemeMachine

/-- An image has the labels of its program. -/
theorem Image.labels_of_ofProgram {p : Program} {image : Image} (h : Image.ofProgram p = .ok image) :
    image.program = p ∧ LabelTable.ofCode image.program.code = .ok image.labels := by
  unfold Image.ofProgram at h
  split at h
  · next labels hlabels =>
    cases h
    exact ⟨rfl, hlabels⟩
  · cases h

/-! ### The ways a step can go -/

namespace Machine

variable {host : Host} {m after : Machine} {i : Instruction}

/-- No instruction is carried out beyond the limit. -/
theorem stepRunning_of_limit (h : host.settings.maxSteps.any (· ≤ m.steps)) :
    stepRunning host m = halted m (.instructionLimit (host.settings.maxSteps.getD 0)) := by
  rw [stepRunning, if_pos h]

theorem stepRunning_of_none (h : ¬host.settings.maxSteps.any (· ≤ m.steps))
    (hi : m.image.program.code[m.pc]? = none) :
    stepRunning host m = halted m (.placeOutOfRange m.pc) := by
  rw [stepRunning, if_neg h, hi]

theorem stepRunning_of_error (h : ¬host.settings.maxSteps.any (· ≤ m.steps))
    (hi : m.image.program.code[m.pc]? = some i) {fault : Fault}
    (hrun : (dispatch host i).run { m with steps := m.steps + 1 } = (.error fault, after)) :
    stepRunning host m =
      { machine := { after with state := .failed }
        error := some (RunError.located { fault } after.currentLabel m.pc) } := by
  rw [stepRunning, if_neg h, hi]
  dsimp only
  rw [hrun]

theorem stepRunning_of_ok (h : ¬host.settings.maxSteps.any (· ≤ m.steps))
    (hi : m.image.program.code[m.pc]? = some i) {written : String}
    (hrun : (dispatch host i).run { m with steps := m.steps + 1 } = (.ok written, after)) :
    stepRunning host m =
      { machine := (if i.isCall then after.notePeak else after).collectIfDue host.settings
        written } := by
  rw [stepRunning, if_neg h, hi]
  dsimp only
  rw [hrun]

end Machine

/-! ### Processes -/

/-- **What a machine meets at one moment**: the files, and the result of its job should it wait for one. -/
structure Moment where
  files : FileTree
  result : Except NativeError NativeOutput

/-- **A machine under way**, what it has written, and why it failed if it did. -/
structure Process where
  machine : Machine
  output : String := ""
  error : Option RunError := none

namespace Process

variable (settings : Settings) (registry : Registry)

/-- What surrounds a machine at a moment. -/
def hostAt (now : Moment) : Host := { settings, registry, files := now.files }

/-- One moment: a machine that sleeps is woken, any other takes a step. -/
def next (p : Process) (now : Moment) : Process :=
  match p.machine.state with
  | .sleeping => { p with machine := { p.machine with pending := none }.deliver now.result }
  | _ =>
    let outcome := p.machine.step (hostAt settings registry now)
    { machine := outcome.machine
      output := p.output ++ outcome.written
      error := p.error <|> outcome.error }

/-- A process before its first moment. -/
def start (pid : Nat) (image : Image) : Process := { machine := Machine.start settings pid image }

/-- **A process after a sequence of moments.** -/
def run (pid : Nat) (image : Image) (moments : List Moment) : Process :=
  moments.foldl (next settings registry) (start settings pid image)

theorem run_append (pid : Nat) (image : Image) (moments : List Moment) (now : Moment) :
    run settings registry pid image (moments ++ [now]) =
      next settings registry (run settings registry pid image moments) now := by
  simp [run]

/-- **What holds at the start and is kept from moment to moment holds all along a run.** -/
theorem run_induction {pid : Nat} {image : Image} {motive : Process → Prop}
    (hstart : motive (start settings pid image))
    (hnext : ∀ p now, motive p → motive (next settings registry p now)) (moments : List Moment) :
    motive (run settings registry pid image moments) := by
  induction moments using List.reverseRecOn with
  | nil => exact hstart
  | append_singleton moments now ih =>
    rw [run_append]
    exact hnext _ now ih

end Process

end SchemeMachine
