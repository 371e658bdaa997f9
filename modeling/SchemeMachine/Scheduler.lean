import SchemeMachine.Machine.Step

/-!
# The scheduler

Machines take turns, one instruction each. A machine that waits for a native job leaves the queue until the
job is done; then it joins the queue at its end. When a machine is over, a report says how it ended.

* `Scheduler.spawn` adds a program.
* `Scheduler.tick` gives the first machine of the queue its turn.
* `Scheduler.run` goes on until no machine is left.

A job is started when its machine falls asleep. `Scheduler.finish` carries one out, and
`Scheduler.settle` all that have been started, in that order.
-/

namespace SchemeMachine

/-- How a machine ended. -/
structure Report where
  pid : Nat
  state : RunState
  steps : Nat
  peakDepth : Nat
  error : Option String
deriving Repr, DecidableEq, Inhabited

/-- **The scheduler**: the machines in the queue and those asleep, the jobs under way, the results not yet
delivered, and what has been written and reported. -/
structure Scheduler where
  host : Host
  queue : List Machine := []
  sleeping : Table Nat Machine := {}
  jobs : List (Nat × Job) := []
  results : List (Nat × Except NativeError NativeOutput) := []
  nextPid : Nat := 1
  output : String := ""
  reports : List Report := []

namespace Scheduler

/-- How many machines are not over. -/
def live (s : Scheduler) : Nat := s.queue.length + s.sleeping.size

/-- Add a machine for a program at the end of the queue. -/
def enrol (s : Scheduler) (image : Image) : Scheduler :=
  { s with
    queue := s.queue ++ [Machine.start s.host.settings s.nextPid image]
    nextPid := s.nextPid + 1 }

/-- **Add a program**; the answer is the number of its machine. -/
def spawn (s : Scheduler) (program : Program) : Except Fault (Nat × Scheduler) := do
  let image ← Image.ofProgram program
  return (s.nextPid, s.enrol image)

/-- Report how a machine ended. -/
def retire (s : Scheduler) (m : Machine) (error : Option RunError) : Scheduler :=
  let state := if error.isSome then .failed else m.state
  { s with reports := s.reports ++ [⟨m.pid, state, m.steps, m.peakDepth, error.map (·.message)⟩] }

/-- Take a machine that fell asleep out of the queue and start its job. -/
def park (s : Scheduler) (m : Machine) : Scheduler :=
  match m.pending with
  | none => s.retire m (some { fault := .invalidProgram "sleeping without a pending native call" })
  | some job =>
    { s with
      sleeping := s.sleeping.insert m.pid { m with pending := none }
      jobs := s.jobs ++ [(m.pid, job)] }

/-- Carry out a job that has been started. -/
def finish (s : Scheduler) (pid : Nat) (job : Job) : Scheduler :=
  let (result, files) := job.run s.host.files
  { s with
    host := { s.host with files }
    jobs := s.jobs.filter fun j => j.1 ≠ pid
    results := s.results ++ [(pid, result)] }

/-- Carry out all jobs that have been started. -/
def settle (s : Scheduler) : Scheduler := s.jobs.foldl (fun s j => s.finish j.1 j.2) s

/-- Deliver a result: its machine joins the queue. -/
def wake (s : Scheduler) (pid : Nat) (result : Except NativeError NativeOutput) : Scheduler :=
  match s.sleeping.find? pid with
  | none => s
  | some m => { s with sleeping := s.sleeping.erase pid, queue := s.queue ++ [m.deliver result] }

/-- Deliver all results. -/
def wakeAll (s : Scheduler) : Scheduler :=
  s.results.foldl (fun s r => s.wake r.1 r.2) { s with results := [] }

/-- Put a machine where it belongs after its turn. -/
def place (s : Scheduler) (m : Machine) (error : Option RunError) : Scheduler :=
  if error.isSome then s.retire m error
  else
    match m.state with
    | .running | .suspended => { s with queue := s.queue ++ [m] }
    | .sleeping => s.park m
    | .stopped | .failed => s.retire m none

/-- Give the first machine of the queue its turn. Programs that it forked join the queue after it. -/
def turn (s : Scheduler) : Scheduler :=
  match s.queue with
  | [] => s
  | m :: queue =>
    let outcome := m.step s.host
    let after := { outcome.machine with forked := [] }
    let s := { s with queue, output := s.output ++ outcome.written }
    outcome.machine.forked.foldl enrol (s.place after outcome.error)

/-- **Deliver the results of jobs, then give one machine its turn.** -/
def tick (s : Scheduler) : Scheduler := s.settle.wakeAll.turn

/-- Tick until no machine is left, `fuel` times at most. -/
def runFor : (fuel : Nat) → Scheduler → Scheduler
  | 0, s => s
  | fuel + 1, s => if s.live = 0 then s else runFor fuel s.tick

/-- Hand over the reports. -/
def takeReports (s : Scheduler) : List Report × Scheduler := (s.reports, { s with reports := [] })

end Scheduler

/-- The machines that failed. -/
def Report.failures (reports : List Report) : List Report :=
  reports.filter fun r => r.state = .failed

end SchemeMachine
