import SchemeMachine.CommandLine.Help
import SchemeMachine.Config
import SchemeMachine.Program.Json
import SchemeMachine.Scheduler

/-!
# The command line

What the commands do to a tree of files and what they write. Running a program may take any number of
turns, so a command is either finished or has come to a scheduler whose machines are still to run.

* `CommandLine.begin` carries out a command up to the point where a program runs.
* `CommandLine.conclude` is what is left to do once no machine is left.
* `CommandLine.runFor` puts both together, with a bound on the number of turns.
-/

namespace SchemeMachine.CommandLine

/-- **How a command ended**: its exit code, what it wrote, and the files after it. -/
structure Outcome where
  code : Nat
  stdout : String := ""
  stderr : String := ""
  files : FileTree

/-- How far a command has come. -/
inductive Progress where
  | finished (outcome : Outcome)
  /-- A program runs; `notices` is what went to the error output so far. -/
  | running (notices : String) (scheduler : Scheduler)

/-! ### Messages -/

/-- A text in colour. -/
def paint (colour text : String) : String := "\x1b[" ++ colour ++ "m" ++ text ++ "\x1b[0m"

/-- A text in red. -/
def red : String → String := paint "31"

/-- A text in yellow. -/
def yellow : String → String := paint "33"

/-- A text in gray. -/
def gray : String → String := paint "90"

/-- A line that says what is being done: the activity is flush right in twelve columns. -/
def statusLine (activity : String) (p : Path) : String :=
  paint "1;32" (String.ofList (List.replicate (12 - activity.length) ' ') ++ activity)
    ++ " " ++ p.text ++ "\n"

/-- A line on an error. -/
def errorLine (message : String) : String := red "error:" ++ " " ++ message ++ "\n"

/-- A command that failed. -/
def failure (files : FileTree) (notices : String) : Outcome := { code := 1, stderr := notices, files }

/-! ### The commands -/

/-- The nearest configuration. -/
def configOf (files : FileTree) : Except Outcome Config :=
  (Config.nearest files).mapError fun e => failure files (errorLine e.message)

/-- The program of a file and all that it imports. -/
def build (files : FileTree) (notices : String) (file : Path) (searchPath : List Path) :
    Except Outcome Program :=
  match Module.load (Sources.onDisk files searchPath) file with
  | .ok m => .ok m.program
  | .error e =>
    .error (failure files (notices ++ errorLine "compilation failed" ++ e.report file.text ++ "\n"))

/-- Compile a file and start to run it. -/
def beginRun (files : FileTree) (file : Path) (maxSteps : Option Nat) (trace : Bool) :
    Except Outcome Progress := do
  let settings := (← configOf files).settings
  let settings := { settings with
    maxSteps := maxSteps.or settings.maxSteps
    traceInstructions := settings.traceInstructions || trace }
  let notices := statusLine "Compiling" file
  let program ← build files notices file settings.searchPath
  let notices := notices ++ statusLine "Running" file
  match Scheduler.spawn { host := { settings, files } } program with
  | .ok (_, scheduler) => return .running notices scheduler
  | .error fault => throw (failure files (notices ++ errorLine fault.message))

/-- Compile a file and write its program. -/
def compileFile (files : FileTree) (file : Path) (json : Bool) (output : Option Path) :
    Except Outcome Outcome := do
  let config ← configOf files
  let program ← build files "" file config.searchPath
  let text := if json then program.toJson.pretty else program.listing
  match output with
  | none => return { code := 0, stdout := text, files }
  | some path =>
    match files.writeText path text with
    | .ok files => return { code := 0, stderr := statusLine "Wrote" path, files }
    | .error e =>
      throw (failure files (errorLine ("cannot write '" ++ path.text ++ "': " ++ e.message)))

/-- Write the analysed tree of a file. -/
def showTree (files : FileTree) (file : Path) (renamed : Bool) : Except Outcome Outcome := do
  let source ← (files.readText file).mapError fun e =>
    failure files (errorLine ("cannot read '" ++ file.text ++ "': " ++ e.message))
  let tree ← (Tree.parse source >>= Tree.analyse).mapError fun e =>
    failure files (errorLine (e.report file.text))
  let note :=
    if tree.dependencies.size = 0 then ""
    else yellow "note:" ++ " imports are shown unresolved\n"
  let text := tree.renderProgram (if renamed then id else tree.writtenName)
  return { code := 0, stdout := text ++ "\n", stderr := note, files }

/-- A command that is finished, whether it failed or not. -/
def finished (result : Except Outcome Outcome) : Progress :=
  match result with
  | .ok outcome => .finished outcome
  | .error outcome => .finished outcome

/-- **Carry out a request** as far as to the point where a program runs. -/
def begin (files : FileTree) : Request → Progress
  | .misuse => .finished { code := 2, stderr := Topic.overview.text, files }
  | .version => .finished { code := 0, stdout := "aurora 0.3.0\n", files }
  | .help topic => .finished { code := 0, stdout := topic.text, files }
  | .perform (.run file maxSteps trace) =>
    match beginRun files file maxSteps trace with
    | .ok progress => progress
    | .error outcome => .finished outcome
  | .perform (.compile file json output) => finished (compileFile files file json output)
  | .perform (.ast file renamed) => finished (showTree files file renamed)

/-- The line on a machine that failed. -/
def failureLine (r : Report) : String :=
  match r.state, r.error with
  | .failed, some error =>
    red "runtime error:" ++ " " ++ error ++ " ("
      ++ gray s!"process {r.pid}: {r.steps} steps, peak call depth {r.peakDepth}" ++ ")\n"
  | _, _ => ""

/-- **The end of a run**: the output goes to a line of its own, and machines that failed are reported. -/
def conclude (notices : String) (s : Scheduler) : Outcome where
  code := if (Report.failures s.reports).isEmpty then 0 else 1
  stdout := s.output ++ "\n"
  stderr := notices ++ String.join (s.reports.map failureLine)
  files := s.host.files

/-- **Carry out a command**, running its program for at most `fuel` turns. -/
def runFor (fuel : Nat) (files : FileTree) (args : List String) : Outcome :=
  match begin files (Request.ofArguments args) with
  | .finished outcome => outcome
  | .running notices scheduler => conclude notices (Scheduler.runFor fuel scheduler)

end SchemeMachine.CommandLine
