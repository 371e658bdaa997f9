import SchemeMachine.CommandLine

/-!
# The program

Takes the files that a command can see from the disk, carries the command out, and puts back what it
changed. What a program writes appears as it runs.
-/

namespace SchemeMachine.CommandLine

/-- The place that a rooted path leads to. -/
def placeOf (p : Path) : List String :=
  p.components.foldl (fun place piece => if piece = ".." then place.dropLast else place ++ [piece]) []

/-- Add the text files in a directory and below it. -/
partial def gather (t : FileTree) (place : List String) : IO FileTree := do
  try
    let top ← IO.currentDir
    let mut t := { t with entries := t.entries.insert place none }
    for entry in ← (top / Path.text ⟨true, place⟩).readDir do
      if ← entry.path.isDir then
        t ← gather t (place ++ [entry.fileName])
      else
        try
          let content ← IO.FS.readFile entry.path
          t := { t with entries := t.entries.insert (place ++ [entry.fileName]) (some content) }
        catch _ => pure ()
    return t
  catch _ => return t

/-- The configuration files that a command can see. -/
def gatherConfigs (t : FileTree) : IO FileTree :=
  (Config.candidates t.workingDirectory).foldlM (fun t p => do
    try
      let content ← IO.FS.readFile p.text
      return { t with entries := t.entries.insert p.components (some content) }
    catch _ => return t) t

/-- The file that a request is about. -/
def Request.file? : Request → Option Path
  | .perform (.run file ..) => some file
  | .perform (.compile file ..) => some file
  | .perform (.ast file _) => some file
  | _ => none

/-- The directories that a request about a file may look into: the working directory, that of the file,
and those on the search path. -/
def directories (t : FileTree) (request : Request) : List (List String) :=
  let here : Path := ⟨true, t.workingDirectory⟩
  let searchPath := match Config.nearest t with
    | .ok config => config.searchPath
    | .error _ => []
  match request.file? with
  | some file => (here :: (here.join file).parent?.toList ++ searchPath).map placeOf
  | none => []

/-- Put the files that differ back on the disk. -/
def putBack (before after : FileTree) : IO Unit :=
  after.entries.entries.forM fun e =>
    match e.2 with
    | some content =>
      if before.entries.find? e.1 = some (some content) then pure ()
      else IO.FS.writeFile (Path.text ⟨true, e.1⟩) content
    | none => pure ()

/-- Run all machines and show what they write as they write it. -/
partial def drive (s : Scheduler) : IO Scheduler := do
  let out ← IO.getStdout
  let s := Scheduler.runFor 1000 s
  out.putStr s.output
  out.flush
  let s := { s with output := "" }
  if s.live = 0 then return s else drive s

/-- Carry out a request on the disk. -/
def perform (request : Request) : IO UInt32 := do
  let cwd ← IO.currentDir
  let bare : FileTree := { workingDirectory := (Path.ofText cwd.toString).components }
  let configured ← gatherConfigs bare
  let files ← (directories configured request).foldlM gather configured
  let outcome ← match begin files request with
    | .finished outcome => pure outcome
    | .running notices scheduler =>
      IO.eprint notices
      pure (conclude "" (← drive scheduler))
  putBack files outcome.files
  IO.print outcome.stdout
  IO.eprint outcome.stderr
  return outcome.code.toUInt32

end SchemeMachine.CommandLine

/-- The command line. -/
def main (args : List String) : IO UInt32 :=
  SchemeMachine.CommandLine.perform (SchemeMachine.CommandLine.Request.ofArguments args)
