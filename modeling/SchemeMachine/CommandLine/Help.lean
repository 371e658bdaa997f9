import SchemeMachine.CommandLine.Arguments

/-!
# Help

The help texts: what a command does, how it is called, and a table for each kind of argument.

* `CommandLine.Topic.text` is the help on a topic.
-/

namespace SchemeMachine.CommandLine

/-- Two columns, the second one aligned. -/
def columns (rows : List (String × String)) : String :=
  let width := rows.foldl (fun w r => max w r.1.length) 0
  String.join (rows.map fun r =>
    "  " ++ r.1 ++ String.ofList (List.replicate (width - r.1.length) ' ') ++ "  " ++ r.2 ++ "\n")

/-- A help text of what the command does, how it is called, and titled tables. -/
def page (about usage : String) (tables : List (String × List (String × String))) : String :=
  about ++ "\n\nUsage: aurora " ++ usage ++ "\n"
    ++ String.join (tables.map fun t => "\n" ++ t.1 ++ ":\n" ++ columns t.2)

/-- The row on the switch that every command has. -/
def verboseRow : String × String :=
  ("-v, --verbose", "Log compiler and runtime activity (overrides AURORA_LOG)")

/-- The row on the switch that calls for help. -/
def helpRow : String × String := ("-h, --help", "Print help")

/-- The table of the one operand that the commands on files have. -/
def fileTable : String × List (String × String) := ("Arguments", [("<FILE>", "")])

/-- **The help on a topic.** -/
def Topic.text : Topic → String
  | .overview => page "Aurora Scheme compiler and process VM" "[OPTIONS] <COMMAND>" [
      ("Commands", [
        ("run", "Compile and run a source file"),
        ("compile", "Compile a source file to an AIL listing"),
        ("ast", "Print the analysed syntax tree as source"),
        ("help", "Print this message or the help of the given subcommand(s)")]),
      ("Options", [verboseRow, helpRow, ("-V, --version", "Print version")])]
  | .run => page "Compile and run a source file" "run [OPTIONS] <FILE>" [
      fileTable,
      ("Options", [
        ("    --max-steps <MAX_STEPS>", "Fail any process after this many instructions"),
        verboseRow,
        ("    --trace", "Log every executed instruction"),
        helpRow])]
  | .compile => page "Compile a source file to an AIL listing" "compile [OPTIONS] <FILE>" [
      fileTable,
      ("Options", [
        ("    --json", "Emit the program as JSON instead of text"),
        verboseRow,
        ("-o, --output <OUTPUT>", "Output path (default: stdout)"),
        helpRow])]
  | .ast => page "Print the analysed syntax tree as source" "ast [OPTIONS] <FILE>" [
      fileTable,
      ("Options", [
        ("    --renamed", "Show variables under their scope-qualified names"),
        verboseRow,
        helpRow])]
  | .help => page "Print this message or the help of the given subcommand(s)" "help [COMMAND]..." [
      ("Arguments", [("[COMMAND]...", "Print help for the subcommand(s)")])]

end SchemeMachine.CommandLine
