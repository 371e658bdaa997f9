import SchemeMachine.Machine
import SchemeMachine.Toml.Reader

/-!
# Project configuration

A file in the working directory, or in the nearest directory above it that has one, may set what a run
is allowed and where modules are looked for.

* `Config.read?` reads the text of such a file, `Config.load` the file.
* `Config.nearest` looks for the file.
* `Config.settings` are the settings that a configuration asks for.
-/

namespace SchemeMachine

/-- **What a configuration file sets.** What it does not mention has the value given here. -/
structure Config where
  maxSteps : Option Nat := none
  /-- From how many objects on garbage is collected; zero means never. -/
  gcThreshold : Option Nat := some 50000
  traceInstructions : Bool := false
  searchPath : List Path := []
deriving Repr, DecidableEq, Inhabited

/-- Why there is no configuration. -/
inductive ConfigError where
  | unreadable (path : Path) (cause : FileError)
  | malformed (path : Path)
deriving Repr, DecidableEq

/-- The message for a reader. -/
def ConfigError.message : ConfigError → String
  | .unreadable path cause => "cannot read '" ++ path.text ++ "': " ++ cause.message
  | .malformed path => "invalid toml in '" ++ path.text ++ "'"

namespace Config

/-- The name of configuration files. -/
def fileName : String := "aurora.toml"

/-- A field, or its default if it is not there. A field of another kind is a fault. -/
def fieldOr {α : Type} (default : α) (kind : Toml → Option α) : Option Toml → Option α
  | none => some default
  | some value => kind value

/-- What the section on runs sets. -/
def withRuntime (config : Config) (given : Toml) : Option Config := do
  match ← given.fields? ["max_steps", "gc_threshold", "trace_instructions"] with
  | [maxSteps, gcThreshold, traceInstructions] =>
    return { config with
      maxSteps := ← fieldOr config.maxSteps (fun v => v.natural?.map some) maxSteps
      gcThreshold := ← fieldOr config.gcThreshold (fun v => v.natural?.map some) gcThreshold
      traceInstructions := ← fieldOr config.traceInstructions Toml.boolean? traceInstructions }
  | _ => none

/-- A list of paths. -/
def pathsOf? (value : Toml) : Option (List Path) := do
  (← value.items?).mapM fun item => item.string?.map Path.ofText

/-- What the section on modules sets. -/
def withModules (config : Config) (given : Toml) : Option Config := do
  match ← given.fields? ["search_path"] with
  | [searchPath] => return { config with searchPath := ← fieldOr config.searchPath pathsOf? searchPath }
  | _ => none

/-- What a document sets. -/
def ofToml? (document : Toml) : Option Config := do
  match ← document.fields? ["runtime", "modules"] with
  | [runtime, modules] =>
    let config ← fieldOr {} (withRuntime {}) runtime
    fieldOr config config.withModules modules
  | _ => none

/-- **Read the text of a configuration file.** -/
def read? (text : String) : Option Config := do ofToml? (← Toml.read? text)

/-- **Read a configuration file.** Its search path is seen from the directory that it lies in. -/
def load (files : FileTree) (path : Path) : Except ConfigError Config := do
  let text ← (files.readText path).mapError (.unreadable path)
  match read? text with
  | none => throw (.malformed path)
  | some config =>
    match path.parent? with
    | some base => return { config with searchPath := config.searchPath.map base.join }
    | none => return config

/-- The configuration files of a directory, given by its place, and of those above it, lowest first. -/
def candidates (place : List String) : List Path :=
  (List.range (place.length + 1)).map fun up =>
    ⟨true, place.take (place.length - up) ++ [fileName]⟩

/-- **The nearest configuration**; without any file, all is as given by default. -/
def nearest (files : FileTree) : Except ConfigError Config :=
  match (candidates files.workingDirectory).find? files.isFile with
  | some path => load files path
  | none => .ok {}

/-- **The settings that a configuration asks for.** -/
def settings (c : Config) : Settings where
  maxSteps := c.maxSteps
  gcThreshold := c.gcThreshold.filter (0 < ·)
  traceInstructions := c.traceInstructions
  searchPath := c.searchPath

end Config

end SchemeMachine
