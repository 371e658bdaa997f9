import SchemeMachine.Compilation
import SchemeMachine.FileTree
import SchemeMachine.Text.Alphanumeric

/-!
# Modules

`(import Alias "path")` makes the top-level definitions of another module visible as `Alias.name`. Loading
a module finds all modules that it needs, orders them so that each comes after what it imports, and
links them into one program: the top-level names of an imported module get its name in front, and what
is written with an alias is respelled to match.

* `Sources` is where modules are found, in memory or among files.
* `Module.discover` finds the modules, `Module.order` orders them, `Module.link` writes them as one source.
* `Module.load` does all of it.
-/

namespace SchemeMachine

/-- **Where modules come from.** -/
structure Sources where
  /-- The path of what a module, given by its path, imports. -/
  resolve : Path → String → Option Path
  /-- The source of the module at a path. -/
  read : Path → Except LinkError String
  /-- A bound on the number of different paths that importing can lead to. -/
  limit : Nat

namespace Sources

/-- The content kept under a path; of several the last one given. -/
def contentOf? (files : List (Path × String)) (p : Path) : Option String :=
  (files.reverse.find? fun f => f.1.same p).map (·.2)

/-- Modules kept in memory. An import is looked for next to the importing module, then under its own
path. -/
def inMemory (files : List (Path × String)) : Sources where
  resolve origin wanted :=
    [origin.sibling wanted, Path.ofText wanted].find? fun p => (contentOf? files p).isSome
  read p :=
    match contentOf? files p with
    | some content => .ok content
    | none => .error (.unreadable p.text "no such file")
  limit := files.length + 1

/-- Modules among files. An import is looked for next to the importing module, then below each search
root, each time as written and then with the extension of modules. Paths are limited in length, so
there are not more than `256 ^ 4096` of them. -/
def onDisk (tree : FileTree) (roots : List Path) : Sources where
  resolve origin wanted :=
    let places := origin.sibling wanted :: roots.map fun root => root.join (Path.ofText wanted)
    (places.flatMap fun p => [p, p.withExtension "scm"]).find? tree.isFile
  read p := (tree.readText p).mapError fun e => .unreadable p.text e.message
  limit := Nat.pow 256 4096

end Sources

/-- One module that has been found: its path, the name it goes by, its analysed tree, and the numbers
of the modules that it imports. -/
structure Module where
  path : Path
  name : String
  tree : Tree
  imports : Table String Nat := {}

/-- **A module ready to run.** -/
structure LoadedModule where
  name : String
  path : Path
  /-- What the module itself imports: path by alias, as written. -/
  dependencies : Table String String
  /-- The native libraries declared by any of the modules. -/
  natives : Names
  tree : Tree
  program : Program

namespace Module

/-! ### Names -/

/-- The name of a module before it is made unique: the stem of its file, with all but letters, digits,
`-` and `_` replaced. -/
def baseName (p : Path) : String :=
  let stem := p.fileStem?.getD ""
  let kept := stem.toList.map fun c =>
    if Text.isAlphanumeric c || c = '-' || c = '_' then c else '_'
  if kept.isEmpty then "module" else String.ofList kept

/-- The first of `base_n`, `base_(n+1)`, … that is not taken, `fuel` of them tried. -/
def freeName (taken : Names) (base : String) : (fuel n : Nat) → String
  | 0, n => base ++ s!"_{n}"
  | fuel + 1, n =>
    let name := base ++ s!"_{n}"
    if taken.contains name then freeName taken base fuel (n + 1) else name

/-- The name of a module, different from those taken. -/
def uniqueName (taken : Names) (p : Path) : String :=
  let base := baseName p
  if taken.contains base then freeName taken base (taken.size + 1) 2 else base

/-! ### Discovery -/

/-- What discovery knows so far: the modules found, first one first, the numbers of their paths and the
names they go by, and the imports to be entered once all modules are known. -/
structure Survey where
  modules : Array Module := #[]
  numbers : Table String Nat := {}
  names : Names := {}
  imports : List (Nat × String × Path) := []

/-- The number of the module at a path. -/
def Survey.find? (s : Survey) (p : Path) : Option Nat := s.numbers.find? p.canonicalText

/-- Add a module and what it imports. -/
def Survey.add (s : Survey) (m : Module) (imports : List (String × Path)) : Survey where
  modules := s.modules.push m
  numbers := s.numbers.insert m.path.canonicalText s.modules.size
  names := s.names.add m.name
  imports := s.imports ++ imports.map fun i => (s.modules.size, i.1, i.2)

/-- The paths of what a module imports, in the order of the aliases. -/
def resolveImports (sources : Sources) (p : Path) (tree : Tree) :
    Except CompileError (List (String × Path)) :=
  tree.dependencies.entries.mapM fun d =>
    match sources.resolve p d.2 with
    | some path => .ok (d.1, path)
    | none => .error (.link (.notFound d.2 p.text))

/-- A fault inside a module, reported under its name. -/
def inModule {α : Type} (name : String) : Except CompileError α → Except CompileError α
  | .ok a => .ok a
  | .error e => .error (.link (.inModule name e.message))

/-- Read and analyse the module at a path, and add it to what is known. -/
def visit (sources : Sources) (s : Survey) (p : Path) (given : Option String) :
    Except CompileError (Survey × List Path) := do
  let source ← match given with
    | some source => pure source
    | none => (sources.read p).mapError .link
  let name := uniqueName s.names p
  let tree ← inModule name (Tree.parse source >>= Tree.analyse)
  let found ← resolveImports sources p tree
  return (s.add { path := p, name, tree } found, found.map (·.2))

/-- Visit the modules on a stack, and those that they import before the others, `fuel` modules at
most. -/
def explore (sources : Sources) : (fuel : Nat) → Survey → List (Path × Option String) →
    Except CompileError Survey
  | 0, s, _ => .ok s
  | fuel + 1, s, stack =>
    match stack.dropWhile fun e => (s.find? e.1).isSome with
    | [] => .ok s
    | (p, given) :: rest => do
      let (s, found) ← visit sources s p given
      explore sources fuel s (found.reverse.map (fun q => (q, none)) ++ rest)

/-- Enter an import into the module that it belongs to. -/
def enterImport (s : Survey) (ms : Array Module) (i : Nat × String × Path) : Array Module :=
  match s.find? i.2.2 with
  | some target => ms.modify i.1 fun m => { m with imports := m.imports.insert i.2.1 target }
  | none => ms

/-- Enter the imports into the modules that they belong to. -/
def connect (s : Survey) : Array Module := s.imports.foldl (enterImport s) s.modules

/-- **All modules that a module needs**, itself first. -/
def discover (sources : Sources) (root : Path) (source : String) :
    Except CompileError (Array Module) := do
  let survey ← explore sources (sources.limit + 1) {} [(root, some source)]
  return connect survey

/-! ### Order -/

/-- The modules that import a given one, once for every alias. -/
def dependentsOf (modules : Array Module) (target : Nat) : List Nat :=
  (List.range modules.size).flatMap fun i =>
    match modules[i]? with
    | some m => (m.imports.values.filter (· = target)).map fun _ => i
    | none => []

/-- Count one import of a module as done; a module without open imports is ready. -/
def discharge (state : Array Nat × List Nat) (dependent : Nat) : Array Nat × List Nat :=
  let left := state.1.getD dependent 0 - 1
  (state.1.setIfInBounds dependent left, if left = 0 then state.2 ++ [dependent] else state.2)

/-- Take ready modules in turn, `fuel` of them at most. `left` counts the open imports of each module. -/
def orderFrom (modules : Array Module) : (fuel : Nat) → (left : Array Nat) → (ready : List Nat) → List Nat
  | 0, _, _ => []
  | _, _, [] => []
  | fuel + 1, left, id :: ready =>
    let (left, ready) := (dependentsOf modules id).foldl discharge (left, ready)
    id :: orderFrom modules fuel left ready

/-- **The order in which modules are linked**: each after all that it imports. What cannot be ordered waits
for a cycle. -/
def order (modules : Array Module) : Except LinkError (List Nat) :=
  let left := modules.map fun m => m.imports.size
  let ready := (List.range modules.size).filter fun i => left.getD i 0 = 0
  let sorted := orderFrom modules modules.size left ready
  if sorted.length < modules.size then
    let waiting := (List.range modules.size).filter fun i => !sorted.contains i
    let names := waiting.filterMap fun i => (modules[i]?).map (·.name)
    .error (.circular (names.mergeSort fun a b => decide (a ≤ b)))
  else .ok sorted

/-! ### Linking -/

/-- The name of a variable of a module in the linked program. A top-level name of an imported module gets
the module's name in front, a name written with an alias the name of the module behind it. -/
def linkedName (modules : Array Module) (isRoot : Bool) (m : Module) (name : String) : String :=
  match m.tree.renamings.find? name with
  | some info =>
    if info.owner = Tree.top ∧ !isRoot then m.name ++ "." ++ info.written else info.written
  | none =>
    match Text.splitAtChar '.' name.toList with
    | none => name
    | some (before, after) =>
      match (m.imports.find? (String.ofList before)).bind fun i => modules[i]? with
      | some target => target.name ++ "." ++ String.ofList after
      | none => name

/-- Whether a top-level node is a declaration, which the linked program has no need of. -/
def isDeclaration (t : Tree) (h : Handle) : Bool :=
  match t.get? h with
  | some (.application _ _ (head :: _)) => head.isKeyword "import" || head.isKeyword "native"
  | _ => false

/-- The source of one module in the linked program: its top-level nodes, one to a line. -/
def linkedSource (modules : Array Module) (id : Nat) (m : Module) : String :=
  let forms := (m.tree.bodyOf Tree.top).filterMap fun c =>
    match c with
    | .node h =>
      if isDeclaration m.tree h then none
      else some (m.tree.renderWith (linkedName modules (id = 0) m) h ++ "\n")
    | .atom _ => none
  "; module " ++ m.name ++ " (" ++ m.path.text ++ ")\n" ++ String.join forms

/-- **The linked source** of modules in order. -/
def link (modules : Array Module) (sorted : List Nat) (natives : Names) : String :=
  String.join (natives.keys.map fun library => "(native " ++ library ++ ")\n")
    ++ String.join (sorted.map fun id =>
      match modules[id]? with
      | some m => linkedSource modules id m
      | none => "")

/-! ### Loading -/

/-- **Load a module whose source is given.** A module that imports nothing is compiled as it is, any
other from the linked source. -/
def loadSource (sources : Sources) (path : Path) (source : String) :
    Except CompileError LoadedModule := do
  let modules ← discover sources path source
  let sorted ← (order modules).mapError .link
  let natives := OrderedSet.ofMembers (modules.toList.flatMap fun m => m.tree.natives.keys)
  match modules[0]? with
  | none => throw (.link (.unreadable path.text "no such file"))
  | some root =>
    let (tree, text) ←
      if modules.size = 1 then pure (root.tree, source)
      else do
        let text := link modules sorted natives
        pure (← Tree.parse text >>= Tree.analyse, text)
    let program ← tree.compile
    return {
      name := root.name
      path
      dependencies := root.tree.dependencies
      natives
      tree
      program := { program with sourceHash := sourceHash text } }

/-- **Load a module.** -/
def load (sources : Sources) (path : Path) : Except CompileError LoadedModule := do
  loadSource sources path (← (sources.read path).mapError .link)

end Module

end SchemeMachine
