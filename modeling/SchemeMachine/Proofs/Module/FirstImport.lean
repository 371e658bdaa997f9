import SchemeMachine.Proofs.Lowering.Compiled
import SchemeMachine.Proofs.Module.Scoping
import SchemeMachine.Proofs.Scheduler.Provenance
import SchemeMachine.Proofs.Syntax.Planting
import SchemeMachine.Proofs.Syntax.Printing

/-!
# The first import

A module that imports nothing is compiled as it is; with its first import it is written into a linked source and read
again. If nothing is lost on the way, the program stays the same even if all it imports is an empty module.

* `Module.discover_alone` and `Module.discover_pair` are what discovery finds for a module that imports nothing, and for
  one that imports a module that imports nothing.
* `Module.Lossless` are the conditions under which nothing is lost in writing a program.
* `Module.loadSource_withImport` is the result: the program with the import is loaded, and runs like the one without.
-/

namespace SchemeMachine

namespace Module

open Term Form

variable {sources : Sources} {path : Path} {source : String}

/-! ### Discovery -/

theorem visit_given {s : Survey} {tree : Tree} {found : List (String × Path)}
    (htree : Tree.parse source >>= Tree.analyse = .ok tree) (hfound : resolveImports sources path tree = .ok found) :
    visit sources s path (some source) =
      .ok (s.add { path, name := uniqueName s.names path, tree } found, found.map (·.2)) := by
  simp only [visit, pure_bind, htree, inModule]
  exact Except.bind_eq_ok.mpr ⟨tree, rfl, Except.bind_eq_ok.mpr ⟨found, hfound, rfl⟩⟩

theorem visit_read {s : Survey} {tree : Tree} {found : List (String × Path)} (hread : sources.read path = .ok source)
    (htree : Tree.parse source >>= Tree.analyse = .ok tree) (hfound : resolveImports sources path tree = .ok found) :
    visit sources s path none = .ok (s.add { path, name := uniqueName s.names path, tree } found, found.map (·.2)) := by
  rw [← visit_given htree hfound]
  simp only [visit, hread]
  rfl

theorem explore_nil (fuel : Nat) (s : Survey) : explore sources fuel s [] = .ok s := by
  cases fuel <;> rfl

/-- **A module that imports nothing** is found alone. -/
theorem discover_alone {tree : Tree} (htree : Tree.parse source >>= Tree.analyse = .ok tree)
    (hnone : tree.dependencies = {}) :
    discover sources path source = .ok #[{ path, name := baseName path, tree }] := by
  have hfound : resolveImports sources path tree = .ok [] := by rw [resolveImports, hnone]; rfl
  have hvisit := visit_given (s := {}) htree hfound
  have hexplore : explore sources (sources.limit + 1) {} [(path, some source)] =
      .ok (Survey.add {} { path, name := uniqueName {} path, tree } []) := by
    rw [explore]
    exact Except.bind_eq_ok.mpr ⟨_, hvisit, explore_nil _ _⟩
  exact Except.bind_eq_ok.mpr ⟨_, hexplore, rfl⟩

/-- **A module that imports one that imports nothing**: the two are found, and the first imports the second. -/
theorem discover_pair {tree tree' : Tree} {name wanted source' : String} {q : Path}
    (htree : Tree.parse source >>= Tree.analyse = .ok tree) (hone : tree.dependencies = ⟨[(name, wanted)]⟩)
    (hresolve : sources.resolve path wanted = some q) (hread : sources.read q = .ok source')
    (htree' : Tree.parse source' >>= Tree.analyse = .ok tree') (hnone : tree'.dependencies = {})
    (hother : q.canonicalText ≠ path.canonicalText) (hlimit : 0 < sources.limit) :
    discover sources path source = .ok #[{ path, name := baseName path, tree, imports := ⟨[(name, 1)]⟩ },
      { path := q, name := uniqueName (({} : Names).add (baseName path)) q, tree := tree' }] := by
  have hfound : resolveImports sources path tree = .ok [(name, q)] := by
    rw [resolveImports, hone]
    simp only [List.mapM_cons, List.mapM_nil, hresolve]
    rfl
  have hfound' : resolveImports sources q tree' = .ok [] := by rw [resolveImports, hnone]; rfl
  obtain ⟨fuel, hfuel⟩ := Nat.exists_eq_succ_of_ne_zero (Nat.ne_of_gt hlimit)
  -- the survey after the first module, and after both
  let s₁ := Survey.add {} { path, name := uniqueName {} path, tree } [(name, q)]
  let s₂ := s₁.add { path := q, name := uniqueName s₁.names q, tree := tree' } []
  have hnew : s₁.find? q = none := by
    rw [Survey.find?_add, if_neg hother]
    rfl
  have hsecond : explore sources sources.limit s₁ [(q, none)] = .ok s₂ := by
    rw [hfuel, explore, List.dropWhile_cons_of_neg (by simp [hnew])]
    exact Except.bind_eq_ok.mpr ⟨_, visit_read hread htree' hfound', explore_nil _ _⟩
  have hexplore : explore sources (sources.limit + 1) {} [(path, some source)] = .ok s₂ := by
    rw [explore]
    exact Except.bind_eq_ok.mpr ⟨_, visit_given htree hfound, hsecond⟩
  have hnumber : s₂.find? q = some 1 := by rw [Survey.find?_add, if_pos rfl]; rfl
  have hconnect : connect s₂ = #[{ path, name := baseName path, tree, imports := ⟨[(name, 1)]⟩ },
      { path := q, name := uniqueName (({} : Names).add (baseName path)) q, tree := tree' }] := by
    have himports : s₂.imports = [(0, name, q)] := rfl
    rw [connect, himports, List.foldl_cons, List.foldl_nil, enterImport, hnumber]
    rfl
  exact Except.bind_eq_ok.mpr ⟨s₂, hexplore, congrArg Except.ok hconnect⟩

/-- A module that imports the only other one comes after it. -/
theorem order_pair {m m' : Module} {name : String} (hm : m.imports = ⟨[(name, 1)]⟩) (hm' : m'.imports = {}) :
    order #[m, m'] = .ok [1, 0] := by
  have hvalues : m.imports.values = [1] ∧ m'.imports.values = [] := by rw [hm, hm']; exact ⟨rfl, rfl⟩
  have hsizes : m.imports.size = 1 ∧ m'.imports.size = 0 := by rw [hm, hm']; exact ⟨rfl, rfl⟩
  have hafter : dependentsOf #[m, m'] 1 = [0] := by
    simp [dependentsOf, show List.range 2 = [0, 1] from rfl, hvalues]
  have hnone : dependentsOf #[m, m'] 0 = [] := by
    simp [dependentsOf, show List.range 2 = [0, 1] from rfl, hvalues]
  have hsorted : orderFrom #[m, m'] 2 #[1, 0] [1] = [1, 0] := by simp [orderFrom, hafter, discharge]
  simp [order, show List.range 2 = [0, 1] from rfl, hsizes, hsorted]

/-! ### Loading -/

/-- **How a module is loaded** that needs no other: its own tree is compiled. -/
theorem loadSource_alone {tree : Tree} (htree : Tree.parse source >>= Tree.analyse = .ok tree)
    (hnone : tree.dependencies = {}) {loaded : LoadedModule} (h : loadSource sources path source = .ok loaded) :
    ∃ program, tree.compile = .ok program ∧ loaded.program = { program with sourceHash := sourceHash source } := by
  unfold loadSource at h
  obtain ⟨modules, hmodules, h⟩ := Except.bind_eq_ok.mp h
  cases (discover_alone htree hnone).symm.trans hmodules
  obtain ⟨sorted, -, h⟩ := Except.bind_eq_ok.mp h
  change (tree.compile >>= _) = _ at h
  obtain ⟨program, hprogram, h⟩ := Except.bind_eq_ok.mp h
  cases h
  exact ⟨program, hprogram, rfl⟩

/-- A module whose source is at fault is not loaded. -/
theorem exists_tree {loaded : LoadedModule} (h : loadSource sources path source = .ok loaded) :
    ∃ tree, Tree.parse source >>= Tree.analyse = .ok tree := by
  cases htree : Tree.parse source >>= Tree.analyse with
  | ok tree => exact ⟨tree, rfl⟩
  | error e =>
    obtain ⟨modules, hmodules, -⟩ := Except.bind_eq_ok.mp h
    obtain ⟨s, hexplore, -⟩ := Except.bind_eq_ok.mp hmodules
    rw [explore] at hexplore
    obtain ⟨_, hvisit, -⟩ := Except.bind_eq_ok.mp hexplore
    simp only [visit, pure_bind, htree, inModule] at hvisit
    cases hvisit

/-- **How a module is loaded** that needs others: the linked source is read and compiled. -/
theorem loadSource_linked {modules : Array Module} {root : Module} {sorted : List Nat} {natives : Names}
    (hmodules : discover sources path source = .ok modules) (hsorted : order modules = .ok sorted)
    (hroot : modules[0]? = some root) (hsize : modules.size ≠ 1)
    (hnatives : OrderedSet.ofMembers (modules.toList.flatMap fun m => m.tree.natives.keys) = natives) {tree : Tree}
    (htree : Tree.parse (link modules sorted natives) >>= Tree.analyse = .ok tree) {program : Program}
    (hprogram : tree.compile = .ok program) :
    ∃ loaded, loadSource sources path source = .ok loaded ∧
      loaded.program = { program with sourceHash := sourceHash (link modules sorted natives) } := by
  refine ⟨⟨root.name, path, root.tree.dependencies, natives, tree, { program with sourceHash := _ }⟩, ?_, rfl⟩
  refine Except.bind_eq_ok.mpr ⟨modules, hmodules, Except.bind_eq_ok.mpr ⟨sorted, by rw [hsorted]; rfl, ?_⟩⟩
  simp only [hroot, if_neg hsize, hnatives]
  exact Except.bind_eq_ok.mpr ⟨tree, htree, Except.bind_eq_ok.mpr ⟨_, rfl, Except.bind_eq_ok.mpr ⟨program, hprogram, rfl⟩⟩⟩

/-! ### What is not lost -/

/-- A name that is not written with the alias `E`. -/
def Unaliased (w : String) : Prop := ¬"E.".toList <+: w.toList

/-- The native libraries that a program declares. -/
def librariesOf (forms : List Form) : List String := (sketchAll forms).filterMap Term.declared

/-- **A program that is written into a linked source without loss.** -/
structure Lossless (forms : List Form) : Prop where
  /-- Its nodes come in the order of the text, as they do where a `let` or a `cond` has only atoms before them. -/
  plain : PlainAll forms
  /-- What is printed of it can be read, -/
  printable : PrintableAll .code forms
  /-- and is read as it was: there is no negative zero. -/
  echo : echoAll (sketchAll forms) = sketchAll forms
  /-- It declares its libraries before anything else, imports nothing, and has no bare atoms at its top level. -/
  declared : sketchAll forms = (librariesOf forms).map declaration ++ (sketchAll forms).filter keeps
  /-- The libraries are in order. -/
  sorted : (OrderedSet.ofMembers (librariesOf forms)).keys = librariesOf forms
  /-- Its names look neither like those that the analysis gives nor like those written with the alias. -/
  names : EachAll (fun _ w => (∀ N x, w ≠ Tree.scopedName N x) ∧ Unaliased w) Tree.top (sketchAll forms)

theorem imported_of_keeps {x : Term} (h : keeps x = true) : x.imported = none := by
  refine Option.eq_none_iff_forall_ne_some.mpr fun d hd => ?_
  obtain ⟨_, _, _, rfl⟩ := imported_eq_some.mp hd
  cases h

theorem keeps_blank (x : Term) : keeps x.blank = keeps x := by
  match x with
  | .atom a => cases a <;> rfl
  | .string .. | .lambda .. | .application _ _ [] => rfl
  | .application _ _ (.atom a :: _) => cases a <;> rfl
  | .application _ _ (.string .. :: _) | .application _ _ (.lambda .. :: _)
  | .application _ _ (.application .. :: _) => rfl

theorem blankAll_filter_keeps (xs : List Term) : blankAll (xs.filter keeps) = (blankAll xs).filter keeps := by
  rw [blankAll_eq, blankAll_eq, List.filter_map]
  exact congrArg _ (List.filter_congr fun x _ => (keeps_blank x).symm)

/-- What is written with the alias begins with it. -/
theorem spelledFree_of_unaliased {modules : Array Module} {m : Module} (hm : m.imports = ⟨[("E", 1)]⟩) {w : String}
    (hw : Unaliased w) : spelledFree modules m w = w := by
  have hnone : qualified? modules m w = none := by
    unfold qualified?
    split
    · rfl
    · next before after hsplit =>
      rw [hm]
      -- what stands before the point is not the alias
      have hbefore : String.ofList before ≠ "E" := by
        intro heq
        refine hw ?_
        unfold Text.splitAtChar at hsplit
        split at hsplit
        · cases hsplit
        · next sep rest hdrop =>
          cases hsplit
          have hsep : sep = '.' := by
            have hhead := List.head?_dropWhile_not (· != '.') w.toList
            rw [hdrop] at hhead
            simpa using hhead
          have hword := List.takeWhile_append_dropWhile (p := (· != '.')) (l := w.toList)
          have htake := congrArg String.toList heq
          rw [String.toList_ofList] at htake
          rw [hdrop, hsep, htake] at hword
          exact ⟨_, hword⟩
      rw [Table.find?]
      simp [Table.lookupEntry, hbefore]
  rw [spelledFree, hnone]

/-- The import of an empty module. -/
def importTerm : Term := .application 0 .code [.atom (.keyword "import"), .atom (.variable "E"), .string 0 "e.scm"]

theorem names_importTerm :
    importTerm.Each (fun _ w => (∀ N x, w ≠ Tree.scopedName N x) ∧ Unaliased w) Tree.top := by
  have hscoped : ∀ N x, "E" ≠ Tree.scopedName N x := by
    intro N x heq
    have hhead := congrArg (fun s => s.toList.head?) heq
    simp [Tree.scopedName, Handle.label] at hhead
  have hunaliased : Unaliased "E" := by
    unfold Unaliased
    decide
  refine ⟨?_, ?_, trivial, trivial⟩
  · intro w hw
    cases hw
  · intro w hw
    cases hw
    exact ⟨hscoped, hunaliased⟩

/-- The import as it is written. -/
def importText : String := "(import E \"e.scm\")"

theorem text_importTerm : importTerm.text false = importText := by decide

theorem echo_importTerm : importTerm.echo = importTerm := by
  have hpath : Text.reread "e.scm" = "e.scm" := by decide
  simp only [importTerm, Term.echo, reread, rereadAll, hpath, blank, blankAll]

theorem readable_importTerm : importTerm.Readable .code := by
  have hsymbol : Token.IsSymbol "E" := by decide
  exact ⟨rfl, ⟨by decide, by decide, by decide, by decide, by decide⟩, ⟨rfl, rfl⟩, ⟨rfl, hsymbol, rfl⟩, trivial, trivial⟩

theorem Lossless.filterMap_imported {forms : List Form} (h : Lossless forms) : (sketchAll forms).filterMap imported = [] := by
  rw [h.declared, List.filterMap_append, List.append_eq_nil_iff]
  constructor
  · rw [List.filterMap_map]
    exact List.filterMap_eq_nil_iff.mpr fun _ _ => rfl
  · exact List.filterMap_eq_nil_iff.mpr fun x hx => imported_of_keeps (List.mem_filter.mp hx).2

/-- An empty module can be read. -/
theorem exists_empty : ∃ tree : Tree, Tree.parse "" >>= Tree.analyse = .ok tree ∧
    (∀ m : Module, m.tree = tree → m.Of []) ∧ tree.dependencies = {} ∧ tree.natives = {} := by
  have hscan : Token.scan "" = .ok [⟨.endOfText, 0, 0, 1, 1⟩] := by decide +kernel
  have hparse : Tree.parse "" = .ok (Tree.ofForms []) := Tree.parse_eq_ok.mpr ⟨_, [], hscan, rfl, rfl⟩
  obtain ⟨tree, htree⟩ : ∃ tree, (Tree.ofForms []).analyse = .ok tree := ⟨_, rfl⟩
  have hlegal : Form.LegalAll .code [] := trivial
  obtain ⟨body, strays, hholds, hbecome, -⟩ := Tree.holds_ofForms hlegal
  obtain rfl := hbecome.trim trivial
  obtain rfl : body = [] := by
    have hbody := hbecome.sketch
    cases body with
    | nil => rfl
    | cons x body => cases hbody
  obtain ⟨hnatives, hdependencies⟩ := Tree.declarations_analyse hlegal htree
  exact ⟨tree, Except.bind_eq_ok.mpr ⟨_, hparse, htree⟩, fun m hm => ⟨_, _, [], hparse, hholds, rfl, hm ▸ htree⟩,
    hdependencies, hnatives⟩

/-- **What is found of a lossless program with an import in front of it.** -/
theorem Lossless.discover {forms : List Form} (h : Lossless forms) {tokens : List Token}
    (hscan : Token.scan source = .ok tokens) (hparse : Form.parse tokens = .ok forms) {tree : Tree}
    (htree : (Tree.ofForms forms).analyse = .ok tree) {q : Path} (hresolve : sources.resolve path "e.scm" = some q)
    (hread : sources.read q = .ok "") (hother : q.canonicalText ≠ path.canonicalText) (hlimit : 0 < sources.limit) :
    ∃ body m m', Module.discover sources path (importText ++ " " ++ source) = .ok #[m, m'] ∧ m.path = path ∧ m'.path = q ∧
      m.Of body ∧ m'.Of [] ∧ m.imports = ⟨[("E", 1)]⟩ ∧ m'.imports = {} ∧
      m.tree.natives = OrderedSet.ofMembers (librariesOf forms) ∧ m'.tree.natives = {} ∧
      blankAll body = importTerm :: sketchAll forms := by
  have hlegal := Form.legal_parse hparse
  -- the program with the import is the program, with one term more
  obtain ⟨forms', hparse', hsketch, hplain, hlegal'⟩ := Tree.parse_in_front readable_importTerm hscan hparse
  rw [text_importTerm] at hparse'
  rw [echo_importTerm] at hsketch
  obtain ⟨body, strays, hholds, hbecome, hanalysed⟩ := Tree.holds_ofForms hlegal'
  obtain rfl := hbecome.trim (PlainAll.trimAll forms' (hplain h.plain))
  have hbody : blankAll body = importTerm :: sketchAll forms := hbecome.sketch.trans hsketch
  -- all that it defines are variables, as in the program itself
  have hdefinite : DefiniteAll (sketchAll forms) := by
    obtain ⟨body₀, strays₀, hholds₀, hbecome₀, hanalysed₀⟩ := Tree.holds_ofForms hlegal
    have hroots := (hholds₀.exists_analyse_iff hanalysed₀).mp ⟨tree, htree⟩
    rw [← hbecome₀.sketch, definiteAll_blankAll]
    exact hroots.1
  obtain ⟨tree', htree'⟩ : ∃ tree', (Tree.ofForms forms').analyse = .ok tree' := by
    refine (hholds.exists_analyse_iff hanalysed).mpr ⟨?_, trivial⟩
    refine (definiteAll_blankAll body).mp ?_
    rw [hbody]
    exact ⟨⟨fun _ hhead => by simp at hhead, trivial, trivial, trivial, trivial⟩, hdefinite⟩
  have hread' : Tree.parse (importText ++ " " ++ source) >>= Tree.analyse = .ok tree' :=
    Except.bind_eq_ok.mpr ⟨_, hparse', htree'⟩
  obtain ⟨hnatives, hdependencies⟩ := Tree.declarations_analyse hlegal' htree'
  obtain ⟨hnatives', hdependencies'⟩ := Tree.declarations_ofForms hlegal'
  rw [hsketch] at hnatives' hdependencies'
  have hone : tree'.dependencies = ⟨[("E", "e.scm")]⟩ := by
    have himport : importTerm.imported = some ("E", "e.scm") := rfl
    rw [hdependencies, hdependencies', List.filterMap_cons_some himport, h.filterMap_imported]
    rfl
  obtain ⟨tree₀, hempty, hof, hnone, hnative⟩ := exists_empty
  have hdiscover := discover_pair hread' hone hresolve hread hempty hnone hother hlimit
  refine ⟨body, _, _, hdiscover, rfl, rfl, ⟨_, _, [], hparse', hholds, rfl, htree'⟩, hof _ rfl, rfl, rfl, ?_, hnative, hbody⟩
  have hnative' : importTerm.declared = none := rfl
  rw [hnatives, hnatives', List.filterMap_cons_none hnative', librariesOf]

/-- The names of a lossless program with the import. -/
theorem Lossless.names_body {forms : List Form} (h : Lossless forms) {body : List Term}
    (hbody : blankAll body = importTerm :: sketchAll forms) :
    EachAll (fun _ w => (∀ N x, w ≠ Tree.scopedName N x) ∧ Unaliased w) Tree.top body := by
  rw [← eachAll_blankAll, hbody]
  exact ⟨names_importTerm, h.names⟩

theorem forall_pair {m m' : Module} {P : Nat → Module → Prop} (h : P 0 m) (h' : P 1 m') (i : Nat) (n : Module)
    (hn : #[m, m'][i]? = some n) : P i n := by
  match i, hn with
  | 0, hn =>
    cases hn
    exact h
  | 1, hn =>
    cases hn
    exact h'
  | i + 2, hn => cases hn

/-- **The linked source of a lossless program and an empty module** is read as the program itself. -/
theorem Lossless.parse_link {forms : List Form} (h : Lossless forms) (hreadable : ReadableAll .code (sketchAll forms))
    {m m' : Module} {body : List Term} (hbody : blankAll body = importTerm :: sketchAll forms) (hof : m.Of body)
    (hof' : m'.Of []) (hm : m.imports = ⟨[("E", 1)]⟩) (hplain : ∀ (i : Nat) (n : Module), #[m, m'][i]? = some n → PlainName n.name)
    (hline : '\n' ∉ m.path.text.toList) (hline' : '\n' ∉ m'.path.text.toList) {natives : Names}
    (hnatives : natives = OrderedSet.ofMembers (librariesOf forms)) :
    ∃ forms', Tree.parse (link #[m, m'] [1, 0] natives) = .ok (Tree.ofForms forms') ∧ sketchAll forms' = sketchAll forms ∧
      PlainAll forms' ∧ LegalAll .code forms' := by
  have hkeys : natives.keys = librariesOf forms := by rw [hnatives, h.sorted]
  -- without its import the program is what it was
  have hkept : blankAll (body.filter keeps) = (sketchAll forms).filter keeps := by
    rw [blankAll_filter_keeps, hbody, List.filter_cons_of_neg (by decide)]
  -- the names of the first module stay, as nothing is imported that they could mean
  have hterms : linkedTerms #[m, m'] 0 m body = body.filter keeps := by
    have hnames : EachAll (fun _ w => spelled #[m, m'] 0 m (definedAll body) w = w) Tree.top body := by
      refine EachAll.imp (fun _ w hw => ?_) body (h.names_body hbody)
      rw [spelled, spelledFree_of_unaliased hm hw.2]
      exact ite_self w
    rw [linkedTerms_eq, respellAll_self body hnames]
  rw [h.declared, readableAll_iff, List.forall_mem_append] at hreadable
  have hkeptReadable : ReadableAll .code (body.filter keeps) := by
    rw [← readableAll_blankAll, hkept, readableAll_iff]
    exact hreadable.2
  let bodies : Nat → List Term := fun i => if i = 0 then body else []
  have hlegible : Legible #[m, m'] natives bodies := by
    refine ⟨forall_pair hof hof', fun i _ => ?_, forall_pair hline hline', forall_pair ?_ trivial, fun library hlibrary => ?_⟩
    · cases i with
      | zero => exact EachAll.imp (fun _ w hw => hw.1) body (h.names_body hbody)
      | succ i => trivial
    · exact hterms ▸ hkeptReadable
    · rw [hkeys] at hlibrary
      exact hreadable.1 _ (List.mem_map_of_mem hlibrary)
  -- so that the declarations and the program itself are left
  have hall : natives.keys.map declaration ++ [1, 0].flatMap (linkedModule #[m, m'] bodies) =
      (librariesOf forms).map declaration ++ body.filter keeps := by
    rw [hkeys, ← hterms]
    exact congrArg _ (List.append_nil _)
  have hreads := reads_link hlegible hplain [1, 0]
  rw [hall] at hreads
  have hreadable' : ReadableAll .code ((librariesOf forms).map declaration ++ body.filter keeps) :=
    readableAll_iff.mpr (List.forall_mem_append.mpr ⟨hreadable.1, readableAll_iff.mp hkeptReadable⟩)
  obtain ⟨forms', hparse, hforms, hplain', hlegal⟩ := Tree.parse_spelled_forms hreadable' hreads
  refine ⟨forms', hparse, ?_, hplain', hlegal⟩
  rw [hforms, echoAll_append, ← echoAll_blankAll (body.filter keeps), hkept, ← echoAll_append, ← h.declared, h.echo]

/-- **A program that gains its first import stays the same.** If nothing is lost in writing the program, it is loaded with
the import of an empty module in front of it as it is without, and a run of it writes the same texts and ends with the
same reports. -/
theorem loadSource_withImport {tokens : List Token} {forms : List Form} {loaded : LoadedModule} {q : Path}
    (hscan : Token.scan source = .ok tokens) (hparse : Form.parse tokens = .ok forms) (hlossless : Lossless forms)
    (hloaded : loadSource sources path source = .ok loaded) (hresolve : sources.resolve path "e.scm" = some q)
    (hread : sources.read q = .ok "") (hother : q.canonicalText ≠ path.canonicalText) (hlimit : 0 < sources.limit)
    (hline : '\n' ∉ path.text.toList) (hline' : '\n' ∉ q.text.toList) (host : Host) :
    ∃ loaded', loadSource sources path (importText ++ " " ++ source) = .ok loaded' ∧
      ∃ s s', ({ host } : Scheduler).spawn loaded.program = .ok (1, s) ∧
        ({ host } : Scheduler).spawn loaded'.program = .ok (1, s') ∧
        ∀ n, (Scheduler.runFor n s').output = (Scheduler.runFor n s).output ∧
          (Scheduler.runFor n s').reports = (Scheduler.runFor n s).reports := by
  have hlegal := Form.legal_parse hparse
  have hreadable := readable_sketchAll forms .code hlegal (Form.spelt_parse hscan hparse) hlossless.printable
  -- the program by itself
  obtain ⟨tree, htree⟩ := exists_tree hloaded
  obtain ⟨t, ht, hanalyse⟩ := Except.bind_eq_ok.mp htree
  cases (Tree.parse_eq_ok.mpr ⟨tokens, forms, hscan, hparse, rfl⟩).symm.trans ht
  have hnone : tree.dependencies = {} := by
    rw [(Tree.declarations_analyse hlegal hanalyse).2, (Tree.declarations_ofForms hlegal).2, hlossless.filterMap_imported]
    rfl
  obtain ⟨program, hprogram, heq⟩ := loadSource_alone htree hnone hloaded
  -- the program with the import
  obtain ⟨body, m, m', hmodules, rfl, rfl, hof, hof', himports, himports', hnatives, hnatives', hbody⟩ :=
    hlossless.discover hscan hparse hanalyse hresolve hread hother hlimit
  have hset : OrderedSet.ofMembers (#[m, m'].toList.flatMap fun n => n.tree.natives.keys) =
      OrderedSet.ofMembers (librariesOf forms) := by
    simp only [List.flatMap_cons, List.flatMap_nil, hnatives, hnatives', hlossless.sorted]
    exact congrArg _ (List.append_nil _)
  obtain ⟨forms', hparse', hsketch, hplain, hlegal'⟩ := hlossless.parse_link hreadable hbody hof hof' himports
    (discovered hmodules).plain hline hline' rfl
  have hspans := Tree.ofForms_eq hlossless.plain hplain hlegal hlegal' hsketch
  have htree' := Tree.analyse_respan (Tree.ofForms forms').spans hanalyse
  rw [← hspans] at htree'
  obtain ⟨loaded', hloaded', heq'⟩ := loadSource_linked hmodules (order_pair himports himports') rfl (by simp) hset
    (Except.bind_eq_ok.mpr ⟨_, hparse', htree'⟩) (Tree.compile_respan _ hprogram)
  -- the two programs are the same but for the hash of their sources
  have hsame : loaded'.program = { loaded.program with sourceHash := loaded'.program.sourceHash } := by rw [heq', heq]
  obtain ⟨image, himage, -⟩ := (Program.Produced.loadedSource hloaded).exists_image
  have hspawn : ({ host } : Scheduler).spawn loaded.program = .ok (1, ({ host } : Scheduler).enrol image) :=
    Except.bind_eq_ok.mpr ⟨image, himage, rfl⟩
  obtain ⟨s', hspawn', hruns⟩ := Scheduler.runFor_sourceHash hspawn loaded'.program.sourceHash
  rw [← hsame] at hspawn'
  exact ⟨loaded', hloaded', _, s', hspawn, hspawn', hruns⟩

/-! ### A program that stays the same, and one that does not -/

/-- An empty module. -/
def emptyModule : Sources := Sources.inMemory [(Path.ofText "e.scm", "")]

/-- A program that declares a library and has a procedure. -/
def rootText : String := "(native Math) (define (f x) x) (display (f 0.5))"

/-- The words of the program. -/
def rootTokens : List Token :=
  [⟨.open, 0, 1, 1, 1⟩, ⟨.symbol "native", 1, 7, 1, 2⟩, ⟨.symbol "Math", 8, 12, 1, 9⟩, ⟨.close, 12, 13, 1, 13⟩,
    ⟨.open, 14, 15, 1, 15⟩, ⟨.symbol "define", 15, 21, 1, 16⟩, ⟨.open, 22, 23, 1, 23⟩, ⟨.symbol "f", 23, 24, 1, 24⟩,
    ⟨.symbol "x", 25, 26, 1, 26⟩, ⟨.close, 26, 27, 1, 27⟩, ⟨.symbol "x", 28, 29, 1, 29⟩, ⟨.close, 29, 30, 1, 30⟩,
    ⟨.open, 31, 32, 1, 32⟩, ⟨.symbol "display", 32, 39, 1, 33⟩, ⟨.open, 40, 41, 1, 41⟩, ⟨.symbol "f", 41, 42, 1, 42⟩,
    ⟨.number 0.5, 43, 46, 1, 44⟩, ⟨.close, 46, 47, 1, 47⟩, ⟨.close, 47, 48, 1, 48⟩, ⟨.endOfText, 48, 48, 1, 49⟩]

/-- The forms of the program. -/
def rootForms : List Form :=
  [.group .code ⟨0, 13, 1, 1⟩ [.atom (.keyword "native"), .atom (.variable "Math")],
    .procedure ⟨14, 15, 1, 15⟩ ⟨14, 30, 1, 15⟩ "f" ["x"] [.atom (.variable "x")],
    .group .code ⟨31, 48, 1, 32⟩ [.atom (.keyword "display"),
      .group .code ⟨40, 47, 1, 41⟩ [.atom (.variable "f"), .atom (.number 0.5)]]]

theorem lossless_root : Lossless rootForms where
  plain := by simp [rootForms, PlainAll, Plain]
  printable := by
    have hfinite : Number.IsFinite 0.5 := by
      have hvalue : Binary.ofFloat 0.5 = .finite false 4503599627370496 (-53) := by decide
      exact ⟨_, _, _, hvalue⟩
    simp [rootForms, PrintableAll, Printable, HeadWritten, sketch, hfinite, isKeyword, keywords]
  echo := by
    have hnumber : Number.reread 0.5 = 0.5 := by decide +kernel
    simp [rootForms, sketchAll, sketch, echoAll, rereadAll, reread, blankAll, blank, hnumber]
  declared := rfl
  sorted := by decide
  names := by
    have hne : ∀ {w : String}, w.toList.head? ≠ some '&' → ∀ N x, w ≠ Tree.scopedName N x := by
      rintro w hw N x rfl
      exact hw (by simp [Tree.scopedName, Handle.label])
    have hall : EachAll (fun _ w => w.toList.head? ≠ some '&' ∧ Unaliased w) Tree.top (sketchAll rootForms) := by
      simp [rootForms, sketchAll, sketch, EachAll, Each, Unaliased, distinct]
    exact EachAll.imp (fun _ w hw => ⟨hne hw.1, hw.2⟩) _ hall

/-- The program with the procedure, with and without the import. -/
theorem loadSource_withImport_procedure :
    ∃ loaded loaded', loadSource emptyModule (Path.ofText "main.scm") rootText = .ok loaded ∧
      loadSource emptyModule (Path.ofText "main.scm") (importText ++ " " ++ rootText) = .ok loaded' ∧
      ∃ s s', ({ host := {} } : Scheduler).spawn loaded.program = .ok (1, s) ∧
        ({ host := {} } : Scheduler).spawn loaded'.program = .ok (1, s') ∧
        ∀ n, (Scheduler.runFor n s').output = (Scheduler.runFor n s).output ∧
          (Scheduler.runFor n s').reports = (Scheduler.runFor n s).reports := by
  have hscan : Token.scan rootText = .ok rootTokens := by decide +kernel
  have hok : (loadSource emptyModule (Path.ofText "main.scm") rootText).toOption.isSome = true := by decide +kernel
  cases hloaded : loadSource emptyModule (Path.ofText "main.scm") rootText with
  | error e =>
    rw [hloaded] at hok
    cases hok
  | ok loaded =>
    have hresolve : emptyModule.resolve (Path.ofText "main.scm") "e.scm" = some (Path.ofText "e.scm") := by decide
    have hread : emptyModule.read (Path.ofText "e.scm") = .ok "" := by decide
    obtain ⟨loaded', hloaded', hruns⟩ := loadSource_withImport hscan rfl lossless_root hloaded hresolve hread
      (by decide) (by decide) (by decide) (by decide) {}
    exact ⟨loaded, loaded', rfl, hloaded', hruns⟩

/-- What a loaded program writes in a short run. -/
def firstOutput (loaded : LoadedModule) : Option String :=
  (({ host := {} } : Scheduler).spawn loaded.program).toOption.map fun s => (Scheduler.runFor 10 s.2).output

/-- **A carriage return is lost.** A string with one is printed with an escape that is not read as one, so that the
program writes another text once it has an import. -/
theorem loadSource_withImport_return :
    (loadSource emptyModule (Path.ofText "main.scm") "(display \"a\rb\")").toOption.bind firstOutput =
        some "a\rb" ∧
      (loadSource emptyModule (Path.ofText "main.scm") (importText ++ " " ++ "(display \"a\rb\")")).toOption.bind
        firstOutput = some "a\\rb" := by
  decide +kernel

end Module

end SchemeMachine
