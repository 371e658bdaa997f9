import Mathlib.Data.List.TakeWhile
import SchemeMachine.Proofs.Module.Cycle
import SchemeMachine.Proofs.Module.Discovery
import SchemeMachine.Proofs.Path

/-!
# Discovery is complete

The modules that discovery finds are those that can be reached along imports, each path once however it is spelled. The
order of what it finds therefore fails if imports run in a circle, and only then.

* `Module.Reached` are the paths that imports lead to, `Module.Links` are the imports between them.
* `Module.Navigable` is what discovery relies on: modules load, the same path means the same module, and there are not too
  many of them.
* `Module.Charted` is the invariant of the loop; `Module.Charted.visit` keeps it for one module.
* `Module.Faithful` is the result for what is found, `Module.Navigable.orders` the one for its order.
-/

namespace SchemeMachine.Module

/-! ### What can be reached -/

section Graph

variable (sources : Sources) (root : Path) (source : String)

/-- The source of the module at a path; that of the root is given. -/
def sourceAt (p : Path) : Except CompileError String :=
  if p.same root then .ok source else (sources.read p).mapError .link

/-- The tree of the module at a path. -/
def treeAt (p : Path) : Except CompileError Tree := do
  let text ← sourceAt sources root source p
  Tree.parse text >>= Tree.analyse

/-- The module at a path imports what is at another. -/
def ImportsPath (p q : Path) : Prop :=
  ∃ tree, treeAt sources root source p = .ok tree ∧ ∃ d ∈ tree.dependencies.entries, sources.resolve p d.2 = some q

instance (p q : Path) : Decidable (ImportsPath sources root source p q) :=
  match htree : treeAt sources root source p with
  | .ok tree =>
    decidable_of_iff (∃ d ∈ tree.dependencies.entries, sources.resolve p d.2 = some q)
      ⟨fun h => ⟨tree, htree, h⟩, fun ⟨_, htree', h⟩ => Except.ok.inj (htree.symm.trans htree') ▸ h⟩
  | .error _ => isFalse fun ⟨_, htree', _⟩ => nomatch htree.symm.trans htree'

/-- **The paths that imports lead to** from the root. -/
def Reached (p : Path) : Prop := Relation.ReflTransGen (ImportsPath sources root source) root p

/-- **An import between modules**, which are told apart by what their paths mean. -/
def Links (k l : String) : Prop :=
  ∃ p q, Reached sources root source p ∧ ImportsPath sources root source p q ∧ p.canonicalText = k ∧ q.canonicalText = l

/-- **A module that loads**: it can be read and analysed, and all that it imports is found. -/
def Loads (p : Path) : Prop :=
  ∃ tree, treeAt sources root source p = .ok tree ∧ ∀ d ∈ tree.dependencies.entries, (sources.resolve p d.2).isSome = true

/-- **What discovery relies on.** -/
structure Navigable : Prop where
  loads : ∀ p, Reached sources root source p → Loads sources root source p
  /-- The same path, spelled differently, has the same content -/
  content : ∀ p q, Reached sources root source p → Reached sources root source q → p.same q = true →
    treeAt sources root source p = treeAt sources root source q
  /-- and the same neighbours. -/
  neighbours : ∀ p q, Reached sources root source p → Reached sources root source q → p.same q = true →
    ∀ wanted p', sources.resolve p wanted = some p' → ∃ q', sources.resolve q wanted = some q' ∧ p'.same q' = true
  bound : ∀ keys : List String, keys.Nodup → (∀ k ∈ keys, ∃ p, Reached sources root source p ∧ p.canonicalText = k) →
    keys.length ≤ sources.limit

/-- **The modules found are those that can be reached**, each once, the root first, and under names of their own. -/
structure Faithful (modules : Array Module) : Prop where
  first : (modules[0]?).map (·.path) = some root
  reached : ∀ (i : Nat) (m : Module), modules[i]? = some m → Reached sources root source m.path
  once : ∀ p, Reached sources root source p → ∃! i : Nat, ∃ m : Module, modules[i]? = some m ∧ m.path.same p = true
  named : ∀ (i j : Nat) (m m' : Module), modules[i]? = some m → modules[j]? = some m' → m.name = m'.name → i = j
  known : ∀ i j, Imports modules i j → j < modules.size
  links : ∀ (i j : Nat) (m m' : Module), modules[i]? = some m → modules[j]? = some m' →
    (Imports modules i j ↔ Links sources root source m.path.canonicalText m'.path.canonicalText)

end Graph

variable {sources : Sources} {root : Path} {source : String}

/-- A test of a list of paths: each module on it loads and imports only what is on the list. -/
def closedUnderImports (sources : Sources) (root : Path) (source : String) (paths : List Path) : Bool :=
  paths.all fun p =>
    match treeAt sources root source p with
    | .ok tree => tree.dependencies.entries.all fun d => (sources.resolve p d.2).any fun q => decide (q ∈ paths)
    | .error _ => false

theorem mem_of_reached {paths : List Path} (hroot : root ∈ paths)
    (hclosed : closedUnderImports sources root source paths = true) {p : Path} (h : Reached sources root source p) :
    p ∈ paths := by
  induction h with
  | refl => exact hroot
  | tail _ hstep ih =>
    obtain ⟨tree, htree, d, hd, hresolve⟩ := hstep
    have hp := List.all_eq_true.mp hclosed _ ih
    rw [htree] at hp
    have hq := List.all_eq_true.mp hp d hd
    rw [hresolve] at hq
    exact of_decide_eq_true hq

/-- **Everything that can be reached loads**, if a list with the root passes the test. -/
theorem loads_of_closed {paths : List Path} (hroot : root ∈ paths)
    (hclosed : closedUnderImports sources root source paths = true) {p : Path} (h : Reached sources root source p) :
    Loads sources root source p := by
  have hp := List.all_eq_true.mp hclosed p (mem_of_reached hroot hclosed h)
  split at hp
  · next tree htree =>
    refine ⟨tree, htree, fun d hd => ?_⟩
    have hq := List.all_eq_true.mp hp d hd
    cases hresolve : sources.resolve p d.2 with
    | none =>
      rw [hresolve] at hq
      cases hq
    | some q => rfl
  · cases hp

/-! ### Visiting -/

/-- What resolving one import gives: its alias, and the path that it resolves to. -/
theorem resolveImport_eq_ok {p : Path} {d : String × String} {f : String × Path} :
    (match sources.resolve p d.2 with
      | some path => Except.ok (d.1, path)
      | none => .error (CompileError.link (.notFound d.2 p.text))) = .ok f ↔
      f.1 = d.1 ∧ sources.resolve p d.2 = some f.2 := by
  cases sources.resolve p d.2 with
  | none => simp
  | some q =>
    simp only [Except.ok.injEq, Option.some.injEq, Prod.ext_iff]
    exact and_congr_left fun _ => eq_comm

/-- What resolving the imports of a module gives: a path for every alias. -/
theorem resolveImports_eq_ok {p : Path} {tree : Tree} {found : List (String × Path)} :
    resolveImports sources p tree = .ok found ↔
      List.Forall₂ (fun d f => f.1 = d.1 ∧ sources.resolve p d.2 = some f.2) tree.dependencies.entries found := by
  rw [resolveImports, Tree.mapM_eq_ok]
  exact ⟨fun h => h.imp fun _ _ => resolveImport_eq_ok.mp, fun h => h.imp fun _ _ => resolveImport_eq_ok.mpr⟩

theorem mem_of_resolveImports {p : Path} {tree : Tree} {found : List (String × Path)}
    (h : resolveImports sources p tree = .ok found) (name : String) (q : Path) :
    (name, q) ∈ found ↔ ∃ d ∈ tree.dependencies.entries, d.1 = name ∧ sources.resolve p d.2 = some q := by
  have hall := resolveImports_eq_ok.mp h
  clear h
  generalize tree.dependencies.entries = entries at hall
  induction hall with
  | nil => simp
  | @cons d f entries found hd _ ih =>
    obtain ⟨hname, hresolve⟩ := hd
    have hhead : (name, q) = f ↔ d.1 = name ∧ sources.resolve p d.2 = some q := by
      rw [hresolve, Option.some.injEq, Prod.ext_iff, hname]
      exact and_congr eq_comm eq_comm
    simp only [List.mem_cons, exists_eq_or_imp, ih, hhead]

theorem exists_resolveImports {p : Path} {tree : Tree}
    (h : ∀ d ∈ tree.dependencies.entries, (sources.resolve p d.2).isSome = true) :
    ∃ found, resolveImports sources p tree = .ok found := by
  refine ⟨tree.dependencies.entries.map fun d => (d.1, (sources.resolve p d.2).getD default),
    resolveImports_eq_ok.mpr (List.forall₂_map_right_iff.mpr (List.forall₂_same.mpr fun d hd => ⟨rfl, ?_⟩))⟩
  obtain ⟨q, hq⟩ := Option.isSome_iff_exists.mp (h d hd)
  rw [hq]
  rfl

/-! ### The loop -/

/-- **What is known on the way**: the modules found can be reached, their imports are entered as they resolve, and each of
these is known or waits on the stack. The root comes first; what comes later is read from the sources. -/
structure Charted (sources : Sources) (root : Path) (source : String) (s : Survey) (stack : List (Path × Option String)) :
    Prop where
  sound : s.Sound
  waiting : Waiting s stack
  modules : ∀ (i : Nat) (m : Module), s.modules[i]? = some m →
    Reached sources root source m.path ∧ treeAt sources root source m.path = .ok m.tree
  imports : ∀ (i : Nat) (name : String) (q : Path), (i, name, q) ∈ s.imports ↔
    ∃ m, s.modules[i]? = some m ∧ ∃ d ∈ m.tree.dependencies.entries, d.1 = name ∧ sources.resolve m.path d.2 = some q
  numbered : ∀ p i, s.find? p = some i → ∃ m, s.modules[i]? = some m ∧ m.path.same p = true
  known : ∀ e ∈ s.imports, (s.find? e.2.2).isSome = true ∨ ∃ x ∈ stack, x.1.canonicalText = e.2.2.canonicalText
  start : (s.modules.size = 0 ∧ stack = [(root, some source)]) ∨
    ((s.modules[0]?).map (·.path) = some root ∧ ∀ x ∈ stack, x.2 = none ∧ Reached sources root source x.1)

theorem charted_start : Charted sources root source {} [(root, some source)] where
  sound := Survey.sound_empty
  waiting := Or.inl ⟨rfl, le_rfl⟩
  modules := by simp
  imports := by simp
  numbered := nofun
  known := by simp
  start := Or.inl ⟨rfl, rfl⟩

/-- A module imports what its aliases stand for. -/
theorem imports_iff {modules : Array Module} {i j : Nat} {m : Module} (hm : modules[i]? = some m)
    (hsorted : m.imports.Sorted) : Imports modules i j ↔ ∃ name, m.imports.find? name = some j := by
  rw [Imports, importsOf, hm, Option.map_some, Option.getD_some, Table.values, List.mem_map]
  constructor
  · rintro ⟨e, he, rfl⟩
    exact ⟨e.1, hsorted.find?_eq_some.mpr he⟩
  · rintro ⟨name, hname⟩
    exact ⟨_, Table.mem_entries_of_find? hname, rfl⟩

/-- Modules with the same path have the same number. -/
theorem Survey.Sound.unique {s : Survey} (h : s.Sound) {i j : Nat} {m m' : Module} (hm : s.modules[i]? = some m)
    (hm' : s.modules[j]? = some m') (heq : m.path.canonicalText = m'.path.canonicalText) : i = j := by
  have hi := h.numbered i m hm
  have hj := h.numbered j m' hm'
  rw [Survey.find?, heq] at hi
  exact Option.some.inj (hi.symm.trans hj)

theorem Survey.imports_add (s : Survey) (m : Module) (imports : List (String × Path)) :
    (s.add m imports).imports = s.imports ++ imports.map fun i => (s.modules.size, i.1, i.2) := rfl

/-- What tells the members of an array apart does not repeat. -/
theorem nodup_map_of_unique {α β : Type} {xs : Array α} {f : α → β}
    (h : ∀ (i j : Nat) (a b : α), xs[i]? = some a → xs[j]? = some b → f a = f b → i = j) : (xs.toList.map f).Nodup := by
  refine List.nodup_iff_getElem?_ne_getElem?.mpr fun i j hij hj heq => ?_
  rw [List.length_map, Array.length_toList] at hj
  rw [List.getElem?_map, List.getElem?_map, Array.getElem?_toList, Array.getElem?_toList,
    Array.getElem?_eq_getElem hj, Array.getElem?_eq_getElem (hij.trans hj)] at heq
  have hsame := h i j _ _ (Array.getElem?_eq_getElem (hij.trans hj)) (Array.getElem?_eq_getElem hj) (Option.some.inj heq)
  omega

section Loop

variable {s : Survey} {stack rest : List (Path × Option String)}

/-- There are not more modules than paths. -/
theorem Charted.size_le (h : Charted sources root source s stack) (hnav : Navigable sources root source) :
    s.modules.size ≤ sources.limit := by
  have hnodup := nodup_map_of_unique fun i j m m' hm hm' (heq : m.path.canonicalText = m'.path.canonicalText) =>
    h.sound.unique hm hm' heq
  have hle := hnav.bound _ hnodup fun k hk => by
    obtain ⟨m, hm, rfl⟩ := List.mem_map.mp hk
    obtain ⟨i, hi⟩ := List.mem_iff_getElem?.mp hm
    exact ⟨m.path, (h.modules i m (by simpa using hi)).1, rfl⟩
  rwa [List.length_map, Array.length_toList] at hle

/-- What is known already need not be visited. -/
theorem Charted.dropKnown (h : Charted sources root source s stack) :
    Charted sources root source s (stack.dropWhile fun e => (s.find? e.1).isSome) := by
  have hsuffix := List.dropWhile_suffix (l := stack) fun e : Path × Option String => (s.find? e.1).isSome
  refine ⟨h.sound, ?_, h.modules, h.imports, h.numbered, fun e he => ?_, ?_⟩
  · exact h.waiting.imp (fun hsize => ⟨hsize.1, hsuffix.length_le.trans hsize.2⟩) fun hall x hx => hall x (hsuffix.subset hx)
  · rcases h.known e he with hfound | ⟨x, hx, hkey⟩
    · exact Or.inl hfound
    · rw [← List.takeWhile_append_dropWhile (p := fun e : Path × Option String => (s.find? e.1).isSome) (l := stack),
        List.mem_append] at hx
      rcases hx with hx | hx
      · have hfound := List.mem_takeWhile_imp hx
        rw [Survey.find?, hkey] at hfound
        exact Or.inl hfound
      · exact Or.inr ⟨x, hx, hkey⟩
  · rcases h.start with ⟨hsize, rfl⟩ | ⟨hroot, hstack⟩
    · refine Or.inl ⟨hsize, List.dropWhile_cons_of_neg fun hfound => ?_⟩
      obtain ⟨i, hi⟩ := Option.isSome_iff_exists.mp hfound
      exact absurd (h.sound.found _ _ hi) (by omega)
    · exact Or.inr ⟨hroot, fun x hx => hstack x (hsuffix.subset hx)⟩

/-- What is to be visited next can be reached, and has the source that it is visited with. -/
theorem Charted.head {p : Path} {given : Option String} (h : Charted sources root source s ((p, given) :: rest))
    (hnew : s.find? p = none) : Reached sources root source p ∧
      (given.map .ok).getD ((sources.read p).mapError CompileError.link) = sourceAt sources root source p := by
  rcases h.start with ⟨-, hstack⟩ | ⟨hroot, hstack⟩
  · obtain ⟨hfirst, -⟩ := List.cons.inj hstack
    obtain ⟨rfl, rfl⟩ := Prod.mk.inj hfirst
    exact ⟨.refl, by rw [sourceAt, if_pos (Path.same_refl _)]; rfl⟩
  · obtain ⟨rfl, hreached⟩ := hstack _ List.mem_cons_self
    refine ⟨hreached, ?_⟩
    -- the root is known
    have hother : ¬p.same root = true := by
      intro hsame
      obtain ⟨m, hm, rfl⟩ := Option.map_eq_some_iff.mp hroot
      have hfound := h.sound.numbered 0 m hm
      rw [Survey.find?, ← of_decide_eq_true hsame] at hfound
      rw [Survey.find?] at hnew
      rw [hnew] at hfound
      cases hfound
    rw [sourceAt, if_neg hother]
    rfl

/-- **A visit succeeds** where modules load. -/
theorem Charted.exists_visit (hnav : Navigable sources root source) {p : Path} {given : Option String}
    (h : Charted sources root source s ((p, given) :: rest)) (hnew : s.find? p = none) :
    ∃ s' next, Module.visit sources s p given = .ok (s', next) := by
  obtain ⟨hreached, htext⟩ := h.head hnew
  obtain ⟨tree, htree, hresolve⟩ := hnav.loads p hreached
  obtain ⟨text, hsource, hanalyse⟩ := Except.bind_eq_ok.mp htree
  obtain ⟨found, hfound⟩ := exists_resolveImports hresolve
  exact ⟨_, _, visit_eq_ok.mpr ⟨text, tree, found, htext.trans hsource, hanalyse, hfound, rfl, rfl⟩⟩

/-- **One module is visited.** -/
theorem Charted.visit {s' : Survey} {p : Path} {given : Option String} {next : List Path}
    (h : Charted sources root source s ((p, given) :: rest)) (hnew : s.find? p = none)
    (hvisit : Module.visit sources s p given = .ok (s', next)) :
    s'.modules.size = s.modules.size + 1 ∧
      Charted sources root source s' (next.reverse.map (fun q => (q, none)) ++ rest) := by
  -- what is on the stack has been reached, and is new
  obtain ⟨hreached, htext⟩ := h.head hnew
  obtain ⟨hsound, hwaiting, -⟩ := h.sound.visit h.waiting hnew hvisit
  obtain ⟨text, tree, found, hsource, hanalyse, hfound, rfl, rfl⟩ := visit_eq_ok.mp hvisit
  have htree : treeAt sources root source p = .ok tree :=
    Except.bind_eq_ok.mpr ⟨text, htext.symm.trans hsource, hanalyse⟩
  have hmem := mem_of_resolveImports hfound
  refine ⟨Array.size_push _, hsound, hwaiting, fun i m hm => ?_, fun i name q => ?_, fun q i hq => ?_, fun e he => ?_, ?_⟩
  · rw [Survey.getElem?_add] at hm
    split at hm
    · cases hm
      exact ⟨hreached, htree⟩
    · exact h.modules i m hm
  · -- the imports: those from before, and those of the new module
    rw [Survey.imports_add, List.mem_append, h.imports, Survey.getElem?_add]
    constructor
    · rintro (⟨m, hm, hrest⟩ | hmem')
      · have hi := (Array.getElem?_eq_some_iff.mp hm).1
        exact ⟨m, by rw [if_neg (Nat.ne_of_lt hi)]; exact hm, hrest⟩
      · obtain ⟨f, hf, heq⟩ := List.mem_map.mp hmem'
        obtain ⟨rfl, rfl, rfl⟩ : s.modules.size = i ∧ f.1 = name ∧ f.2 = q := by simpa [Prod.ext_iff] using heq
        exact ⟨_, if_pos rfl, (hmem f.1 f.2).mp hf⟩
    · rintro ⟨m, hm, hrest⟩
      split at hm
      · next hi =>
        cases hm
        exact Or.inr (List.mem_map.mpr ⟨(name, q), (hmem name q).mpr hrest, by rw [hi]⟩)
      · exact Or.inl ⟨m, hm, hrest⟩
  · rw [Survey.find?_add] at hq
    rw [Survey.getElem?_add]
    split at hq
    · next hkey =>
      cases hq
      exact ⟨_, if_pos rfl, decide_eq_true hkey.symm⟩
    · rw [if_neg (Nat.ne_of_lt (h.sound.found q i hq))]
      exact h.numbered q i hq
  · rw [Survey.imports_add, List.mem_append] at he
    rw [Survey.find?_add]
    rcases he with he | he
    · -- an import from before is found, or still on the stack, or is of the path that has now been visited
      rcases h.known e he with hfound' | ⟨x, hx, hkey⟩
      · exact Or.inl (by split; exacts [rfl, hfound'])
      · rcases List.mem_cons.mp hx with rfl | hx
        · exact Or.inl (by rw [if_pos hkey.symm]; rfl)
        · exact Or.inr ⟨x, List.mem_append_right _ hx, hkey⟩
    · obtain ⟨f, hf, rfl⟩ := List.mem_map.mp he
      have hnext : f.2 ∈ (found.map (·.2)).reverse := List.mem_reverse.mpr (List.mem_map.mpr ⟨f, hf, rfl⟩)
      exact Or.inr ⟨(f.2, none), List.mem_append_left _ (List.mem_map.mpr ⟨f.2, hnext, rfl⟩), rfl⟩
  · refine Or.inr ⟨?_, fun x hx => ?_⟩
    · rw [Survey.getElem?_add]
      -- the first module is the root, be it that of this visit or of an earlier one
      rcases h.start with ⟨hsize, hstack⟩ | ⟨hroot, -⟩
      · obtain ⟨hfirst, -⟩ := List.cons.inj hstack
        rw [if_pos hsize.symm, Option.map_some, (Prod.mk.inj hfirst).1]
      · obtain ⟨m, hm, -⟩ := Option.map_eq_some_iff.mp hroot
        rw [if_neg (Nat.ne_of_lt (Array.getElem?_eq_some_iff.mp hm).1)]
        exact hroot
    · rcases List.mem_append.mp hx with hx | hx
      · obtain ⟨q, hq, rfl⟩ := List.mem_map.mp hx
        obtain ⟨f, hf, rfl⟩ := List.mem_map.mp (List.mem_reverse.mp hq)
        obtain ⟨d, hd, -, hq⟩ := (hmem f.1 f.2).mp hf
        exact ⟨rfl, hreached.tail ⟨tree, htree, d, hd, hq⟩⟩
      · rcases h.start with ⟨-, hstack⟩ | ⟨-, hstack⟩
        · rw [(List.cons.inj hstack).2] at hx
          cases hx
        · exact hstack x (List.mem_cons_of_mem _ hx)

/-- One round of the loop: nothing is left to be visited, or the next module is. -/
theorem Charted.round {fuel : Nat} (h : Charted sources root source s stack) :
    (Module.explore sources (fuel + 1) s stack = .ok s ∧ Charted sources root source s []) ∨
      ∃ p given rest, s.find? p = none ∧ Charted sources root source s ((p, given) :: rest) ∧
        Module.explore sources (fuel + 1) s stack = (do
          let (s', next) ← Module.visit sources s p given
          Module.explore sources fuel s' (next.reverse.map (fun q => (q, none)) ++ rest)) := by
  have hdrop := h.dropKnown
  rw [Module.explore]
  cases hcase : stack.dropWhile fun e => (s.find? e.1).isSome with
  | nil => exact Or.inl ⟨rfl, hcase ▸ hdrop⟩
  | cons x rest =>
    obtain ⟨p, given⟩ := x
    have hnew : s.find? p = none := by
      have hhead := List.head_dropWhile_not (fun e : Path × Option String => (s.find? e.1).isSome)
        (by rw [hcase]; exact List.cons_ne_nil _ _)
      simp only [hcase, List.head_cons] at hhead
      simpa using hhead
    exact Or.inr ⟨p, given, rest, hnew, hcase ▸ hdrop, rfl⟩

/-- **What the loop gives** can be reached. -/
theorem Charted.explore {fuel : Nat} {s' : Survey} (h : Charted sources root source s stack)
    (hexplore : Module.explore sources fuel s stack = .ok s') : ∃ stack', Charted sources root source s' stack' := by
  induction fuel generalizing s stack with
  | zero =>
    cases hexplore
    exact ⟨stack, h⟩
  | succ fuel ih =>
    rcases h.round with ⟨hdone, hcharted⟩ | ⟨p, given, rest, hnew, hcharted, hround⟩
    · rw [hdone] at hexplore
      cases hexplore
      exact ⟨[], hcharted⟩
    · rw [hround] at hexplore
      obtain ⟨⟨s₁, next⟩, hvisit, hexplore⟩ := Except.bind_eq_ok.mp hexplore
      exact ih (hcharted.visit hnew hvisit).2 hexplore

/-- **The loop ends with everything known.** Each visit finds another module, and there are not more of them than the
loop may visit. -/
theorem Charted.exists_explore (hnav : Navigable sources root source) {fuel : Nat}
    (h : Charted sources root source s stack) (hfuel : fuel + s.modules.size = sources.limit + 1) :
    ∃ s', Module.explore sources fuel s stack = .ok s' ∧ Charted sources root source s' [] := by
  induction fuel generalizing s stack with
  | zero =>
    have hle := h.size_le hnav
    omega
  | succ fuel ih =>
    rcases h.round with ⟨hdone, hcharted⟩ | ⟨p, given, rest, hnew, hcharted, hround⟩
    · exact ⟨s, hdone, hcharted⟩
    · obtain ⟨s₁, next, hvisit⟩ := hcharted.exists_visit hnav hnew
      obtain ⟨hsize, hcharted₁⟩ := hcharted.visit hnew hvisit
      obtain ⟨s', hexplore, hlast⟩ := ih hcharted₁ (by omega)
      exact ⟨s', hround.trans (Except.bind_eq_ok.mpr ⟨_, hvisit, hexplore⟩), hlast⟩

/-- Every path that can be reached is known in the end. -/
theorem Charted.complete (hnav : Navigable sources root source) (h : Charted sources root source s []) {p : Path}
    (hp : Reached sources root source p) : ∃ (i : Nat) (m : Module), s.modules[i]? = some m ∧ m.path.same p = true := by
  induction hp with
  | refl =>
    rcases h.start with ⟨-, hstack⟩ | ⟨hroot, -⟩
    · cases hstack
    · obtain ⟨m, hm, hpath⟩ := Option.map_eq_some_iff.mp hroot
      exact ⟨0, m, hm, hpath ▸ Path.same_refl _⟩
  | @tail p q hp hstep ih =>
    obtain ⟨i, m, hm, hsame⟩ := ih
    obtain ⟨tree, htree, d, hd, hresolve⟩ := hstep
    obtain ⟨hreached, hown⟩ := h.modules i m hm
    -- the module at the path as it was found imports the same
    rw [← hnav.content _ _ hreached hp hsame, hown] at htree
    cases htree
    obtain ⟨q', hq', hsame'⟩ := hnav.neighbours _ _ hp hreached (Path.same_symm hsame) d.2 q hresolve
    have himport := (h.imports i d.1 q').mpr ⟨m, hm, d, hd, rfl, hq'⟩
    obtain ⟨j, hj⟩ := Option.isSome_iff_exists.mp ((h.known _ himport).resolve_right (by simp))
    obtain ⟨m', hm', hfound⟩ := h.numbered q' j hj
    exact ⟨j, m', hm', Path.same_trans hfound (Path.same_symm hsame')⟩

/-- The imports that are entered are those between the paths. -/
theorem Charted.links_iff (hnav : Navigable sources root source) (h : Charted sources root source s []) {i j : Nat}
    {m m' : Module} (hm : s.modules[i]? = some m) (hm' : s.modules[j]? = some m') :
    Imports (connect s) i j ↔ Links sources root source m.path.canonicalText m'.path.canonicalText := by
  obtain ⟨-, hall⟩ := h.sound.connect
  obtain ⟨entered, hentered, hin⟩ := hall i m hm
  obtain ⟨hreached, hown⟩ := h.modules i m hm
  rw [imports_iff hentered hin.sorted]
  constructor
  · rintro ⟨name, hname⟩
    obtain ⟨⟨i', name', q⟩, he, rfl, rfl, hj⟩ := (hin.imports name j).mp hname
    obtain ⟨m₀, hm₀, d, hd, -, hresolve⟩ := (h.imports i' name' q).mp he
    rw [hm] at hm₀
    cases hm₀
    obtain ⟨m₁, hm₁, hsame⟩ := h.numbered q j hj
    rw [hm'] at hm₁
    cases hm₁
    exact ⟨m.path, q, hreached, ⟨m.tree, hown, d, hd, hresolve⟩, rfl, (of_decide_eq_true hsame).symm⟩
  · rintro ⟨p, q, hp, ⟨tree, htree, d, hd, hresolve⟩, hkey, hkey'⟩
    have hsame : p.same m.path = true := decide_eq_true hkey
    rw [hnav.content p m.path hp hreached hsame, hown] at htree
    cases htree
    obtain ⟨q', hq', hsame'⟩ := hnav.neighbours p m.path hp hreached hsame d.2 q hresolve
    refine ⟨d.1, (hin.imports d.1 j).mpr ⟨(i, d.1, q'), (h.imports i d.1 q').mpr ⟨m, hm, d, hd, rfl, hq'⟩, rfl, rfl, ?_⟩⟩
    have hnumber := h.sound.numbered j m' hm'
    rw [Survey.find?, ← hkey', of_decide_eq_true hsame'] at hnumber
    exact hnumber

end Loop

/-- What discovery finds can be reached, and each path is found once. -/
theorem reached_of_discover {modules : Array Module} (h : discover sources root source = .ok modules) :
    (∀ (i : Nat) (m : Module), modules[i]? = some m → Reached sources root source m.path) ∧
      ∀ (i j : Nat) (m m' : Module), modules[i]? = some m → modules[j]? = some m' → m.path.same m'.path = true → i = j := by
  obtain ⟨s, hexplore, h⟩ := Except.bind_eq_ok.mp h
  cases h
  obtain ⟨stack, h⟩ := charted_start.explore hexplore
  refine ⟨fun i m hm => ?_, fun i j m m' hm hm' hsame => ?_⟩
  · obtain ⟨m₀, hm₀, hentered⟩ := h.sound.connect.back hm
    exact hentered.path ▸ (h.modules i m₀ hm₀).1
  · obtain ⟨m₀, hm₀, hentered⟩ := h.sound.connect.back hm
    obtain ⟨m₁, hm₁, hentered'⟩ := h.sound.connect.back hm'
    rw [hentered.path, hentered'.path] at hsame
    exact h.sound.unique hm₀ hm₁ (of_decide_eq_true hsame)

/-- **Discovery finds what can be reached.** -/
theorem Navigable.discover (hnav : Navigable sources root source) :
    ∃ modules, Module.discover sources root source = .ok modules ∧ Faithful sources root source modules := by
  -- the survey is complete, and connecting its modules changes neither their paths nor their number
  obtain ⟨s, hexplore, h⟩ := charted_start.exists_explore hnav (Nat.add_zero _)
  obtain ⟨-, hall⟩ := h.sound.connect
  have hdiscover : Module.discover sources root source = .ok (connect s) := Except.bind_eq_ok.mpr ⟨s, hexplore, rfl⟩
  have hback := fun (i : Nat) (m : Module) (hm : (connect s)[i]? = some m) => h.sound.connect.back hm
  refine ⟨connect s, hdiscover, ?_, fun i m hm => ?_, fun p hp => ?_, (discovered hdiscover).distinct, fun i j hij => ?_,
    fun i j m m' hm hm' => ?_⟩
  · rcases h.start with ⟨-, hstack⟩ | ⟨hroot, -⟩
    · cases hstack
    · obtain ⟨m₀, hm₀, hpath⟩ := Option.map_eq_some_iff.mp hroot
      obtain ⟨m, hm, hentered⟩ := hall 0 m₀ hm₀
      rw [hm, Option.map_some, hentered.path, hpath]
  · obtain ⟨m₀, hm₀, hentered⟩ := hback i m hm
    exact hentered.path ▸ (h.modules i m₀ hm₀).1
  · obtain ⟨i, m₀, hm₀, hsame⟩ := h.complete hnav hp
    obtain ⟨m, hm, hentered⟩ := hall i m₀ hm₀
    refine ⟨i, ⟨m, hm, hentered.path ▸ hsame⟩, ?_⟩
    rintro j ⟨m', hm', hsame'⟩
    obtain ⟨m₁, hm₁, hentered'⟩ := hback j m' hm'
    -- two modules of one file are the same entry of the survey
    refine h.sound.unique hm₁ hm₀ ?_
    rw [← hentered'.path, of_decide_eq_true hsame', of_decide_eq_true hsame]
  · cases hm : (connect s)[i]? with
    | none =>
      rw [Imports, importsOf, hm] at hij
      cases hij
    | some m =>
      obtain ⟨m₀, -, hentered⟩ := hback i m hm
      obtain ⟨name, hname⟩ := (imports_iff hm hentered.sorted).mp hij
      exact (discovered hdiscover).known i m hm name j hname
  · obtain ⟨m₀, hm₀, hentered⟩ := hback i m hm
    obtain ⟨m₁, hm₁, hentered'⟩ := hback j m' hm'
    rw [hentered.path, hentered'.path]
    exact h.links_iff hnav hm₀ hm₁

/-! ### The order of what is found -/

section Transfer

variable {α β : Type} {r : α → α → Prop} {r' : β → β → Prop} {R : α → β → Prop} {a b : α} {x : β}

/-- A relation that follows every step follows all of them. -/
theorem exists_reflTransGen (hstep : ∀ a x b, R a x → r a b → ∃ y, R b y ∧ r' x y) (hax : R a x)
    (h : Relation.ReflTransGen r a b) : ∃ y, R b y ∧ Relation.ReflTransGen r' x y := by
  induction h with
  | refl => exact ⟨x, hax, .refl⟩
  | tail _ hlast ih =>
    obtain ⟨y, hy, hreach⟩ := ih
    obtain ⟨z, hz, hlast'⟩ := hstep _ _ _ hy hlast
    exact ⟨z, hz, hreach.tail hlast'⟩

/-- Circles carry over along a relation that follows every step. -/
theorem LeadsToCycle.transfer (hstep : ∀ a x b, R a x → r a b → ∃ y, R b y ∧ r' x y)
    (hunique : ∀ a x y, R a x → R a y → x = y) (hax : R a x) (h : LeadsToCycle r a) : LeadsToCycle r' x := by
  obtain ⟨b, hreach, hcycle⟩ := h
  obtain ⟨y, hy, hreach'⟩ := exists_reflTransGen hstep hax hreach
  obtain ⟨c, hfirst, hrest⟩ := Relation.TransGen.head'_iff.mp hcycle
  obtain ⟨z, hz, hfirst'⟩ := hstep _ _ _ hy hfirst
  obtain ⟨w, hw, hrest'⟩ := exists_reflTransGen hstep hz hrest
  obtain rfl := hunique b w y hw hy
  exact ⟨w, hreach', .head' hfirst' hrest'⟩

end Transfer

section Order

variable {modules : Array Module}

/-- **Circles of modules are circles of paths.** -/
theorem Faithful.leadsToCycle_iff (h : Faithful sources root source modules) {i : Nat} {m : Module}
    (hm : modules[i]? = some m) :
    LeadsToCycle (Imports modules) i ↔ LeadsToCycle (Links sources root source) m.path.canonicalText := by
  let At (i : Nat) (k : String) : Prop := ∃ m, modules[i]? = some m ∧ m.path.canonicalText = k
  have hat : At i m.path.canonicalText := ⟨m, hm, rfl⟩
  constructor
  · refine LeadsToCycle.transfer (R := At) ?_ ?_ hat
    · rintro i k j ⟨m, hm, rfl⟩ hij
      have hm' := Array.getElem?_eq_getElem (h.known i j hij)
      exact ⟨_, ⟨_, hm', rfl⟩, (h.links i j m _ hm hm').mp hij⟩
    · rintro i k l ⟨m, hm, rfl⟩ ⟨m', hm', rfl⟩
      rw [hm] at hm'
      cases hm'
      rfl
  · refine LeadsToCycle.transfer (R := fun k i => At i k) ?_ ?_ hat
    · rintro k i l ⟨m, hm, rfl⟩ hlink
      obtain ⟨p, q, hp, hpq, -, rfl⟩ := id hlink
      obtain ⟨j, ⟨m', hm', hsame⟩, -⟩ := h.once q (hp.tail hpq)
      have hkey := of_decide_eq_true hsame
      exact ⟨j, ⟨m', hm', hkey⟩, (h.links i j m m' hm hm').mpr (hkey ▸ hlink)⟩
    · rintro k i j ⟨m, hm, hk⟩ ⟨m', hm', hk'⟩
      obtain ⟨k, -, hunique⟩ := h.once m.path (h.reached i m hm)
      have hi := hunique i ⟨m, hm, Path.same_refl _⟩
      have hj := hunique j ⟨m', hm', decide_eq_true (hk'.trans hk.symm)⟩
      exact hi.trans hj.symm

/-- A circle of paths is met from some module. -/
theorem Faithful.exists_cycle_iff (h : Faithful sources root source modules) :
    (∃ k, Relation.TransGen (Links sources root source) k k) ↔
      ∃ i, i < modules.size ∧ LeadsToCycle (Imports modules) i := by
  constructor
  · rintro ⟨k, hcycle⟩
    obtain ⟨l, hlink, -⟩ := Relation.TransGen.head'_iff.mp hcycle
    obtain ⟨p, q, hp, -, rfl, -⟩ := hlink
    obtain ⟨i, ⟨m, hm, hsame⟩, -⟩ := h.once p hp
    refine ⟨i, (Array.getElem?_eq_some_iff.mp hm).1, (h.leadsToCycle_iff hm).mpr ⟨_, .refl, ?_⟩⟩
    rw [of_decide_eq_true hsame]
    exact hcycle
  · rintro ⟨i, hi, hcycle⟩
    obtain ⟨k, -, hround⟩ := (h.leadsToCycle_iff (Array.getElem?_eq_getElem hi)).mp hcycle
    exact ⟨k, hround⟩

/-- **The order of modules**: it fails if imports run in a circle, and names the modules from which that circle is met;
else it has every module after all that it imports. No counter goes below zero. -/
structure Ordered (sources : Sources) (root : Path) (source : String) (modules : Array Module) : Prop where
  circular : (∃ names, order modules = .error (.circular names)) ↔
    ∃ k, Relation.TransGen (Links sources root source) k k
  named : ∀ names, order modules = .error (.circular names) → names.Pairwise (· ≤ ·) ∧ names.Nodup ∧
    ∀ name, name ∈ names ↔ ∃ (i : Nat) (m : Module), modules[i]? = some m ∧ m.name = name ∧
      LeadsToCycle (Links sources root source) m.path.canonicalText
  acyclic : (¬∃ k, Relation.TransGen (Links sources root source) k k) →
    ∃ sorted, order modules = .ok sorted ∧ sorted.Perm (List.range modules.size) ∧
      ∀ (i j : Nat) (m m' : Module), modules[i]? = some m → modules[j]? = some m' →
        Links sources root source m.path.canonicalText m'.path.canonicalText → sorted.idxOf j < sorted.idxOf i
  counters : orderFrom? modules modules.size (modules.map fun m => m.imports.size)
    ((List.range modules.size).filter fun i => (modules.map fun m => m.imports.size).getD i 0 = 0) = some (taking modules)

theorem Faithful.ordered (h : Faithful sources root source modules) : Ordered sources root source modules := by
  have hknown : ∀ i, i < modules.size → ∀ j ∈ importsOf modules i, j < modules.size := fun i _ j => h.known i j
  -- there is an order unless some module leads to a cycle
  have hcyclic := order_of_cyclic hknown h.named
  have hacyclic := order_of_acyclic hknown
  refine ⟨⟨?_, ?_⟩, fun names hnames => ?_, fun hno => ?_, (progress_start modules).orderFrom?_eq modules.size⟩
  · rintro ⟨names, hnames⟩
    by_contra hno
    rw [h.exists_cycle_iff] at hno
    rw [hacyclic fun i hi hcycle => hno ⟨i, hi, hcycle⟩] at hnames
    cases hnames
  · intro hcycle
    obtain ⟨names, hnames, -⟩ := hcyclic (h.exists_cycle_iff.mp hcycle)
    exact ⟨names, hnames⟩
  · have hcycle : ∃ i, i < modules.size ∧ LeadsToCycle (Imports modules) i := by
      by_contra hno
      rw [hacyclic fun i hi hcycle => hno ⟨i, hi, hcycle⟩] at hnames
      cases hnames
    obtain ⟨names', hnames', hsorted, hnodup, hmem⟩ := hcyclic hcycle
    rw [hnames] at hnames'
    cases hnames'
    refine ⟨hsorted, hnodup, fun name => (hmem name).trans ?_⟩
    constructor
    · rintro ⟨i, m, hm, hname, hmeets⟩
      exact ⟨i, m, hm, hname, (h.leadsToCycle_iff hm).mp hmeets⟩
    · rintro ⟨i, m, hm, hname, hmeets⟩
      exact ⟨i, m, hm, hname, (h.leadsToCycle_iff hm).mpr hmeets⟩
  · rw [h.exists_cycle_iff] at hno
    have hsorted := hacyclic fun i hi hcycle => hno ⟨i, hi, hcycle⟩
    refine ⟨_, hsorted, order_perm hsorted, fun i j m m' hm hm' hlink => ?_⟩
    exact order_idxOf_lt hsorted (Array.getElem?_eq_some_iff.mp hm).1 ((h.links i j m m' hm hm').mpr hlink)

end Order

end SchemeMachine.Module
