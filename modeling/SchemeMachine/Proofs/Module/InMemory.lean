import SchemeMachine.Proofs.Module.Reach

/-!
# Modules in memory

Modules that are kept in memory are found under their paths, however these are spelled. What can be reached from the root
is therefore found completely and ordered, whatever the imports look like.

* `Module.reached_proper`: all paths that imports lead to are paths of texts.
* `Module.navigable_inMemory` is what discovery relies on.
* `Module.discover_inMemory` is the result.
-/

namespace SchemeMachine.Module

variable {files : List (Path × String)} {root source : String} {p q : Path}

theorem contentOf?_same (h : p.same q = true) : Sources.contentOf? files p = Sources.contentOf? files q := by
  unfold Sources.contentOf? Path.same
  rw [of_decide_eq_true h]

/-- An import leads next to the module or to the path as it is written, where there is content. -/
theorem resolve_inMemory {wanted : String} (h : (Sources.inMemory files).resolve p wanted = some q) :
    (q = p.sibling wanted ∨ q = Path.ofText wanted) ∧ (Sources.contentOf? files q).isSome = true := by
  have hfind : [p.sibling wanted, Path.ofText wanted].find? (fun p => (Sources.contentOf? files p).isSome) = some q := h
  have hmem := List.mem_of_find?_eq_some hfind
  exact ⟨by simpa using hmem, List.find?_some (p := fun p => (Sources.contentOf? files p).isSome) hfind⟩

/-- **Every path that imports lead to is the path of a text.** -/
theorem reached_proper (h : Reached (.inMemory files) (.ofText root) source p) : p.Proper := by
  induction h with
  | refl => exact Path.proper_ofText root
  | tail _ hstep ih =>
    obtain ⟨-, -, d, -, hresolve⟩ := hstep
    rcases (resolve_inMemory hresolve).1 with rfl | rfl
    · exact ih.sibling d.2
    · exact Path.proper_ofText d.2

/-- The root is given, and for all else there is content. -/
theorem reached_content (h : Reached (.inMemory files) (.ofText root) source p) :
    p = .ofText root ∨ (Sources.contentOf? files p).isSome = true := by
  rcases h.cases_tail with rfl | ⟨_, -, hstep⟩
  · exact Or.inl rfl
  · obtain ⟨-, -, d, -, hresolve⟩ := hstep
    exact Or.inr (resolve_inMemory hresolve).2

/-- Modules in memory can be navigated, if they load. -/
theorem navigable_inMemory (hloads : ∀ p, Reached (.inMemory files) (.ofText root) source p →
    Loads (.inMemory files) (.ofText root) source p) : Navigable (.inMemory files) (.ofText root) source where
  loads := hloads
  content := by
    intro p q hp hq hsame
    -- paths that are the same are the root together, or are found together among the files
    have hroot : p.same (.ofText root) = q.same (.ofText root) := by
      rw [Path.same, Path.same, of_decide_eq_true hsame]
    have hsource : sourceAt (.inMemory files) (.ofText root) source p = sourceAt (.inMemory files) (.ofText root) source q := by
      unfold sourceAt
      rw [hroot]
      split
      · rfl
      · next hother =>
        obtain ⟨content, hcontent⟩ := Option.isSome_iff_exists.mp ((reached_content hq).resolve_left fun heq =>
          hother (heq ▸ Path.same_refl _))
        simp only [Sources.inMemory, contentOf?_same hsame, hcontent]
    rw [treeAt, treeAt, hsource]
  neighbours := by
    intro p q hp hq hsame wanted p' hresolve
    -- what is imported is looked for beside the importing file, and the same paths have the same siblings
    have hsibling := (reached_proper hp).same_sibling (reached_proper hq) hsame wanted
    have hcontent : Sources.contentOf? files (p.sibling wanted) = Sources.contentOf? files (q.sibling wanted) :=
      contentOf?_same hsibling
    simp only [Sources.inMemory, List.find?_cons, List.find?_nil, hcontent] at hresolve ⊢
    split at hresolve
    · cases hresolve
      exact ⟨_, rfl, hsibling⟩
    · exact ⟨p', hresolve, Path.same_refl _⟩
  bound := by
    intro keys hnodup hkeys
    -- every path but the root is that of a file
    have hsubset : keys ⊆ (Path.ofText root).canonicalText :: files.map (·.1.canonicalText) := by
      intro k hk
      obtain ⟨p, hp, rfl⟩ := hkeys k hk
      rcases reached_content hp with rfl | hcontent
      · exact List.mem_cons_self
      · obtain ⟨content, hcontent⟩ := Option.isSome_iff_exists.mp hcontent
        obtain ⟨f, hf, -⟩ := Option.map_eq_some_iff.mp hcontent
        have hsame := List.find?_some hf
        have hmem := List.mem_reverse.mp (List.mem_of_find?_eq_some hf)
        exact List.mem_cons_of_mem _ (List.mem_map.mpr ⟨f, hmem, of_decide_eq_true hsame⟩)
    have hle := (List.subperm_of_subset hnodup hsubset).length_le
    rwa [List.length_cons, List.length_map] at hle

/-- **Modules in memory are found and ordered.** If everything that can be reached loads, then what is found is what can be
reached, each path once, and its order fails if imports run in a circle and only then. -/
theorem discover_inMemory (files : List (Path × String)) (root source : String)
    (hloads : ∀ p, Reached (.inMemory files) (.ofText root) source p → Loads (.inMemory files) (.ofText root) source p) :
    ∃ modules, discover (.inMemory files) (.ofText root) source = .ok modules ∧
      Faithful (.inMemory files) (.ofText root) source modules ∧ Ordered (.inMemory files) (.ofText root) source modules := by
  obtain ⟨modules, hmodules, hfaithful⟩ := (navigable_inMemory hloads).discover
  exact ⟨modules, hmodules, hfaithful, hfaithful.ordered⟩

/-- Two modules that import each other. -/
def circle : List (Path × String) :=
  [(.ofText "lib/a.scm", "(import B \"b.scm\")"), (.ofText "lib//b.scm", "(import A \"./a.scm\")")]

theorem discover_inMemory_circle : ∃ modules,
    discover (.inMemory circle) (.ofText "m.scm") "(import A \"lib/a.scm\") (import B \"lib/./a.scm\")" = .ok modules ∧
      Faithful (.inMemory circle) (.ofText "m.scm") "(import A \"lib/a.scm\") (import B \"lib/./a.scm\")" modules ∧
      Ordered (.inMemory circle) (.ofText "m.scm") "(import A \"lib/a.scm\") (import B \"lib/./a.scm\")" modules := by
  have hclosed : closedUnderImports (.inMemory circle) (.ofText "m.scm")
      "(import A \"lib/a.scm\") (import B \"lib/./a.scm\")"
      [.ofText "m.scm", .ofText "lib/a.scm", .ofText "lib/./a.scm", .ofText "lib/b.scm"] = true := by decide +kernel
  exact discover_inMemory circle "m.scm" _ fun p hp => loads_of_closed List.mem_cons_self hclosed hp

end SchemeMachine.Module
