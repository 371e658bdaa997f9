import SchemeMachine.Machine
import SchemeMachine.Proofs.Lowering.Numbering

/-!
# Compiled programs

What is known of a program that was compiled, whether from one source text or from linked modules.

* `Program.Compiled` ties a program to the tree, the terms and the blocks it comes from.
* `Tree.Analysed.compiled_ofTree`, `Program.compiled_compile` and `Module.compiled_load` say where compiled programs
  come from.
* `Program.Produced` says that a program was compiled or loaded.
* `Program.Compiled.enclosing_eq_some`: the program knows of each lambda the lambda around it.
-/

namespace SchemeMachine

open Lowering

/-- **A program compiled from an analysed tree.** -/
structure Program.Compiled (t : Tree) (roots : List Term) (blocks : List Block) (p : Program) : Prop where
  analysed : t.Analysed roots
  lowered : ∃ stock, t.blocks = .ok (blocks, stock)
  code : p.code = (Program.codeOf blocks).toArray
  handles : blocks.map Block.handle = t.lambdas
  blocks : ∀ b ∈ blocks, ∃ body, LowersBlock t p.constants body b
  sorted : p.constants.Sorted
  lists : ∀ h items, p.constants.find? h = some (.list items) → ∀ j, .handle j ∈ items →
    h < j ∧ p.constants.contains j
  /-- Quoted data hold no labels. -/
  data : ∀ h items, p.constants.find? h = some (.list items) → ∀ name, .label name ∉ items
  /-- The holes of templates are no constants. -/
  holes : ∀ h parent children, t.get? h = some (.application parent .unquote children) → p.constants.find? h = none
  enclosing : p.enclosing = Table.ofList (t.scopes.entries.filterMap fun e =>
    e.2.parent.map fun q => (Handle.label e.1, Handle.label q))
  labels : ∃ labels, LabelTable.ofCode p.code = .ok labels

/-- An error of one kind in place of another leaves a result. -/
theorem Except.mapError_eq_ok {ε ε' α : Type} {f : ε → ε'} {x : Except ε α} {a : α} :
    x.mapError f = .ok a ↔ x = .ok a := by
  cases x <;> simp [Except.mapError]

variable {t : Tree} {roots : List Term} {blocks : List Block} {p : Program}

/-- Distinct labels can be entered into a table that has none of them. -/
theorem LabelTable.exists_enter {code : List Instruction} (hnodup : (labelsOf code).Nodup) (labels : LabelTable)
    (place : Nat) (hnew : ∀ name ∈ labelsOf code, labels.contains name = false) :
    ∃ labels', LabelTable.enter labels place code = .ok labels' := by
  induction code generalizing labels place with
  | nil => exact ⟨labels, rfl⟩
  | cons i code ih =>
    cases i with
    | comment text => exact ih hnodup labels _ hnew
    | op opcode operand => exact ih hnodup labels _ hnew
    | label name =>
      rw [Piece.labelsOf_label] at hnodup hnew
      obtain ⟨hnot, hnodup⟩ := List.nodup_cons.mp hnodup
      rw [LabelTable.enter, hnew name List.mem_cons_self]
      refine ih hnodup _ _ fun other hother => ?_
      rw [Bool.eq_false_iff]
      intro hcontains
      rcases (Table.contains_insert _ _ _ _).mp hcontains with rfl | hold
      · exact hnot hother
      · rw [hnew other (List.mem_cons_of_mem _ hother)] at hold
        cases hold

/-- **The program of an analysed tree is compiled**, and its labels are distinct. -/
theorem Tree.Analysed.compiled_ofTree (ha : t.Analysed roots) (h : Program.ofTree t = .ok p) :
    ∃ blocks, p.Compiled t roots blocks := by
  rw [Program.ofTree, if_pos ha.analysed] at h
  obtain ⟨⟨blocks, stock⟩, hblocks, h⟩ := Except.bind_eq_ok.mp h
  cases h
  have hempty : Stock.Sound t { nextConstant := t.size } :=
    ⟨Table.sorted_empty, Nat.le_refl _, fun h c hc => (nomatch hc), fun h items hc => (nomatch hc), fun _ _ _ _ => rfl⟩
  obtain ⟨hs, -, hR⟩ := yields_lambdaBlocks ha t.lambdas (fun h hh => Tree.mem_lambdas.mp hh) _ _ _ hempty hblocks
  obtain ⟨hhandles, hlowered⟩ := hR stock.constants (.refl _)
  have hnodup : (blocks.map Block.handle).Nodup := by
    rw [hhandles]
    exact List.nodup_range.filter _
  have hlabels := LabelTable.exists_enter (nodup_labels_codeOf hblocks hnodup) Table.empty 0 fun _ _ => rfl
  exact ⟨blocks, ha, ⟨stock, hblocks⟩, rfl, hhandles, hlowered, hs.sorted, hs.lists, hs.label_not_mem, hs.holes, rfl,
    hlabels⟩

theorem Tree.Analysed.compiled (ha : t.Analysed roots) (h : t.compile = .ok p) :
    ∃ blocks, p.Compiled t roots blocks := by
  obtain ⟨program, hprogram, h⟩ := Except.bind_eq_ok.mp h
  obtain ⟨labels, -, h⟩ := Except.bind_eq_ok.mp h
  cases h
  exact ha.compiled_ofTree (Except.mapError_eq_ok.mp hprogram)

/-- What identifies the source does not matter. -/
theorem Program.Compiled.withHash (hp : p.Compiled t roots blocks) (hash : String) :
    ({ p with sourceHash := hash } : Program).Compiled t roots blocks :=
  { hp with }

/-- A tree that was parsed and analysed. -/
theorem Tree.exists_analysed {source : String} (h : (Tree.parse source >>= Tree.analyse) = .ok t) :
    ∃ roots, t.Analysed roots := by
  obtain ⟨u, hu, h⟩ := Except.bind_eq_ok.mp h
  obtain ⟨roots, hroots, hfresh⟩ := Tree.holds_parse hu
  obtain ⟨v, -, -, -, ha⟩ := hroots.analyse hfresh h
  exact ⟨_, ha⟩

/-- **A source text is compiled to a compiled program.** -/
theorem Program.compiled_compile {source : String} (h : Program.compile source = .ok p) :
    ∃ t roots blocks, (Tree.parse source >>= Tree.analyse) = .ok t ∧ p.Compiled t roots blocks := by
  obtain ⟨u, hu, h⟩ := Except.bind_eq_ok.mp h
  obtain ⟨t, ht, h⟩ := Except.bind_eq_ok.mp h
  obtain ⟨program, hprogram, h⟩ := Except.bind_eq_ok.mp h
  cases h
  have hparsed : (Tree.parse source >>= Tree.analyse) = .ok t := Except.bind_eq_ok.mpr ⟨u, hu, ht⟩
  obtain ⟨roots, ha⟩ := Tree.exists_analysed hparsed
  obtain ⟨blocks, hp⟩ := ha.compiled hprogram
  exact ⟨t, roots, blocks, hparsed, hp.withHash _⟩

namespace Program.Compiled

/-- Every lambda of the tree has a block. -/
theorem exists_block (hp : p.Compiled t roots blocks) {N : Handle} {parent : Option Handle}
    {parameters : List String} {children : List Child} (hn : t.get? N = some (.lambda parent parameters children)) :
    ∃ b ∈ blocks, b.handle = N := by
  have hmem : N ∈ blocks.map Block.handle := by
    rw [hp.handles]
    exact Tree.mem_lambdas.mpr ⟨_, _, _, hn⟩
  simpa using hmem

/-- **What the program knows of the lambda around a lambda.** -/
theorem enclosing_eq_some (hp : p.Compiled t roots blocks) {l l' : String} :
    p.enclosing.find? l = some l' ↔
      ∃ N q ps cs, l = Handle.label N ∧ t.get? N = some (.lambda (some q) ps cs) ∧
        l' = Handle.label (t.enclosingLambda q) := by
  have hnodup : ((t.scopes.entries.filterMap fun e =>
      e.2.parent.map fun q => (Handle.label e.1, Handle.label q)).map Prod.fst).Nodup := by
    have hkeys : (t.scopes.entries.map fun e => Handle.label e.1).Nodup := by
      rw [show (fun e : Handle × Scope => Handle.label e.1) = Handle.label ∘ Prod.fst from rfl, ← List.map_map]
      exact hp.analysed.sorted.nodup.map Handle.label_injective
    refine hkeys.sublist ?_
    induction t.scopes.entries with
    | nil => simp
    | cons e es ih =>
      cases hq : e.2.parent with
      | none => simpa [List.filterMap_cons, hq] using ih.trans (List.sublist_cons_self _ _)
      | some q => simpa [List.filterMap_cons, hq] using ih
  -- the table is made of the scopes, which are those of the lambdas
  rw [hp.enclosing, Table.find?_ofList_of_nodup hnodup]
  constructor
  · intro h
    obtain ⟨⟨N, scope⟩, hmem, he⟩ := List.mem_filterMap.mp h
    obtain ⟨q, hq, he⟩ := Option.map_eq_some_iff.mp he
    cases he
    obtain ⟨parent, ps, cs, hn, hparent⟩ :=
      hp.analysed.scopes N scope (hp.analysed.sorted.find?_eq_some.mpr hmem)
    rw [hparent] at hq
    obtain ⟨r, rfl, rfl⟩ := Option.map_eq_some_iff.mp hq
    exact ⟨N, r, ps, cs, rfl, hn, rfl⟩
  · rintro ⟨N, q, ps, cs, rfl, hn, rfl⟩
    obtain ⟨scope, hscope⟩ := hp.analysed.total N _ ps cs hn
    obtain ⟨parent, ps', cs', hn', hparent⟩ := hp.analysed.scopes N scope hscope
    cases hn.symm.trans hn'
    refine List.mem_filterMap.mpr ⟨(N, scope), hp.analysed.sorted.find?_eq_some.mp hscope, ?_⟩
    simp [hparent]

theorem enclosing_of_inside (hp : p.Compiled t roots blocks) {M N : Handle} (hin : t.Inside M N) :
    p.enclosing.find? (Handle.label N) = some (Handle.label M) := by
  obtain ⟨q, ps, cs, hn, rfl⟩ := hin.enclosing
  exact hp.enclosing_eq_some.mpr ⟨N, q, ps, cs, rfl, hn, rfl⟩

end Program.Compiled

namespace Module

/-! ### Loaded modules -/

/-- Every module that has been found is analysed. -/
def Survey.Analysed (s : Survey) : Prop :=
  ∀ (i : Nat) (m : Module), s.modules[i]? = some m → ∃ roots, m.tree.Analysed roots

theorem Survey.Analysed.add {s : Survey} (hs : s.Analysed) {m : Module} (hm : ∃ roots, m.tree.Analysed roots)
    (imports : List (String × Path)) : (s.add m imports).Analysed := by
  intro i m' hm'
  simp only [Survey.add, Array.getElem?_push] at hm'
  split at hm'
  · cases hm'
    exact hm
  · exact hs i m' hm'

theorem Survey.Analysed.visit {sources : Sources} {s s' : Survey} {p : Path} {given : Option String}
    {found : List Path} (hs : s.Analysed) (h : Module.visit sources s p given = .ok (s', found)) : s'.Analysed := by
  have hmodule : ∀ {name source tree}, inModule name (Tree.parse source >>= Tree.analyse) = .ok tree →
      ∃ roots, tree.Analysed roots := by
    intro name source tree htree
    unfold inModule at htree
    split at htree
    · next hparsed =>
      cases htree
      exact Tree.exists_analysed hparsed
    · cases htree
  unfold Module.visit at h
  cases given with
  | some source =>
    obtain ⟨source, -, h⟩ := Except.bind_eq_ok.mp h
    obtain ⟨tree, htree, h⟩ := Except.bind_eq_ok.mp h
    obtain ⟨imports, -, h⟩ := Except.bind_eq_ok.mp h
    cases h
    exact hs.add (hmodule htree) _
  | none =>
    obtain ⟨source, -, h⟩ := Except.bind_eq_ok.mp h
    obtain ⟨tree, htree, h⟩ := Except.bind_eq_ok.mp h
    obtain ⟨imports, -, h⟩ := Except.bind_eq_ok.mp h
    cases h
    exact hs.add (hmodule htree) _

theorem Survey.Analysed.explore {sources : Sources} (fuel : Nat) {s s' : Survey}
    {stack : List (Path × Option String)} (hs : s.Analysed) (h : Module.explore sources fuel s stack = .ok s') :
    s'.Analysed := by
  induction fuel generalizing s stack with
  | zero =>
    cases h
    exact hs
  | succ fuel ih =>
    unfold Module.explore at h
    split at h
    · cases h
      exact hs
    · obtain ⟨⟨s₁, found⟩, hvisit, h⟩ := Except.bind_eq_ok.mp h
      exact ih (hs.visit hvisit) h

/-- Entering the imports leaves the trees. -/
theorem Survey.Analysed.connect {s : Survey} (hs : s.Analysed) :
    ∀ (i : Nat) (m : Module), (Module.connect s)[i]? = some m → ∃ roots, m.tree.Analysed roots := by
  unfold Module.connect
  suffices hfold : ∀ (imports : List (Nat × String × Path)) (ms : Array Module),
      (∀ (i : Nat) (m : Module), ms[i]? = some m → ∃ roots, m.tree.Analysed roots) →
      ∀ (i : Nat) (m : Module), (imports.foldl (enterImport s) ms)[i]? = some m →
        ∃ roots, m.tree.Analysed roots from hfold _ _ hs
  intro imports
  induction imports with
  | nil => exact fun ms hms => hms
  | cons j imports ih =>
    intro ms hms
    refine ih _ fun i m hm => ?_
    unfold enterImport at hm
    split at hm
    · rw [Array.getElem?_modify] at hm
      split at hm
      · obtain ⟨m', hm', rfl⟩ := Option.map_eq_some_iff.mp hm
        exact hms i m' hm'
      · exact hms i m hm
    · exact hms i m hm

/-- **A loaded module has a compiled program**, whether it was linked with others or not. -/
theorem compiled_loadSource {sources : Sources} {path : Path} {source : String} {loaded : LoadedModule}
    (h : loadSource sources path source = .ok loaded) :
    ∃ t roots blocks, loaded.program.Compiled t roots blocks := by
  obtain ⟨modules, hmodules, h⟩ := Except.bind_eq_ok.mp h
  obtain ⟨sorted, -, h⟩ := Except.bind_eq_ok.mp h
  -- every module that is found has been analysed
  have hfound : ∀ (i : Nat) (m : Module), modules[i]? = some m → ∃ roots, m.tree.Analysed roots := by
    obtain ⟨survey, hsurvey, hconnect⟩ := Except.bind_eq_ok.mp hmodules
    cases hconnect
    have hnone : Survey.Analysed {} := fun i m hm => by simp at hm
    exact (hnone.explore _ hsurvey).connect
  dsimp only at h
  split at h
  · cases h
  · next root hroot =>
    split at h
    · obtain ⟨⟨tree, text⟩, htree, h⟩ := Except.bind_eq_ok.mp h
      cases htree
      obtain ⟨program, hprogram, h⟩ := Except.bind_eq_ok.mp h
      cases h
      obtain ⟨roots, ha⟩ := hfound 0 root hroot
      obtain ⟨blocks, hp⟩ := ha.compiled hprogram
      exact ⟨root.tree, roots, blocks, hp.withHash _⟩
    · -- with imports, the linked text is read again
      obtain ⟨tree, hlinked, h⟩ := Except.bind_eq_ok.mp h
      obtain ⟨⟨_, text⟩, htree, h⟩ := Except.bind_eq_ok.mp h
      cases htree
      obtain ⟨program, hprogram, h⟩ := Except.bind_eq_ok.mp h
      cases h
      obtain ⟨roots, ha⟩ := Tree.exists_analysed hlinked
      obtain ⟨blocks, hp⟩ := ha.compiled hprogram
      exact ⟨tree, roots, blocks, hp.withHash _⟩

theorem compiled_load {sources : Sources} {path : Path} {loaded : LoadedModule} (h : load sources path = .ok loaded) :
    ∃ t roots blocks, loaded.program.Compiled t roots blocks := by
  obtain ⟨source, -, h⟩ := Except.bind_eq_ok.mp h
  exact compiled_loadSource h

end Module

/-! ### Where programs come from -/

/-- **A program that was compiled or loaded.** -/
inductive Program.Produced : Program → Prop
  | compiled {source : String} {p : Program} (h : Program.compile source = .ok p) : Produced p
  | loadedSource {sources : Sources} {path : Path} {source : String} {loaded : LoadedModule}
      (h : Module.loadSource sources path source = .ok loaded) : Produced loaded.program
  | loaded {sources : Sources} {path : Path} {loaded : LoadedModule} (h : Module.load sources path = .ok loaded) :
      Produced loaded.program

theorem Program.Produced.exists_compiled (h : p.Produced) : ∃ t roots blocks, p.Compiled t roots blocks := by
  cases h with
  | compiled h =>
    obtain ⟨t, roots, blocks, -, hp⟩ := Program.compiled_compile h
    exact ⟨t, roots, blocks, hp⟩
  | loadedSource h => exact Module.compiled_loadSource h
  | loaded h => exact Module.compiled_load h

/-- The labels of a program that was compiled or loaded are distinct. -/
theorem Program.Produced.exists_image (h : p.Produced) : ∃ image, Image.ofProgram p = .ok image ∧ image.program = p := by
  obtain ⟨t, roots, blocks, hp⟩ := h.exists_compiled
  obtain ⟨labels, hlabels⟩ := hp.labels
  exact ⟨⟨p, labels⟩, by rw [Image.ofProgram, hlabels], rfl⟩

end SchemeMachine
