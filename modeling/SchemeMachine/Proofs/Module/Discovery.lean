import Mathlib.Data.String.Basic
import SchemeMachine.Proofs.Module.Order
import SchemeMachine.Proofs.Names
import SchemeMachine.Proofs.Syntax.Resolution
import SchemeMachine.Proofs.Table

/-!
# What discovery finds

Discovery numbers the modules as it finds them, the root first. Every module gets a name of its own, and every module
but the root is imported by one found before it.

* `Module.uniqueName_free`: a module's name is not taken yet. It has no dot in it (`Module.plain_uniqueName`).
* `Module.Survey.Sound` is what is known of the modules found so far, `Module.Survey.Sound.add` keeps it.
* `Module.Discovered` is the result for all modules, after their imports have been entered.
* `Module.Discovered.not_root`: in an order that comes out, nothing imports the root.
-/

namespace SchemeMachine.Module

/-! ### Names -/

/-- A character that names of modules have: no dot, and no end of a line. -/
def PlainChar (c : Char) : Prop := c ≠ '.' ∧ c ≠ '\n'

/-- **A name without dots** and without ends of lines. -/
def PlainName (name : String) : Prop := ∀ c ∈ name.toList, PlainChar c

theorem plain_baseName (p : Path) : PlainName (baseName p) := by
  unfold baseName
  dsimp only
  split
  · simp [PlainName, PlainChar]
  · intro c hc
    rw [String.toList_ofList] at hc
    obtain ⟨d, -, rfl⟩ := List.mem_map.mp hc
    split
    · next hkept =>
      have hdot : (Text.isAlphanumeric '.' || decide ('.' = '-') || decide ('.' = '_')) = false := by decide
      have hline : (Text.isAlphanumeric '\n' || decide ('\n' = '-') || decide ('\n' = '_')) = false := by decide
      refine ⟨?_, ?_⟩
      · rintro rfl
        rw [hdot] at hkept
        cases hkept
      · rintro rfl
        rw [hline] at hkept
        cases hkept
    · unfold PlainChar
      decide

theorem plain_numbered {base : String} (h : PlainName base) (n : Nat) : PlainName (base ++ s!"_{n}") := by
  intro c hc
  have hlist : (base ++ s!"_{n}").toList = base.toList ++ '_' :: Nat.toDigits 10 n := by
    simp
  rw [hlist, List.mem_append, List.mem_cons] at hc
  rcases hc with hc | rfl | hc
  · exact h c hc
  · unfold PlainChar
    decide
  · have hdigit := Nat.isDigit_of_mem_toDigits (by decide) (by decide) hc
    refine ⟨?_, ?_⟩ <;> rintro rfl <;> exact absurd hdigit (by decide)

theorem plain_freeName {taken : Names} {base : String} (h : PlainName base) (fuel n : Nat) :
    PlainName (freeName taken base fuel n) := by
  induction fuel generalizing n with
  | zero => exact plain_numbered h n
  | succ fuel ih =>
    rw [freeName]
    split
    · exact ih (n + 1)
    · exact plain_numbered h n

/-- The name of a module has no dot in it. -/
theorem plain_uniqueName (taken : Names) (p : Path) : PlainName (uniqueName taken p) := by
  unfold uniqueName
  dsimp only
  split
  · exact plain_freeName (plain_baseName p) _ _
  · exact plain_baseName p

theorem numbered_injective (base : String) : Function.Injective fun n : Nat => base ++ s!"_{n}" := by
  intro m n h
  have h' : (base ++ "_") ++ toString m ++ "" = (base ++ "_") ++ toString n ++ "" := by
    simpa [String.append_assoc] using h
  exact (Names.number_inj (by simp) (by simp) h').1

/-- A search for a free name fails only if all names tried are taken. -/
theorem freeName_taken {taken : Names} {base : String} {fuel n : Nat}
    (h : taken.contains (freeName taken base fuel n) = true) : ∀ k < fuel, taken.contains (base ++ s!"_{n + k}") = true := by
  induction fuel generalizing n with
  | zero => exact nofun
  | succ fuel ih =>
    rw [freeName] at h
    split at h
    · next htaken =>
      intro k hk
      cases k with
      | zero => exact htaken
      | succ k =>
        have hrest := ih h k (Nat.lt_of_succ_lt_succ hk)
        rwa [show n + 1 + k = n + (k + 1) by omega] at hrest
    · next hfree => exact absurd h hfree

/-- **The name of a module is not taken.** There are more names to try than names that are taken. -/
theorem uniqueName_free (taken : Names) (p : Path) : taken.contains (uniqueName taken p) = false := by
  unfold uniqueName
  dsimp only
  split
  · refine Bool.eq_false_iff.mpr fun htaken => ?_
    have hall := freeName_taken htaken
    have hnodup : ((List.range (taken.size + 1)).map fun k => baseName p ++ s!"_{2 + k}").Nodup :=
      List.nodup_range.map fun j k heq => Nat.add_left_cancel (numbered_injective _ heq)
    have hsubset : ∀ name ∈ (List.range (taken.size + 1)).map fun k => baseName p ++ s!"_{2 + k}",
        name ∈ taken.keys := by
      intro name hname
      obtain ⟨k, hk, rfl⟩ := List.mem_map.mp hname
      exact Table.contains_iff_mem_keys.mp (hall k (List.mem_range.mp hk))
    have hle := (List.subperm_of_subset hnodup hsubset).length_le
    rw [List.length_map, List.length_range, Table.keys, List.length_map] at hle
    exact absurd hle (Nat.not_succ_le_self _)
  · next hfree => exact Bool.eq_false_iff.mpr hfree

/-! ### Exploring -/

/-- **What is known of the modules found so far.** -/
structure Survey.Sound (s : Survey) : Prop where
  numbered : ∀ (i : Nat) (m : Module), s.modules[i]? = some m → s.find? m.path = some i
  found : ∀ p i, s.find? p = some i → i < s.modules.size
  named : ∀ (i : Nat) (m : Module), s.modules[i]? = some m → s.names.contains m.name = true
  plain : ∀ (i : Nat) (m : Module), s.modules[i]? = some m → PlainName m.name
  distinct : ∀ (i j : Nat) (m m' : Module), s.modules[i]? = some m → s.modules[j]? = some m' → m.name = m'.name → i = j
  unlinked : ∀ (i : Nat) (m : Module), s.modules[i]? = some m → m.imports = {}
  read : ∀ (i : Nat) (m : Module), s.modules[i]? = some m →
    ∃ source t, Tree.parse source = .ok t ∧ t.analyse = .ok m.tree
  importers : ∀ e ∈ s.imports, e.1 < s.modules.size
  aliases : ∀ e ∈ s.imports, ∀ e' ∈ s.imports, e.1 = e'.1 → e.2.1 = e'.2.1 → e.2.2 = e'.2.2
  reached : ∀ i, 0 < i → i < s.modules.size → ∃ e ∈ s.imports, e.1 < i ∧ s.find? e.2.2 = some i

theorem Survey.sound_empty : Survey.Sound {} where
  numbered := by simp
  found := nofun
  named := by simp
  plain := by simp
  distinct := by simp
  unlinked := by simp
  read := by simp
  importers := by simp
  aliases := by simp
  reached := by simp

theorem Survey.find?_add (s : Survey) (m : Module) (imports : List (String × Path)) (p : Path) :
    (s.add m imports).find? p = if p.canonicalText = m.path.canonicalText then some s.modules.size else s.find? p := by
  rw [Survey.find?, Survey.add, Table.find?_insert]
  rfl

theorem Survey.getElem?_add (s : Survey) (m : Module) (imports : List (String × Path)) (i : Nat) :
    (s.add m imports).modules[i]? = if i = s.modules.size then some m else s.modules[i]? := by
  rw [Survey.add, Array.getElem?_push]

/-- **A module is added** that was not known before. -/
theorem Survey.Sound.add {s : Survey} (h : s.Sound) {m : Module} {imports : List (String × Path)}
    (hnew : s.find? m.path = none) (hname : m.name = uniqueName s.names m.path) (hunlinked : m.imports = {})
    (hread : ∃ source t, Tree.parse source = .ok t ∧ t.analyse = .ok m.tree)
    (hreached : s.modules.size = 0 ∨ ∃ e ∈ s.imports, e.2.2 = m.path)
    (haliases : ∀ e ∈ imports, ∀ e' ∈ imports, e.1 = e'.1 → e.2 = e'.2) : (s.add m imports).Sound := by
  have hfree : s.names.contains m.name = false := hname ▸ uniqueName_free s.names m.path
  -- a property of all modules holds of the old ones and of the new one
  have hall : ∀ P : Nat → Module → Prop, (∀ (i : Nat) (m' : Module), s.modules[i]? = some m' → P i m') →
      P s.modules.size m → ∀ (i : Nat) (m' : Module), (s.add m imports).modules[i]? = some m' → P i m' := by
    intro P hold hself i m' hm'
    rw [getElem?_add] at hm'
    split at hm'
    · next hi =>
      cases hm'
      exact hi ▸ hself
    · exact hold i m' hm'
  have hsize : (s.add m imports).modules.size = s.modules.size + 1 := Array.size_push _
  have hlt : ∀ {i : Nat} {m' : Module}, s.modules[i]? = some m' → i < s.modules.size := fun hm' =>
    (Array.getElem?_eq_some_iff.mp hm').1
  have himports : ∀ e ∈ (s.add m imports).imports, e ∈ s.imports ∨ (e.1 = s.modules.size ∧ e.2 ∈ imports) := by
    intro e he
    rcases List.mem_append.mp he with he | he
    · exact Or.inl he
    · obtain ⟨i, hi, rfl⟩ := List.mem_map.mp he
      exact Or.inr ⟨rfl, hi⟩
  refine ⟨hall _ (fun i m' hm' => ?_) ?_, fun p i hp => ?_, hall _ (fun i m' hm' => ?_) ?_, hall _ h.plain ?_, ?_,
    hall _ h.unlinked hunlinked, hall _ h.read hread, fun e he => ?_, fun e he e' he' hi halias => ?_,
    fun i hpositive hi => ?_⟩
  · rw [find?_add]
    split
    · next hsame =>
      have hold := h.numbered i m' hm'
      rw [Survey.find?, hsame] at hold
      rw [Survey.find?] at hnew
      rw [hnew] at hold
      cases hold
    · exact h.numbered i m' hm'
  · rw [find?_add, if_pos rfl]
  · rw [find?_add] at hp
    rw [hsize]
    split at hp
    · cases hp
      exact Nat.lt_succ_self _
    · exact Nat.lt_succ_of_lt (h.found p i hp)
  · exact (Table.contains_insert _ _ _ _).mpr (Or.inr (h.named i m' hm'))
  · exact (Table.contains_insert _ _ _ _).mpr (Or.inl rfl)
  · exact hname ▸ plain_uniqueName s.names m.path
  · intro i j m₁ m₂ h₁ h₂ heq
    rw [getElem?_add] at h₁ h₂
    split at h₁ <;> split at h₂
    · omega
    · cases h₁
      have hold := h.named j m₂ h₂
      rw [← heq, hfree] at hold
      cases hold
    · cases h₂
      have hold := h.named i m₁ h₁
      rw [heq, hfree] at hold
      cases hold
    · exact h.distinct i j m₁ m₂ h₁ h₂ heq
  · rw [hsize]
    rcases himports e he with he | ⟨he, -⟩
    · exact Nat.lt_succ_of_lt (h.importers e he)
    · omega
  · rcases himports e he with hold | ⟨hnum, hin⟩ <;> rcases himports e' he' with hold' | ⟨hnum', hin'⟩
    · exact h.aliases e hold e' hold' hi halias
    · exact absurd (h.importers e hold) (by omega)
    · exact absurd (h.importers e' hold') (by omega)
    · exact haliases _ hin _ hin' halias
  · rw [hsize] at hi
    by_cases hlast : i = s.modules.size
    · obtain ⟨e, he, hpath⟩ := hreached.resolve_left (by omega)
      refine ⟨e, List.mem_append_left _ he, hlast ▸ h.importers e he, ?_⟩
      rw [find?_add, hpath, if_pos rfl, hlast]
    · obtain ⟨e, he, hlt', hfound⟩ := h.reached i hpositive (by omega)
      refine ⟨e, List.mem_append_left _ he, hlt', ?_⟩
      rw [find?_add]
      split
      · next hsame =>
        rw [Survey.find?, hsame] at hfound
        rw [Survey.find?] at hnew
        rw [hnew] at hfound
        cases hfound
      · exact hfound

/-- The modules that a tree imports have different aliases, before and after its analysis. -/
theorem sorted_dependencies {source : String} {t t' : Tree} (hparse : Tree.parse source = .ok t)
    (hanalyse : t.analyse = .ok t') : t'.dependencies.Sorted := by
  obtain ⟨tokens, forms, -, hforms, rfl⟩ := Tree.parse_eq_ok.mp hparse
  have hlegal := Form.legal_parse hforms
  obtain ⟨body, strays, hholds, -, hanalysed⟩ := Tree.holds_ofForms hlegal
  obtain ⟨u, hu, -, rfl⟩ := hholds.analyse_eq_ok hanalysed hanalyse
  have hsame : u.dependencies = (Tree.ofForms forms).dependencies := by rw [hu]
  have hnotes := congrArg Tree.dependencies (Tree.notes_ofForms hlegal)
  change u.dependencies.Sorted
  rw [hsame]
  change (Tree.ofForms forms).notes.dependencies.Sorted
  rw [hnotes]
  exact Table.sorted_ofList _

/-- **What a visit does**: the module is read, unless its source is given, and analysed, and its imports are resolved. -/
theorem visit_eq_ok {sources : Sources} {s s' : Survey} {p : Path} {given : Option String} {next : List Path} :
    visit sources s p given = .ok (s', next) ↔ ∃ text tree found,
      (given.map .ok).getD ((sources.read p).mapError CompileError.link) = .ok text ∧
      (Tree.parse text >>= Tree.analyse) = .ok tree ∧ resolveImports sources p tree = .ok found ∧
      s' = s.add { path := p, name := uniqueName s.names p, tree } found ∧ next = found.map (·.2) := by
  -- once there is a text, all goes on alike
  have hrest (text : String) : (do
      let tree ← inModule (uniqueName s.names p) (Tree.parse text >>= Tree.analyse)
      let found ← resolveImports sources p tree
      return (s.add { path := p, name := uniqueName s.names p, tree } found, found.map (·.2)) :
        Except CompileError (Survey × List Path)) = .ok (s', next) ↔ ∃ tree found,
      (Tree.parse text >>= Tree.analyse) = .ok tree ∧ resolveImports sources p tree = .ok found ∧
      s' = s.add { path := p, name := uniqueName s.names p, tree } found ∧ next = found.map (·.2) := by
    rw [Except.bind_eq_ok]
    constructor
    · rintro ⟨tree, htree, h⟩
      obtain ⟨found, hfound, h⟩ := Except.bind_eq_ok.mp h
      cases h
      refine ⟨tree, found, ?_, hfound, rfl, rfl⟩
      unfold inModule at htree
      split at htree
      · next hread =>
        cases htree
        exact hread
      · cases htree
    · rintro ⟨tree, found, htree, hfound, rfl, rfl⟩
      exact ⟨tree, by rw [htree]; rfl, Except.bind_eq_ok.mpr ⟨found, hfound, rfl⟩⟩
  unfold visit
  cases given with
  | some given =>
    refine (hrest given).trans ⟨fun h => ⟨given, ?_⟩, ?_⟩
    · obtain ⟨tree, found, h⟩ := h
      exact ⟨tree, found, rfl, h⟩
    · rintro ⟨text, tree, found, htext, h⟩
      cases htext
      exact ⟨tree, found, h⟩
  | none =>
    refine Except.bind_eq_ok.trans (exists_congr fun text => ?_)
    rw [hrest text]
    constructor
    · rintro ⟨htext, tree, found, h⟩
      exact ⟨tree, found, htext, h⟩
    · rintro ⟨tree, found, htext, h⟩
      exact ⟨htext, tree, found, h⟩

/-- The aliases of what is resolved are those of the tree. -/
theorem resolveImports_aliases {sources : Sources} {p : Path} {tree : Tree} {found : List (String × Path)}
    (h : resolveImports sources p tree = .ok found) : found.map Prod.fst = tree.dependencies.keys := by
  have hall := Tree.mapM_eq_ok.mp h
  rw [Table.keys]
  clear h
  generalize tree.dependencies.entries = entries at hall
  induction hall with
  | nil => rfl
  | @cons d f ds fs hd _ ih =>
    have hfirst : f.1 = d.1 := by
      split at hd
      · cases hd
        rfl
      · cases hd
    rw [List.map_cons, List.map_cons, hfirst, ih]

/-- The stack of discovery: the root alone at first, later paths that modules found so far import. -/
def Waiting (s : Survey) (stack : List (Path × Option String)) : Prop :=
  (s.modules.size = 0 ∧ stack.length ≤ 1) ∨ ∀ e ∈ stack, ∃ i ∈ s.imports, i.2.2 = e.1

/-- **A visit keeps what is known**, and what it finds waits. -/
theorem Survey.Sound.visit {sources : Sources} {s s' : Survey} {p : Path} {given : Option String} {next : List Path}
    {rest : List (Path × Option String)} (h : s.Sound) (hwaiting : Waiting s ((p, given) :: rest))
    (hnew : s.find? p = none) (hvisit : visit sources s p given = .ok (s', next)) :
    s'.Sound ∧ Waiting s' (next.reverse.map (fun q => (q, none)) ++ rest) ∧
      ∀ i : Nat, i < s.modules.size → s'.modules[i]? = s.modules[i]? := by
  obtain ⟨source, tree, found, -, htree, hfound, rfl, rfl⟩ := visit_eq_ok.mp hvisit
  obtain ⟨t, hparse, hanalyse⟩ := Except.bind_eq_ok.mp htree
  have haliases : (found.map Prod.fst).Nodup :=
    resolveImports_aliases hfound ▸ (sorted_dependencies hparse hanalyse).nodup
  refine ⟨h.add hnew rfl rfl ⟨source, t, hparse, hanalyse⟩ ?_ fun e he e' he' heq => ?_, Or.inr fun e he => ?_,
    fun i hi => ?_⟩
  · rcases hwaiting with ⟨hsize, -⟩ | hall
    · exact Or.inl hsize
    · exact Or.inr (hall _ List.mem_cons_self)
  · exact congrArg Prod.snd (List.inj_on_of_nodup_map haliases he he' heq)
  · rcases List.mem_append.mp he with he | he
    · obtain ⟨q, hq, rfl⟩ := List.mem_map.mp he
      obtain ⟨f, hf, rfl⟩ := List.mem_map.mp (List.mem_reverse.mp hq)
      exact ⟨_, List.mem_append_right _ (List.mem_map.mpr ⟨f, hf, rfl⟩), rfl⟩
    · rcases hwaiting with ⟨-, hlength⟩ | hall
      · rw [List.length_cons] at hlength
        rw [List.length_eq_zero_iff.mp (by omega : rest.length = 0)] at he
        cases he
      · obtain ⟨i, hi, heq⟩ := hall e (List.mem_cons_of_mem _ he)
        exact ⟨i, List.mem_append_left _ hi, heq⟩
  · rw [getElem?_add, if_neg (by omega)]

/-- **Exploring keeps what is known**, visit by visit. -/
theorem Survey.Sound.explore {sources : Sources} {fuel : Nat} {s s' : Survey} {stack : List (Path × Option String)}
    (h : s.Sound) (hwaiting : Waiting s stack) (hexplore : explore sources fuel s stack = .ok s') :
    s'.Sound ∧ ∀ i : Nat, i < s.modules.size → s'.modules[i]? = s.modules[i]? := by
  -- one visit keeps the survey sound, and what has been found stays
  induction fuel generalizing s stack with
  | zero =>
    cases hexplore
    exact ⟨h, fun _ _ => rfl⟩
  | succ fuel ih =>
    rw [Module.explore] at hexplore
    split at hexplore
    · cases hexplore
      exact ⟨h, fun _ _ => rfl⟩
    · next p given rest hdrop =>
      obtain ⟨⟨s₁, next⟩, hvisit, hexplore⟩ := Except.bind_eq_ok.mp hexplore
      have hsuffix : ((p, given) :: rest).Sublist stack := hdrop ▸ (List.dropWhile_suffix _).sublist
      -- what waits in front has not been visited
      have hnew : s.find? p = none := by
        have hhead := List.head_dropWhile_not (fun e : Path × Option String => (s.find? e.1).isSome)
          (by rw [hdrop]; exact List.cons_ne_nil _ _)
        simp only [hdrop, List.head_cons] at hhead
        simpa using hhead
      have hwaiting' : Waiting s ((p, given) :: rest) :=
        hwaiting.imp (fun hlength => ⟨hlength.1, hsuffix.length_le.trans hlength.2⟩)
          fun hall e he => hall e (hsuffix.subset he)
      obtain ⟨hs₁, hwaiting₁, hkept₁⟩ := h.visit hwaiting' hnew hvisit
      obtain ⟨hs', hkept⟩ := ih hs₁ hwaiting₁ hexplore
      refine ⟨hs', fun i hi => ?_⟩
      have hi₁ : i < s₁.modules.size := by
        have hsome := hkept₁ i hi
        rw [Array.getElem?_eq_getElem hi] at hsome
        exact (Array.getElem?_eq_some_iff.mp hsome).1
      exact (hkept i hi₁).trans (hkept₁ i hi)

/-! ### Connecting -/

/-- A module with some of the imports entered that it declares. -/
structure Entered (s : Survey) (entered : List (Nat × String × Path)) (i : Nat) (m₀ m : Module) : Prop where
  path : m.path = m₀.path
  name : m.name = m₀.name
  tree : m.tree = m₀.tree
  sorted : m.imports.Sorted
  imports : ∀ name target, m.imports.find? name = some target ↔
    ∃ e ∈ entered, e.1 = i ∧ e.2.1 = name ∧ s.find? e.2.2 = some target

/-- An import of another module, or one that leads nowhere, changes nothing. -/
theorem Entered.skip {s : Survey} {entered : List (Nat × String × Path)} {i : Nat} {m₀ m : Module}
    {e : Nat × String × Path} (h : Entered s entered i m₀ m) (hskip : e.1 = i → s.find? e.2.2 = none) :
    Entered s (entered ++ [e]) i m₀ m := by
  refine ⟨h.path, h.name, h.tree, h.sorted, fun name target => ?_⟩
  rw [h.imports]
  constructor
  · rintro ⟨e', he', hrest⟩
    exact ⟨e', List.mem_append_left _ he', hrest⟩
  · rintro ⟨e', he', hnum, hname, hfound⟩
    rcases List.mem_append.mp he' with he' | he'
    · exact ⟨e', he', hnum, hname, hfound⟩
    · rw [List.mem_singleton.mp he'] at hnum hfound
      rw [hskip hnum] at hfound
      cases hfound

/-- An import is entered. -/
theorem Entered.enter {s : Survey} (hs : s.Sound) {entered : List (Nat × String × Path)} {m₀ m : Module}
    {e : Nat × String × Path} (h : Entered s entered e.1 m₀ m) (hmem : ∀ e' ∈ entered ++ [e], e' ∈ s.imports)
    {target : Nat} (htarget : s.find? e.2.2 = some target) :
    Entered s (entered ++ [e]) e.1 m₀ { m with imports := m.imports.insert e.2.1 target } := by
  refine ⟨h.path, h.name, h.tree, h.sorted.insert _ _, fun name found => ?_⟩
  rw [Table.find?_insert]
  split
  · next hname =>
    rw [Option.some.injEq]
    constructor
    · rintro rfl
      exact ⟨e, by simp, rfl, hname.symm, htarget⟩
    · rintro ⟨e', he', hnum, hname', hfound⟩
      -- one alias of a module stands for one path
      rw [hs.aliases e' (hmem e' he') e (hmem e (by simp)) hnum (hname'.trans hname), htarget] at hfound
      exact Option.some.inj hfound
  · next hname =>
    rw [h.imports]
    constructor
    · rintro ⟨e', he', hrest⟩
      exact ⟨e', List.mem_append_left _ he', hrest⟩
    · rintro ⟨e', he', hnum, hname', hfound⟩
      rcases List.mem_append.mp he' with he' | he'
      · exact ⟨e', he', hnum, hname', hfound⟩
      · rw [List.mem_singleton.mp he'] at hname'
        exact absurd hname'.symm hname

/-- All modules with some of the imports entered. -/
def EnteredAll (s : Survey) (entered : List (Nat × String × Path)) (ms : Array Module) : Prop :=
  ms.size = s.modules.size ∧ ∀ (i : Nat) (m₀ : Module), s.modules[i]? = some m₀ →
    ∃ m, ms[i]? = some m ∧ Entered s entered i m₀ m

/-- Every module with imports entered comes from one without. -/
theorem EnteredAll.back {s : Survey} {entered : List (Nat × String × Path)} {ms : Array Module} (h : EnteredAll s entered ms)
    {i : Nat} {m : Module} (hm : ms[i]? = some m) : ∃ m₀, s.modules[i]? = some m₀ ∧ Entered s entered i m₀ m := by
  have hi : i < s.modules.size := h.1 ▸ (Array.getElem?_eq_some_iff.mp hm).1
  obtain ⟨m', hm', hentered⟩ := h.2 i _ (Array.getElem?_eq_getElem hi)
  rw [hm] at hm'
  cases hm'
  exact ⟨_, Array.getElem?_eq_getElem hi, hentered⟩

theorem EnteredAll.enterImport {s : Survey} (hs : s.Sound) {entered : List (Nat × String × Path)} {ms : Array Module}
    {e : Nat × String × Path} (h : EnteredAll s entered ms) (hmem : ∀ e' ∈ entered ++ [e], e' ∈ s.imports) :
    EnteredAll s (entered ++ [e]) (enterImport s ms e) := by
  obtain ⟨hsize, hall⟩ := h
  unfold Module.enterImport
  split
  · next target htarget =>
    refine ⟨by rw [Array.size_modify, hsize], fun i m₀ hm₀ => ?_⟩
    obtain ⟨m, hm, hentered⟩ := hall i m₀ hm₀
    rw [Array.getElem?_modify]
    by_cases hi : e.1 = i
    · subst hi
      exact ⟨_, by rw [if_pos rfl, hm]; rfl, hentered.enter hs hmem htarget⟩
    · exact ⟨m, by rw [if_neg hi]; exact hm, hentered.skip fun heq => absurd heq hi⟩
  · next hnone =>
    refine ⟨hsize, fun i m₀ hm₀ => ?_⟩
    obtain ⟨m, hm, hentered⟩ := hall i m₀ hm₀
    exact ⟨m, hm, hentered.skip fun _ => hnone⟩

/-- **Entering the imports** gives every module the numbers of what it imports. -/
theorem Survey.Sound.connect {s : Survey} (hs : s.Sound) : EnteredAll s s.imports (connect s) := by
  -- along the list of imports, with those entered so far in front
  have hfold : ∀ (rest entered : List (Nat × String × Path)) (ms : Array Module), s.imports = entered ++ rest →
      EnteredAll s entered ms → EnteredAll s s.imports (rest.foldl (enterImport s) ms) := by
    intro rest
    induction rest with
    | nil =>
      intro entered ms heq hms
      rw [List.append_nil] at heq
      exact heq ▸ hms
    | cons e rest ih =>
      intro entered ms heq hms
      rw [List.append_cons] at heq
      exact ih _ _ heq (hms.enterImport hs fun e' he' => heq ▸ List.mem_append_left _ he')
  refine hfold s.imports [] s.modules rfl
    ⟨rfl, fun i m₀ hm₀ => ⟨m₀, hm₀, rfl, rfl, rfl, hs.unlinked i m₀ hm₀ ▸ Table.sorted_empty, fun name target => ?_⟩⟩
  rw [hs.unlinked i m₀ hm₀]
  exact ⟨nofun, nofun⟩

/-- **What discovery finds.** -/
structure Discovered (modules : Array Module) : Prop where
  plain : ∀ (i : Nat) (m : Module), modules[i]? = some m → PlainName m.name
  distinct : ∀ (i j : Nat) (m m' : Module), modules[i]? = some m → modules[j]? = some m' → m.name = m'.name → i = j
  read : ∀ (i : Nat) (m : Module), modules[i]? = some m →
    ∃ source t, Tree.parse source = .ok t ∧ t.analyse = .ok m.tree
  known : ∀ (i : Nat) (m : Module), modules[i]? = some m → ∀ name target, m.imports.find? name = some target →
    target < modules.size
  reached : ∀ i, 0 < i → i < modules.size → ∃ k < i, i ∈ importsOf modules k

theorem mem_importsOf {modules : Array Module} {i target : Nat} {m : Module} {name : String} (hm : modules[i]? = some m)
    (h : m.imports.find? name = some target) : target ∈ importsOf modules i := by
  rw [importsOf, hm]
  exact List.mem_map.mpr ⟨_, Table.mem_entries_of_find? h, rfl⟩

theorem discovered {sources : Sources} {root : Path} {source : String} {modules : Array Module}
    (h : discover sources root source = .ok modules) : Discovered modules := by
  obtain ⟨s, hexplore, h⟩ := Except.bind_eq_ok.mp h
  cases h
  obtain ⟨hs, -⟩ := Survey.sound_empty.explore (Or.inl ⟨rfl, le_rfl⟩) hexplore
  obtain ⟨hsize, hall⟩ := hs.connect
  have hback := fun (i : Nat) (m : Module) (hm : (connect s)[i]? = some m) => hs.connect.back hm
  refine ⟨fun i m hm => ?_, fun i j m m' hm hm' heq => ?_, fun i m hm => ?_, fun i m hm name target hfind => ?_,
    fun i hpositive hi => ?_⟩
  · obtain ⟨m₀, hm₀, hentered⟩ := hback i m hm
    exact hentered.name ▸ hs.plain i m₀ hm₀
  · obtain ⟨m₀, hm₀, hentered⟩ := hback i m hm
    obtain ⟨m₁, hm₁, hentered'⟩ := hback j m' hm'
    exact hs.distinct i j m₀ m₁ hm₀ hm₁ (hentered.name.symm.trans (heq.trans hentered'.name))
  · obtain ⟨m₀, hm₀, hentered⟩ := hback i m hm
    exact hentered.tree ▸ hs.read i m₀ hm₀
  · obtain ⟨m₀, -, hentered⟩ := hback i m hm
    obtain ⟨e, -, -, -, hfound⟩ := (hentered.imports name target).mp hfind
    exact hsize ▸ hs.found _ _ hfound
  · obtain ⟨e, he, hlt, hfound⟩ := hs.reached i hpositive (hsize ▸ hi)
    have hk := hs.importers e he
    obtain ⟨m, hm, hentered⟩ := hall e.1 _ (Array.getElem?_eq_getElem hk)
    exact ⟨e.1, hlt, mem_importsOf hm ((hentered.imports e.2.1 i).mpr ⟨e, he, rfl, rfl, hfound⟩)⟩

/-- **Nothing imports the root**, if the modules can be ordered: the root comes after all of them. -/
theorem Discovered.not_root {modules : Array Module} (h : Discovered modules) {sorted : List Nat}
    (hsorted : order modules = .ok sorted) {i : Nat} (hi : i < modules.size) : 0 ∉ importsOf modules i := by
  have hlast : ∀ k, k < modules.size → sorted.idxOf k ≤ sorted.idxOf 0 := by
    intro k
    induction k using Nat.strongRecOn with
    | ind k ih =>
      intro hk
      by_cases hzero : k = 0
      · rw [hzero]
      · obtain ⟨j, hj, hmem⟩ := h.reached k (Nat.pos_of_ne_zero hzero) hk
        have hlt := order_idxOf_lt hsorted (hj.trans hk) hmem
        exact (Nat.le_of_lt hlt).trans (ih j hj (hj.trans hk))
  intro hmem
  exact absurd (order_idxOf_lt hsorted hi hmem) (Nat.not_lt.mpr (hlast i hi))

end SchemeMachine.Module
