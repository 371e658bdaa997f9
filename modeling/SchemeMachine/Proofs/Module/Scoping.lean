import Mathlib.Data.List.Flatten
import SchemeMachine.Proofs.Module.Linking

/-!
# Linking respects the scopes of modules

Linking writes modules as one text, in which every name is looked up again. For names to mean what they mean in their
modules, none of them may be captured on the way: no lambda and no definition of the root may have a name that linking
gives to a definition of another module, and no module may leave a name free that the linked program defines.

* `Module.meaning` is what a name means that no lambda of its module binds, the top one apart.
* `Module.Hygienic` are the conditions under which no name is captured.
* `Module.mem_definedAll_copies` says what the top level of the linked program defines.
* `Module.loadSource_scoped` is the result: the linked program holds a copy of every module, in which every name has the
  meaning that it has in its module.
-/

namespace SchemeMachine.Term

/-! ### Copies of terms -/

mutual

@[simp] theorem handles_respell {inner : Handle → String → String} {outer : String → String} : (x : Term) →
    (chain : Chain) → (x.respell inner outer chain).handles = x.handles
  | .atom a, _ => by cases a <;> rfl
  | .string _ _, _ => rfl
  | .lambda h _ body, _ => by rw [respell, handles, handles, handlesAll_respellAll body]
  | .application h _ items, _ => by rw [respell, handles, handles, handlesAll_respellAll items]

@[simp] theorem handlesAll_respellAll {inner : Handle → String → String} {outer : String → String} : (xs : List Term) →
    (chain : Chain) → handlesAll (respellAll inner outer chain xs) = handlesAll xs
  | [], _ => rfl
  | x :: xs, chain => by rw [respellAll, handlesAll, handlesAll, handles_respell x, handlesAll_respellAll xs]

end

theorem handlesAll_sublist {xs ys : List Term} (h : xs.Sublist ys) : (handlesAll xs).Sublist (handlesAll ys) := by
  rw [handlesAll_eq, handlesAll_eq]
  exact h.flatMap _

/-- **Copies of several lists of terms**, one list after the other, each under handles of its own. -/
theorem exists_copies {f : Nat → List Term} {ids : List Nat} (hids : ids.Nodup) (hf : ∀ i, (handlesAll (f i)).Nodup)
    {zs : List Term} (h : blankAll zs = blankAll (ids.flatMap f)) :
    ∃ φ : Nat → Handle → Handle, zs = ids.flatMap fun i => carryAll (φ i) (f i) := by
  induction ids generalizing zs with
  | nil =>
    cases zs with
    | nil => exact ⟨fun _ => id, rfl⟩
    | cons z zs => cases h
  | cons i ids ih =>
    obtain ⟨hi, hids⟩ := List.nodup_cons.mp hids
    rw [List.flatMap_cons, blankAll_append] at h
    obtain ⟨zs₁, zs₂, rfl, h₁, h₂⟩ := blankAll_eq_append h
    obtain ⟨g, rfl⟩ := exists_carryAll h₁.symm (hf i)
    obtain ⟨φ, rfl⟩ := ih hids h₂
    refine ⟨fun j => if j = i then g else φ j, ?_⟩
    rw [List.flatMap_cons]
    simp only [if_true]
    refine congrArg _ (List.flatMap_congr fun j hj => ?_)
    have hne : j ≠ i := fun heq => hi (heq ▸ hj)
    rw [if_neg hne]

end SchemeMachine.Term

namespace SchemeMachine.Module

open Term

variable {modules : Array Module} {bodies : Nat → List Term}

/-! ### Names of modules in front -/

/-- **A name with the name of a module in front**, the root apart. -/
def IsQualified (modules : Array Module) (w : String) : Prop :=
  ∃ (j : Nat) (m : Module) (y : String), 0 < j ∧ modules[j]? = some m ∧ w = m.name ++ "." ++ y

theorem IsQualified.dot {w : String} (h : IsQualified modules w) : '.' ∈ w.toList := by
  obtain ⟨_, m, y, -, -, rfl⟩ := h
  simp

/-- A qualified name tells the module and the member. -/
theorem qualified_inj {m m' : String} {y y' : String} (hm : PlainName m) (hm' : PlainName m')
    (h : m ++ "." ++ y = m' ++ "." ++ y') : m = m' ∧ y = y' := by
  have hlist := congrArg String.toList h
  have hdot : ".".toList = ['.'] := rfl
  simp only [String.toList_append, List.append_assoc, hdot, List.singleton_append] at hlist
  have hsplit : ∀ {a b : List Char} {c d : List Char}, (∀ x ∈ a, x ≠ '.') → (∀ x ∈ b, x ≠ '.') →
      a ++ '.' :: c = b ++ '.' :: d → a = b ∧ c = d := by
    intro a
    induction a with
    | nil =>
      intro b c d _ hb heq
      cases b with
      | nil => exact ⟨rfl, (List.cons.inj heq).2⟩
      | cons x b => exact absurd (List.cons.inj heq).1.symm (hb x List.mem_cons_self)
    | cons x a ih =>
      intro b c d ha hb heq
      cases b with
      | nil => exact absurd (List.cons.inj heq).1 (ha x List.mem_cons_self)
      | cons x' b =>
        obtain ⟨rfl, hrest⟩ := List.cons.inj heq
        obtain ⟨rfl, rfl⟩ := ih (fun z hz => ha z (List.mem_cons_of_mem x hz))
          (fun z hz => hb z (List.mem_cons_of_mem x hz)) hrest
        exact ⟨rfl, rfl⟩
  obtain ⟨hname, hmember⟩ := hsplit (fun x hx => (hm x hx).1) (fun x hx => (hm' x hx).1) hlist
  exact ⟨String.toList_inj.mp hname, String.toList_inj.mp hmember⟩

/-- **What a name means that no lambda of its module binds**, the top one apart. A name that the module defines is that
definition. A name that is written with an alias is the definition in the module behind it, if there is one. Any other
name is free. -/
def meaning (modules : Array Module) (bodies : Nat → List Term) (i : Nat) (m : Module) (w : String) : String :=
  if w ∈ definedAll (bodies i) then Tree.scopedName Tree.top (topName i m w)
  else
    match qualified? modules m w with
    | some (j, target, member) =>
      if member ∈ definedAll (bodies j) then Tree.scopedName Tree.top (topName j target member)
      else target.name ++ "." ++ member
    | none => w

/-- **No name is captured.** -/
structure Hygienic (modules : Array Module) (bodies : Nat → List Term) : Prop where
  /-- What is left out of the linked source defines nothing. -/
  declarations : ∀ i, i < modules.size → ∀ x ∈ bodies i, keeps x = false → x.defined = []
  /-- No lambda binds a qualified name. -/
  locals : ∀ i, i < modules.size → BindersAll (fun w => ¬ IsQualified modules w) ((bodies i).filter keeps)
  /-- The root defines no qualified name. -/
  root : ∀ w ∈ definedAll (bodies 0), ¬ IsQualified modules w
  /-- What a module leaves free is not qualified and not defined by the root. -/
  free : ∀ (i : Nat) (m : Module), modules[i]? = some m → OutsideAll (fun _ w => w ∉ definedAll (bodies i) →
    qualified? modules m w = none → ¬ IsQualified modules w ∧ w ∉ definedAll (bodies 0)) [] ((bodies i).filter keeps)

theorem Hygienic.definedAll_kept (h : Hygienic modules bodies) {i : Nat} (hi : i < modules.size) :
    definedAll ((bodies i).filter keeps) = definedAll (bodies i) := by
  have hall := h.declarations i hi
  generalize bodies i = xs at hall
  induction xs with
  | nil => rfl
  | cons x xs ih =>
    have hrest := ih fun y hy => hall y (List.mem_cons_of_mem x hy)
    rw [List.filter_cons]
    cases hx : keeps x with
    | true => rw [if_pos rfl, definedAll, definedAll, hrest]
    | false => rw [if_neg Bool.false_ne_true, definedAll, hall x List.mem_cons_self hx, List.nil_append, hrest]

/-- **The names of definitions tell them apart.** -/
theorem Hygienic.topName_inj (h : Hygienic modules bodies) (hd : Discovered modules) {i j : Nat} {m m' : Module}
    {w v : String} (hm : modules[i]? = some m) (hm' : modules[j]? = some m') (hw : w ∈ definedAll (bodies i))
    (hv : v ∈ definedAll (bodies j)) (heq : topName i m w = topName j m' v) : i = j ∧ w = v := by
  unfold topName at heq
  split at heq <;> split at heq
  · next hi hj => exact ⟨hi.trans hj.symm, heq⟩
  · next hi hj =>
    subst hi
    exact absurd ⟨j, m', v, Nat.pos_of_ne_zero hj, hm', heq⟩ (h.root w hw)
  · next hi hj =>
    subst hj
    exact absurd ⟨i, m, w, Nat.pos_of_ne_zero hi, hm, heq.symm⟩ (h.root v hv)
  · obtain ⟨hname, hmember⟩ := qualified_inj (hd.plain i m hm) (hd.plain j m' hm') heq
    exact ⟨hd.distinct i j m m' hm hm' hname, hmember⟩

/-- **How names are respelled**: each stays as it is or becomes qualified. -/
theorem spelled_cases (hroot : ∀ i, i < modules.size → 0 ∉ importsOf modules i) {i : Nat} {m : Module}
    (hm : modules[i]? = some m) (tops : List String) (w : String) :
    spelled modules i m tops w = w ∨ IsQualified modules (spelled modules i m tops w) := by
  unfold spelled
  split
  · unfold topName
    split
    · exact Or.inl rfl
    · next hi => exact Or.inr ⟨i, m, w, Nat.pos_of_ne_zero hi, hm, rfl⟩
  · unfold spelledFree
    split
    · next j target member hqualified =>
      obtain ⟨htarget, name, hfind⟩ := qualified?_eq_some hqualified
      have hj : j ≠ 0 := by
        rintro rfl
        exact hroot i (Array.getElem?_eq_some_iff.mp hm).1 (mem_importsOf hm hfind)
      exact Or.inr ⟨j, target, member, Nat.pos_of_ne_zero hj, htarget, rfl⟩
    · exact Or.inl rfl

/-! ### The top level of the linked program -/

/-- **What the copies of the modules define** at the top level: the definitions of the modules under their new names. -/
theorem mem_definedAll_copies (h : Hygienic modules bodies) {sorted : List Nat} (φ : Nat → Handle → Handle) {v : String} :
    v ∈ definedAll (sorted.flatMap fun i => carryAll (φ i) (rereadAll (linkedModule modules bodies i))) ↔
      ∃ i ∈ sorted, ∃ m, modules[i]? = some m ∧ ∃ w ∈ definedAll (bodies i), v = topName i m w := by
  -- what one module defines, as it is linked
  have hone : ∀ i, v ∈ definedAll (carryAll (φ i) (rereadAll (linkedModule modules bodies i))) ↔
      ∃ m, modules[i]? = some m ∧ ∃ w ∈ definedAll (bodies i), v = topName i m w := by
    intro i
    rw [definedAll_copy, linkedModule]
    cases hm : modules[i]? with
    | none => simp [definedAll]
    | some m =>
      dsimp only
      rw [linkedTerms, definedAll_respellAll, h.definedAll_kept (Array.getElem?_eq_some_iff.mp hm).1, List.mem_map]
      constructor
      · rintro ⟨w, hw, rfl⟩
        exact ⟨m, rfl, w, hw, if_pos hw⟩
      · rintro ⟨m', heq, w, hw, rfl⟩
        cases heq
        exact ⟨w, hw, if_pos hw⟩
  rw [definedAll_eq, List.mem_flatMap]
  constructor
  · rintro ⟨x, hx, hv⟩
    obtain ⟨i, hi, hx⟩ := List.mem_flatMap.mp hx
    refine ⟨i, hi, (hone i).mp ?_⟩
    rw [definedAll_eq]
    exact List.mem_flatMap.mpr ⟨x, hx, hv⟩
  · rintro ⟨i, hi, hv⟩
    have hmem := (hone i).mpr hv
    rw [definedAll_eq] at hmem
    obtain ⟨x, hx, hv⟩ := List.mem_flatMap.mp hmem
    exact ⟨x, List.mem_flatMap.mpr ⟨i, hi, hx⟩, hv⟩

/-- The sketch of a declaration tells what it is. -/
theorem eq_declaration_of_blank {x : Term} {library : String} (h : x.blank = (declaration library).echo) :
    ∃ k, x = .application k .code [.atom (.keyword "native"), .atom (.variable library)] := by
  cases x with
  | application k quotation items =>
    simp only [blank, echo, declaration, reread, rereadAll, blankAll, Term.application.injEq, true_and] at h
    obtain ⟨rfl, hitems⟩ := h
    rw [blankAll_eq] at hitems
    obtain ⟨a, items, rfl, ha, hitems⟩ := List.map_eq_cons_iff.mp hitems
    obtain ⟨b, items, rfl, hb, hitems⟩ := List.map_eq_cons_iff.mp hitems
    rw [List.map_eq_nil_iff] at hitems
    subst hitems
    have hatom : ∀ {y : Term} {v : Atom}, y.blank = .atom v → y = .atom v := by
      intro y v hy
      cases y with
      | atom _ => exact hy
      | _ => cases hy
    exact ⟨k, by rw [hatom ha, hatom hb]⟩
  | _ => cases h

/-- **What a name is respelled to means what the name means** in its module. -/
theorem Hygienic.outermost_spelled (h : Hygienic modules bodies) (hd : Discovered modules)
    (hroot : ∀ i, i < modules.size → 0 ∉ importsOf modules i) {i : Nat} {m : Module} (hm : modules[i]? = some m)
    {linkedTops : List String} (htops : ∀ v, v ∈ linkedTops ↔ ∃ (j : Nat) (m' : Module), modules[j]? = some m' ∧
      ∃ w ∈ definedAll (bodies j), v = topName j m' w) {w : String}
    (hfree : w ∉ definedAll (bodies i) → qualified? modules m w = none →
      ¬ IsQualified modules w ∧ w ∉ definedAll (bodies 0)) :
    Tree.outermost linkedTops Tree.scopedName id (spelled modules i m (definedAll (bodies i)) w) =
      meaning modules bodies i m w := by
  unfold spelled meaning
  -- what the module defines is meant so, under its name in the linked program
  split
  · next hw => exact if_pos ((htops _).mpr ⟨i, m, hm, w, hw, rfl⟩)
  · next hw =>
    unfold spelledFree
    cases hqualified : qualified? modules m w with
    | some q =>
      obtain ⟨j, target, member⟩ := q
      obtain ⟨htarget, name, hfind⟩ := qualified?_eq_some hqualified
      -- nothing imports the root
      have hj : j ≠ 0 := by
        rintro rfl
        exact hroot i (Array.getElem?_eq_some_iff.mp hm).1 (mem_importsOf hm hfind)
      have hname : target.name ++ "." ++ member = topName j target member := by rw [topName, if_neg hj]
      dsimp only
      split
      · next hmember =>
        rw [hname]
        exact if_pos ((htops _).mpr ⟨j, target, htarget, member, hmember, rfl⟩)
      · next hmember =>
        -- a name that its target does not define stays, and no other module defines it by chance
        refine if_neg fun hmem => ?_
        obtain ⟨k, m', hm', v, hv, heq⟩ := (htops _).mp hmem
        unfold topName at heq
        split at heq
        · next hk =>
          subst hk
          exact h.root v hv ⟨j, target, member, Nat.pos_of_ne_zero hj, htarget, heq.symm⟩
        · obtain ⟨hsame, rfl⟩ := qualified_inj (hd.plain j target htarget) (hd.plain k m' hm') heq
          obtain rfl := hd.distinct j k target m' htarget hm' hsame
          exact hmember hv
    | none =>
      dsimp only
      -- a free name stays, as neither the root nor a qualified name catches it
      obtain ⟨hnot, hzero⟩ := hfree hw hqualified
      refine if_neg fun hmem => ?_
      obtain ⟨k, m', hm', v, hv, rfl⟩ := (htops _).mp hmem
      unfold topName at hnot hzero
      by_cases hk : k = 0
      · subst hk
        exact hzero (by simpa using hv)
      · exact hnot ⟨k, m', v, Nat.pos_of_ne_zero hk, hm', if_neg hk⟩

/-- **A copy of a module in the linked program**, under other handles, with the names as they are meant. -/
def copyOf (modules : Array Module) (bodies : Nat → List Term) (φ : Nat → Handle → Handle) (i : Nat) : List Term :=
  match modules[i]? with
  | some m =>
    respellAll Tree.scopedName (meaning modules bodies i m) [] (carryAll (φ i) (rereadAll ((bodies i).filter keeps)))
  | none => []

theorem Hygienic.respellAll_linkedModule (h : Hygienic modules bodies) (hd : Discovered modules)
    (hroot : ∀ i, i < modules.size → 0 ∉ importsOf modules i) {linkedTops : List String}
    (htops : ∀ v, v ∈ linkedTops ↔ ∃ (j : Nat) (m' : Module), modules[j]? = some m' ∧
      ∃ w ∈ definedAll (bodies j), v = topName j m' w) (φ : Nat → Handle → Handle) (i : Nat) :
    respellAll Tree.scopedName (Tree.outermost linkedTops Tree.scopedName id) []
      (carryAll (φ i) (rereadAll (linkedModule modules bodies i))) = copyOf modules bodies φ i := by
  unfold linkedModule copyOf
  cases hm : modules[i]? with
  | none => rfl
  | some m =>
    dsimp only
    have hi : i < modules.size := (Array.getElem?_eq_some_iff.mp hm).1
    have hbinders := BindersAll.copy (φ i) _ (h.locals i hi)
    have hcases : ∀ w, spelled modules i m (definedAll (bodies i)) w = w ∨
        ¬ ¬ IsQualified modules (spelled modules i m (definedAll (bodies i)) w) := fun w =>
      (spelled_cases hroot hm _ w).imp_right not_not_intro
    have huncaptured : OutsideAll (Uncaptured _) [] _ :=
      uncapturedAll_of_binders hcases _ (fun _ hframe => nomatch hframe) hbinders
    have hnil : Chain.carry (φ i) [] = [] := rfl
    rw [linkedTerms, respellAll_copy, hnil, respellAll_respellAll _ huncaptured]
    refine respellAll_congr_outer _ ?_
    refine OutsideAll.imp (fun _ w hw => ?_) _ (OutsideAll.copy (φ i) _ (h.free i m hm))
    exact h.outermost_spelled hd hroot hm htops hw

/-! ### Loading -/

/-- **How several modules are loaded**: the linked source is read, analysed and compiled. -/
theorem loadSource_eq_ok {sources : Sources} {path : Path} {source : String} {sorted : List Nat} {loaded : LoadedModule}
    (hmodules : discover sources path source = .ok modules) (hsorted : order modules = .ok sorted)
    (hsize : modules.size ≠ 1) (h : loadSource sources path source = .ok loaded) :
    ∃ t, Tree.parse (link modules sorted loaded.natives) = .ok t ∧ t.analyse = .ok loaded.tree := by
  unfold loadSource at h
  obtain ⟨modules', hmodules', h⟩ := Except.bind_eq_ok.mp h
  cases hmodules.symm.trans hmodules'
  obtain ⟨sorted', hsorted', h⟩ := Except.bind_eq_ok.mp h
  rw [hsorted] at hsorted'
  cases hsorted'
  dsimp only at h
  split at h
  · cases h
  · rw [if_neg hsize] at h
    obtain ⟨tree, htree, h⟩ := Except.bind_eq_ok.mp h
    obtain ⟨t, hparse, hanalyse⟩ := Except.bind_eq_ok.mp htree
    obtain ⟨pair, hpair, h⟩ := Except.bind_eq_ok.mp h
    cases hpair
    obtain ⟨program, -, h⟩ := Except.bind_eq_ok.mp h
    cases h
    exact ⟨t, hparse, hanalyse⟩

/-- The terms that a module contributes have handles of their own. -/
theorem Legible.nodup {natives : Names} (h : Legible modules natives bodies) (i : Nat) :
    (handlesAll (rereadAll (linkedModule modules bodies i))).Nodup := by
  rw [handlesAll_rereadAll, linkedModule]
  cases hm : modules[i]? with
  | none => exact List.nodup_nil
  | some m =>
    obtain ⟨_, t, strays, -, hholds, -⟩ := h.of i m hm
    dsimp only
    -- the terms of a module are some of those that its tree holds, respelled
    rw [linkedTerms, handlesAll_respellAll]
    have hbody := (List.nodup_append.mp (List.nodup_cons.mp hholds.nodup).2).1
    exact (handlesAll_sublist List.filter_sublist).nodup hbody

/-- **The terms of the linked source**: declarations of the native libraries, and a copy of every module's terms. -/
theorem parse_link {natives : Names} (h : Legible modules natives bodies) (hd : Discovered modules) {sorted : List Nat}
    (hsorted : order modules = .ok sorted) {t : Tree} (hparse : Tree.parse (link modules sorted natives) = .ok t) :
    ∃ (declarations : List Term) (φ : Nat → Handle → Handle),
      (∀ x ∈ declarations, ∃ k library, x = .application k .code [.atom (.keyword "native"), .atom (.variable library)]) ∧
      t.Holds [.lambda Tree.top [] (declarations ++
        sorted.flatMap fun i => carryAll (φ i) (rereadAll (linkedModule modules bodies i)))] ∧
      t.analysed = false := by
  -- every line of the linked text is a term that can be read
  have hreadable : ReadableAll .code (natives.keys.map declaration ++ sorted.flatMap (linkedModule modules bodies)) := by
    refine readableAll_iff.mpr fun x hx => ?_
    rcases List.mem_append.mp hx with hx | hx
    · obtain ⟨library, hlibrary, rfl⟩ := List.mem_map.mp hx
      exact h.natives library hlibrary
    · obtain ⟨i, -, hx⟩ := List.mem_flatMap.mp hx
      unfold linkedModule at hx
      split at hx
      · next m hm => exact readableAll_iff.mp (h.readable i m hm) x hx
      · cases hx
  obtain ⟨t', body, hparse', hholds, hbody, hanalysed⟩ := Tree.parse_spelled hreadable (reads_link h hd.plain sorted)
  cases hparse.symm.trans hparse'
  rw [echoAll_append] at hbody
  obtain ⟨declarations, copies, rfl, hdeclarations, hcopies⟩ := blankAll_eq_append hbody
  have hflat : blankAll copies = blankAll (sorted.flatMap fun i => rereadAll (linkedModule modules bodies i)) := by
    rw [hcopies, echoAll, rereadAll_eq, List.map_flatMap]
    simp only [rereadAll_eq]
  -- the order names a module once, so that each copy can be told by the handles it has
  have hnodup : sorted.Nodup := (order_perm hsorted).nodup_iff.mpr List.nodup_range
  obtain ⟨φ, rfl⟩ := exists_copies hnodup h.nodup hflat
  refine ⟨declarations, φ, fun x hx => ?_, hholds, hanalysed⟩
  -- what stands before the copies was written from the names of the native libraries
  have hmem : x.blank ∈ blankAll declarations := by
    rw [blankAll_eq]
    exact List.mem_map_of_mem hx
  rw [hdeclarations, echoAll, rereadAll_eq, blankAll_eq, List.map_map, List.map_map] at hmem
  obtain ⟨library, -, heq⟩ := List.mem_map.mp hmem
  obtain ⟨k, rfl⟩ := eq_declaration_of_blank heq.symm
  exact ⟨k, library, rfl⟩

/-- **Linking respects the scopes of modules.** The linked program holds a copy of every module, in the order of the
modules. In each copy a name that a lambda binds refers to the copy of that lambda, and any other name to what it means in
its module; different definitions have different names. -/
theorem loadSource_scoped {sources : Sources} {path : Path} {source : String} {sorted : List Nat} {loaded : LoadedModule}
    (hmodules : discover sources path source = .ok modules) (hsorted : order modules = .ok sorted)
    (hsize : 1 < modules.size) (hloaded : loadSource sources path source = .ok loaded)
    (hlegible : Legible modules loaded.natives bodies) (hhygienic : Hygienic modules bodies) :
    (∃ (declarations : List Term) (φ : Nat → Handle → Handle),
      (∀ x ∈ declarations, ∃ k library, x = .application k .code [.atom (.keyword "native"), .atom (.variable library)]) ∧
      loaded.tree.Holds [.lambda Tree.top [] (declarations ++ sorted.flatMap (copyOf modules bodies φ))]) ∧
    ∀ (i j : Nat) (m m' : Module) (w v : String), modules[i]? = some m → modules[j]? = some m' →
      w ∈ definedAll (bodies i) → v ∈ definedAll (bodies j) → topName i m w = topName j m' v → i = j ∧ w = v := by
  have hd := discovered hmodules
  refine ⟨?_, fun i j m m' w v hm hm' hw hv => hhygienic.topName_inj hd hm hm' hw hv⟩
  obtain ⟨t, hparse, hanalyse⟩ := loadSource_eq_ok hmodules hsorted (Nat.ne_of_gt hsize) hloaded
  obtain ⟨declarations, φ, hdeclarations, hholds, hanalysed⟩ := parse_link hlegible hd hsorted hparse
  -- scope analysis respells what was read; its outermost names are the definitions of all modules
  have hrespelled := hholds.analyse_respell hanalysed hanalyse
  generalize hbody : declarations ++ _ = body at hrespelled
  have hnone : definedAll declarations = [] := by
    rw [definedAll_eq]
    refine List.flatMap_eq_nil_iff.mpr fun x hx => ?_
    obtain ⟨k, library, rfl⟩ := hdeclarations x hx
    rfl
  have htops : ∀ v, v ∈ definedAll body ↔ ∃ (j : Nat) (m : Module), modules[j]? = some m ∧
      ∃ w ∈ definedAll (bodies j), v = topName j m w := by
    intro v
    rw [← hbody, definedAll_eq, List.flatMap_append, ← definedAll_eq, ← definedAll_eq, hnone, List.nil_append,
      mem_definedAll_copies hhygienic]
    constructor
    · rintro ⟨i, -, m, hm, hw⟩
      exact ⟨i, m, hm, hw⟩
    · rintro ⟨i, m, hm, hw⟩
      have hi : i < modules.size := (Array.getElem?_eq_some_iff.mp hm).1
      exact ⟨i, (order_perm hsorted).mem_iff.mpr (List.mem_range.mpr hi), m, hm, hw⟩
  refine ⟨respellAll Tree.scopedName (Tree.outermost (definedAll body) Tree.scopedName id) [] declarations, φ, ?_, ?_⟩
  · intro x hx
    rw [respellAll_eq] at hx
    obtain ⟨y, hy, rfl⟩ := List.mem_map.mp hx
    obtain ⟨k, library, rfl⟩ := hdeclarations y hy
    exact ⟨k, _, rfl⟩
  · -- respelled once more in place, the copy of a module is its terms respelled in their own module
    have hcopies : respellAll Tree.scopedName (Tree.outermost (definedAll body) Tree.scopedName id) [] body =
        respellAll Tree.scopedName (Tree.outermost (definedAll body) Tree.scopedName id) [] declarations ++
          sorted.flatMap (copyOf modules bodies φ) := by
      nth_rewrite 2 [← hbody]
      rw [respellAll_eq, List.map_append, ← respellAll_eq, List.map_flatMap]
      refine congrArg _ (List.flatMap_congr fun i _ => ?_)
      rw [← respellAll_eq]
      exact hhygienic.respellAll_linkedModule hd (fun k hk => hd.not_root hsorted hk) htops φ i
    rwa [hcopies] at hrespelled

/-! ### Two modules

The procedure of one module has a parameter with the name of a variable of the other. -/

deriving instance DecidableEq for Module

/-- A module with one procedure. -/
def shadowing : Sources := Sources.inMemory [(Path.ofText "lib.scm", "(define (f x) x)")]

/-- A module that calls it. -/
def shadowingRoot : String := "(import L \"lib.scm\") (define x 'a) (display (L.f x))"

/-- The terms of the two modules. -/
def shadowingTerms : Nat → List Term
  | 0 => [
      .application 1 .code [.atom (.keyword "import"), .atom (.variable "L"), .string 2 "lib.scm"],
      .application 3 .code [.atom (.keyword "define"), .atom (.variable "x"), .atom (.symbol "a")],
      .application 4 .code [.atom (.keyword "display"),
        .application 5 .code [.atom (.variable "L.f"), .atom (.variable "x")]]]
  | 1 => [
      .application 1 .code [.atom (.keyword "define"), .atom (.variable "f"),
        .lambda 2 ["x"] [.atom (.variable "x")]]]
  | _ => []

/-- The tree of a source. -/
def analysedTree (source : String) : Tree := (Tree.parse source >>= Tree.analyse).toOption.getD default

/-- What discovery finds. -/
def shadowingModules : Array Module := #[
  { path := Path.ofText "main.scm", name := "main", tree := analysedTree shadowingRoot,
    imports := Table.ofList [("L", 1)] },
  { path := Path.ofText "lib.scm", name := "lib", tree := analysedTree "(define (f x) x)" }]

theorem shadowing_legible : Legible shadowingModules {} shadowingTerms where
  -- the two modules are read from their texts
  of i m hm := by
    rcases i with _ | _ | i
    · cases hm
      refine ⟨shadowingRoot, (Tree.parse shadowingRoot).toOption.getD default, [], by decide +kernel,
        ⟨⟨_, rfl⟩, ?_, by simp [LegalAll, Legal, shadowingTerms], by decide +kernel⟩, rfl, by decide +kernel⟩
      simp only [PlacedAll, Placed, shadowingTerms, and_true]
      decide +kernel
    · cases hm
      refine ⟨"(define (f x) x)", (Tree.parse "(define (f x) x)").toOption.getD default, [], by decide +kernel,
        ⟨⟨_, rfl⟩, ?_, by simp [LegalAll, Legal, shadowingTerms], by decide +kernel⟩, rfl, by decide +kernel⟩
      simp only [PlacedAll, Placed, shadowingTerms, and_true]
      decide +kernel
    · simp [shadowingModules] at hm
  unscoped i hi := by
    have hne : ∀ {w : String}, w.toList.head? ≠ some '&' → ∀ N x, w ≠ Tree.scopedName N x := by
      rintro w hw N x rfl
      exact hw (by simp [Tree.scopedName, Handle.label])
    refine EachAll.imp (fun _ w hw => hne hw) _ ?_
    rcases i with _ | _ | i
    · simp [shadowingTerms, EachAll, Each]
    · simp [shadowingTerms, EachAll, Each]
    · exact absurd (show i + 2 < 2 from hi) (by omega)
  line i m hm := by
    rcases i with _ | _ | i
    · cases hm
      decide
    · cases hm
      decide
    · simp [shadowingModules] at hm
  readable i m hm := by
    have hsymbols : Token.IsSymbol "x" ∧ Token.IsSymbol "a" ∧ Token.IsSymbol "lib.f" := by decide
    rcases i with _ | _ | i
    · cases hm
      have hterms : linkedTerms shadowingModules 0 shadowingModules[0] (shadowingTerms 0) = [
        .application 3 .code [.atom (.keyword "define"), .atom (.variable "x"), .atom (.symbol "a")],
        .application 4 .code [.atom (.keyword "display"),
          .application 5 .code [.atom (.variable "lib.f"), .atom (.variable "x")]]] := rfl
      change ReadableAll .code (linkedTerms shadowingModules 0 shadowingModules[0] (shadowingTerms 0))
      rw [hterms]
      simp [ReadableAll, Readable, Headed, opens, isKeyword, keywords, hsymbols]
    · cases hm
      have hterms : linkedTerms shadowingModules 1 shadowingModules[1] (shadowingTerms 1) = [
        .application 1 .code [.atom (.keyword "define"), .atom (.variable "lib.f"),
          .lambda 2 ["x"] [.atom (.variable "x")]]] := rfl
      change ReadableAll .code (linkedTerms shadowingModules 1 shadowingModules[1] (shadowingTerms 1))
      rw [hterms]
      simp [ReadableAll, Readable, Headed, opens, isKeyword, keywords, hsymbols]
    · simp [shadowingModules] at hm
  natives := nofun

theorem shadowing_hygienic : Hygienic shadowingModules shadowingTerms where
  declarations i hi := by
    rcases i with _ | _ | i
    · simp [shadowingTerms, keeps, defined, definition, definedAll]
    · simp [shadowingTerms, keeps, defined, definition, definedAll]
    · exact absurd (show i + 2 < 2 from hi) (by omega)
  locals i hi := by
    rcases i with _ | _ | i
    · simp [shadowingTerms, keeps, BindersAll, Binders]
    · have hx : ¬ IsQualified shadowingModules "x" := fun h => absurd h.dot (by decide)
      simp [shadowingTerms, keeps, BindersAll, Binders, definedAll, defined, hx]
    · exact absurd (show i + 2 < 2 from hi) (by omega)
  root w hw := by
    have hx : w = "x" := by simpa [shadowingTerms, definedAll, defined, definition] using hw
    rw [hx]
    exact fun h => absurd h.dot (by decide)
  free i m hm := by
    rcases i with _ | _ | i
    · cases hm
      have hqualified : qualified? shadowingModules shadowingModules[0] "L.f" = some (1, shadowingModules[1], "f") := rfl
      simp [shadowingTerms, keeps, OutsideAll, Outside, definedAll, defined, definition, hqualified]
    · cases hm
      simp [shadowingTerms, keeps, OutsideAll, Outside, definedAll, defined, definition, Chain.enter, Chain.binder?]
    · simp [shadowingModules] at hm

/-- The parameter stays the procedure's own, and the variable the root's. -/
theorem loadSource_scoped_shadowing :
    ∃ loaded, loadSource shadowing (Path.ofText "main.scm") shadowingRoot = .ok loaded ∧
      ∃ (declarations : List Term) (φ : Nat → Handle → Handle), loaded.tree.Holds
        [.lambda Tree.top [] (declarations ++ [1, 0].flatMap (copyOf shadowingModules shadowingTerms φ))] := by
  have hok : (loadSource shadowing (Path.ofText "main.scm") shadowingRoot).toOption.map (·.natives) = some {} := by
    decide +kernel
  cases hloaded : loadSource shadowing (Path.ofText "main.scm") shadowingRoot with
  | error e =>
    rw [hloaded] at hok
    cases hok
  | ok loaded =>
    rw [hloaded] at hok
    have hnatives : loaded.natives = {} := Option.some.inj hok
    have hmodules : discover shadowing (Path.ofText "main.scm") shadowingRoot = .ok shadowingModules := by decide +kernel
    have hsorted : order shadowingModules = .ok [1, 0] := by decide +kernel
    obtain ⟨⟨declarations, φ, -, hholds⟩, -⟩ := loadSource_scoped hmodules hsorted (by decide) hloaded
      (hnatives ▸ shadowing_legible) shadowing_hygienic
    exact ⟨loaded, rfl, declarations, φ, hholds⟩

/-- **Names can be captured.** The module leaves `x` free; linked, its `x` is that of the root. -/
theorem loadSource_captures_free_name :
    ((analysedTree "(define (f) x)").get? 2 = some (.lambda (some 1) [] [.atom (.variable "x")])) ∧
    (loadSource (Sources.inMemory [(Path.ofText "lib.scm", "(define (f) x)")]) (Path.ofText "main.scm")
        "(import L \"lib.scm\") (define x 'root) (display (L.f))").toOption.map
      (fun loaded => (loaded.tree.get? 2, loaded.tree.renamings.find? "&0.x")) =
      some (some (.lambda (some 1) [] [.atom (.variable "&0.x")]), some ⟨Tree.top, "x"⟩) := by
  decide +kernel

end SchemeMachine.Module
