import SchemeMachine.Proofs.Meaning.Translation
import SchemeMachine.Proofs.Number.Sign
import SchemeMachine.Proofs.Sound.Environment
import SchemeMachine.Proofs.Trees

/-!
# The heap behind an evaluation

Where on the heap the cells and the values of an evaluation are. A cell of an activation is a binding of its closure, under
the name that the variable has in the code; activations and lists are found by their numbers.

* `Meaning.World` says which object each activation and each list is, and `World.Grows` how worlds change.
* `Meaning.Represents` relates what an expression denotes to the value that the machine computes; a cell may hold a procedure
  that is still a label (`Meaning.Holds`).
* `Meaning.Mirrors` relates cells to bindings. It is kept by what makes objects (`Mirrors.keep`, `Mirrors.newList`,
  `Mirrors.newRegion`) and by what changes a binding (`Mirrors.write`).
* `Meaning.Mirrors.finds` is what a look-up of a variable finds.
-/

namespace SchemeMachine

open Expression

/-- The closures of a lineage stay the same objects. -/
theorem Heap.Grows.lineage {A A' : Handle → Prop} {H H' : Heap} (hg : Heap.Grows A H A' H') {start : Option Handle}
    {l : Ancestry} (hl : H.Lineage start l) : ∃ l', H'.Lineage start l' ∧ l'.map Prod.fst = l.map Prod.fst := by
  induction hl with
  | nil => exact ⟨[], .nil, rfl⟩
  | cons hc _ ih =>
    obtain ⟨c', hc', -, hparent⟩ := hg.closure? hc
    obtain ⟨l', hl', hmap⟩ := ih
    exact ⟨_, .cons hc' (hparent ▸ hl'), by rw [List.map_cons, List.map_cons, hmap]⟩

namespace Meaning

/-! ### Programs and worlds -/

/-- **A compiled program** with what it was compiled from, and the places of its labels. It declares no natives. -/
structure Build where
  tree : Tree
  roots : List Term
  blocks : List Block
  program : Program
  labels : LabelTable
  compiled : program.Compiled tree roots blocks
  ofCode : LabelTable.ofCode program.code = .ok labels
  natives : ∀ library, program.natives.contains library = false

namespace Build

variable (B : Build)

/-- What the machine runs. -/
def image : Image := ⟨B.program, B.labels⟩

/-- Where the code of each lambda and block stands. -/
noncomputable def layout : Layout B.program := B.compiled.layout

end Build

/-- The lambda of a region, and its names. -/
def Region.scope (r : Region) : Handle × List String := (r.lambda, r.names)

/-- **Where things are**: the heap, which closures are activations, the closure of each activation, and each list that has
been made. -/
structure World where
  heap : Heap
  acts : Handle → Prop
  regions : List (Handle × Region)
  lists : List Handle

namespace World

/-- **From one world to a later one**: nothing that is there goes away. -/
structure Grows (w w' : World) : Prop where
  heap : Heap.Grows w.acts w.heap w'.acts w'.heap
  regions : ∀ (i : Nat) (e : Handle × Region), w.regions[i]? = some e → w'.regions[i]? = some e
  lists : ∀ (n : Nat) (h : Handle), w.lists[n]? = some h → w'.lists[n]? = some h

/-- **What a closure sees**: the activations around it are among its ancestors, and the top lambda's is one of them. -/
structure Sees (w : World) (around : List Region) (start : Option Handle) : Prop where
  lineage : ∃ l, w.heap.Lineage start l ∧ ∀ r ∈ around, ∃ g ∈ l.map Prod.fst, w.regions[r.activation]? = some (g, r)
  rooted : ∃ r ∈ around, r.lambda = Tree.top

variable {w w' w'' : World} {around : List Region} {start : Option Handle}

namespace Grows

theorem refl (w : World) : w.Grows w := ⟨.refl, fun _ _ h => h, fun _ _ h => h⟩

theorem trans (h : w.Grows w') (h' : w'.Grows w'') : w.Grows w'' :=
  ⟨h.heap.trans h'.heap, fun i e he => h'.regions i e (h.regions i e he), fun n g hg => h'.lists n g (h.lists n g hg)⟩

theorem sees (h : w.Grows w') (hs : w.Sees around start) : w'.Sees around start := by
  obtain ⟨l, hl, hall⟩ := hs.lineage
  obtain ⟨l', hl', hmap⟩ := h.heap.lineage hl
  refine ⟨⟨l', hl', fun r hr => ?_⟩, hs.rooted⟩
  obtain ⟨g, hg, hregion⟩ := hall r hr
  exact ⟨g, hmap ▸ hg, h.regions _ _ hregion⟩

/-- What is no closure stays as it is. -/
theorem get? (h : w.Grows w') {j : Handle} {o : Object} (ho : w.heap.get? j = some o) (hne : ∀ c, o ≠ .closure c) :
    w'.heap.get? j = some o := by
  obtain ⟨o', ho', hgrows⟩ := h.heap.objects j o ho
  cases hgrows with
  | same => exact ho'
  | closure => exact absurd rfl (hne _)

end Grows

/-- What is seen from further out is seen from below. -/
theorem Sees.below (hs : w.Sees around start) {h : Handle} {c : Closure} (hc : w.heap.closure? h = some c)
    (hparent : c.parent = start) : w.Sees around (some h) := by
  obtain ⟨l, hl, hall⟩ := hs.lineage
  refine ⟨⟨(h, c) :: l, .cons hc (hparent ▸ hl), fun r hr => ?_⟩, hs.rooted⟩
  obtain ⟨g, hg, hregion⟩ := hall r hr
  exact ⟨g, List.mem_cons_of_mem _ hg, hregion⟩

end World

/-- The lambda that binds a name is that of the innermost activation that has a cell for it. -/
theorem binder?_scopes (around : List Region) (x : String) :
    Term.Chain.binder? (around.map Region.scope) x = (innermost? around x).map Region.lambda := by
  induction around with
  | nil => rfl
  | cons r around ih =>
    by_cases hx : x ∈ r.names
    · simp [Term.Chain.binder?, Region.scope, innermost?, hx]
    · simpa [Term.Chain.binder?, Region.scope, innermost?, hx] using ih

/-! ### Values -/

section

variable (B : Build) (w : World)

/-- The object of a list. -/
def Locates : Identity → Handle → Prop
  | .constant h, j => j = h ∧ B.program.constants.contains h = true
  | .made n, j => w.lists[n]? = some j

/-- The code of a lambda, among the activations around it. -/
abbrev HasCode (around : List Region) (N : Handle) (parameters names : List String) (body : List Expression) : Prop :=
  CompilesCode B.tree B.program.constants B.blocks (around.map Region.scope) N parameters names body

/-- **The value of what an expression denotes.** Numbers may differ in the sign of zero, as a closure may read a copy of
a variable that compares as equal. -/
inductive Represents : Denoted → Value → Prop
  | number {x y : Float} (hxy : Number.Agree x y) : Represents (.number x) (.number y)
  | boolean (b : Bool) : Represents (.boolean b) (.boolean b)
  | symbol (name : String) : Represents (.symbol name) (.symbol name)
  | primitive {word : String} (hword : word ∈ arithmeticWords ++ operationWords) :
      Represents (.primitive word) (.keyword word)
  | string {h : Handle} {content : String} (ho : w.heap.get? h = some (.string content)) :
      Represents (.string content) (.handle h)
  | list {identity : Identity} {h : Handle} {ds : List Denoted} {vs : List Value} (hat : Locates B w identity h)
      (ho : w.heap.get? h = some (.list vs)) (hlength : ds.length = vs.length)
      (hitems : ∀ (i : Nat) (d : Denoted) (v : Value), ds[i]? = some d → vs[i]? = some v → Represents d v) :
      Represents (.list identity ds) (.handle h)
  | procedure {h N : Handle} {c : Closure} {parameters names : List String} {body : List Expression}
      {around : List Region} (hc : w.heap.closure? h = some c) (hnot : ¬w.acts h) (hlabel : c.label = Handle.label N)
      (hcode : HasCode B around N parameters names body) (hsees : w.Sees around (some h)) :
      Represents (.procedure N parameters names body around) (.handle h)

/-- **The binding of a cell** in the activation `g`: a value, or a procedure of its own code that is still a label. -/
inductive Holds (g : Handle) : Denoted → Value → Prop
  | value {d : Denoted} {v : Value} (hv : Represents B w d v) : Holds g d v
  | label {M N : Handle} {c : Closure} {parameters names : List String} {body : List Expression} {around : List Region}
      (hc : w.heap.closure? g = some c) (hlabel : c.label = Handle.label M) (hin : B.tree.Inside M N)
      (hcode : HasCode B around N parameters names body) (hsees : w.Sees around (some g)) :
      Holds g (.procedure N parameters names body around) (.label (Handle.label N))

/-- **The closure of an activation**: its bindings are the cells of the activation. -/
structure Keeps (cells : String → Option Denoted) (i : Nat) (g : Handle) (r : Region) : Prop where
  activation : r.activation = i
  act : w.acts g
  closure : ∃ c, w.heap.closure? g = some c ∧ c.label = Handle.label r.lambda ∧
    ∀ x, Option.Rel (Holds B w g) (cells x) (c.bound.find? (Tree.scopedName r.lambda x))
  inScope : ∀ x, x ∉ r.names → cells x = none

/-- **A heap that mirrors the cells** of an evaluation. -/
structure Mirrors (S : Store) : Prop where
  sound : w.heap.Sound B.layout False w.acts
  constants : ∀ h c, B.program.constants.find? h = some c → w.heap.get? h = some (Object.ofConstant c)
  founded : WellFounded w.heap.Listed
  activations : w.regions.length = S.activations
  regions : ∀ i g r, w.regions[i]? = some (g, r) → Keeps B w (S.cells i) i g r
  region_unique : ∀ (i j : Nat) (g : Handle) (r r' : Region), w.regions[i]? = some (g, r) →
    w.regions[j]? = some (g, r') → i = j
  /-- Cells belong to activations. -/
  unentered : ∀ i x, S.activations ≤ i → S.cells i x = none
  lists : w.lists.length = S.lists
  list_unique : ∀ (m n : Nat) (h : Handle), w.lists[m]? = some h → w.lists[n]? = some h → m = n
  lists_live : ∀ h ∈ w.lists, (w.heap.get? h).isSome = true
  lists_made : ∀ h ∈ w.lists, B.program.constants.contains h = false

end

variable {B : Build} {w w' : World} {S : Store} {d : Denoted} {v v' : Value} {g : Handle} {around : List Region}
  {start : Option Handle} {l : Ancestry}

/-! ### Values in a later world -/

theorem Represents.mono (hw : w.Grows w') (hv : Represents B w d v) : Represents B w' d v := by
  induction hv with
  | number hxy => exact .number hxy
  | boolean b => exact .boolean b
  | symbol name => exact .symbol name
  | primitive hword => exact .primitive hword
  | string ho => exact .string (hw.get? ho nofun)
  | @list identity h ds vs hat ho hlength _ ih =>
    refine .list ?_ (hw.get? ho nofun) hlength ih
    cases identity with
    | constant h => exact hat
    | made n => exact hw.lists n _ hat
  | procedure hc hnot hlabel hcode hsees =>
    obtain ⟨c', hc', hlabel', -⟩ := hw.heap.closure? hc
    exact .procedure hc' (fun hact => hnot ((hw.heap.act hc).mp hact)) (hlabel'.trans hlabel) hcode (hw.sees hsees)

theorem Holds.mono (hw : w.Grows w') (hv : Holds B w g d v) : Holds B w' g d v := by
  cases hv with
  | value hv => exact .value (hv.mono hw)
  | label hc hlabel hin hcode hsees =>
    obtain ⟨c', hc', hlabel', -⟩ := hw.heap.closure? hc
    exact .label hc' (hlabel'.trans hlabel) hin hcode (hw.sees hsees)

theorem Holds.rel_mono (hw : w.Grows w') {a : Option Denoted} {b : Option Value} (h : Option.Rel (Holds B w g) a b) :
    Option.Rel (Holds B w' g) a b := by
  cases h with
  | none => exact .none
  | some h => exact .some (h.mono hw)

/-- A value that compares as equal represents the same. -/
theorem Represents.of_same (hv : Represents B w d v) (hsame : v' = v ∨ v'.same v = true) : Represents B w d v' := by
  rcases hsame with rfl | hsame
  · exact hv
  · cases hv with
    | number hxy =>
      obtain ⟨y', rfl, hy⟩ := Value.same_number.mp (Value.same_symm hsame)
      exact .number (hxy.trans (Number.agree_of_beq hy))
    | _ =>
      obtain rfl := (Value.same_of_number?_eq_none rfl).mp (Value.same_symm hsame)
      constructor <;> assumption

theorem Holds.of_same (hv : Holds B w g d v) (hsame : v' = v ∨ v'.same v = true) : Holds B w g d v' := by
  cases hv with
  | value hv => exact .value (hv.of_same hsame)
  | label hc hlabel hin hcode hsees =>
    have heq : v' = .label _ := hsame.elim id fun hsame =>
      ((Value.same_of_number?_eq_none rfl).mp (Value.same_symm hsame)).symm
    subst heq
    exact .label hc hlabel hin hcode hsees

/-- What is represented is a value for programs. -/
theorem Represents.settled (hs : w.heap.Sound B.layout False w.acts) (hv : Represents B w d v) :
    v.Settled w.acts w.heap := by
  have hobject : ∀ {h : Handle} {o : Object}, w.heap.get? h = some o → (∀ c, o ≠ .closure c) →
      (Value.handle h).Settled w.acts w.heap := by
    intro h o ho hne
    refine ⟨by rw [ho]; rfl, fun hact => ?_⟩
    obtain ⟨c, hc⟩ := hs.acts h hact
    exact hne c (Option.some.inj (ho.symm.trans (Heap.closure?_eq_some.mp hc)))
  cases hv with
  | string ho => exact hobject ho nofun
  | list _ ho => exact hobject ho nofun
  | procedure hc hnot => exact ⟨by rw [Heap.closure?_eq_some.mp hc]; rfl, hnot⟩
  | _ => trivial

/-- A list of values, item by item. -/
theorem Represents.list_of_forall₂ {identity : Identity} {h : Handle} {ds : List Denoted} {vs : List Value}
    (hat : Locates B w identity h) (ho : w.heap.get? h = some (.list vs))
    (hitems : List.Forall₂ (Represents B w) ds vs) : Represents B w (.list identity ds) (.handle h) := by
  refine .list hat ho hitems.length_eq fun i d v hd hv => ?_
  obtain ⟨hi, rfl⟩ := List.getElem?_eq_some_iff.mp hd
  obtain ⟨hi', rfl⟩ := List.getElem?_eq_some_iff.mp hv
  exact (List.forall₂_iff_get.mp hitems).2 i hi hi'

/-- What represents a list is a list with what represents its items. -/
theorem Represents.exists_items {identity : Identity} {ds : List Denoted} (hv : Represents B w (.list identity ds) v) :
    ∃ h vs, v = .handle h ∧ Locates B w identity h ∧ w.heap.get? h = some (.list vs) ∧
      List.Forall₂ (Represents B w) ds vs := by
  cases hv with
  | list hat ho hlength hitems =>
    refine ⟨_, _, rfl, hat, ho, List.forall₂_iff_get.mpr ⟨hlength, fun i hi hi' => hitems i _ _ ?_ ?_⟩⟩ <;> simp

/-! ### New objects -/

/-- An entry of a list with one more is an old one or the new one. -/
theorem getElem?_concat {α : Type} {xs : List α} {x y : α} {i : Nat} (h : (xs ++ [x])[i]? = some y) :
    xs[i]? = some y ∨ i = xs.length ∧ y = x := by
  rw [List.getElem?_append] at h
  split at h
  · exact Or.inl h
  · rw [List.getElem?_singleton] at h
    split at h
    · cases h
      exact Or.inr ⟨by omega, rfl⟩
    · cases h

theorem Keeps.keep {cells : String → Option Denoted} {i : Nat} {r : Region} (hk : Keeps B w cells i g r)
    (hw : w.Grows w') (hkeep : ∀ j c, w.heap.closure? j = some c → w'.heap.closure? j = some c) :
    Keeps B w' cells i g r := by
  obtain ⟨hactivation, hact, ⟨c, hc, hlabel, hcells⟩, hnames⟩ := hk
  refine ⟨hactivation, (hw.heap.act hc).mpr hact, ⟨c, hkeep g c hc, hlabel, fun x => ?_⟩, hnames⟩
  exact Holds.rel_mono hw (hcells x)

namespace Mirrors

/-- Constants are kept. -/
theorem constants_mono (hm : Mirrors B w S) (hw : w.Grows w') (h : Handle) (c : Constant)
    (hc : B.program.constants.find? h = some c) : w'.heap.get? h = some (Object.ofConstant c) :=
  hw.get? (hm.constants h c hc) (by cases c <;> nofun)

/-- **A heap with more objects** mirrors the same cells. -/
theorem keep (hm : Mirrors B w S) {A : Handle → Prop} {H : Heap} (hs : H.Sound B.layout False A)
    (hg : Heap.Grows w.acts w.heap A H) (hkeep : ∀ j c, w.heap.closure? j = some c → H.closure? j = some c)
    (hfounded : WellFounded H.Listed) :
    w.Grows { w with heap := H, acts := A } ∧ Mirrors B { w with heap := H, acts := A } S := by
  have hw : w.Grows { w with heap := H, acts := A } := ⟨hg, fun _ _ h => h, fun _ _ h => h⟩
  refine ⟨hw, hs, hm.constants_mono hw, hfounded, hm.activations, fun i g r hr => (hm.regions i g r hr).keep hw hkeep,
    hm.region_unique, hm.unentered, hm.lists, hm.list_unique, fun h hh => ?_, hm.lists_made⟩
  obtain ⟨o, ho⟩ := Option.isSome_iff_exists.mp (hm.lists_live h hh)
  obtain ⟨o', ho', -⟩ := hg.objects h o ho
  rw [ho']
  rfl

/-- Closures stay as they are when an object is placed. -/
theorem closure?_allocate (hm : Mirrors B w S) (o : Object) (r : Option Handle) (j : Handle) (c : Closure)
    (hc : w.heap.closure? j = some c) : (w.heap.allocate o r).2.closure? j = some c :=
  Heap.closure?_eq_some.mpr (hm.sound.tidy.get?_allocate_of_some o r (Heap.closure?_eq_some.mp hc))

/-- **A new closure**, which is an activation if `P` says so. -/
theorem newClosure (hm : Mirrors B w S) {P : Prop} {c : Closure}
    (hentry : ∃ line n, B.layout.lines[c.address]? = some line ∧ line.instruction = .label c.label ∧
      line.spot = ⟨c.label, n, none⟩)
    (hbound : c.bound = {}) (hstill : ¬P → (B.program.enclosing.find? c.label).isSome)
    (hfresh : c.Fresh B.layout w.acts w.heap P) (r : Option Handle) :
    ∃ w', w'.heap = (w.heap.allocate (.closure c) r).2 ∧ w'.regions = w.regions ∧ w.Grows w' ∧ Mirrors B w' S ∧
      w'.heap.closure? w.heap.nextSlot = some c ∧ (w'.acts w.heap.nextSlot ↔ P) := by
  obtain ⟨hs, hg, hc⟩ := hm.sound.allocateClosure hentry hbound hstill hfresh r
  have hfounded : WellFounded (w.heap.allocate (.closure c) r).2.Listed := by
    refine Heap.wellFounded_of_lists hm.founded fun j items hj => ?_
    rw [Heap.get?_allocate hm.sound.tidy] at hj
    split at hj
    · cases hj
    · exact hj
  obtain ⟨hw, hm'⟩ := hm.keep hs hg (hm.closure?_allocate _ r) hfounded
  exact ⟨⟨_, fun j => w.acts j ∨ P ∧ j = w.heap.nextSlot, w.regions, w.lists⟩, rfl, rfl, hw, hm', hc,
    by simp [hm.sound.not_act_nextSlot]⟩

/-- **A new list.** -/
theorem newList (hm : Mirrors B w S) {ds : List Denoted} {vs : List Value}
    (hitems : List.Forall₂ (Represents B w) ds vs) (r : Option Handle) :
    ∃ w', w'.heap = (w.heap.allocate (.list vs) r).2 ∧ w.Grows w' ∧ Mirrors B w' { S with lists := S.lists + 1 } ∧
      Represents B w' (.list (.made S.lists) ds) (.handle w.heap.nextSlot) := by
  have hsettled : ∀ v ∈ vs, v.Settled w.acts w.heap := by
    intro v hv
    obtain ⟨i, hi, rfl⟩ := List.getElem_of_mem hv
    exact ((List.forall₂_iff_get.mp hitems).2 i (hitems.length_eq ▸ hi) hi).settled hm.sound
  obtain ⟨hs, hg, hnew⟩ := hm.sound.allocate (o := .list vs) nofun hsettled r
  have hfounded : WellFounded (w.heap.allocate (.list vs) r).2.Listed :=
    Heap.wellFounded_allocate hm.sound.tidy hm.founded hm.sound.live (fun j hj => (hsettled _ hj).1) r
  have hnext : w.heap.get? w.heap.nextSlot = none := hm.sound.tidy.get?_nextSlot
  -- the new list is none of those made before
  have hfresh : w.heap.nextSlot ∉ w.lists := by
    intro hmem
    have hsome := hm.lists_live _ hmem
    rw [hnext] at hsome
    cases hsome
  obtain ⟨hw, hm'⟩ := hm.keep hs hg (hm.closure?_allocate _ r) hfounded
  have hw' : w.Grows ⟨_, w.acts, w.regions, w.lists ++ [w.heap.nextSlot]⟩ :=
    ⟨hg, hw.regions, fun n h hn => by rw [List.getElem?_append_left (List.getElem?_eq_some_iff.mp hn).1, hn]⟩
  have hitems' : List.Forall₂ (Represents B ⟨_, w.acts, w.regions, w.lists ++ [w.heap.nextSlot]⟩) ds vs :=
    hitems.imp fun _ _ h => h.mono hw'
  refine ⟨_, rfl, hw', { hm' with
      regions := fun i g r hr => (hm.regions i g r hr).keep hw' (hm.closure?_allocate _ _)
      lists := ?_, list_unique := ?_, lists_live := ?_, lists_made := ?_ },
    .list_of_forall₂ (by simp [Locates, hm.lists]) (by simp [Heap.get?_allocate hm.sound.tidy]) hitems'⟩
  · simp [hm.lists]
  · intro m n h hmth hnth
    rcases getElem?_concat hmth with hmth | ⟨rfl, rfl⟩ <;>
      rcases getElem?_concat hnth with hnth | ⟨rfl, hh⟩
    · exact hm.list_unique m n h hmth hnth
    · exact absurd (List.mem_of_getElem? (hh ▸ hmth)) hfresh
    · exact absurd (List.mem_of_getElem? hnth) hfresh
    · rfl
  · intro h hh
    rcases List.mem_append.mp hh with hh | hh
    · exact hm'.lists_live h hh
    · rw [List.mem_singleton.mp hh]
      exact hnew.1
  · intro h hh
    rcases List.mem_append.mp hh with hh | hh
    · exact hm.lists_made h hh
    · rw [List.mem_singleton.mp hh, Bool.eq_false_iff]
      intro hcontains
      obtain ⟨c, hc⟩ := Table.contains_iff.mp hcontains
      rw [hm.constants _ c hc] at hnext
      cases hnext

/-- **A new activation** of a lambda: a closure that binds nothing yet. -/
theorem newRegion (hm : Mirrors B w S) {N : Handle} {c : Closure} (hact : w.acts g) (hc : w.heap.closure? g = some c)
    (hlabel : c.label = Handle.label N) (hbound : c.bound = {}) (hfresh : ∀ (i : Nat) r, w.regions[i]? ≠ some (g, r))
    (names : List String) :
    ∃ w', w'.heap = w.heap ∧ w'.acts = w.acts ∧ w.Grows w' ∧
      Mirrors B w' { S with activations := S.activations + 1 } ∧
      w'.regions[S.activations]? = some (g, ⟨S.activations, N, names⟩) := by
  have hw : w.Grows { w with regions := w.regions ++ [(g, ⟨S.activations, N, names⟩)] } :=
    ⟨.refl, fun i e he => by rw [List.getElem?_append_left (List.getElem?_eq_some_iff.mp he).1, he], fun _ _ h => h⟩
  -- a region is an old one, or the new one at the end
  have hregions : ∀ {i : Nat} {e : Handle × Region},
      (w.regions ++ [(g, (⟨S.activations, N, names⟩ : Region))])[i]? = some e →
      w.regions[i]? = some e ∨ i = S.activations ∧ e = (g, ⟨S.activations, N, names⟩) := by
    rw [← hm.activations]
    exact getElem?_concat
  refine ⟨{ w with regions := w.regions ++ [(g, ⟨S.activations, N, names⟩)] }, rfl, rfl, hw, { hm with
    regions := fun i g' r hi => ?_, region_unique := fun i j g' r r' hi hj => ?_
    activations := by simp [hm.activations]
    unentered := fun i x hi => hm.unentered i x (Nat.le_of_succ_le hi) }, by simp [← hm.activations]⟩
  · rcases hregions hi with hi | ⟨rfl, he⟩
    · exact (hm.regions i g' r hi).keep hw fun _ _ h => h
    · cases he
      refine ⟨rfl, hact, ⟨c, hc, hlabel, fun x => ?_⟩, fun x _ => hm.unentered _ x (Nat.le_refl _)⟩
      rw [hbound, show S.cells S.activations x = none from hm.unentered _ x (Nat.le_refl _)]
      exact .none
  · rcases hregions hi with hi | ⟨rfl, he⟩ <;> rcases hregions hj with hj | ⟨rfl, he'⟩
    · exact hm.region_unique i j g' r r' hi hj
    · cases he'
      exact absurd hi (hfresh i r)
    · cases he
      exact absurd hj (hfresh j r')
    · rfl

/-! ### Changed bindings -/

/-- **Changes of closures that bind none of the cells** leave the mirror. -/
theorem change (hm : Mirrors B w S) {S' : Store} {H : Heap} {f : Handle → Closure → Closure} (hf : w.heap.Changes H f)
    (hs : H.Sound B.layout False w.acts) (hg : Heap.Grows w.acts w.heap w.acts H)
    (hcounts : S'.activations = S.activations ∧ S'.lists = S.lists)
    (hunentered : ∀ i x, S.activations ≤ i → S'.cells i x = none)
    (hcells : ∀ i g r c, w.regions[i]? = some (g, r) → w.heap.closure? g = some c → c.label = Handle.label r.lambda →
      (∀ x, Option.Rel (Holds B { w with heap := H } g) (S'.cells i x) ((f g c).bound.find? (Tree.scopedName r.lambda x))) ∧
      ∀ x, x ∉ r.names → S'.cells i x = none) :
    w.Grows { w with heap := H } ∧ Mirrors B { w with heap := H } S' := by
  have hw : w.Grows { w with heap := H } := ⟨hg, fun _ _ h => h, fun _ _ h => h⟩
  refine ⟨hw, hs, hm.constants_mono hw, ?_, hm.activations.trans hcounts.1.symm, fun i g r hi => ?_, hm.region_unique,
    fun i x hi => hunentered i x (hcounts.1 ▸ hi), hm.lists.trans hcounts.2.symm, hm.list_unique, fun h hh => ?_,
    hm.lists_made⟩
  · refine Heap.wellFounded_of_lists hm.founded fun j items hj => ?_
    rw [hf.get?] at hj
    obtain ⟨o, ho, hlist⟩ := Option.map_eq_some_iff.mp hj
    cases o <;> cases hlist
    exact ho
  · obtain ⟨hactivation, hact, ⟨c, hc, hlabel, -⟩, -⟩ := hm.regions i g r hi
    obtain ⟨hrel, hnames⟩ := hcells i g r c hi hc hlabel
    obtain ⟨c', hc', hlabel', -⟩ := hg.closure? hc
    obtain rfl : c' = f g c := Option.some.inj (hc'.symm.trans (hf.closure? hc))
    exact ⟨hactivation, hact, ⟨_, hc', hlabel'.trans hlabel, hrel⟩, hnames⟩
  · obtain ⟨o, ho⟩ := Option.isSome_iff_exists.mp (hm.lists_live h hh)
    rw [hf.get?, ho]
    rfl

/-- **A cell is written**: its binding gets the value, and no other one. -/
theorem write (hm : Mirrors B w S) {H : Heap} {f : Handle → Closure → Closure} (hf : w.heap.Changes H f)
    (hs : H.Sound B.layout False w.acts) (hg : Heap.Grows w.acts w.heap w.acts H) {i : Nat} {r : Region} {x : String}
    (hr : w.regions[i]? = some (g, r)) (hx : x ∈ r.names) (hv : Holds B w g d v)
    (hbound : ∀ j c, w.heap.closure? j = some c →
      (f j c).bound = if j = g then c.bound.insert (Tree.scopedName r.lambda x) v else c.bound) :
    w.Grows { w with heap := H } ∧ Mirrors B { w with heap := H } (S.set i x d) := by
  have hw : w.Grows { w with heap := H } := ⟨hg, fun _ _ h => h, fun _ _ h => h⟩
  refine hm.change hf hs hg ⟨rfl, rfl⟩ (fun j y hj => ?_) fun j g' r' c hj hc hlabel => ?_
  · have hlt := (List.getElem?_eq_some_iff.mp hr).1
    rw [hm.activations] at hlt
    rw [Store.cells_set, if_neg (fun heq => by omega)]
    exact hm.unentered j y hj
  obtain ⟨-, -, ⟨c', hc', -, hrel⟩, hnames⟩ := hm.regions j g' r' hj
  obtain rfl : c = c' := Option.some.inj (hc.symm.trans hc')
  rw [hbound g' c hc]
  -- the region of the cell, or another one
  by_cases hgg : g' = g
  · subst hgg
    obtain rfl := hm.region_unique i j g' r r' hr hj
    cases hr.symm.trans hj
    rw [if_pos rfl]
    refine ⟨fun y => ?_, fun y hy => ?_⟩
    · by_cases hxy : y = x
      · subst hxy
        rw [Store.cells_set, if_pos ⟨rfl, rfl⟩, Table.find?_insert_self]
        exact .some (hv.mono hw)
      · -- names of variables are distinct in the code as they are in the source
        have hne : ¬(i = i ∧ y = x) := fun h => hxy h.2
        rw [Store.cells_set, if_neg hne, Table.find?_insert_of_ne _ fun h => hxy (Tree.scopedName_inj h).2]
        exact Holds.rel_mono hw (hrel y)
    · have hne : ¬(i = i ∧ y = x) := fun h => hy (h.2 ▸ hx)
      rw [Store.cells_set, if_neg hne]
      exact hnames y hy
  · have hij : j ≠ i := by
      rintro rfl
      cases hr.symm.trans hj
      exact hgg rfl
    have hcells : ∀ y, (S.set i x d).cells j y = S.cells j y := fun y => if_neg fun h => hij h.1
    rw [if_neg hgg]
    refine ⟨fun y => ?_, fun y hy => ?_⟩
    · rw [hcells]
      exact Holds.rel_mono hw (hrel y)
    · rw [hcells]
      exact hnames y hy

/-- **A binding that is no cell is written.** -/
theorem scratch (hm : Mirrors B w S) {H : Heap} {f : Handle → Closure → Closure} (hf : w.heap.Changes H f)
    (hs : H.Sound B.layout False w.acts) (hg : Heap.Grows w.acts w.heap w.acts H)
    (hbound : ∀ (i : Nat) j r c, w.regions[i]? = some (j, r) → (f j c).bound = c.bound) :
    w.Grows { w with heap := H } ∧ Mirrors B { w with heap := H } S := by
  have hw : w.Grows { w with heap := H } := ⟨hg, fun _ _ h => h, fun _ _ h => h⟩
  refine hm.change hf hs hg ⟨rfl, rfl⟩ hm.unentered fun j g' r' c hj hc hlabel => ?_
  obtain ⟨-, -, ⟨c', hc', -, hrel⟩, hnames⟩ := hm.regions j g' r' hj
  obtain rfl : c = c' := Option.some.inj (hc.symm.trans hc')
  rw [hbound j g' r' c hj]
  exact ⟨fun y => Holds.rel_mono hw (hrel y), hnames⟩

/-! ### Look-ups -/

/-- **Who binds the variable of a region**: its closure, once the cell has been written. -/
theorem binder (hm : Mirrors B w S) (hl : w.heap.Lineage start l) {i : Nat} {r : Region}
    (hr : w.regions[i]? = some (g, r)) (hg : g ∈ l.map Prod.fst) (x : String) :
    (S.cells i x = none ∧ l.binder? (Tree.scopedName r.lambda x) = none) ∨
      ∃ c d v, S.cells i x = some d ∧ l.binder? (Tree.scopedName r.lambda x) = some (g, c) ∧
        c.bound.find? (Tree.scopedName r.lambda x) = some v ∧ Holds B w g d v := by
  obtain ⟨⟨_, c⟩, he, rfl⟩ := List.mem_map.mp hg
  obtain ⟨-, hact, ⟨c', hc', hlabel, hrel⟩, -⟩ := hm.regions i _ r hr
  obtain rfl : c = c' := Option.some.inj ((hl.closure?_of_mem he).symm.trans hc')
  have howns : B.layout.owns c.label (Tree.scopedName r.lambda x) := Or.inl ⟨r.lambda, x, hlabel, rfl⟩
  -- a variable has one binder in a lineage
  have hunique : ∀ e, l.binder? (Tree.scopedName r.lambda x) = some e → e = (_, c) := fun e hb =>
    hm.sound.binder_unique hl he hact howns hb
  have hx := hrel x
  -- the cell is empty just if the closure does not bind the variable yet
  cases hcell : S.cells i x with
  | none =>
    rw [hcell] at hx
    refine Or.inl ⟨rfl, ?_⟩
    cases hb : l.binder? (Tree.scopedName r.lambda x) with
    | none => rfl
    | some e =>
      obtain ⟨v, hv⟩ := Ancestry.bound_of_binder? hb
      rw [hunique e hb] at hv
      rw [hv] at hx
      cases hx
  | some d =>
    rw [hcell] at hx
    cases hv : c.bound.find? (Tree.scopedName r.lambda x) with
    | none =>
      rw [hv] at hx
      cases hx
    | some v =>
      rw [hv] at hx
      refine Or.inr ⟨c, d, v, rfl, ?_, hv, by cases hx; assumption⟩
      cases hb : l.binder? (Tree.scopedName r.lambda x) with
      | none =>
        have hnone := Ancestry.binder?_eq_none.mp hb _ he
        rw [hv] at hnone
        cases hnone
      | some e => rw [hunique e hb]

/-- No code owns the name of a variable. -/
theorem binder?_of_isOrdinary (hm : Mirrors B w S) (hl : w.heap.Lineage start l) {x : String}
    (hx : isOrdinary x = true) : l.binder? x = none := by
  cases hb : l.binder? x with
  | none => rfl
  | some e =>
    obtain ⟨v, hv⟩ := Ancestry.bound_of_binder? hb
    obtain ⟨-, howns⟩ := hm.sound.owns_of_bound (hl.closure?_of_mem (Ancestry.mem_of_binder? hb)) hv
    rcases howns with ⟨M, y, -, rfl⟩ | ⟨n, rfl, -⟩ | ⟨n, i, -, rfl⟩
    · simp [isOrdinary, Tree.scopedName, Handle.label] at hx
    · simp [isOrdinary, Piece.resumeLabel] at hx
    · simp [isOrdinary, Piece.blockLabel] at hx

/-- **What a variable is found to be**: the cell of the innermost activation that has one for it, if that has been
written. -/
theorem finds (hm : Mirrors B w S) (hsees : w.Sees around start) (hl : w.heap.Lineage start l) {x spelling : String}
    (hname : Spelt (around.map Region.scope) x spelling) :
    ((innermost? around x).bind (fun r => S.cells r.activation x) = none ∧ l.binder? spelling = none) ∨
      ∃ r g c d v, innermost? around x = some r ∧ S.cells r.activation x = some d ∧
        w.regions[r.activation]? = some (g, r) ∧ x ∈ r.names ∧ spelling = Tree.scopedName r.lambda x ∧
        l.binder? spelling = some (g, c) ∧ c.bound.find? spelling = some v ∧ Holds B w g d v := by
  obtain ⟨l', hl', hall⟩ := hsees.lineage
  obtain rfl := hl.unique hl'
  have hbinder := binder?_scopes around x
  cases hr : innermost? around x with
  | some r =>
    rw [hr] at hbinder
    obtain rfl := hname.eq_of_binder hbinder
    obtain ⟨g, hg, hregion⟩ := hall r (List.mem_of_find?_eq_some hr)
    have hx : x ∈ r.names := by simpa using List.find?_some hr
    rcases hm.binder hl hregion hg x with hnone | ⟨c, d, v, hcell, hb, hv, hheld⟩
    · exact Or.inl hnone
    · exact Or.inr ⟨r, g, c, d, v, rfl, hcell, hregion, hx, rfl, hb, hv, hheld⟩
  | none =>
    rw [hr] at hbinder
    refine Or.inl ⟨rfl, ?_⟩
    rw [Spelt, show Term.Chain.binder? _ x = none from hbinder] at hname
    obtain ⟨hordinary, rfl | rfl⟩ := hname
    · exact hm.binder?_of_isOrdinary hl hordinary
    · -- the top lambda does not bind the name
      obtain ⟨r, hmem, hroot⟩ := hsees.rooted
      obtain ⟨g, hg, hregion⟩ := hall r hmem
      have hx : x ∉ r.names := by simpa using List.find?_eq_none.mp hr r hmem
      rcases hm.binder hl hregion hg x with ⟨-, hb⟩ | ⟨c, d, v, hcell, -⟩
      · rwa [hroot] at hb
      · rw [(hm.regions _ g r hregion).inScope x hx] at hcell
        cases hcell

end Mirrors

end Meaning

end SchemeMachine
