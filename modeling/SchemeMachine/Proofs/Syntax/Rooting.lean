import Mathlib.Logic.Relation
import SchemeMachine.Proofs.Syntax.Analysis

/-!
# Parsed trees hang together

The nodes of a tree stand in one array. A form allocates some before their children and some after them,
and hangs them below each other as it goes. What comes out is a forest: the nodes that a node lists as its
children are the nodes that name it as their parent, and the way up from any node ends at a root.

* `Tree.Hangs` says that the nodes of a tree hang together below some roots.
* `Tree.Holds.hangs` proves it of a tree that holds terms, along the syntax of the terms.
* `Tree.parse_hangs` is the result for a source text. Besides the top lambda the roots are the clauses of
  `cond` behind an `else` clause, as far as these have nodes: they are built and hang nowhere.
-/

namespace SchemeMachine

open Term

/-! ### Parents and children -/

/-- What a node lists as its children. -/
def Node.children : Node → List Child
  | .lambda _ _ body => body
  | .application _ _ children => children
  | .string _ _ => []

namespace Tree

/-- What hangs below a node, nothing if there is no such node. -/
def childrenOf (t : Tree) (h : Handle) : List Child := ((t.get? h).map Node.children).getD []

/-- The parent that a node names. -/
def parentOf? (t : Tree) (h : Handle) : Option Handle := (t.get? h).bind Node.parent

/-- One step up: the second node is the parent of the first. -/
def Below (t : Tree) (k h : Handle) : Prop := t.parentOf? k = some h

/-- **The nodes of a tree hang together below some roots.** -/
structure Hangs (t : Tree) (roots : List Handle) : Prop where
  distinct : roots.Nodup
  present : ∀ r ∈ roots, r < t.size
  /-- Children are nodes of the tree. -/
  inside : ∀ h k, .node k ∈ t.childrenOf h → k < t.size
  /-- A root has no parent and is nobody's child. -/
  free : ∀ r ∈ roots, t.parentOf? r = none ∧ ∀ h, .node r ∉ t.childrenOf h
  /-- Any other node is a child once, of the node that it names as its parent and of no other. -/
  hung : ∀ k < t.size, k ∉ roots → ∃ h, t.parentOf? k = some h ∧
    (t.childrenOf h).count (.node k) = 1 ∧ ∀ j, .node k ∈ t.childrenOf j → j = h
  /-- The way up ends at a root. -/
  climbs : ∀ k < t.size, ∃ r ∈ roots, Relation.ReflTransGen t.Below k r

variable {t : Tree} {roots roots' : List Handle}

/-- The roots are the nodes without a parent. -/
theorem Hangs.mem_roots_iff (h : t.Hangs roots) {k : Handle} :
    k ∈ roots ↔ k < t.size ∧ t.parentOf? k = none := by
  constructor
  · intro hk
    exact ⟨h.present k hk, (h.free k hk).1⟩
  · rintro ⟨hlt, hnone⟩
    by_contra hk
    obtain ⟨p, hp, -⟩ := h.hung k hlt hk
    cases hnone.symm.trans hp

/-- A tree has the same roots, however one lists them. -/
theorem Hangs.perm (h : t.Hangs roots) (h' : t.Hangs roots') : roots.Perm roots' :=
  (List.perm_ext_iff_of_nodup h.distinct h'.distinct).mpr fun _ => h.mem_roots_iff.trans h'.mem_roots_iff.symm

end Tree

/-! ### Items of a term -/

namespace Term

variable {t : Tree} {x y : Term} {parent : Option Handle} {h k : Handle}

/-- The terms directly below a term. -/
def items : Term → List Term
  | .lambda _ _ body => body
  | .application _ _ items => items
  | _ => []

/-- The nodes at the top of several terms; an atom has none. -/
def stems (xs : List Term) : List Handle := xs.filterMap fun x => x.child.node?

theorem mem_stems {xs : List Term} : k ∈ stems xs ↔ ∃ x ∈ xs, x.child = .node k := by
  simp only [stems, List.mem_filterMap]
  refine exists_congr fun x => and_congr_right fun _ => ?_
  cases x.child <;> simp [Child.node?]

theorem stems_sublist (xs : List Term) : (stems xs).Sublist (handlesAll xs) := by
  induction xs with
  | nil => exact List.Sublist.refl _
  | cons x xs ih =>
    cases x with
    | atom a => exact ih
    | string k content => exact ih.cons_cons k
    | lambda k parameters body => exact (ih.trans (List.sublist_append_right _ _)).cons_cons k
    | application k quotation items => exact (ih.trans (List.sublist_append_right _ _)).cons_cons k

theorem count_child (k : Handle) (xs : List Term) : (xs.map child).count (.node k) = (stems xs).count k := by
  induction xs with
  | nil => rfl
  | cons x xs ih =>
    simp only [List.map_cons, List.count_cons, ih, stems, List.filterMap_cons]
    cases x.child with
    | atom a => simp [Child.node?]
    | node j => simp [Child.node?, List.count_cons]

/-- Several terms have no nodes just if they are atoms. -/
theorem stems_eq_nil_iff (xs : List Term) : stems xs = [] ↔ ∀ x ∈ blankAll xs, ∃ a, x = .atom a := by
  rw [stems, List.filterMap_eq_nil_iff, blankAll_eq, List.forall_mem_map]
  refine forall₂_congr fun x _ => ?_
  cases x <;> simp [child, Child.node?, blank]

theorem handlesAll_items_sublist (x : Term) : (handlesAll x.items).Sublist x.handles := by
  cases x with
  | atom a => exact List.Sublist.refl _
  | string k content => exact List.nil_sublist _
  | lambda k parameters body => exact List.sublist_cons_self _ _
  | application k quotation items => exact List.sublist_cons_self _ _

/-- A proper part of a term is an item of a part. -/
theorem Sub.item_of (hs : Sub y x) : y = x ∨ ∃ z, Sub z x ∧ y ∈ z.items := by
  -- along the way from the term down to the part
  induction hs with
  | refl => exact .inl rfl
  | @body z k parameters body hz hs ih =>
    obtain rfl | ⟨w, hw, hy⟩ := ih
    · exact .inr ⟨_, .refl _, hz⟩
    · exact .inr ⟨w, .body hz hw, hy⟩
  | @item z k quotation items hz hs ih =>
    obtain rfl | ⟨w, hw, hy⟩ := ih
    · exact .inr ⟨_, .refl _, hz⟩
    · exact .inr ⟨w, .item hz hw, hy⟩

/-- A term with items has a node. -/
theorem exists_child_of_mem_items (hy : y ∈ x.items) : ∃ h, x.child = .node h := by
  cases x with
  | atom a => cases hy
  | _ => exact ⟨_, rfl⟩

/-- A term with a part that has a node has a node itself. -/
theorem Sub.exists_child (hs : Sub y x) (hy : y.child = .node k) : ∃ h, x.child = .node h := by
  cases hs with
  | refl => exact ⟨k, hy⟩
  | body hz hs => exact ⟨_, rfl⟩
  | item hz hs => exact ⟨_, rfl⟩

/-! ### The nodes of a placed term -/

theorem Placed.parentOf? (hx : x.Placed t parent) (hc : x.child = .node h) : t.parentOf? h = parent := by
  cases x with
  | atom a => cases hc
  | string k content =>
    cases hc
    simp [Tree.parentOf?, show t.get? h = some (.string parent content) from hx, Node.parent]
  | lambda k parameters body => cases hc; simp [Tree.parentOf?, hx.1, Node.parent]
  | application k quotation items => cases hc; simp [Tree.parentOf?, hx.1, Node.parent]

theorem Placed.childrenOf (hx : x.Placed t parent) (hc : x.child = .node h) :
    t.childrenOf h = x.items.map child := by
  cases x with
  | atom a => cases hc
  | string k content =>
    cases hc
    simp [Tree.childrenOf, show t.get? h = some (.string parent content) from hx, Node.children, Term.items]
  | lambda k parameters body => cases hc; simp [Tree.childrenOf, hx.1, Node.children, items]
  | application k quotation items => cases hc; simp [Tree.childrenOf, hx.1, Node.children, Term.items]

theorem Placed.items (hx : x.Placed t parent) (hc : x.child = .node h) : PlacedAll t (some h) x.items := by
  cases x with
  | atom a => cases hc
  | string k content => trivial
  | lambda k parameters body => cases hc; exact hx.2
  | application k quotation items => cases hc; exact hx.2

/-- **The way up** from a part of a term ends at the term. -/
theorem Sub.climbs (hs : Sub y x) (hx : x.Placed t parent) (hy : y.child = .node k) (hc : x.child = .node h) :
    Relation.ReflTransGen t.Below k h := by
  -- on how the part is reached: one step down is one link up
  induction hs generalizing parent h with
  | refl =>
    cases hy.symm.trans hc
    exact .refl
  | @body z j parameters body hz hs ih =>
    cases hc
    have hplaced := placedAll_iff.mp hx.2 z hz
    obtain ⟨i, hi⟩ := hs.exists_child hy
    exact (ih hplaced hi).tail (hplaced.parentOf? hi)
  | @item z j quotation items hz hs ih =>
    cases hc
    have hplaced := placedAll_iff.mp hx.2 z hz
    obtain ⟨i, hi⟩ := hs.exists_child hy
    exact (ih hplaced hi).tail (hplaced.parentOf? hi)

end Term

/-! ### Trees that hold terms -/

namespace Tree

variable {t : Tree} {roots : List Term} {h k : Handle}

/-- A node with children is at the top of a part of a root, and the children are those of its items. -/
theorem Holds.exists_of_mem_childrenOf (hh : t.Holds roots) (hk : .node k ∈ t.childrenOf h) :
    ∃ x ∈ roots, ∃ y, Sub y x ∧ y.child = .node h ∧ ∃ z ∈ y.items, z.child = .node k ∧ z.Placed t (some h) := by
  have hlt : h < t.size := by
    by_contra hle
    rw [childrenOf, get?_eq_none_of_size_le (Nat.le_of_not_lt hle)] at hk
    cases hk
  obtain ⟨x, hx, y, hy, hc⟩ := hh.exists_sub hlt
  obtain ⟨p, hplaced⟩ := hy.placed (placedAll_iff.mp hh.placed x hx)
  -- what the node lists are its items
  rw [hplaced.childrenOf hc] at hk
  obtain ⟨z, hz, hzk⟩ := List.mem_map.mp hk
  exact ⟨x, hx, y, hy, hc, z, hz, hzk, placedAll_iff.mp (hplaced.items hc) z hz⟩

/-- **A child names its parent.** -/
theorem Holds.parentOf?_of_mem_childrenOf (hh : t.Holds roots) (hk : .node k ∈ t.childrenOf h) :
    t.parentOf? k = some h := by
  obtain ⟨-, -, -, -, -, z, -, hzk, hz⟩ := hh.exists_of_mem_childrenOf hk
  exact hz.parentOf? hzk

/-- **A parent lists its child**, once. -/
theorem Holds.count_childrenOf (hh : t.Holds roots) (hk : k < t.size) (hroot : k ∉ stems roots) :
    ∃ h, t.parentOf? k = some h ∧ (t.childrenOf h).count (.node k) = 1 := by
  obtain ⟨x, hx, y, hy, hc⟩ := hh.exists_sub hk
  -- it is at the top of a root, or an item of a part
  obtain rfl | ⟨z, hz, hyz⟩ := hy.item_of
  · exact absurd (mem_stems.mpr ⟨y, hx, hc⟩) hroot
  obtain ⟨h, hzh⟩ := exists_child_of_mem_items hyz
  obtain ⟨p, hplaced⟩ := hz.placed (placedAll_iff.mp hh.placed x hx)
  refine ⟨h, (placedAll_iff.mp (hplaced.items hzh) y hyz).parentOf? hc, ?_⟩
  rw [hplaced.childrenOf hzh, count_child]
  -- no handle occurs twice in the tree, so none does among the items of a part
  have hitems : (handlesAll z.items).Sublist (handlesAll roots) :=
    (handlesAll_items_sublist z).trans (hz.handles.trans (handles_sublist hx))
  have hnodup : (stems z.items).Nodup := hh.handles_nodup.sublist ((stems_sublist _).trans hitems)
  exact List.count_eq_one_of_mem hnodup (mem_stems.mpr ⟨y, hyz, hc⟩)

/-- **A tree that holds terms hangs together** below the nodes at their tops. -/
theorem Holds.hangs (hh : t.Holds roots) : t.Hangs (stems roots) where
  distinct := hh.handles_nodup.sublist (stems_sublist roots)
  present := fun r hr =>
    List.mem_range.mp (hh.handles.mem_iff.mp ((stems_sublist roots).subset hr))
  inside := by
    intro h k hk
    -- a child names its parent, so it is there
    have hparent := hh.parentOf?_of_mem_childrenOf hk
    by_contra hle
    rw [parentOf?, get?_eq_none_of_size_le (Nat.le_of_not_lt hle)] at hparent
    cases hparent
  free := by
    intro r hr
    obtain ⟨x, hx, hc⟩ := mem_stems.mp hr
    have hnone : t.parentOf? r = none := (placedAll_iff.mp hh.placed x hx).parentOf? hc
    refine ⟨hnone, fun h hmem => ?_⟩
    cases hnone.symm.trans (hh.parentOf?_of_mem_childrenOf hmem)
  hung := by
    intro k hk hroot
    obtain ⟨h, hparent, hcount⟩ := hh.count_childrenOf hk hroot
    refine ⟨h, hparent, hcount, fun j hj => ?_⟩
    exact Option.some.inj ((hh.parentOf?_of_mem_childrenOf hj).symm.trans hparent)
  climbs := by
    intro k hk
    obtain ⟨x, hx, y, hy, hc⟩ := hh.exists_sub hk
    obtain ⟨r, hr⟩ := hy.exists_child hc
    exact ⟨r, mem_stems.mpr ⟨x, hx, hr⟩, hy.climbs (placedAll_iff.mp hh.placed x hx) hc hr⟩

/-! ### Parsed trees -/

/-- **What the parser builds.** The body of the top lambda has the shape of the forms. Every other node is a child
of one node, once, and names it as its parent, and the way up from it ends at the top lambda, but for the
clauses that stand after an `else` clause: those are roots of their own. So the tree is in one piece just if
no such clause has a node. -/
theorem parse_hangs {source : String} {t : Tree} (h : Tree.parse source = .ok t) :
    ∃ tokens forms body strays, Token.scan source = .ok tokens ∧ Form.parse tokens = .ok forms ∧
      PlacedAll t none (.lambda top [] body :: strays) ∧
      blankAll body = Form.sketchAll forms ∧ blankAll strays = Form.sketchAll (Form.droppedAll forms) ∧
      t.Hangs (top :: stems strays) ∧
      (t.Hangs [top] ↔ ∀ f ∈ Form.droppedAll forms, ∃ a, f.sketch = .atom a) := by
  obtain ⟨tokens, forms, hscan, hforms, rfl⟩ := parse_eq_ok.mp h
  obtain ⟨body, strays, hholds, hbecome, -⟩ := holds_ofForms (Form.legal_parse hforms)
  have hhangs : (ofForms forms).Hangs (top :: stems strays) := hholds.hangs
  refine ⟨tokens, forms, body, strays, hscan, hforms, hholds.placed, hbecome.sketch, hbecome.lost, hhangs, ?_⟩
  -- the roots of a tree are determined, so the top lambda is the only one just if the strays have no nodes
  have hwhole : (ofForms forms).Hangs [top] ↔ stems strays = [] := by
    constructor
    · intro hone
      exact List.perm_nil.mp ((List.perm_cons top).mp (hhangs.perm hone))
    · intro hnone
      rwa [hnone] at hhangs
  rw [hwhole, stems_eq_nil_iff, hbecome.lost, Form.sketchAll_eq, List.forall_mem_map]

/-- A named `let` with a `cond` in it is one tree. -/
theorem parse_hangs_let :
    ∃ t, Tree.parse "(let f ((x \"a\")) (cond ((f x) '(1 2)) (else x x)))" = .ok t ∧ t.size = 11 ∧
      t.Hangs [top] := by
  have hsize : (Tree.parse "(let f ((x \"a\")) (cond ((f x) '(1 2)) (else x x)))").toOption.map size =
      some 11 := by
    decide +kernel
  have hnone : (Token.scan "(let f ((x \"a\")) (cond ((f x) '(1 2)) (else x x)))").toOption.map (fun tokens =>
      (Form.parse tokens).toOption.map fun forms => (Form.droppedAll forms).isEmpty) = some (some true) := by
    decide +kernel
  obtain ⟨t, ht, hsize⟩ := Option.map_eq_some_iff.mp hsize
  have ht := Except.toOption_eq_some.mp ht
  obtain ⟨tokens, forms, _, _, hscan, hforms, -, -, -, -, hwhole⟩ := parse_hangs ht
  rw [hscan] at hnone
  simp only [Except.toOption, hforms, Option.map_some, Option.some.injEq, List.isEmpty_iff] at hnone
  refine ⟨t, ht, hsize, hwhole.mpr ?_⟩
  -- no clause stands after the `else`
  rw [hnone]
  exact List.forall_mem_nil _

/-- **A clause after an `else` clause hangs nowhere.** -/
theorem parse_else_detached :
    ∃ t, Tree.parse "(cond (else 1) (2 3))" = .ok t ∧ t.size = 2 ∧ t.parentOf? 1 = none ∧ ¬t.Hangs [top] := by
  have hall : (Tree.parse "(cond (else 1) (2 3))").toOption.map (fun t => (t.size, t.parentOf? 1)) =
      some (2, none) := by
    decide +kernel
  obtain ⟨t, ht, hall⟩ := Option.map_eq_some_iff.mp hall
  simp only [Prod.mk.injEq] at hall
  obtain ⟨hsize, hnone⟩ := hall
  refine ⟨t, Except.toOption_eq_some.mp ht, hsize, hnone, fun hhangs => ?_⟩
  -- a node without a parent would be a root
  have hroot : 1 ∈ [top] := hhangs.mem_roots_iff.mpr ⟨by rw [hsize]; decide, hnone⟩
  cases List.mem_singleton.mp hroot

end Tree

end SchemeMachine
