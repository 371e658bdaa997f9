import Mathlib.Data.List.Nodup
import SchemeMachine.Form

/-!
# Terms

A tree keeps its nodes in one array. A `Term` is the same syntax as an inductive type, each node with the
handle under which the tree keeps it, so that what is true of a program can be proved along its syntax.

* `Term.Placed` says that a tree holds a term: every node of the term stands under its handle, with the
  handles of its children and of the node above it.
* `Term.Legal` says which terms a source text can give: quoted data hold no code but in their holes.
-/

namespace SchemeMachine

/-- **An expression with the handles of its nodes.** -/
inductive Term where
  | atom (value : Atom)
  | string (h : Handle) (content : String)
  | lambda (h : Handle) (parameters : List String) (body : List Term)
  | application (h : Handle) (quotation : Quotation) (items : List Term)
deriving Repr, Inhabited

/-- Whether an expression is code or data. -/
inductive Layer where
  | code
  | data
deriving Repr, DecidableEq

/-- An atom that may stand in quoted data: every word there is a symbol. -/
def Atom.isDatum : Atom → Bool
  | .variable _ | .keyword _ => false
  | _ => true

namespace Term

/-- What stands for a term in the node above it. -/
def child : Term → Child
  | .atom a => .atom a
  | .string h _ => .node h
  | .lambda h _ _ => .node h
  | .application h _ _ => .node h

mutual

/-- The handles of the nodes of a term. -/
def handles : Term → List Handle
  | .atom _ => []
  | .string h _ => [h]
  | .lambda h _ body => h :: handlesAll body
  | .application h _ items => h :: handlesAll items

/-- The handles of the nodes of several terms. -/
def handlesAll : List Term → List Handle
  | [] => []
  | x :: xs => handles x ++ handlesAll xs

end

mutual

/-- **A tree holds a term**, below the node `parent`. -/
def Placed (t : Tree) (parent : Option Handle) : Term → Prop
  | .atom _ => True
  | .string h content => t.get? h = some (.string parent content)
  | .lambda h parameters body =>
    t.get? h = some (.lambda parent parameters (body.map child)) ∧ PlacedAll t (some h) body
  | .application h quotation items =>
    t.get? h = some (.application parent quotation (items.map child)) ∧ PlacedAll t (some h) items

/-- A tree holds several terms below one node. -/
def PlacedAll (t : Tree) (parent : Option Handle) : List Term → Prop
  | [] => True
  | x :: xs => Placed t parent x ∧ PlacedAll t parent xs

end

mutual

/-- **A term that a source text can give**, as code or as data. Nodes inside quoted data come after the
node around them. A hole holds one expression, which is code. -/
def Legal (layer : Layer) : Term → Prop
  | .atom a => layer = .code ∨ a.isDatum
  | .string _ _ => True
  | .lambda _ parameters body => layer = .code ∧ parameters.Nodup ∧ LegalAll .code body
  | .application h quotation items =>
    match quotation with
    | .code => layer = .code ∧ LegalAll .code items
    | .quote => (∀ j, .node j ∈ items.map child → h < j) ∧ LegalAll .data items
    | .quasiquote => layer = .code ∧ (∀ j, .node j ∈ items.map child → h < j) ∧ LegalAll .data items
    | .unquote => items.length = 1 ∧ LegalAll .code items

/-- Several terms that a source text can give. -/
def LegalAll (layer : Layer) : List Term → Prop
  | [] => True
  | x :: xs => Legal layer x ∧ LegalAll layer xs

end

end Term

namespace Form

mutual

/-- **A form that becomes a legal term.** -/
def Legal (layer : Layer) : Form → Prop
  | .atom a => layer = .code ∨ a.isDatum
  | .string _ _ => True
  | .group quotation _ items =>
    match quotation with
    | .code => layer = .code ∧ LegalAll .code items
    | .quote => LegalAll .data items
    | .quasiquote => layer = .code ∧ LegalAll .data items
    | .unquote => items.length = 1 ∧ LegalAll .code items
  | .lambda _ _ body => layer = .code ∧ LegalAll .code body
  | .procedure _ _ _ _ body => layer = .code ∧ LegalAll .code body
  | .letIn _ _ _ _ initials body => layer = .code ∧ LegalAll .code initials ∧ LegalAll .code body
  | .clause _ test body rest =>
    layer = .code ∧ LegalOption test ∧ LegalAll .code body ∧ LegalOption rest

/-- Forms that become legal terms. -/
def LegalAll (layer : Layer) : List Form → Prop
  | [] => True
  | f :: fs => Legal layer f ∧ LegalAll layer fs

/-- A form of code that may be missing. -/
def LegalOption : Option Form → Prop
  | none => True
  | some f => Legal .code f

end

end Form

namespace Term

/-! ### Several terms -/

theorem handlesAll_eq (xs : List Term) : handlesAll xs = xs.flatMap handles := by
  induction xs with
  | nil => rfl
  | cons x xs ih => simp [handlesAll, ih]

theorem placedAll_iff {t : Tree} {parent : Option Handle} {xs : List Term} :
    PlacedAll t parent xs ↔ ∀ x ∈ xs, x.Placed t parent := by
  induction xs with
  | nil => simp [PlacedAll]
  | cons x xs ih => simp [PlacedAll, ih]

theorem legalAll_iff {layer : Layer} {xs : List Term} :
    LegalAll layer xs ↔ ∀ x ∈ xs, x.Legal layer := by
  induction xs with
  | nil => simp [LegalAll]
  | cons x xs ih => simp [LegalAll, ih]

@[simp] theorem handlesAll_append (xs ys : List Term) :
    handlesAll (xs ++ ys) = handlesAll xs ++ handlesAll ys := by
  simp [handlesAll_eq]

theorem placedAll_append {t : Tree} {parent : Option Handle} {xs ys : List Term} :
    PlacedAll t parent (xs ++ ys) ↔ PlacedAll t parent xs ∧ PlacedAll t parent ys := by
  simp only [placedAll_iff, List.mem_append]
  exact ⟨fun h => ⟨fun x hx => h x (Or.inl hx), fun x hx => h x (Or.inr hx)⟩,
    fun h x hx => hx.elim (h.1 x) (h.2 x)⟩

theorem legalAll_append {layer : Layer} {xs ys : List Term} :
    LegalAll layer (xs ++ ys) ↔ LegalAll layer xs ∧ LegalAll layer ys := by
  simp only [legalAll_iff, List.mem_append]
  exact ⟨fun h => ⟨fun x hx => h x (Or.inl hx), fun x hx => h x (Or.inr hx)⟩,
    fun h x hx => hx.elim (h.1 x) (h.2 x)⟩

/-! ### Placing -/

mutual

/-- Whether a tree holds a term depends on the nodes of the term alone. -/
theorem Placed.congr {t t' : Tree} {parent : Option Handle} :
    {x : Term} → x.Placed t parent → (∀ h ∈ x.handles, t'.get? h = t.get? h) → x.Placed t' parent
  | .atom _, _, _ => trivial
  | .string h content, hp, heq => (heq h (by simp [handles])).trans hp
  | .lambda h parameters body, hp, heq =>
    ⟨(heq h (by simp [handles])).trans hp.1, PlacedAll.congr hp.2 fun j hj => heq j (by simp [handles, hj])⟩
  | .application h quotation items, hp, heq =>
    ⟨(heq h (by simp [handles])).trans hp.1, PlacedAll.congr hp.2 fun j hj => heq j (by simp [handles, hj])⟩

theorem PlacedAll.congr {t t' : Tree} {parent : Option Handle} :
    {xs : List Term} → PlacedAll t parent xs → (∀ h ∈ handlesAll xs, t'.get? h = t.get? h) →
      PlacedAll t' parent xs
  | [], _, _ => trivial
  | _ :: _, hp, heq =>
    ⟨hp.1.congr fun j hj => heq j (by simp [handlesAll, hj]),
      PlacedAll.congr hp.2 fun j hj => heq j (by simp [handlesAll, hj])⟩

end

/-! ### Parts of a term -/

/-- **The parts of a term**: itself, and the parts of its items. -/
inductive Sub : Term → Term → Prop
  | refl (x : Term) : Sub x x
  | body {x y : Term} {h : Handle} {parameters : List String} {body : List Term} (hy : y ∈ body)
      (hx : Sub x y) : Sub x (.lambda h parameters body)
  | item {x y : Term} {h : Handle} {quotation : Quotation} {items : List Term} (hy : y ∈ items)
      (hx : Sub x y) : Sub x (.application h quotation items)

/-- The handles of a term among several. -/
theorem handles_sublist {x : Term} {xs : List Term} (hx : x ∈ xs) : x.handles.Sublist (handlesAll xs) := by
  obtain ⟨before, after, rfl⟩ := List.append_of_mem hx
  rw [handlesAll_append, handlesAll]
  exact (List.sublist_append_left _ _).trans (List.sublist_append_right _ _)

theorem Sub.handles {x y : Term} (h : Sub x y) : x.handles.Sublist y.handles := by
  induction h with
  | refl => exact List.Sublist.refl _
  | body hy _ ih => exact (ih.trans (handles_sublist hy)).cons _
  | item hy _ ih => exact (ih.trans (handles_sublist hy)).cons _

theorem Sub.placed {t : Tree} {x y : Term} (h : Sub x y) {parent : Option Handle} (hy : y.Placed t parent) :
    ∃ parent', x.Placed t parent' := by
  induction h generalizing parent with
  | refl => exact ⟨parent, hy⟩
  | body hy' _ ih => exact ih (placedAll_iff.mp hy.2 _ hy')
  | item hy' _ ih => exact ih (placedAll_iff.mp hy.2 _ hy')

theorem Sub.legal {x y : Term} (h : Sub x y) {layer : Layer} (hy : y.Legal layer) :
    ∃ layer', x.Legal layer' := by
  induction h generalizing layer with
  | refl => exact ⟨layer, hy⟩
  | body hy' _ ih => exact ih (legalAll_iff.mp hy.2.2 _ hy')
  | @item y h quotation items hy' _ ih =>
    cases quotation with
    | code => exact ih (legalAll_iff.mp hy.2 _ hy')
    | quote => exact ih (legalAll_iff.mp hy.2 _ hy')
    | quasiquote => exact ih (legalAll_iff.mp hy.2.2 _ hy')
    | unquote => exact ih (legalAll_iff.mp hy.2 _ hy')

/-- The root of a term is among its handles. -/
theorem mem_handles_of_child {x : Term} {h : Handle} (hx : x.child = .node h) : h ∈ x.handles := by
  cases x with
  | atom a => cases hx
  | _ => cases hx; simp [handles]

mutual

/-- **Every handle of a term is the root of a part.** -/
theorem exists_sub_of_mem_handles {h : Handle} :
    (x : Term) → h ∈ x.handles → ∃ y, Sub y x ∧ y.child = .node h
  | .atom _, hh => by simp [handles] at hh
  | .string k content, hh => by
    obtain rfl : h = k := by simpa [handles] using hh
    exact ⟨_, .refl _, rfl⟩
  | .lambda k parameters body, hh => by
    rcases List.mem_cons.mp hh with rfl | hh
    · exact ⟨_, .refl _, rfl⟩
    · obtain ⟨z, hz, y, hy, hc⟩ := exists_sub_of_mem_handlesAll body hh
      exact ⟨y, .body hz hy, hc⟩
  | .application k quotation items, hh => by
    rcases List.mem_cons.mp hh with rfl | hh
    · exact ⟨_, .refl _, rfl⟩
    · obtain ⟨z, hz, y, hy, hc⟩ := exists_sub_of_mem_handlesAll items hh
      exact ⟨y, .item hz hy, hc⟩

theorem exists_sub_of_mem_handlesAll {h : Handle} :
    (xs : List Term) → h ∈ handlesAll xs → ∃ x ∈ xs, ∃ y, Sub y x ∧ y.child = .node h
  | [], hh => by cases hh
  | x :: xs, hh => by
    rcases List.mem_append.mp hh with hh | hh
    · exact ⟨x, List.mem_cons_self, exists_sub_of_mem_handles x hh⟩
    · obtain ⟨z, hz, hy⟩ := exists_sub_of_mem_handlesAll xs hh
      exact ⟨z, List.mem_cons_of_mem x hz, hy⟩

end

mutual

/-- **A tree holds at most one term** at a place. -/
theorem Placed.unique {t : Tree} :
    {x y : Term} → {p q : Option Handle} → x.Placed t p → y.Placed t q → x.child = y.child → x = y
  | .atom a, y, _, _, _, _, hc => by
    cases y <;> simp_all [child]
  | .string h content, y, p, q, hx, hy, hc => by
    cases y <;> simp only [child, Child.node.injEq, reduceCtorEq] at hc <;> subst hc <;>
      simp_all [Placed]
  | .lambda h parameters body, y, p, q, hx, hy, hc => by
    cases y with
    | lambda k parameters' body' =>
      -- the handles are the same, and so are the nodes that they lead to
      obtain rfl : h = k := by simpa [child] using hc
      have hnode := hx.1.symm.trans hy.1
      simp only [Option.some.injEq, Node.lambda.injEq] at hnode
      rw [PlacedAll.unique hx.2 hy.2 hnode.2.2, hnode.2.1]
    | atom a => cases hc
    | string k content =>
      obtain rfl : h = k := by simpa [child] using hc
      cases hx.1.symm.trans hy
    | application k quotation items =>
      obtain rfl : h = k := by simpa [child] using hc
      cases hx.1.symm.trans hy.1
  | .application h quotation items, y, p, q, hx, hy, hc => by
    cases y with
    | application k quotation' items' =>
      obtain rfl : h = k := by simpa [child] using hc
      have hnode := hx.1.symm.trans hy.1
      simp only [Option.some.injEq, Node.application.injEq] at hnode
      rw [PlacedAll.unique hx.2 hy.2 hnode.2.2, hnode.2.1]
    | atom a => cases hc
    | string k content =>
      obtain rfl : h = k := by simpa [child] using hc
      cases hx.1.symm.trans hy
    | lambda k parameters body =>
      obtain rfl : h = k := by simpa [child] using hc
      cases hx.1.symm.trans hy.1

theorem PlacedAll.unique {t : Tree} :
    {xs ys : List Term} → {p q : Option Handle} → PlacedAll t p xs → PlacedAll t q ys →
      xs.map child = ys.map child → xs = ys
  | [], ys, _, _, _, _, hc => by simpa using hc.symm
  | x :: xs, [], _, _, _, _, hc => by simp at hc
  | x :: xs, y :: ys, _, _, hx, hy, hc => by
    simp only [List.map_cons, List.cons.injEq] at hc
    rw [hx.1.unique hy.1 hc.1, PlacedAll.unique hx.2 hy.2 hc.2]

end

end Term

end SchemeMachine
