import Mathlib.Data.List.Perm.Basic
import Mathlib.Data.List.Range
import SchemeMachine.Proofs.Syntax.Sketch

/-!
# Building a tree gives terms

`Form.build` adds nodes to a tree and hangs them below each other. What it adds is always a term: the
nodes are new, each belongs to the term once, and nothing that was in the tree before has changed.

* `Tree.Made` says that a tree has grown by a term, `Tree.Hung` that it has grown by terms that hang below
  a node that was there.
* `Form.Becomes` says what is known of a term made from a form: it is legal, and its sketch is that of the form.
* `Form.made_build` is the result for a form, `Tree.holds_ofForms` for a program.
-/

namespace SchemeMachine

open Term

namespace Tree

/-! ### Nodes after a change -/

@[simp] theorem size_alloc (t : Tree) (n : Node) : (t.alloc n).2.size = t.size + 1 := by
  simp [alloc, size]

@[simp] theorem alloc_fst (t : Tree) (n : Node) : (t.alloc n).1 = t.size := rfl

theorem get?_alloc (t : Tree) (n : Node) (j : Handle) :
    (t.alloc n).2.get? j = if j = t.size then some n else t.get? j := by
  simp only [alloc, get?, size, Array.getElem?_push]
  rfl

@[simp] theorem size_modify (t : Tree) (h : Handle) (f : Node → Node) : (t.modify h f).size = t.size := by
  simp [modify, size]

theorem get?_modify (t : Tree) (h : Handle) (f : Node → Node) (j : Handle) :
    (t.modify h f).get? j = if j = h then (t.get? j).map f else t.get? j := by
  simp only [modify, get?, Array.getElem?_modify]
  by_cases hj : j = h
  · simp [hj]
  · simp [hj, Ne.symm hj]

@[simp] theorem size_setSpan (t : Tree) (h : Handle) (s : Span) : (t.setSpan h s).size = t.size := rfl

@[simp] theorem get?_setSpan (t : Tree) (h j : Handle) (s : Span) : (t.setSpan h s).get? j = t.get? j := rfl

@[simp] theorem size_pushChild (t : Tree) (h : Handle) (c : Child) : (t.pushChild h c).size = t.size := by
  cases c <;> simp [pushChild]

theorem get?_eq_none_of_size_le {t : Tree} {h : Handle} (hle : t.size ≤ h) : t.get? h = none :=
  Array.getElem?_eq_none hle

theorem lt_size_of_get? {t : Tree} {h : Handle} {n : Node} (hn : t.get? h = some n) : h < t.size := by
  by_contra hle
  rw [get?_eq_none_of_size_le (Nat.le_of_not_lt hle)] at hn
  cases hn

theorem mem_lambdas {t : Tree} {h : Handle} :
    h ∈ t.lambdas ↔ ∃ p ps cs, t.get? h = some (.lambda p ps cs) := by
  unfold lambdas handles
  rw [List.mem_filter, List.mem_range]
  constructor
  · rintro ⟨-, hl⟩
    cases hn : t.get? h with
    | none => simp [hn] at hl
    | some n =>
      cases n with
      | lambda p ps cs => exact ⟨p, ps, cs, rfl⟩
      | _ => simp [hn, Node.isLambda] at hl
  · rintro ⟨p, ps, cs, hn⟩
    exact ⟨lt_size_of_get? hn, by simp [hn, Node.isLambda]⟩

/-- Hanging a child below a node changes that node. -/
theorem get?_pushChild_self (t : Tree) {h : Handle} {c : Child} (hc : c ≠ .node h) :
    (t.pushChild h c).get? h = (t.get? h).map (Node.push c) := by
  cases c with
  | atom a => simp [pushChild, get?_modify]
  | node below =>
    have hne : h ≠ below := fun he => hc (he ▸ rfl)
    simp [pushChild, get?_modify, hne]

/-- Hanging a child below a node changes the child's node. -/
theorem get?_pushChild_child (t : Tree) {h below : Handle} (hne : below ≠ h) :
    (t.pushChild h (.node below)).get? below = (t.get? below).map (Node.setParent h) := by
  simp [pushChild, get?_modify, hne]

/-- Hanging a child below a node changes nothing else. -/
theorem get?_pushChild_of_ne (t : Tree) {h j : Handle} {c : Child} (hj : j ≠ h) (hc : c ≠ .node j) :
    (t.pushChild h c).get? j = t.get? j := by
  cases c with
  | atom a => simp [pushChild, get?_modify, hj]
  | node below =>
    have hne : j ≠ below := fun he => hc (he ▸ rfl)
    simp [pushChild, get?_modify, hj, hne]

end Tree

/-! ### Terms after a change -/

/-- **A term below its new parent.** -/
theorem Term.Placed.pushChild {t : Tree} {x : Term} {h : Handle} (hx : x.Placed t none)
    (hn : x.handles.Nodup) (hh : h ∉ x.handles) : x.Placed (t.pushChild h x.child) (some h) := by
  cases x with
  | atom a => trivial
  | string k content =>
    have hne : k ≠ h := fun he => hh (by simp [he, handles])
    simp only [Placed] at hx ⊢
    simp [child, Tree.get?_pushChild_child t hne, hx, Node.setParent]
  | lambda k parameters body =>
    have hne : k ≠ h := fun he => hh (by simp [he, handles])
    simp only [handles, List.nodup_cons] at hn
    refine ⟨?_, hx.2.congr fun j hj => ?_⟩
    · simp [child, Tree.get?_pushChild_child t hne, hx.1, Node.setParent]
    · exact Tree.get?_pushChild_of_ne t (fun he => hh (by simp [← he, handles, hj]))
        fun he => hn.1 (by cases he; exact hj)
  | application k quotation items =>
    have hne : k ≠ h := fun he => hh (by simp [he, handles])
    simp only [handles, List.nodup_cons] at hn
    refine ⟨?_, hx.2.congr fun j hj => ?_⟩
    · simp [child, Tree.get?_pushChild_child t hne, hx.1, Node.setParent]
    · exact Tree.get?_pushChild_of_ne t (fun he => hh (by simp [← he, handles, hj]))
        fun he => hn.1 (by cases he; exact hj)

/-- Append children to a node, one after the other. -/
def Node.pushes (n : Node) (cs : List Child) : Node := cs.foldl (fun n c => n.push c) n

@[simp] theorem Node.pushes_lambda (parent : Option Handle) (parameters : List String) (body cs : List Child) :
    (Node.lambda parent parameters body).pushes cs = .lambda parent parameters (body ++ cs) := by
  induction cs generalizing body with
  | nil => simp [pushes]
  | cons c cs ih =>
    simp only [pushes, List.foldl_cons, push] at ih ⊢
    rw [ih, List.append_assoc, List.singleton_append]

@[simp] theorem Node.pushes_application (parent : Option Handle) (quotation : Quotation)
    (children cs : List Child) :
    (Node.application parent quotation children).pushes cs =
      .application parent quotation (children ++ cs) := by
  induction cs generalizing children with
  | nil => simp [pushes]
  | cons c cs ih =>
    simp only [pushes, List.foldl_cons, push] at ih ⊢
    rw [ih, List.append_assoc, List.singleton_append]

/-- **Terms below their new parent**, one after the other. -/
theorem Form.placed_pushAll {t : Tree} {h : Handle} {xs : List Term} (hx : PlacedAll t none xs)
    (hn : (handlesAll xs).Nodup) (hh : h ∉ handlesAll xs) :
    PlacedAll (pushAll h (xs.map child) t) (some h) xs ∧
      (pushAll h (xs.map child) t).get? h = (t.get? h).map (·.pushes (xs.map child)) ∧
      (∀ j, j ≠ h → j ∉ handlesAll xs → (pushAll h (xs.map child) t).get? j = t.get? j) ∧
      (pushAll h (xs.map child) t).size = t.size := by
  induction xs generalizing t with
  | nil => exact ⟨trivial, by simp [pushAll, Node.pushes], fun _ _ _ => rfl, rfl⟩
  | cons x xs ih =>
    simp only [handlesAll, List.nodup_append, List.mem_append, not_or] at hn hh
    obtain ⟨hnx, hnxs, hdisj⟩ := hn
    have hroot : ∀ j, x.child = .node j → j ∈ x.handles := fun j => mem_handles_of_child
    have hframe : ∀ j, j ≠ h → j ∉ x.handles → (t.pushChild h x.child).get? j = t.get? j :=
      fun j hj hjx => Tree.get?_pushChild_of_ne t hj fun he => hjx (hroot j he)
    -- the terms that are still to be hung have not been touched
    have hrest : PlacedAll (t.pushChild h x.child) none xs :=
      hx.2.congr fun j hj => hframe j (fun he => hh.2 (he ▸ hj)) fun hjx => hdisj j hjx j hj rfl
    obtain ⟨hplaced, hnode, hothers, hsize⟩ := ih hrest hnxs hh.2
    refine ⟨⟨?_, hplaced⟩, ?_, ?_, ?_⟩
    · refine (hx.1.pushChild hnx hh.1).congr fun j hj => ?_
      exact hothers j (fun he => hh.1 (he ▸ hj)) fun hjxs => hdisj j hj j hjxs rfl
    · have hself := Tree.get?_pushChild_self t fun he => hh.1 (hroot h he)
      simp only [pushAll, List.map_cons, List.foldl_cons] at hnode ⊢
      rw [hnode, hself, Option.map_map]
      rfl
    · intro j hj hjx
      simp only [handlesAll, List.mem_append, not_or] at hjx
      exact (hothers j hj hjx.2).trans (hframe j hj hjx.1)
    · exact hsize.trans (Tree.size_pushChild t h x.child)

/-! ### Trees that grow by terms -/

/-- The term with further items at its end. -/
def Term.append : Term → List Term → Term
  | .lambda h parameters body, xs => .lambda h parameters (body ++ xs)
  | .application h quotation items, xs => .application h quotation (items ++ xs)
  | other, _ => other

@[simp] theorem Term.append_nil (w : Term) : w.append [] = w := by
  cases w <;> simp [Term.append]

theorem Term.append_append (w : Term) (xs ys : List Term) :
    (w.append xs).append ys = w.append (xs ++ ys) := by
  cases w <;> simp [Term.append]

/-- Whether a term can have items. -/
def Term.isOpen : Term → Bool
  | .lambda .. => true
  | .application .. => true
  | _ => false

@[simp] theorem Term.isOpen_append (w : Term) (xs : List Term) : (w.append xs).isOpen = w.isOpen := by
  cases w <;> rfl

@[simp] theorem Term.child_append (w : Term) (xs : List Term) : (w.append xs).child = w.child := by
  cases w <;> rfl

/-- What a tree keeps besides its nodes and their places. -/
def Tree.notes (t : Tree) : Tree := { t with nodes := #[], spans := {} }

/-- **A tree that has grown by terms.** They stand without a parent, use the new handles and no others, and
leave what was there before as it was. -/
structure Tree.Made (t t' : Tree) (xs : List Term) : Prop where
  size_le : t.size ≤ t'.size
  kept : ∀ j, j < t.size → t'.get? j = t.get? j
  placed : PlacedAll t' none xs
  fresh : (handlesAll xs).Perm (List.range' t.size (t'.size - t.size))
  notes : t'.notes = t.notes

namespace Tree.Made

variable {t t' t'' : Tree} {x w : Term} {xs ys zs : List Term}

theorem refl (t : Tree) : t.Made t [] :=
  ⟨le_rfl, fun _ _ => rfl, trivial, by simp [handlesAll], rfl⟩

theorem mem_fresh (hm : t.Made t' xs) {j : Handle} : j ∈ handlesAll xs ↔ t.size ≤ j ∧ j < t'.size := by
  rw [hm.fresh.mem_iff, List.mem_range'_1, Nat.add_sub_cancel' hm.size_le]

theorem nodup (hm : t.Made t' xs) : (handlesAll xs).Nodup :=
  hm.fresh.nodup_iff.mpr List.nodup_range'

/-- The order of the terms does not matter. -/
theorem perm (hm : t.Made t' xs) (hp : xs.Perm ys) : t.Made t' ys where
  size_le := hm.size_le
  kept := hm.kept
  placed := placedAll_iff.mpr fun x hx => placedAll_iff.mp hm.placed x (hp.mem_iff.mpr hx)
  fresh := by
    refine List.Perm.trans ?_ hm.fresh
    rw [handlesAll_eq, handlesAll_eq]
    exact (hp.flatMap_right Term.handles).symm
  notes := hm.notes

/-- **A tree that grows twice.** -/
theorem trans (hm : t.Made t' zs) (hm' : t'.Made t'' xs) : t.Made t'' (xs ++ zs) where
  size_le := hm.size_le.trans hm'.size_le
  kept := fun j hj => (hm'.kept j (hj.trans_le hm.size_le)).trans (hm.kept j hj)
  placed := placedAll_append.mpr ⟨hm'.placed, hm.placed.congr fun j hj => hm'.kept j (hm.mem_fresh.mp hj).2⟩
  fresh := by
    have h1 := hm.size_le
    have h2 := hm'.size_le
    have hsum : t'.size - t.size + (t''.size - t'.size) = t''.size - t.size := by omega
    have hmid : t.size + (t'.size - t.size) = t'.size := by omega
    rw [handlesAll_append, ← hsum, ← List.range'_append_1, hmid]
    exact List.perm_append_comm.trans (hm.fresh.append hm'.fresh)
  notes := hm'.notes.trans hm.notes

theorem atom (hm : t.Made t' xs) (a : Atom) : t.Made t' (.atom a :: xs) :=
  { hm with placed := ⟨trivial, hm.placed⟩ }

theorem setSpan (hm : t.Made t' xs) (h : Handle) (s : Span) : t.Made (t'.setSpan h s) xs :=
  { hm with placed := hm.placed.congr fun _ _ => rfl }

/-- A new node is a term. -/
theorem alloc (hm : t.Made t' xs) {n : Node} (hw : w.handles = [t'.size])
    (hp : w.Placed (t'.alloc n).2 none) : t.Made (t'.alloc n).2 (w :: xs) := by
  have hnew : t'.Made (t'.alloc n).2 [w] := by
    refine ⟨by simp, fun j hj => ?_, ⟨hp, trivial⟩, ?_, rfl⟩
    · rw [Tree.get?_alloc, if_neg (Nat.ne_of_lt hj)]
    · simp [handlesAll, hw]
  exact hm.trans hnew

/-- A new lambda. -/
theorem allocLambda (hm : t.Made t' xs) :
    t.Made (t'.alloc (Node.freshLambda none)).2 (.lambda t'.size [] [] :: xs) :=
  hm.alloc rfl ⟨by simp [Tree.get?_alloc, Node.freshLambda], trivial⟩

/-- A new application. -/
theorem allocApplication (hm : t.Made t' xs) (quotation : Quotation) :
    t.Made (t'.alloc (Node.freshApplication none quotation)).2 (.application t'.size quotation [] :: xs) :=
  hm.alloc rfl ⟨by simp [Tree.get?_alloc, Node.freshApplication], trivial⟩

/-- **Terms are hung below another one.** -/
theorem pushAll (hm : t.Made t' (w :: xs ++ zs)) (ho : w.isOpen) {h : Handle} (hw : w.child = .node h) :
    t.Made (Form.pushAll h (xs.map child) t') (w.append xs :: zs) := by
  have hnodup := hm.nodup
  have hmem := fun j => (hm.mem_fresh (j := j)).mp
  have hw' := mem_handles_of_child hw
  simp only [List.cons_append, handlesAll, handlesAll_append, List.nodup_append, List.mem_append] at hnodup hmem
  obtain ⟨hnw, ⟨hnx, -, hxz⟩, hwxz⟩ := hnodup
  have hhx : h ∉ handlesAll xs := fun hx => hwxz h hw' h (Or.inl hx) rfl
  obtain ⟨hpw, hprest⟩ := hm.placed
  obtain ⟨hpx, hpz⟩ := placedAll_append.mp hprest
  obtain ⟨hplaced, hnode, hframe, hsize⟩ := Form.placed_pushAll hpx hnx hhx
  -- declarations are not touched by links
  have hnotes : ∀ (cs : List Child) (u : Tree), (Form.pushAll h cs u).notes = u.notes := by
    intro cs
    induction cs with
    | nil => exact fun _ => rfl
    | cons c cs ih => exact fun u => (ih _).trans (by cases c <;> rfl)
  refine ⟨by rw [hsize]; exact hm.size_le, fun j hj => ?_, ⟨?_, ?_⟩, ?_, (hnotes _ _).trans hm.notes⟩
  · have hold : ∀ k, (k ∈ w.handles ∨ k ∈ handlesAll xs ∨ k ∈ handlesAll zs) → j ≠ k := by
      rintro k hk rfl
      exact absurd (hmem j hk).1 (Nat.not_le.mpr hj)
    rw [hframe j (hold h (Or.inl hw')) fun hx => hold j (Or.inr (Or.inl hx)) rfl]
    exact hm.kept j hj
  · -- the node above gets the new children, and what hung there before stays
    cases w with
    | lambda k parameters body =>
      obtain rfl : k = h := by simpa [child] using hw
      simp only [Term.handles, List.nodup_cons, List.mem_cons] at hnw hwxz
      refine ⟨by simp [hnode, hpw.1], placedAll_append.mpr ⟨hpw.2.congr fun j hj => ?_, hplaced⟩⟩
      exact hframe j (fun he => hnw.1 (he ▸ hj)) fun hx => hwxz j (Or.inr hj) j (Or.inl hx) rfl
    | application k quotation items =>
      obtain rfl : k = h := by simpa [child] using hw
      simp only [Term.handles, List.nodup_cons, List.mem_cons] at hnw hwxz
      refine ⟨by simp [hnode, hpw.1], placedAll_append.mpr ⟨hpw.2.congr fun j hj => ?_, hplaced⟩⟩
      exact hframe j (fun he => hnw.1 (he ▸ hj)) fun hx => hwxz j (Or.inr hj) j (Or.inl hx) rfl
    | atom a => cases ho
    | string k content => cases ho
  · refine hpz.congr fun j hj => hframe j ?_ ?_
    · rintro rfl
      exact hwxz j hw' j (Or.inr hj) rfl
    · exact fun hx => hxz j hx j hj rfl
  · rw [hsize]
    refine List.Perm.trans (List.Perm.of_eq ?_) hm.fresh
    cases w with
    | atom a => cases ho
    | string k content => cases ho
    | _ => simp [handlesAll, Term.append, Term.handles]

/-- A term is hung below another one. -/
theorem pushChild (hm : t.Made t' (w :: x :: zs)) (ho : w.isOpen) {h : Handle} (hw : w.child = .node h) :
    t.Made (t'.pushChild h x.child) (w.append [x] :: zs) := by
  have hm : t.Made t' (w :: [x] ++ zs) := hm
  exact hm.pushAll ho hw

/-- Add a name to a list of parameters, unless it is there. -/
def addName (names : List String) (name : String) : List String :=
  if name ∈ names then names else names ++ [name]

theorem nodup_addNames {names : List String} (hn : names.Nodup) (more : List String) :
    (more.foldl addName names).Nodup := by
  induction more generalizing names with
  | nil => exact hn
  | cons name more ih =>
    refine ih ?_
    unfold addName
    split
    · exact hn
    · next hmem =>
      refine List.nodup_append.mpr ⟨hn, List.nodup_singleton _, ?_⟩
      rintro a ha b hb rfl
      exact hmem (List.mem_singleton.mp hb ▸ ha)

/-- A lambda is given parameters. -/
theorem addParameters {h : Handle} {parameters : List String} {body : List Term}
    (hm : t.Made t' (.lambda h parameters body :: xs)) (names : List String) :
    t.Made (Form.addParameters h names t') (.lambda h (names.foldl addName parameters) body :: xs) := by
  induction names generalizing t' parameters with
  | nil => exact hm
  | cons name names ih =>
    have hn := hm.nodup
    simp only [handlesAll, Term.handles, List.cons_append, List.nodup_cons, List.mem_append, not_or] at hn
    have hframe : ∀ j, j ≠ h → (t'.addParameter h name).get? j = t'.get? j := by
      intro j hj
      rw [Tree.addParameter, Tree.get?_modify, if_neg hj]
    have hnext : t.Made (t'.addParameter h name) (.lambda h (addName parameters name) body :: xs) := by
      refine ⟨?_, fun j hj => ?_, ⟨⟨?_, ?_⟩, ?_⟩, ?_, hm.notes⟩
      · simpa [Tree.addParameter] using hm.size_le
      · refine (hframe j ?_).trans (hm.kept j hj)
        rintro rfl
        exact absurd (hm.mem_fresh.mp (by simp [handlesAll, Term.handles])).1 (Nat.not_le.mpr hj)
      · simp [Tree.addParameter, Tree.get?_modify, hm.placed.1.1, Node.addParameter, addName]
      · refine hm.placed.1.2.congr fun j hj => hframe j ?_
        rintro rfl
        exact hn.1.1 hj
      · refine hm.placed.2.congr fun j hj => hframe j ?_
        rintro rfl
        exact hn.1.2 hj
      · simpa [Tree.addParameter, handlesAll, Term.handles] using hm.fresh
    exact ih hnext

/-- An application of terms that are there. -/
theorem application (hm : t.Made t' (xs ++ zs)) (s : Span) :
    t.Made (Form.application s (xs.map child) t').2 (.application t'.size .code xs :: zs) :=
  ((hm.allocApplication .code).pushAll rfl rfl).setSpan _ s

/-- The body of a clause. -/
theorem sequence (hm : t.Made t' (xs ++ zs)) (s : Span) (hl : LegalAll .code xs) :
    ∃ x, (Form.sequence s (xs.map child) t').1 = x.child ∧ x.Legal .code ∧
      x.blank = Form.sketchSequence (blankAll xs) ∧ t.Made (Form.sequence s (xs.map child) t').2 (x :: zs) := by
  have several : ∃ x, (Child.node t'.size) = x.child ∧ x.Legal .code ∧
      x.blank = .application 0 .code (.atom (.keyword "begin") :: blankAll xs) ∧
      t.Made (Form.application s (.atom (.keyword "begin") :: xs.map child) t').2 (x :: zs) := by
    have hm := hm.atom (.keyword "begin")
    rw [← List.cons_append] at hm
    exact ⟨.application t'.size .code (.atom (.keyword "begin") :: xs), rfl, ⟨rfl, Or.inl rfl, hl⟩, rfl,
      hm.application s⟩
  match xs, several with
  | [], several => exact several
  | [x], _ => exact ⟨x, rfl, hl.1, rfl, hm⟩
  | _ :: _ :: _, several => exact several

/-- The terms of `let`: an application of the lambda to the initial values. -/
theorem letIn {a : Handle} {values : List Term}
    (hm : t.Made t' (.application a .code [] :: w :: values ++ zs)) :
    t.Made (Form.pushAll a (w.child :: values.map child) t') (.application a .code (w :: values) :: zs) := by
  have hm : t.Made t' (.application a .code [] :: (w :: values) ++ zs) := hm
  exact hm.pushAll rfl rfl

/-- The terms of a named `let`: a lambda that defines the name and calls it with the initial values. -/
theorem namedLet {a : Handle} {values : List Term}
    (hm : t.Made t' (.application a .code [] :: w :: values ++ zs)) (hw : w.Legal .code)
    (hvalues : LegalAll .code values) (s : Span) (name : String) :
    let wrapped := (t'.alloc (Node.freshLambda none)).2
    let defined := Form.application s [.atom (.keyword "define"), .atom (.variable name), w.child] wrapped
    let called := Form.application s (.atom (.variable name) :: values.map child)
      (defined.2.pushChild t'.size (.node defined.1))
    ∃ x : Term, x.child = .node t'.size ∧ x.Legal .code ∧
      x.blank = .lambda 0 [] [.application 0 .code [.atom (.keyword "define"), .atom (.variable name), w.blank],
        .application 0 .code (.atom (.variable name) :: blankAll values)] ∧
      t.Made ((called.2.pushChild t'.size (.node called.1)).pushChild a (.node t'.size))
        (.application a .code [x] :: zs) := by
  intro wrapped defined called
  have h1 : t.Made wrapped ([.atom (.keyword "define"), .atom (.variable name), w] ++
      .lambda t'.size [] [] :: (values ++ .application a .code [] :: zs)) :=
    ((hm.allocLambda.atom (.variable name)).atom (.keyword "define")).perm (by classical grind)
  have h2 := ((h1.application s).perm (.swap _ _ _)).pushChild rfl rfl
  have h3 : t.Made (defined.2.pushChild t'.size (.node defined.1)) ((.atom (.variable name) :: values) ++
      .lambda t'.size [] [.application wrapped.size .code
        [.atom (.keyword "define"), .atom (.variable name), w]] :: .application a .code [] :: zs) :=
    (h2.perm List.perm_middle.symm).atom (.variable name)
  have h4 := ((h3.application s).perm (.swap _ _ _)).pushChild rfl rfl
  refine ⟨_, ?_, ?_, ?_, (h4.perm (.swap _ _ _)).pushChild rfl rfl⟩
  · rfl
  rotate_left
  · rfl
  · exact ⟨rfl, List.nodup_nil, ⟨rfl, Or.inl rfl, Or.inl rfl, hw, trivial⟩, ⟨rfl, Or.inl rfl, hvalues⟩, trivial⟩

end Tree.Made

namespace Form

/-! ### Forms

The clauses after an `else` clause are built and hang nowhere; the lemmas call such terms `strays`. -/

/-- **What a form becomes**: a term that is legal in the layer of the form and has its sketch, and strays, which have the
sketches of the clauses that are dropped. -/
structure Becomes (layer : Layer) (f : Form) (x : Term) (strays : List Term) : Prop where
  legal : x.Legal layer
  dropped : Term.LegalAll .code strays
  sketch : x.blank = f.sketch
  lost : blankAll strays = sketchAll f.dropped

/-- What several forms become. -/
structure BecomeAll (layer : Layer) (fs : List Form) (xs strays : List Term) : Prop where
  legal : Term.LegalAll layer xs
  dropped : Term.LegalAll .code strays
  sketch : blankAll xs = sketchAll fs
  lost : blankAll strays = sketchAll (droppedAll fs)

theorem BecomeAll.nil (layer : Layer) : BecomeAll layer [] [] [] := ⟨trivial, trivial, rfl, rfl⟩

theorem BecomeAll.cons {layer : Layer} {f : Form} {fs : List Form} {x : Term} {xs strays strays' : List Term}
    (h : f.Becomes layer x strays) (hs : BecomeAll layer fs xs strays') :
    BecomeAll layer (f :: fs) (x :: xs) (strays ++ strays') where
  legal := ⟨h.legal, hs.legal⟩
  dropped := legalAll_append.mpr ⟨h.dropped, hs.dropped⟩
  sketch := by rw [blankAll, sketchAll, h.sketch, hs.sketch]
  lost := by rw [blankAll_append, droppedAll, sketchAll_append, h.lost, hs.lost]

/-- There are no strays if no clause is dropped. -/
theorem BecomeAll.trim {layer : Layer} {fs : List Form} {xs strays : List Term} (h : BecomeAll layer fs xs strays)
    (htrim : TrimAll fs) : strays = [] := by
  have hlost := h.lost
  rw [TrimAll.dropped fs htrim] at hlost
  cases strays with
  | nil => rfl
  | cons x xs => cases hlost

mutual

/-- **A form becomes a term.** -/
theorem made_build {layer : Layer} : (f : Form) → f.Legal layer → (t : Tree) →
    ∃ x strays, (f.build t).1 = x.child ∧ f.Becomes layer x strays ∧ t.Made (f.build t).2 (x :: strays)
  | .atom a, hl, t => ⟨.atom a, [], rfl, ⟨hl, trivial, rfl, rfl⟩, (Tree.Made.refl t).atom a⟩
  | .string s content, _, t =>
    ⟨.string t.size content, [], rfl, ⟨trivial, trivial, rfl, rfl⟩,
      ((Tree.Made.refl t).alloc (w := .string t.size content) rfl (by simp [Placed, Tree.get?_alloc])).setSpan _ s⟩
  | .group quotation s items, hl, t => by
    have hopen := (Tree.Made.refl t).allocApplication quotation
    have close : ∀ {layer'}, (LegalAll layer' items) →
        ∃ xs strays, BecomeAll layer' items xs strays ∧ (∀ j, .node j ∈ xs.map child → t.size < j) ∧
          t.Made ((Form.group quotation s items).build t).2 (.application t.size quotation xs :: strays) := by
      intro layer' hitems
      obtain ⟨xs, strays, hxs, habove, hm⟩ := made_buildInto items hitems hopen rfl rfl
      rw [List.append_nil] at hm
      exact ⟨xs, strays, hxs, habove, hm.setSpan _ s⟩
    cases quotation with
    | code =>
      obtain ⟨xs, strays, hxs, -, hm⟩ := close hl.2
      exact ⟨.application t.size .code xs, strays, rfl,
        ⟨⟨hl.1, hxs.legal⟩, hxs.dropped, by rw [blank, Form.sketch, hxs.sketch], hxs.lost⟩, hm⟩
    | quote =>
      obtain ⟨xs, strays, hxs, habove, hm⟩ := close hl
      exact ⟨.application t.size .quote xs, strays, rfl,
        ⟨⟨habove, hxs.legal⟩, hxs.dropped, by rw [blank, Form.sketch, hxs.sketch], hxs.lost⟩, hm⟩
    | quasiquote =>
      obtain ⟨xs, strays, hxs, habove, hm⟩ := close hl.2
      exact ⟨.application t.size .quasiquote xs, strays, rfl,
        ⟨⟨hl.1, habove, hxs.legal⟩, hxs.dropped, by rw [blank, Form.sketch, hxs.sketch], hxs.lost⟩, hm⟩
    | unquote =>
      obtain ⟨xs, strays, hxs, -, hm⟩ := close hl.2
      have hlen : xs.length = items.length := by
        rw [← length_blankAll, hxs.sketch, sketchAll_eq, List.length_map]
      exact ⟨.application t.size .unquote xs, strays, rfl,
        ⟨⟨hlen.trans hl.1, hxs.legal⟩, hxs.dropped, by rw [blank, Form.sketch, hxs.sketch], hxs.lost⟩, hm⟩
  | .lambda s parameters body, hl, t => by
    have hopen := (Tree.Made.refl t).allocLambda.addParameters parameters
    obtain ⟨xs, strays, hxs, -, hm⟩ := made_buildInto body hl.2 hopen rfl rfl
    rw [List.append_nil] at hm
    refine ⟨.lambda t.size _ xs, strays, rfl, ⟨?_, hxs.dropped, ?_, hxs.lost⟩, hm.setSpan _ s⟩
    · exact ⟨hl.1, Tree.Made.nodup_addNames List.nodup_nil _, hxs.legal⟩
    · rw [blank, Form.sketch, hxs.sketch]
      rfl
  | .procedure s lambdaSpan name parameters body, hl, t => by
    have hwords : t.Made (t.alloc (Node.freshApplication none .code)).2
        (.application t.size .code [] :: [.atom (.keyword "define"), .atom (.variable name)] ++ []) :=
      (((Tree.Made.refl t).atom (.variable name)).atom (.keyword "define")).allocApplication .code
    have hlambda := (hwords.pushAll rfl rfl).allocLambda.addParameters parameters
    obtain ⟨xs, strays, hxs, -, hm⟩ := made_buildInto body hl.2 hlambda rfl rfl
    have hswap : ∀ a b : Term, (a :: (strays ++ [b])).Perm (b :: a :: strays) := by
      intro a b
      classical grind
    refine ⟨_, strays, rfl, ⟨?_, hxs.dropped, ?_, hxs.lost⟩,
      (((hm.setSpan _ lambdaSpan).perm (hswap _ _)).pushChild rfl rfl).setSpan _ s⟩
    · exact ⟨hl.1, Or.inl rfl, Or.inl rfl, ⟨rfl, Tree.Made.nodup_addNames List.nodup_nil _, hxs.legal⟩, trivial⟩
    · rw [Form.sketch, ← hxs.sketch]
      rfl
  | .letIn s bodySpan name names initials body, hl, t => by
    have happ := (Tree.Made.refl t).allocApplication .code
    obtain ⟨values, strays, hvalues, hinitials, hmv⟩ :=
      made_buildAll initials hl.2.1 (t.alloc (Node.freshApplication none .code)).2
    have hlambda := (happ.trans hmv).allocLambda.addParameters names
    obtain ⟨xs, strays', hxs, -, hm⟩ := made_buildInto body hl.2.2 hlambda rfl rfl
    have hlegal := fun h : Handle =>
      show ((Term.lambda h (names.foldl Tree.Made.addName []) []).append xs).Legal .code
      from ⟨rfl, Tree.Made.nodup_addNames List.nodup_nil _, hxs.legal⟩
    have hstrays : Term.LegalAll .code (strays ++ strays') := legalAll_append.mpr ⟨hinitials.dropped, hxs.dropped⟩
    have hlost : blankAll (strays ++ strays') = sketchAll (droppedAll initials ++ droppedAll body) := by
      rw [blankAll_append, sketchAll_append, hinitials.lost, hxs.lost]
    have hswap : ∀ a b : Term, (a :: (strays' ++ (values ++ strays ++ [b]))).Perm
        (b :: a :: values ++ (strays ++ strays')) := by
      intro a b
      classical grind
    have hm := ((hm.setSpan (buildAll initials (t.alloc (Node.freshApplication none .code)).2).2.size
      bodySpan).setSpan t.size s).perm (hswap _ _)
    cases name with
    | none =>
      have hlet := hm.letIn
      rw [← hvalues] at hlet
      refine ⟨.application t.size .code (_ :: values), _, rfl,
        ⟨⟨hl.1, hlegal _, hinitials.legal⟩, hstrays, ?_, hlost⟩, hlet⟩
      rw [Form.sketch, ← hinitials.sketch, ← hxs.sketch]
      rfl
    | some name =>
      obtain ⟨x, -, hlx, hsketch, hmx⟩ := hm.namedLet (hlegal _) hinitials.legal s name
      refine ⟨.application t.size .code [x], _, rfl, ⟨⟨hl.1, hlx, trivial⟩, hstrays, ?_, hlost⟩, ?_⟩
      · rw [Form.sketch, ← hinitials.sketch, ← hxs.sketch, blank, blankAll, hsketch]
        rfl
      · simp only [build, hvalues, Tree.alloc_fst]
        exact hmx.setSpan _ s
  | .clause s test body rest, hl, t => by
    obtain ⟨test', strays₁, htest, hlt, hst, htestSketch, htestLost, hmt⟩ := made_buildOption test hl.2.1 t
    obtain ⟨body', strays₂, hbody, hbodies, hmb⟩ := made_buildAll body hl.2.2.1 (buildOption test t).2
    obtain ⟨rest', strays₃, hrest, hlr, hsr, hrestSketch, hrestLost, hmr⟩ :=
      made_buildOption rest hl.2.2.2 (buildAll body (buildOption test t).2).2
    have hstrays : Term.LegalAll .code (strays₁ ++ (strays₂ ++ strays₃)) :=
      legalAll_append.mpr ⟨hst, legalAll_append.mpr ⟨hbodies.dropped, hsr⟩⟩
    have hlost : blankAll (strays₁ ++ (strays₂ ++ strays₃)) =
        sketchAll (droppedOption test ++ (droppedAll body ++ droppedOption rest)) := by
      simp only [blankAll_append, sketchAll_append, htestLost, hbodies.lost, hrestLost]
    have hswap : (rest'.toList ++ strays₃ ++ (body' ++ strays₂ ++ (test'.toList ++ strays₁))).Perm
        (body' ++ (test'.toList ++ rest'.toList ++ (strays₁ ++ (strays₂ ++ strays₃)))) := by
      classical grind
    obtain ⟨x, hx, hlx, hsketch, hm⟩ := (((hmt.trans hmb).trans hmr).perm hswap).sequence s hbodies.legal
    simp only [build, htest, hbody, hrest]
    rw [hbodies.sketch] at hsketch
    cases test' with
    | none =>
      -- an `else` clause is its body, and the clauses after it are strays
      refine ⟨x, rest'.toList ++ (strays₁ ++ (strays₂ ++ strays₃)), hx, ⟨hl.1 ▸ hlx,
        legalAll_append.mpr ⟨hlr, hstrays⟩, ?_, ?_⟩, hm⟩
      · rw [Form.sketch, ← htestSketch, hsketch]
        rfl
      · have htest : test = none := by
          cases test with
          | none => rfl
          | some f => cases htestSketch
        have hlast : blankAll rest'.toList = sketchAll rest.toList := by
          rw [blankAll_eq, sketchAll_eq]
          cases rest' with
          | none =>
            cases rest with
            | none => rfl
            | some f => cases hrestSketch
          | some y =>
            cases rest with
            | none => cases hrestSketch
            | some f => exact congrArg (fun x => [x]) (Option.some.inj hrestSketch)
        rw [blankAll_append, hlost, hlast, ← sketchAll_append, Form.dropped, htest]
        rfl
    | some test' =>
      have hm : t.Made _ ((.atom (.keyword "if") :: test' :: x :: rest'.toList) ++ (strays₁ ++ (strays₂ ++ strays₃))) :=
        (hm.perm (.swap _ _ _)).atom (.keyword "if")
      have hchildren : (Term.atom (.keyword "if") :: test' :: x :: rest'.toList).map child =
          .atom (.keyword "if") :: test'.child :: (sequence s (body'.map child)
            (buildOption rest (buildAll body (buildOption test t).2).2).2).1 :: (rest'.map child).toList := by
        rw [hx]
        cases rest' <;> rfl
      have hm := hm.application s
      rw [hchildren] at hm
      refine ⟨.application _ .code (.atom (.keyword "if") :: test' :: x :: rest'.toList), _, rfl,
        ⟨⟨hl.1, Or.inl rfl, hlt.1, hlx, hlr⟩, hstrays, ?_, ?_⟩, hm⟩
      · rw [Form.sketch, ← htestSketch, ← hrestSketch]
        simp only [blank, blankAll, hsketch, sketchClause, Option.map_some]
        cases rest' <;> rfl
      · have htest : test.isNone = false := by
          cases test with
          | none => cases htestSketch
          | some f => rfl
        rw [hlost, Form.dropped, htest]
        rfl

/-- Forms that are hung below a node become its items. -/
theorem made_buildInto {layer : Layer} {t₀ : Tree} {h : Handle} : (fs : List Form) → LegalAll layer fs →
    {t : Tree} → {w : Term} → {zs : List Term} → t₀.Made t (w :: zs) → w.isOpen → w.child = .node h →
    ∃ xs strays, BecomeAll layer fs xs strays ∧ (∀ j, .node j ∈ xs.map child → h < j) ∧
      t₀.Made (buildInto h fs t) (w.append xs :: (strays ++ zs))
  | [], _, t, w, zs, hm, ho, hw =>
    ⟨[], [], .nil layer, by simp, by rw [Term.append_nil]; exact hm⟩
  | f :: fs, hl, t, w, zs, hm, ho, hw => by
    obtain ⟨x, strays, hx, hbecomes, hmx⟩ := made_build f hl.1 t
    have hswap : (x :: strays ++ w :: zs).Perm (w :: x :: (strays ++ zs)) := by
      classical grind
    have hnext := ((hm.trans hmx).perm hswap).pushChild ho hw
    rw [← hx] at hnext
    obtain ⟨xs, strays', hxs, habove, hm'⟩ :=
      made_buildInto fs hl.2 hnext (by simpa using ho) (by simpa using hw)
    rw [Term.append_append] at hm'
    -- what is built later has a greater handle than what it hangs under
    have hfirst : ∀ j, x.child = .node j → h < j := by
      intro j hj
      have hold := (hm.mem_fresh.mp (List.mem_append_left _ (mem_handles_of_child hw))).2
      have hnew := (hmx.mem_fresh.mp (List.mem_append_left _ (mem_handles_of_child hj))).1
      exact hold.trans_le hnew
    have hlast : (w.append ([x] ++ xs) :: (strays' ++ (strays ++ zs))).Perm
        (w.append (x :: xs) :: (strays ++ strays' ++ zs)) := by
      rw [List.singleton_append]
      classical grind
    refine ⟨x :: xs, strays ++ strays', BecomeAll.cons hbecomes hxs, fun j hj => ?_, hm'.perm hlast⟩
    rcases List.mem_cons.mp hj with hj | hj
    · exact hfirst j hj.symm
    · exact habove j hj

/-- Forms become terms. -/
theorem made_buildAll {layer : Layer} : (fs : List Form) → LegalAll layer fs → (t : Tree) →
    ∃ xs strays, (buildAll fs t).1 = xs.map child ∧ BecomeAll layer fs xs strays ∧
      t.Made (buildAll fs t).2 (xs ++ strays)
  | [], _, t => ⟨[], [], rfl, .nil layer, .refl t⟩
  | f :: fs, hl, t => by
    obtain ⟨x, strays, hx, hbecomes, hmx⟩ := made_build f hl.1 t
    obtain ⟨xs, strays', hxs, hall, hmxs⟩ := made_buildAll fs hl.2 (f.build t).2
    have hswap : (xs ++ strays' ++ x :: strays).Perm (x :: xs ++ (strays ++ strays')) := by
      classical grind
    exact ⟨x :: xs, strays ++ strays', by simp [buildAll, hx, hxs], BecomeAll.cons hbecomes hall,
      (hmx.trans hmxs).perm hswap⟩

/-- A form that may be missing becomes a term that may be missing. -/
theorem made_buildOption : (o : Option Form) → LegalOption o → (t : Tree) →
    ∃ (x : Option Term) (strays : List Term), (buildOption o t).1 = x.map child ∧
      Term.LegalAll .code x.toList ∧ Term.LegalAll .code strays ∧ x.map blank = sketchOption o ∧
      blankAll strays = sketchAll (droppedOption o) ∧ t.Made (buildOption o t).2 (x.toList ++ strays)
  | none, _, t => ⟨none, [], rfl, trivial, trivial, rfl, rfl, .refl t⟩
  | some f, hl, t => by
    obtain ⟨x, strays, hx, hbecomes, hmx⟩ := made_build f hl t
    exact ⟨some x, strays, by simp [buildOption, hx], ⟨hbecomes.legal, trivial⟩, hbecomes.dropped,
      congrArg some hbecomes.sketch, hbecomes.lost, hmx⟩

end

end Form

/-- **A tree and the terms that it holds**: the top lambda first, and the strays. Together they have every
handle of the tree, each once. -/
structure Tree.Holds (t : Tree) (roots : List Term) : Prop where
  top : ∃ body, roots.head? = some (.lambda Tree.top [] body)
  placed : PlacedAll t none roots
  legal : LegalAll .code roots
  handles : (handlesAll roots).Perm (List.range t.size)

theorem Tree.Holds.handles_nodup {t : Tree} {roots : List Term} (h : t.Holds roots) : (handlesAll roots).Nodup :=
  h.handles.nodup_iff.mpr List.nodup_range

/-- The top lambda has no parameters and nothing around it. -/
theorem Tree.Holds.top_node {t : Tree} {roots : List Term} (h : t.Holds roots) :
    ∃ body, t.get? Tree.top = some (.lambda none [] body) := by
  obtain ⟨body, hhead⟩ := h.top
  cases roots with
  | nil => cases hhead
  | cons x rest =>
    cases hhead
    exact ⟨_, h.placed.1.1⟩

/-- The tree of a program is an empty tree that has grown by its forms, and then by what they declare. -/
theorem Tree.made_ofForms {forms : List Form} (hl : Form.LegalAll .code forms) :
    ∃ body strays, ({ nodes := #[] } : Tree).Made (Form.buildInto Tree.top forms Tree.empty)
      (.lambda Tree.top [] body :: strays) ∧ Form.BecomeAll .code forms body strays := by
  have hempty : ({ nodes := #[] } : Tree).Made Tree.empty [.lambda Tree.top [] []] :=
    (Tree.Made.refl _).allocLambda
  obtain ⟨body, strays, hbecome, -, hm⟩ := Form.made_buildInto forms hl hempty rfl rfl
  rw [List.append_nil] at hm
  exact ⟨body, strays, hm, hbecome⟩

/-- **The tree of a program holds terms**, whose sketches are those of the forms. -/
theorem Tree.holds_ofForms {forms : List Form} (hl : Form.LegalAll .code forms) :
    ∃ body strays, (Tree.ofForms forms).Holds (.lambda Tree.top [] body :: strays) ∧
      Form.BecomeAll .code forms body strays ∧ (Tree.ofForms forms).analysed = false := by
  obtain ⟨xs, strays, hm, hxs⟩ := made_ofForms hl
  refine ⟨xs, strays, ⟨⟨xs, rfl⟩, hm.placed.congr fun _ _ => rfl, ⟨⟨rfl, ?_, hxs.legal⟩, hxs.dropped⟩, ?_⟩, hxs,
    congrArg Tree.analysed hm.notes⟩
  · exact List.nodup_nil
  · have hfresh := hm.fresh
    rwa [show ({ nodes := #[] } : Tree).size = 0 from rfl, Nat.sub_zero, ← List.range_eq_range'] at hfresh

/-- **What the tree of a program notes** is what its top-level forms declare. -/
theorem Tree.notes_ofForms {forms : List Form} (hl : Form.LegalAll .code forms) :
    (Tree.ofForms forms).notes = { Tree.empty.notes with
      natives := OrderedSet.ofMembers
        (((Tree.ofForms forms).bodyOf Tree.top).filterMap (Tree.ofForms forms).nativeDeclaration?)
      dependencies := Table.ofList
        (((Tree.ofForms forms).bodyOf Tree.top).filterMap (Tree.ofForms forms).importDeclaration?) } := by
  obtain ⟨_, _, hm, -⟩ := made_ofForms hl
  have hnotes := hm.notes
  generalize hbuilt : Form.buildInto Tree.top forms Tree.empty = built at hnotes
  have hform : Tree.ofForms forms = built.declare := by rw [ofForms, hbuilt]
  rw [hform]
  obtain ⟨nodes, spans, scopes, tailCalls, renamings, natives, dependencies, analysed⟩ := built
  cases hnotes
  rfl

end SchemeMachine
