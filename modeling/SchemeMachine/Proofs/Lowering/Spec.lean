import SchemeMachine.Proofs.Lowering.Relation

/-!
# Lowering gives pieces

What lowering makes of a term is related to it by `Lowers`. Lowering hands out from a stock; `Lowering.Yields`
says of a computation that whenever it ends, the stock is still sound, has lost no constant, and what the
computation answers is as a relation says, for every table of constants that the final one can grow to.

* `Lowering.Stock.Sound` is the invariant of the stock.
* `Lowering.Yields.bind` puts computations together, the lemmas after it are about one function each.
* `Lowering.yields_node` is the result for a node, `Lowering.yields_lambdaBlocks` for the blocks of lambdas.
-/

namespace SchemeMachine

open Term

/-- The constant that a node of quoted data becomes. -/
def Tree.constantOf (t : Tree) (h : Handle) : Constant :=
  match t.get? h with
  | some (.string _ content) => .string content
  | some (.application _ _ children) => .list (children.map Child.operand)
  | _ => .list []

namespace Lowering

/-- One table of constants holds all that another does. -/
def Extends (K K' : Table Handle Constant) : Prop := ∀ h c, K.find? h = some c → K'.find? h = some c

theorem Extends.refl (K : Table Handle Constant) : Extends K K := fun _ _ h => h

theorem Extends.trans {K K' K'' : Table Handle Constant} (h : Extends K K') (h' : Extends K' K'') :
    Extends K K'' :=
  fun j c hj => h' j c (h j c hj)

/-- **The invariant of the stock.** A constant is what its node says, or a fresh empty list; a constant list
refers to constants with larger handles; a hole of a template is no constant. -/
structure Stock.Sound (t : Tree) (s : Stock) : Prop where
  sorted : s.constants.Sorted
  size_le : t.size ≤ s.nextConstant
  content : ∀ h c, s.constants.find? h = some c →
    h < t.size ∧ c = t.constantOf h ∨ t.size ≤ h ∧ h < s.nextConstant ∧ c = .list []
  lists : ∀ h items, s.constants.find? h = some (.list items) → ∀ j, .handle j ∈ items →
    h < j ∧ s.constants.contains j
  holes : ∀ h parent children, t.get? h = some (.application parent .unquote children) → s.constants.find? h = none

/-- A constant list holds no labels. -/
theorem Stock.Sound.label_not_mem {t : Tree} {s : Stock} (hs : s.Sound t) (h : Handle) (items : List Operand)
    (hc : s.constants.find? h = some (.list items)) (name : String) : .label name ∉ items := by
  intro hmem
  rcases hs.content h _ hc with ⟨-, he⟩ | ⟨-, -, he⟩
  · unfold Tree.constantOf at he
    split at he
    · cases he
    · cases he
      obtain ⟨c, -, hc⟩ := List.mem_map.mp hmem
      cases c <;> cases hc
    · cases he
      cases hmem
  · cases he
    cases hmem

/-- **A computation ends well or not at all**: whenever it ends, the stock is sound and has only grown, and
`R` holds of the answer and every table that the constants can grow to. -/
def Yields {α : Type} (t : Tree) (m : Lower α) (R : Table Handle Constant → α → Prop) : Prop :=
  ∀ s a s', s.Sound t → m.run s = .ok (a, s') →
    s'.Sound t ∧ Extends s.constants s'.constants ∧ ∀ K, Extends s'.constants K → R K a

section Rules

variable {α β : Type} {t : Tree} {m : Lower α} {f : α → Lower β} {R : Table Handle Constant → α → Prop}
  {S : Table Handle Constant → β → Prop}

theorem Yields.pure {a : α} (h : ∀ K, R K a) : Yields t (pure a : Lower α) R := by
  intro s b s' hs hrun
  cases hrun
  exact ⟨hs, .refl _, fun K _ => h K⟩

theorem Yields.throw (e : LowerError) : Yields t (throw e : Lower α) R := by
  intro s b s' _ hrun
  cases hrun

theorem Yields.throw_bind (e : LowerError) : Yields t ((MonadExcept.throw e : Lower α) >>= f) S := by
  intro s b s' _ hrun
  cases hrun

/-- One computation after the other; the second may rely on the constants that the first leaves. -/
theorem Yields.bindAt (hm : Yields t m R)
    (hf : ∀ a s, s.Sound t → R s.constants a → ∀ b s', (f a).run s = .ok (b, s') →
      s'.Sound t ∧ Extends s.constants s'.constants ∧ ∀ K, Extends s'.constants K → R K a → S K b) :
    Yields t (m >>= f) S := by
  intro s b s'' hs hrun
  rw [StateT.run_bind] at hrun
  obtain ⟨⟨a, s'⟩, hrun, hrun'⟩ := Except.bind_eq_ok.mp hrun
  obtain ⟨hs', hext, hR⟩ := hm s a s' hs hrun
  obtain ⟨hs'', hext', hS⟩ := hf a s' hs' (hR _ (.refl _)) b s'' hrun'
  exact ⟨hs'', hext.trans hext', fun K hK => hS K hK (hR K (hext'.trans hK))⟩

/-- **One computation after the other.** -/
theorem Yields.bind (hm : Yields t m R) (hf : ∀ a, Yields t (f a) fun K b => R K a → S K b) :
    Yields t (m >>= f) S :=
  hm.bindAt fun a s hs _ b s' hrun => hf a s b s' hs hrun

theorem Yields.imp {R' : Table Handle Constant → α → Prop} (hm : Yields t m R) (h : ∀ K a, R K a → R' K a) :
    Yields t m R' := by
  intro s a s' hs hrun
  obtain ⟨hs', hext, hR⟩ := hm s a s' hs hrun
  exact ⟨hs', hext, fun K hK => h K a (hR K hK)⟩

/-- A computation whose answer is wrapped up. -/
theorem Yields.map {g : α → β} (hm : Yields t m R) (h : ∀ K a, R K a → S K (g a)) :
    Yields t (do return g (← m)) S :=
  hm.bind fun a => .pure fun K => h K a

end Rules

theorem yields_freshLabel (t : Tree) : Yields t freshLabel fun _ _ => True := by
  intro s n s' hs hrun
  cases hrun
  exact ⟨{ hs with }, .refl _, fun _ _ => trivial⟩

/-- Note the constant of a node. -/
theorem yields_addConstant {t : Tree} {h : Handle} (hlt : h < t.size) {s : Stock} (hs : s.Sound t)
    (hhole : ∀ parent children, t.get? h ≠ some (.application parent .unquote children))
    (hlists : ∀ items, t.constantOf h = .list items → ∀ j, .handle j ∈ items → h < j ∧ s.constants.contains j) :
    Stock.Sound t { s with constants := s.constants.insert h (t.constantOf h) } ∧
      Extends s.constants (s.constants.insert h (t.constantOf h)) := by
  have hext : Extends s.constants (s.constants.insert h (t.constantOf h)) := by
    intro j c hj
    rw [Table.find?_insert]
    split
    · next he =>
      subst he
      rcases hs.content j c hj with ⟨-, rfl⟩ | ⟨hle, -⟩
      · rfl
      · exact absurd hlt (Nat.not_lt.mpr hle)
    · exact hj
  have hcontains : ∀ j, s.constants.contains j = true → (s.constants.insert h (t.constantOf h)).contains j = true :=
    fun j hj => (Table.contains_insert _ _ _ _).mpr (Or.inr hj)
  -- what was there is what it was, as a constant stands for its own node
  refine ⟨⟨hs.sorted.insert _ _, hs.size_le, fun j c hj => ?_, fun j items hj k hk => ?_, fun j q cs hj => ?_⟩, hext⟩
  · dsimp only at hj
    rw [Table.find?_insert] at hj
    split at hj
    · next he =>
      subst he
      cases hj
      exact Or.inl ⟨hlt, rfl⟩
    · exact hs.content j c hj
  · dsimp only at hj ⊢
    rw [Table.find?_insert] at hj
    split at hj
    · next he =>
      subst he
      obtain ⟨hjk, hc⟩ := hlists items (Option.some.inj hj) k hk
      exact ⟨hjk, hcontains k hc⟩
    · obtain ⟨hjk, hc⟩ := hs.lists j items hj k hk
      exact ⟨hjk, hcontains k hc⟩
  · dsimp only
    rw [Table.find?_insert, if_neg, hs.holes j q cs hj]
    rintro rfl
    exact hhole q cs hj

theorem yields_addString {t : Tree} {h : Handle} {parent : Option Handle} {content : String}
    (hn : t.get? h = some (.string parent content)) :
    Yields t (addConstant h (.string content)) fun K _ => K.find? h = some (.string content) := by
  intro s a s' hs hrun
  cases hrun
  have hc : t.constantOf h = .string content := by simp [Tree.constantOf, hn]
  obtain ⟨hs', hext⟩ := yields_addConstant (Tree.lt_size_of_get? hn) hs (by simp [hn]) (by simp [hc])
  rw [hc] at hs' hext
  exact ⟨hs', hext, fun K hK => hK h _ (by simp)⟩

theorem yields_freshConstant (t : Tree) :
    Yields t (freshConstant (.list [])) fun K e => K.find? e = some (.list []) := by
  intro s a s' hs hrun
  cases hrun
  -- the number has not been given out yet
  have hnew : s.constants.find? s.nextConstant = none := by
    cases hfind : s.constants.find? s.nextConstant with
    | none => rfl
    | some c =>
      rcases hs.content _ c hfind with ⟨hlt, -⟩ | ⟨-, hlt, -⟩
      · exact absurd hlt (Nat.not_lt.mpr hs.size_le)
      · exact absurd hlt (Nat.lt_irrefl _)
  have hext : Extends s.constants (s.constants.insert s.nextConstant (.list [])) := by
    intro j c hj
    rw [Table.find?_insert]
    split
    · next he =>
      subst he
      rw [hnew] at hj
      cases hj
    · exact hj
  have hlt : ∀ j : Nat, j < s.nextConstant → j < s.nextConstant + 1 := fun j hj => Nat.lt_succ_of_lt hj
  refine ⟨⟨hs.sorted.insert _ _, Nat.le_succ_of_le hs.size_le, fun j c hj => ?_, fun j items hj k hk => ?_,
    fun j q cs hj => ?_⟩, hext, fun K hK => hK _ _ (by simp)⟩
  · dsimp only at hj
    rw [Table.find?_insert] at hj
    split at hj
    · next he =>
      subst he
      cases hj
      exact Or.inr ⟨hs.size_le, Nat.lt_succ_self _, rfl⟩
    · rcases hs.content j c hj with h | ⟨hle, hj', hc⟩
      · exact Or.inl h
      · exact Or.inr ⟨hle, hlt j hj', hc⟩
  · dsimp only at hj ⊢
    rw [Table.find?_insert] at hj
    split at hj
    · cases hj
      cases hk
    · obtain ⟨hjk, hc⟩ := hs.lists j items hj k hk
      exact ⟨hjk, (Table.contains_insert _ _ _ _).mpr (Or.inr hc)⟩
  · dsimp only
    rw [Table.find?_insert, if_neg (Nat.ne_of_lt (Nat.lt_of_lt_of_le (Tree.lt_size_of_get? hj) hs.size_le)),
      hs.holes j q cs hj]

/-- One computation for each of several terms. -/
theorem yields_mapM {α : Type} {t : Tree} {f : Child → Lower α} {R : Term → Table Handle Constant → α → Prop}
    {xs : List Term} (h : ∀ x ∈ xs, Yields t (f x.child) (R x)) :
    Yields t ((xs.map Term.child).mapM f) fun K ys => List.Forall₂ (fun x y => R x K y) xs ys := by
  induction xs with
  | nil => exact .pure fun K => .nil
  | cons x xs ih =>
    rw [List.map_cons, List.mapM_cons]
    refine (h x List.mem_cons_self).bind fun a => ?_
    refine (ih fun y hy => h y (List.mem_cons_of_mem x hy)).bind fun as => ?_
    exact .pure fun K has ha => .cons ha has

/-! ### Quoted data -/

theorem keptAll_iff {K : Table Handle Constant} {xs : List Term} : KeptAll K xs ↔ ∀ x ∈ xs, x.Kept K := by
  induction xs with
  | nil => simp [KeptAll]
  | cons x xs ih => simp [KeptAll, ih]

theorem operands_of_forall₂ {K : Table Handle Constant} {xs : List Term} {ops : List Operand}
    (h : List.Forall₂ (fun x op => op = x.child.operand ∧ x.Kept K) xs ops) :
    ops = (xs.map Term.child).map Child.operand ∧ KeptAll K xs := by
  induction h with
  | nil => exact ⟨rfl, trivial⟩
  | cons hx _ ih => exact ⟨by simp [hx.1, ih.1], hx.2, ih.2⟩

/-- Kept data are constants. -/
theorem contains_of_kept {K : Table Handle Constant} {x : Term} (hx : x.Kept K) {h : Handle}
    (hc : x.child = .node h) : K.contains h = true := by
  cases x with
  | atom a => cases hc
  | string k content =>
    cases hc
    exact Table.contains_iff.mpr ⟨_, hx⟩
  | lambda k parameters body => exact hx.elim
  | application k quotation items =>
    cases hc
    exact Table.contains_iff.mpr ⟨_, hx.1⟩

/-- **Quoted data become constants.** -/
theorem yields_constantList {t : Tree} (fuel : Nat) {h : Handle} {parent : Option Handle} {quotation : Quotation}
    {items : List Term} (hq : quotation ≠ .unquote) (hp : (Term.application h quotation items).Placed t parent)
    (habove : ∀ j, .node j ∈ items.map Term.child → h < j) (hl : LegalAll .data items) :
    Yields t (constantList t fuel h) fun K _ => (Term.application h quotation items).Kept K := by
  induction fuel generalizing h parent quotation items with
  | zero => exact .throw _
  | succ fuel ih =>
    unfold constantList
    rw [hp.1]
    -- the items first, each of them an operand, then the list of the operands
    refine Yields.bindAt (R := fun K ops => ops = (items.map Term.child).map Child.operand ∧ KeptAll K items) ?_ ?_
    · refine (yields_mapM (R := fun x K op => op = x.child.operand ∧ x.Kept K) fun x hx => ?_).imp ?_
      · have hpx := placedAll_iff.mp hp.2 x hx
        have hlx := legalAll_iff.mp hl x hx
        cases x with
        | atom a => exact .pure fun K => ⟨rfl, trivial⟩
        | string k content =>
          simp only [Term.child]
          rw [show t.get? k = _ from hpx]
          exact (yields_addString hpx).bind fun _ => .pure fun K hK => ⟨rfl, hK⟩
        | lambda k parameters body => cases hlx.1
        | application k quotation' items' =>
          simp only [Term.child]
          rw [hpx.1]
          cases quotation' with
          | code => cases hlx.1
          | quasiquote => cases hlx.1
          | unquote => exact .throw_bind _
          | quote => exact (ih (by decide) hpx hlx.1 hlx.2).bind fun _ => .pure fun K hK => ⟨rfl, hK⟩
      · intro K ops hops
        exact operands_of_forall₂ hops
    · rintro ops s hs ⟨rfl, hkept⟩ a s' hrun
      cases hrun
      have hc : t.constantOf h = .list ((items.map Term.child).map Child.operand) := by
        simp [Tree.constantOf, hp.1]
      obtain ⟨hs', hext⟩ := yields_addConstant (Tree.lt_size_of_get? hp.1) hs (by simp [hp.1, hq]) fun ops hops j hj => by
        rw [hc] at hops
        cases hops
        obtain ⟨c, hcm, hcj⟩ := List.mem_map.mp hj
        cases c with
        | atom a => cases hcj
        | node k =>
          cases hcj
          obtain ⟨x, hx, hxk⟩ := List.mem_map.mp hcm
          exact ⟨habove j hcm, contains_of_kept (keptAll_iff.mp hkept x hx) hxk⟩
      rw [hc] at hs' hext
      exact ⟨hs', hext, fun K hK hR => ⟨hK h _ (by simp), hR.2⟩⟩

/-! ### Where a term stands -/

/-- **A term in the code of the lambda `M`**, below the node `parent`. -/
structure Sits (t : Tree) (M : Handle) (tail : Bool) (parent : Handle) (layer : Layer) (x : Term) : Prop where
  placed : x.Placed t (some parent)
  legal : x.Legal layer
  owned : x.Owned M
  within : ∃ k, t.Encloses M (some parent) k ∧ k + x.handles.length ≤ t.size
  lighter : x.handles.length < t.weight M
  tails : ∀ h, (h, false) ∈ x.positions tail → t.tailCalls.contains h = false

/-- Terms in the code of the lambda `M`; `flags` says which are in tail position. -/
structure SitsAll (t : Tree) (M : Handle) (flags : List Bool) (parent : Handle) (layer : Layer) (xs : List Term) :
    Prop where
  placed : PlacedAll t (some parent) xs
  legal : LegalAll layer xs
  owned : OwnedAll M xs
  within : ∃ k, t.Encloses M (some parent) k ∧ k + (handlesAll xs).length ≤ t.size
  lighter : (handlesAll xs).length < t.weight M
  tails : ∀ h, (h, false) ∈ positionsAll flags xs → t.tailCalls.contains h = false

section Standing

variable {t : Tree} {M parent : Handle} {tail : Bool} {layer : Layer} {flags : List Bool} {x : Term}
  {xs : List Term}

theorem SitsAll.head (h : SitsAll t M flags parent layer (x :: xs)) :
    Sits t M (flags.headD false) parent layer x where
  placed := h.placed.1
  legal := h.legal.1
  owned := h.owned.1
  within := by
    obtain ⟨k, he, hk⟩ := h.within
    exact ⟨k, he, by simp only [handlesAll, List.length_append] at hk; omega⟩
  lighter := by
    have hl := h.lighter
    simp only [handlesAll, List.length_append] at hl
    omega
  tails := fun j hj => h.tails j (List.mem_append_left _ hj)

theorem SitsAll.rest (h : SitsAll t M flags parent layer (x :: xs)) :
    SitsAll t M flags.tail parent layer xs where
  placed := h.placed.2
  legal := h.legal.2
  owned := h.owned.2
  within := by
    obtain ⟨k, he, hk⟩ := h.within
    exact ⟨k, he, by simp only [handlesAll, List.length_append] at hk; omega⟩
  lighter := by
    have hl := h.lighter
    simp only [handlesAll, List.length_append] at hl
    omega
  tails := fun j hj => h.tails j (List.mem_append_right _ hj)

theorem SitsAll.mem (h : SitsAll t M [] parent layer xs) (hx : x ∈ xs) : Sits t M false parent layer x := by
  induction xs with
  | nil => cases hx
  | cons y ys ih =>
    rcases List.mem_cons.mp hx with rfl | hx
    · exact h.head
    · exact ih h.rest hx

/-- The last one of several terms, and the others. -/
theorem SitsAll.concat (h : SitsAll t M (lastFlag tail (xs ++ [x]).length) parent layer (xs ++ [x])) :
    SitsAll t M [] parent layer xs ∧ Sits t M tail parent layer x := by
  induction xs with
  | nil =>
    obtain ⟨k, he, hk⟩ := h.within
    exact ⟨⟨trivial, trivial, trivial, ⟨k, he, (Nat.le_add_right k _).trans hk⟩, Nat.zero_lt_of_lt h.lighter,
      by simp [positionsAll]⟩, h.head⟩
  | cons y ys ih =>
    have hflags : lastFlag tail (y :: ys ++ [x]).length = false :: lastFlag tail (ys ++ [x]).length := by
      simp [lastFlag, List.replicate_succ]
    rw [hflags] at h
    obtain ⟨hrest, hlast⟩ := ih h.rest
    have hhead : Sits t M false parent layer y := h.head
    refine ⟨⟨⟨hhead.placed, hrest.placed⟩, ⟨hhead.legal, hrest.legal⟩, ⟨hhead.owned, hrest.owned⟩, ?_, ?_,
      fun j hj => ?_⟩, hlast⟩
    · obtain ⟨k, he, hk⟩ := h.within
      exact ⟨k, he, by simp only [handlesAll_append, handlesAll, List.cons_append, List.length_append] at hk ⊢; omega⟩
    · have hl := h.lighter
      simp only [handlesAll_append, handlesAll, List.cons_append, List.length_append] at hl ⊢
      omega
    · rcases List.mem_append.mp hj with hj | hj
      · exact hhead.tails j hj
      · exact hrest.tails j hj

/-- The items of an application. -/
theorem Sits.items {h : Handle} {quotation : Quotation} {items : List Term} {layer' : Layer}
    (hx : Sits t M tail parent layer (.application h quotation items)) (hl : LegalAll layer' items) :
    SitsAll t M (itemFlags tail quotation items) h layer' items where
  placed := hx.placed.2
  legal := hl
  owned := hx.owned.2
  within := by
    obtain ⟨k, he, hk⟩ := hx.within
    exact ⟨k + 1, he.application hx.placed.1, by simp only [handles, List.length_cons] at hk; omega⟩
  lighter := by
    have hl := hx.lighter
    simp only [handles, List.length_cons] at hl
    omega
  tails := fun j hj => hx.tails j (List.mem_cons_of_mem _ hj)

/-- A lambda stands in the lambda whose code it is in. -/
theorem Sits.inside {N : Handle} {parameters : List String} {body : List Term}
    (hx : Sits t M tail parent layer (.lambda N parameters body)) : t.Inside M N := by
  obtain ⟨k, he, hk⟩ := hx.within
  refine ⟨⟨parent, parameters, _, hx.placed.1, he.enclosingLambda (by omega)⟩, ?_⟩
  rw [Tree.weight_eq hx.placed rfl]
  exact hx.lighter

/-- A node in no tail position is not marked. -/
theorem Sits.unmarked {h : Handle} (hx : Sits t M false parent layer x) (hc : x.child = .node h) :
    t.tailCalls.contains h = false := by
  refine hx.tails h ?_
  cases x with
  | atom a => cases hc
  | string k content => cases hc; exact List.mem_cons_self
  | lambda k parameters body => cases hc; exact List.mem_cons_self
  | application k quotation items => cases hc; exact List.mem_cons_self

/-- A mark shows a tail position. -/
theorem Sits.tail_of_marked {h : Handle} (hx : Sits t M tail parent layer x) (hc : x.child = .node h)
    (hm : t.tailCalls.contains h = true) : tail = true := by
  cases tail with
  | true => rfl
  | false => rw [hx.unmarked hc] at hm; cases hm

end Standing

/-- The piece of a marked call is a tail call. -/
theorem isTailCall_of_marked {t : Tree} {K : Table Handle Constant} {M : Handle} {tail : Bool} {x : Term} {p : Piece}
    (hp : Lowers t K M tail x p) {parent : Option Handle} (hx : x.Placed t parent) {h : Handle}
    (hc : x.child = .node h) (hcall : t.IsCall h) (hm : t.tailCalls.contains h = true) : p.IsTailCall := by
  obtain ⟨q, head, rest, hn, hword⟩ := hcall
  cases x with
  | atom a => cases hc
  | string k content =>
    cases hc
    cases hn.symm.trans hx
  | lambda k parameters body =>
    cases hc
    cases hn.symm.trans hx.1
  | application k quotation items =>
    cases hc
    have hitems := hn.symm.trans hx.1
    cases items with
    | nil => cases hitems
    | cons y ys =>
      have hhead : head = y.child := by simp_all
      cases hp with
      | call => exact Or.inl ⟨_, _, by rw [hm]⟩
      | lambdaCall => exact Or.inl ⟨_, _, by rw [hm]⟩
      | computedCall => exact Or.inr ⟨_, _, by rw [hm]⟩
      | quote => simp at hitems
      | template => simp at hitems
      | _ => exact absurd hhead (hword _)

/-! ### Children and bodies -/

/-- The pieces of the nodes below are related to their terms. -/
def Below (t : Tree) (below : Handle → Lower Piece) : Prop :=
  ∀ M tail parent x h, Sits t M tail parent .code x → x.child = .node h →
    Yields t (below h) fun K p => Lowers t K M tail x p

section Constructs

variable {t : Tree} {below : Handle → Lower Piece} (hb : Below t below) {M parent : Handle} {tail : Bool}
  {x : Term} {xs : List Term}

include hb

theorem yields_child (hx : Sits t M tail parent .code x) :
    Yields t (child below x.child) fun K p => Lowers t K M tail x p := by
  cases x with
  | atom a =>
    cases a with
    | «variable» name => exact .pure fun K => .variable name
    | keyword word =>
      simp only [Term.child, child]
      split
      · next h => exact .pure fun K => .keyword h
      · exact .throw _
    | number value => exact .pure fun K => .literal rfl
    | boolean value => exact .pure fun K => .literal rfl
    | symbol name => exact .pure fun K => .literal rfl
  | string h content => exact hb M tail parent _ h hx rfl
  | lambda h parameters body => exact hb M tail parent _ h hx rfl
  | application h quotation items => exact hb M tail parent _ h hx rfl

theorem yields_children (hxs : SitsAll t M [] parent .code xs) :
    Yields t (children below (xs.map Term.child)) fun K ps => LowersAll t K M xs ps := by
  induction xs with
  | nil => exact .pure fun K => .nil
  | cons x xs ih =>
    refine (yields_child hb hxs.head).bind fun p => ?_
    refine (ih hxs.rest).bind fun ps => ?_
    exact .pure fun K hps hp => .cons hp hps

omit hb in
theorem isLiteral_child {layer : Layer} (hx : Sits t M tail parent layer x) :
    Lowering.isLiteral t x.child = x.isLiteral := by
  cases x with
  | atom a => cases a <;> rfl
  | string h content => simp [Term.child, Lowering.isLiteral, Term.isLiteral, show t.get? h = _ from hx.placed]
  | lambda h parameters body => simp [Term.child, Lowering.isLiteral, Term.isLiteral, hx.placed.1]
  | application h quotation items =>
    cases quotation <;> simp [Term.child, Lowering.isLiteral, Term.isLiteral, hx.placed.1]

/-- **The pieces of a body.** -/
theorem yields_forms (hxs : SitsAll t M (lastFlag tail xs.length) parent .code xs) :
    Yields t (forms t below (xs.map Term.child)) fun K r => LowersForms t K M tail xs r.1 r.2 := by
  induction xs with
  | nil => exact .pure fun K => .empty
  | cons x xs ih =>
    cases xs with
    | nil => exact (yields_child hb hxs.head).map fun K p hp => .last hp
    | cons y ys =>
      have hfirst : Sits t M false parent .code x := hxs.head
      have hrest : SitsAll t M (lastFlag tail (y :: ys).length) parent .code (y :: ys) := hxs.rest
      simp only [List.map_cons, forms]
      rw [isLiteral_child hfirst]
      cases hlit : x.isLiteral with
      | true => exact (ih hrest).imp fun K r hr => .skip hlit hr
      | false =>
        refine (yields_child hb hfirst).bind fun q => ?_
        refine (ih hrest).bind fun r => ?_
        exact .pure fun K hr hq => .form hlit hq hr

theorem yields_body (hxs : SitsAll t M (lastFlag tail xs.length) parent .code xs) :
    Yields t (body t below (xs.map Term.child)) fun K p => ∃ ps last, p = .body ps last ∧
      LowersForms t K M tail xs ps last :=
  (yields_forms hb hxs).bind fun _ => .pure fun _ hr => ⟨_, _, rfl, hr⟩

/-! ### Templates -/

omit hb in
theorem lowersItems {K : Table Handle Constant} {ps : List Piece}
    (h : List.Forall₂ (fun x p => LowersItem t K M x p) xs ps) : LowersItems t K M xs ps := by
  induction h with
  | nil => exact .nil
  | cons hx _ ih => exact .cons hx ih

/-- **The piece of a template.** -/
theorem yields_template (fuel : Nat) {h : Handle} {quotation : Quotation} {items : List Term} {layer : Layer}
    (hq : quotation = .quote ∨ quotation = .quasiquote)
    (hx : Sits t M false parent layer (.application h quotation items))
    (habove : ∀ j, .node j ∈ items.map Term.child → h < j) (hl : LegalAll .data items) :
    Yields t (template t below fuel h) fun K p => LowersItem t K M (.application h quotation items) p := by
  have hne : quotation ≠ .unquote := by rcases hq with rfl | rfl <;> decide
  induction fuel generalizing h quotation items parent layer with
  | zero => exact .throw _
  | succ fuel ih =>
    have hitems : SitsAll t M [] h .data items := by
      have hitems := hx.items hl
      rcases hq with rfl | rfl <;> exact hitems
    unfold template
    split
    · rw [hx.placed.1]
      -- the elements, with the holes among them, and then the empty list
      refine (yields_mapM (R := fun x K p => LowersItem t K M x p) fun x hmem => ?_).bind fun ps => ?_
      · have hx := hitems.mem hmem
        have hlx := hx.legal
        cases x with
        | atom a =>
          have ha : a.isDatum := hlx.resolve_left (by decide)
          refine .pure fun K => ?_
          cases a with
          | «variable» name => cases ha
          | keyword word => cases ha
          | _ => exact .atom rfl
        | string k content =>
          simp only [Term.child]
          rw [show t.get? k = _ from hx.placed]
          exact (yields_addString hx.placed).bind fun _ => .pure fun K hK => .string hK
        | lambda k parameters body => cases hlx.1
        | application k quotation' items' =>
          simp only [Term.child]
          rw [hx.placed.1]
          cases quotation' with
          | code => cases hlx.1
          | quasiquote => cases hlx.1
          | quote => exact ih (Or.inl rfl) hx hlx.1 hlx.2 (by decide)
          | unquote =>
            obtain ⟨y, rfl⟩ := List.length_eq_one_iff.mp hlx.1
            have hy : Sits t M false k .code y := (hx.items hlx.2).head
            exact (yields_child hb hy).imp fun K p hp => .hole hp
      · exact (yields_freshConstant t).bind fun e => .pure fun K he hps => .list hne (lowersItems hps) he
    · exact (yields_constantList (t.size + 1) hne hx.placed habove hl).bind fun _ => .pure fun K hk => .constant hne hk

/-! ### Forms -/

omit hb in
/-- A child that is an atom stands for an atom. -/
theorem eq_atom_of_child {a : Atom} (h : x.child = .atom a) : x = .atom a := by
  cases x <;> simp_all [Term.child]

omit hb in
/-- A node that is a lambda stands for a lambda. -/
theorem isLambda_child {layer : Layer} {h : Handle} (hx : Sits t M tail parent layer x) (hc : x.child = .node h) :
    (t.get? h).any Node.isLambda = x.isLambda := by
  cases x with
  | atom a => cases hc
  | string k content => cases hc; simp [show t.get? h = _ from hx.placed, Node.isLambda, Term.isLambda]
  | lambda k parameters body => cases hc; simp [hx.placed.1, Node.isLambda, Term.isLambda]
  | application k quotation items => cases hc; simp [hx.placed.1, Node.isLambda, Term.isLambda]

theorem yields_right (hx : Sits t M false parent .code x) :
    Yields t (rightSide t below x.child) fun K p => LowersRight t K M x p := by
  have hother (hl : x.isLambda = false) : Yields t (child below x.child) fun K p => LowersRight t K M x p :=
    (yields_child hb hx).imp fun K p hp => .other hl hp
  cases x with
  | atom a => exact hother rfl
  | string h content =>
    simp only [Term.child, rightSide, isLambda_child hx rfl]
    exact hother rfl
  | lambda N parameters body =>
    simp only [Term.child, rightSide, isLambda_child hx rfl]
    exact .pure fun K => .lambda hx.inside
  | application h quotation items =>
    simp only [Term.child, rightSide, isLambda_child hx rfl]
    exact hother rfl

/-- What `define` and `set!` share. -/
theorem yields_assignment {h : Handle} {op : Opcode} {fault : LowerError} {R : Table Handle Constant → Piece → Prop}
    (hxs : SitsAll t M [] h .code xs)
    (hR : ∀ name right K p, xs = [.atom (.variable name), right] → LowersRight t K M right p →
      R K (.assignment op name p)) :
    Yields t (assignment t below op fault (xs.map Term.child)) R := by
  -- only a variable and one right side are accepted
  match xs with
  | [target, right] =>
    cases htarget : target.child with
    | atom a =>
      obtain rfl := eq_atom_of_child htarget
      cases a with
      | «variable» name =>
        exact (yields_right hb hxs.rest.head).bind fun p => .pure fun K hp => hR name right K p rfl hp
      | _ => exact .throw _
    | node k =>
      simp only [List.map_cons, htarget]
      exact .throw _
  | [] => exact .throw _
  | [target] =>
    cases htarget : target.child with
    | atom a => cases a <;> (simp only [List.map_cons, htarget]; exact .throw _)
    | node k =>
      simp only [List.map_cons, htarget]
      exact .throw _
  | target :: _ :: _ :: _ =>
    cases htarget : target.child with
    | atom a => cases a <;> (simp only [List.map_cons, htarget]; exact .throw _)
    | node k =>
      simp only [List.map_cons, htarget]
      exact .throw _

theorem yields_define {h : Handle} {fault : LowerError}
    (hx : Sits t M tail parent .code (.application h .code (.atom (.keyword "define") :: xs))) :
    Yields t (assignment t below .store fault (xs.map Term.child)) fun K p =>
      Lowers t K M tail (.application h .code (.atom (.keyword "define") :: xs)) p := by
  refine yields_assignment hb (hx.items hx.legal.2).rest ?_
  rintro name right K p rfl hp
  obtain ⟨y, rfl⟩ := hx.owned.1 rfl name [right] rfl
  exact .define hp

theorem yields_assign {h : Handle} {fault : LowerError}
    (hx : Sits t M tail parent .code (.application h .code (.atom (.keyword "set!") :: xs))) :
    Yields t (assignment t below .set fault (xs.map Term.child)) fun K p =>
      Lowers t K M tail (.application h .code (.atom (.keyword "set!") :: xs)) p := by
  refine yields_assignment hb (hx.items hx.legal.2).rest ?_
  rintro name right K p rfl hp
  exact .assign hp

theorem yields_if {h : Handle} {fault : LowerError}
    (hx : Sits t M tail parent .code (.application h .code (.atom (.keyword "if") :: xs))) :
    Yields t
      (match xs.map Term.child with
        | [test, yes] => conditional below test yes none
        | [test, yes, no] => conditional below test yes (some no)
        | _ => throw fault)
      fun K p => Lowers t K M tail (.application h .code (.atom (.keyword "if") :: xs)) p := by
  have hxs : SitsAll t M [false, tail, tail] h .code xs := (hx.items hx.legal.2).rest
  match xs, hxs with
  | [test, yes], hxs =>
    refine (yields_freshLabel t).bind fun n => ?_
    refine (yields_child hb hxs.head).bind fun p => ?_
    refine Yields.bind (R := fun _ r => r = .push (.atom (.boolean false))) (.pure fun _ => rfl) fun r => ?_
    refine (yields_child hb hxs.rest.head).bind fun q => .pure fun K hq hr hp _ => ?_
    subst hr
    exact .conditionalShort hp hq
  | [test, yes, no], hxs =>
    refine (yields_freshLabel t).bind fun n => ?_
    refine (yields_child hb hxs.head).bind fun p => ?_
    refine (yields_child hb hxs.rest.rest.head).bind fun r => ?_
    exact (yields_child hb hxs.rest.head).bind fun q => .pure fun K hq hr hp _ => .conditional hp hq hr
  | [], _ => exact .throw _
  | [_], _ => exact .throw _
  | _ :: _ :: _ :: _ :: _, _ => exact .throw _

theorem yields_connective (hcalls : ∀ h, t.tailCalls.contains h = true → t.IsCall h) {h : Handle}
    (conjunction : Bool) (hx : Sits t M tail parent .code
      (.application h .code (.atom (.keyword (if conjunction then "and" else "or")) :: xs))) :
    Yields t (connective t below conjunction (xs.map Term.child)) fun K p =>
      Lowers t K M tail (.application h .code (.atom (.keyword (if conjunction then "and" else "or")) :: xs)) p := by
  have hxs : SitsAll t M (lastFlag tail xs.length) h .code xs := by
    have hxs := (hx.items hx.legal.2).rest
    cases conjunction <;> exact hxs
  rcases List.eq_nil_or_concat xs with rfl | ⟨clauses, last, rfl⟩
  · exact .pure fun K => .connectiveNone
  · rw [List.concat_eq_append] at hxs ⊢
    obtain ⟨hclauses, hlast⟩ := hxs.concat
    have hchildren : (clauses ++ [last]).map Term.child = clauses.map Term.child ++ [last.child] := by simp
    unfold connective
    rw [hchildren, List.getLast?_concat, List.dropLast_concat]
    refine (yields_freshLabel t).bind fun n => ?_
    refine (yields_children hb hclauses).bind fun ps => ?_
    refine (yields_child hb hlast).bind fun p => .pure fun K hp hps _ => .connective hps hp fun hreturns => ?_
    cases hc : last.child with
    | atom a => rw [hc] at hreturns; cases hreturns
    | node k =>
      rw [hc] at hreturns
      exact isTailCall_of_marked hp hlast.placed hc (hcalls k hreturns) hreturns

omit hb in
theorem yields_callWithContinuation {h : Handle} {span : Option Span}
    (hx : Sits t M tail parent .code (.application h .code (.atom (.keyword "call/cc") :: xs))) :
    Yields t (callWithContinuation t span (xs.map Term.child)) fun K p =>
      Lowers t K M tail (.application h .code (.atom (.keyword "call/cc") :: xs)) p := by
  have hxs : SitsAll t M [] h .code xs := (hx.items hx.legal.2).rest
  -- the one operand is a variable or a lambda
  match xs, hxs with
  | [], _ => exact .throw _
  | [x], hxs =>
    have hx := hxs.head
    cases x with
    | atom a =>
      cases a with
      | «variable» name => exact (yields_freshLabel t).bind fun n => .pure fun K _ => .callWithContinuation
      | _ => exact .throw _
    | string k content =>
      simp only [List.map_cons, List.map_nil, Term.child, callWithContinuation, isLambda_child hx rfl]
      exact .throw _
    | application k quotation items =>
      simp only [List.map_cons, List.map_nil, Term.child, callWithContinuation, isLambda_child hx rfl]
      exact .throw _
    | lambda N parameters body =>
      simp only [List.map_cons, List.map_nil, Term.child, callWithContinuation, isLambda_child hx rfl]
      exact (yields_freshLabel t).bind fun n => .pure fun K _ => .callLambdaWithContinuation hx.inside
  | x :: _ :: _, _ =>
    cases hc : x.child with
    | atom a => cases a <;> (simp only [List.map_cons, hc]; exact .throw _)
    | node k =>
      simp only [List.map_cons, hc]
      exact .throw _

omit hb in
theorem yields_forking {h : Handle} {span : Option Span}
    (hx : Sits t M tail parent .code (.application h .code (.atom (.keyword "fork") :: xs))) :
    Yields t (forking t span (xs.map Term.child)) fun K p =>
      Lowers t K M tail (.application h .code (.atom (.keyword "fork") :: xs)) p := by
  have hxs : SitsAll t M [] h .code xs := (hx.items hx.legal.2).rest
  match xs, hxs with
  | [], _ => exact .throw _
  | [x], hxs =>
    have hx := hxs.head
    cases x with
    | atom a => cases a <;> exact .throw _
    | string k content =>
      simp only [List.map_cons, List.map_nil, Term.child, forking]
      rw [show t.get? k = _ from hx.placed]
      exact (yields_addString hx.placed).bind fun _ => .pure fun K hk => .fork hk rfl
    | lambda N parameters body =>
      simp only [List.map_cons, List.map_nil, Term.child, forking, hx.placed.1]
      exact .throw_bind _
    | application k quotation items =>
      simp only [List.map_cons, List.map_nil, Term.child, forking, hx.placed.1]
      cases quotation with
      | quote =>
        exact (yields_constantList (t.size + 1) (by decide) hx.placed hx.legal.1 hx.legal.2).bind fun _ =>
          .pure fun K hk => .fork hk rfl
      | _ => exact .throw_bind _
  | x :: _ :: _, _ =>
    cases hc : x.child with
    | atom a => cases a <;> (simp only [List.map_cons, hc]; exact .throw _)
    | node k =>
      simp only [List.map_cons, hc]
      exact .throw _

theorem yields_primitive {h : Handle} {word : String} {op : Opcode} {expected : Nat} {span : Option Span}
    (hxs : SitsAll t M [] h .code xs) (hop : fixedOf? word = some (op, expected)) :
    Yields t (primitive below word op expected span (xs.map Term.child)) fun K p =>
      Lowers t K M tail (.application h .code (.atom (.keyword word) :: xs)) p := by
  unfold primitive
  rw [List.length_map]
  split
  · next hlen =>
    subst hlen
    exact (yields_children hb hxs).map fun K ps hps => .primitive hop hps
  · exact .throw _

theorem yields_arithmetic {h : Handle} {word : String} {op : Opcode} {span : Option Span}
    (hxs : SitsAll t M [] h .code xs) (hop : arithmeticOf? word = some op)
    (hadd : op = .add → word = "+") (hmul : op = .mul → word = "*") :
    Yields t (arithmetic below word op span (xs.map Term.child)) fun K p =>
      Lowers t K M tail (.application h .code (.atom (.keyword word) :: xs)) p := by
  match xs, hxs with
  | [], _ =>
    simp only [List.map_nil, arithmetic]
    split
    · exact .pure fun K => .arithmeticNone (Or.inl ⟨hadd rfl, rfl⟩)
    · exact .pure fun K => .arithmeticNone (Or.inr ⟨hmul rfl, rfl⟩)
    · exact .throw _
    · exact .throw _
    · exact .throw _
  | [x], hxs =>
    have hchild := yields_child hb hxs.head
    simp only [List.map_cons, List.map_nil, arithmetic]
    split
    · exact hchild.map fun K p hp => .arithmetic hop (fun _ => Or.inl rfl) hp .nil
    · exact hchild.map fun K p hp => .arithmetic hop (fun _ => Or.inr rfl) hp .nil
    · exact hchild.map fun K p hp => .arithmeticNeutral hop rfl hp
    · exact hchild.map fun K p hp => .arithmeticNeutral hop rfl hp
    · exact .throw _
  | x :: y :: ys, hxs =>
    refine (yields_child hb hxs.head).bind fun p => ?_
    exact (yields_children hb hxs.rest).map fun K ps hps hp => .arithmetic hop (by simp) hp hps

/-- **The piece of a form.** -/
theorem yields_form (hcalls : ∀ h, t.tailCalls.contains h = true → t.IsCall h) {h : Handle} {word : String}
    (hx : Sits t M tail parent .code (.application h .code (.atom (.keyword word) :: xs))) :
    Yields t (form t below h word (xs.map Term.child)) fun K p =>
      Lowers t K M tail (.application h .code (.atom (.keyword word) :: xs)) p := by
  have hxs := (hx.items hx.legal.2).rest
  unfold form
  dsimp only
  split
  · -- one case for each word that a form can begin with
    exact yields_define hb hx
  · exact yields_assign hb hx
  · exact yields_if hb hx
  · exact yields_connective hb hcalls true hx
  · exact yields_connective hb hcalls false hx
  · refine (yields_body hb hxs).imp fun K p hp => ?_
    obtain ⟨ps, last, rfl, hforms⟩ := hp
    exact .sequence hforms
  · exact yields_callWithContinuation hx
  · exact yields_forking hx
  · match xs, hxs with
    | [x], hxs => exact (yields_child hb hxs.head).map fun K p hp => .display hp
    | [], _ => exact .throw _
    | _ :: _ :: _, _ => exact .throw _
  · match xs with
    | [] => exact .pure fun K => .newline
    | _ :: _ => exact .throw _
  · exact .pure fun K => .declaration (Or.inl rfl)
  · exact .pure fun K => .declaration (Or.inr rfl)
  · exact yields_arithmetic hb hxs rfl (fun _ => rfl) (by decide)
  · exact yields_arithmetic hb hxs rfl (by decide) (by decide)
  · exact yields_arithmetic hb hxs rfl (by decide) (fun _ => rfl)
  · exact yields_arithmetic hb hxs rfl (by decide) (by decide)
  · exact yields_arithmetic hb hxs rfl (by decide) (by decide)
  · exact yields_arithmetic hb hxs rfl (by decide) (by decide)
  · exact yields_primitive hb hxs rfl
  · exact yields_primitive hb hxs rfl
  · exact yields_primitive hb hxs rfl
  · exact yields_primitive hb hxs rfl
  · exact yields_primitive hb hxs rfl
  · exact yields_primitive hb hxs rfl
  · exact yields_primitive hb hxs rfl
  · exact yields_primitive hb hxs rfl
  · exact yields_primitive hb hxs rfl
  · exact .throw _

/-- **The piece of an application.** -/
theorem yields_application (hcalls : ∀ h, t.tailCalls.contains h = true → t.IsCall h) {h : Handle}
    (hx : Sits t M tail parent .code (.application h .code xs)) :
    Yields t (application t below h (xs.map Term.child)) fun K p =>
      Lowers t K M tail (.application h .code xs) p := by
  have hmark : t.tailCalls.contains h = true → tail = true := hx.tail_of_marked rfl
  have hxs := hx.items hx.legal.2
  cases xs with
  | nil => exact .throw _
  | cons x xs =>
    -- the operator says which call it is
    cases x with
    | atom a =>
      cases a with
      | keyword word => exact yields_form hb hcalls hx
      | «variable» name => exact (yields_children hb hxs.rest).map fun K ps hps => .call hmark hps
      | _ => exact .throw _
    | string k content =>
      simp only [List.map_cons, Term.child, application]
      rw [show t.get? k = _ from hxs.head.placed]
      exact .throw _
    | lambda N parameters body =>
      simp only [List.map_cons, Term.child, application, hxs.head.placed.1]
      exact (yields_children hb hxs.rest).map fun K ps hps => .lambdaCall hmark hxs.head.inside hps
    | application k quotation items =>
      simp only [List.map_cons, Term.child, application, hxs.head.placed.1]
      cases quotation with
      | code =>
        refine (yields_freshLabel t).bind fun n => ?_
        exact (yields_children hb hxs).map fun K ps hps _ => .computedCall hmark hps
      | _ => exact .throw _

/-- **The piece of a node.** -/
theorem yields_nodeWith (hcalls : ∀ h, t.tailCalls.contains h = true → t.IsCall h) {h : Handle}
    (hx : Sits t M tail parent .code x) (hc : x.child = .node h) :
    Yields t (nodeWith t below h) fun K p => Lowers t K M tail x p := by
  unfold nodeWith
  cases x with
  | atom a => cases hc
  | string k content =>
    cases hc
    rw [show t.get? h = _ from hx.placed]
    exact (yields_addString hx.placed).bind fun _ => .pure fun K hk => .string hk
  | lambda k parameters body =>
    cases hc
    rw [hx.placed.1]
    exact .pure fun K => .lambda hx.inside
  | application k quotation items =>
    cases hc
    rw [hx.placed.1]
    have hl := hx.legal
    -- what stands in a list is code, a constant, a template or a hole
    cases quotation with
    | code => exact yields_application hb hcalls hx
    | quote =>
      exact (yields_constantList (t.size + 1) (by decide) hx.placed hl.1 hl.2).bind fun _ => .pure fun K hk => .quote hk
    | quasiquote =>
      have hsits : Sits t M false parent .code (.application h .quasiquote items) := { hx with tails := ?_ }
      · exact (yields_template hb _ (Or.inr rfl) hsits hl.2.1 hl.2.2).imp fun K p hp => .template hp
      · intro j hj
        -- the template itself is no call, so that it is not marked
        rcases List.mem_cons.mp hj with hj | hj
        · cases hj
          cases hm : t.tailCalls.contains h with
          | false => rfl
          | true =>
            obtain ⟨p, head, rest, hn, -⟩ := hcalls h hm
            cases hn.symm.trans hx.placed.1
        · exact hx.tails j (List.mem_cons_of_mem _ hj)
    | unquote => exact .throw _

end Constructs

/-- **The piece of a node, at any depth.** -/
theorem yields_node {t : Tree} (hcalls : ∀ h, t.tailCalls.contains h = true → t.IsCall h) (fuel : Nat) :
    Below t (node t fuel) := by
  induction fuel with
  | zero => exact fun M tail parent x h _ _ => .throw _
  | succ fuel ih => exact fun M tail parent x h hx hc => yields_nodeWith ih hcalls hx hc

/-! ### Blocks -/

/-- **The block of a lambda** whose body is `body`. -/
structure LowersBlock (t : Tree) (K : Table Handle Constant) (body : List Term) (b : Block) : Prop where
  sits : SitsAll t b.handle (lastFlag true body.length) b.handle .code body
  node : ∃ parent, t.get? b.handle = some (.lambda parent b.parameters (body.map Term.child))
  owned : ∀ x ∈ b.parameters, ∃ y, x = Tree.scopedName b.handle y
  nodup : b.parameters.Nodup
  written : b.written = b.parameters.map t.writtenName
  lowered : ∃ ps last, b.body = .body ps last ∧ LowersForms t K b.handle true body ps last

/-- The body of a lambda stands in the code of the lambda. -/
theorem sitsAll_body {t : Tree} {roots : List Term} (ha : t.Analysed roots) {h : Handle}
    {parent : Option Handle} {parameters : List String} {children : List Child}
    (hn : t.get? h = some (.lambda parent parameters children)) :
    ∃ body, children = body.map Term.child ∧ SitsAll t h (lastFlag true body.length) h .code body ∧
      (∀ x ∈ parameters, ∃ y, x = Tree.scopedName h y) ∧ parameters.Nodup := by
  obtain ⟨root, hroot, body, hsub, rfl, hplaced, hlegal, hnodup⟩ := ha.holds.lambda hn
  obtain ⟨M, howned⟩ := hsub.owned (ownedAll_iff.mp ha.owned root hroot)
  refine ⟨body, rfl, ⟨hplaced, hlegal, howned.2, ⟨0, Tree.encloses_lambda hn, ?_⟩, ?_, fun j hj => ha.tails j ?_⟩,
    howned.1, hnodup⟩
  · have hlen := (hsub.handles.trans (handles_sublist hroot)).length_le
    rw [ha.holds.handles.length_eq, List.length_range] at hlen
    simp only [handles, List.length_cons] at hlen
    omega
  · have hself : (Term.lambda h parameters body).Placed t parent := ⟨hn, hplaced⟩
    rw [Tree.weight_eq hself rfl]
    exact Nat.lt_succ_self _
  · obtain ⟨first, rest, rfl⟩ := List.append_of_mem hroot
    exact positions_subset [] (hsub.positions _ hj)

theorem yields_lambdaBlocks {t : Tree} {roots : List Term} (ha : t.Analysed roots) (hs : List Handle)
    (hlambdas : ∀ h ∈ hs, ∃ p ps cs, t.get? h = some (.lambda p ps cs)) :
    Yields t (lambdaBlocks t hs) fun K bs =>
      bs.map Block.handle = hs ∧ ∀ b ∈ bs, ∃ body, LowersBlock t K body b := by
  induction hs with
  | nil => exact .pure fun K => ⟨rfl, by simp⟩
  | cons h hs ih =>
    obtain ⟨p, parameters, children, hn⟩ := hlambdas h List.mem_cons_self
    obtain ⟨body, rfl, hsits, howned, hnodup⟩ := sitsAll_body ha hn
    unfold lambdaBlocks
    rw [hn]
    refine (yields_body (yields_node ha.calls _) hsits).bind fun piece => ?_
    refine (ih fun k hk => hlambdas k (List.mem_cons_of_mem h hk)).bind fun bs => .pure fun K hbs hpiece => ?_
    refine ⟨by simp [hbs.1], fun b hb => ?_⟩
    rcases List.mem_cons.mp hb with rfl | hb
    · exact ⟨body, hsits, ⟨p, hn⟩, howned, hnodup, rfl, hpiece⟩
    · exact hbs.2 b hb

end Lowering

end SchemeMachine
