import SchemeMachine.Proofs.Syntax.Building
import SchemeMachine.Proofs.Syntax.Grammar
import SchemeMachine.Proofs.Table
import SchemeMachine.Tree.Scope

/-!
# What scope analysis finds

A lambda binds its parameters and what is defined in it outside nested lambdas, and the scope around it is
that of the lambda around it. After the analysis the tree holds the same terms, with every variable that some
lambda binds under its new name.

* `Tree.Encloses` follows the parents of a node to the lambda around it.
* `Tree.Scoped` says what the table of scopes holds, `Tree.scoped_bindDefinitions` that the analysis makes it so.
* `Term.rename` gives the variables of a term their new names, `Term.Owned` says that what a lambda binds
  carries its handle in front.
* `Tree.holds_renameVariables` is the result for the terms of a tree.
-/

namespace SchemeMachine

open Term

namespace Tree

/-! ### The lambda around a node -/

/-- **The lambda around what hangs below `parent`** is `M`, and is found in `k` steps. What hangs nowhere
belongs to the top lambda. -/
def Encloses (t : Tree) (M : Handle) (parent : Option Handle) (k : Nat) : Prop :=
  match parent with
  | none => M = top
  | some p => ∀ fuel, k < fuel → t.enclosingFrom fuel p = M

/-- What hangs below `parent` is code, which is found in `k` steps. -/
def Unquoted (t : Tree) (parent : Option Handle) (k : Nat) : Prop :=
  match parent with
  | none => True
  | some p => ∀ fuel, k < fuel → t.isQuotedFrom fuel p = false

variable {t : Tree} {M h : Handle} {parent : Option Handle} {k : Nat}

theorem encloses_lambda {parameters : List String} {body : List Child}
    (hn : t.get? h = some (.lambda parent parameters body)) : t.Encloses h (some h) 0 := by
  intro fuel hlt
  obtain ⟨fuel, rfl⟩ := Nat.exists_eq_succ_of_ne_zero (Nat.ne_of_gt hlt)
  simp [enclosingFrom, hn]

theorem Encloses.application {quotation : Quotation} {children : List Child}
    (he : t.Encloses M parent k) (hn : t.get? h = some (.application parent quotation children)) :
    t.Encloses M (some h) (k + 1) := by
  intro fuel hlt
  obtain ⟨fuel, rfl⟩ := Nat.exists_eq_succ_of_ne_zero (Nat.ne_of_gt (Nat.zero_lt_of_lt hlt))
  simp only [enclosingFrom, hn, Node.parent]
  cases parent with
  | none => exact Eq.symm he
  | some p => exact he fuel (Nat.lt_of_succ_lt_succ hlt)

theorem Encloses.enclosingLambda (he : t.Encloses M (some h) k) (hk : k ≤ t.size) : t.enclosingLambda h = M :=
  he (t.size + 1) (Nat.lt_succ_of_le hk)

theorem unquoted_lambda {parameters : List String} {body : List Child}
    (hn : t.get? h = some (.lambda parent parameters body)) : t.Unquoted (some h) k := by
  intro fuel hlt
  obtain ⟨fuel, rfl⟩ := Nat.exists_eq_succ_of_ne_zero (Nat.ne_of_gt (Nat.zero_lt_of_lt hlt))
  simp [isQuotedFrom, hn]

theorem unquoted_hole {children : List Child}
    (hn : t.get? h = some (.application parent .unquote children)) : t.Unquoted (some h) k := by
  intro fuel hlt
  obtain ⟨fuel, rfl⟩ := Nat.exists_eq_succ_of_ne_zero (Nat.ne_of_gt (Nat.zero_lt_of_lt hlt))
  simp [isQuotedFrom, hn]

theorem Unquoted.code {children : List Child} (hu : t.Unquoted parent k)
    (hn : t.get? h = some (.application parent .code children)) : t.Unquoted (some h) (k + 1) := by
  intro fuel hlt
  obtain ⟨fuel, rfl⟩ := Nat.exists_eq_succ_of_ne_zero (Nat.ne_of_gt (Nat.zero_lt_of_lt hlt))
  simp only [isQuotedFrom, hn]
  cases parent with
  | none => rfl
  | some p => exact hu fuel (Nat.lt_of_succ_lt_succ hlt)

/-- The lambda around a node is a lambda, given that the top one is. -/
theorem get?_enclosingFrom (htop : ∃ p ps cs, t.get? top = some (.lambda p ps cs)) (fuel : Nat) (h : Handle) :
    ∃ p ps cs, t.get? (t.enclosingFrom fuel h) = some (.lambda p ps cs) := by
  induction fuel generalizing h with
  | zero => exact htop
  | succ fuel ih =>
    unfold enclosingFrom
    split
    · next p ps cs hn => exact ⟨p, ps, cs, hn⟩
    · split
      · exact ih _
      · exact htop
    · exact htop

/-! ### The table of scopes -/

theorem binds_bind (s : Scope) (x y : String) : (s.bind y).binds x = true ↔ s.binds x = true ∨ x = y := by
  unfold Scope.bind
  split
  · next hy =>
    constructor
    · exact Or.inl
    · rintro (hx | rfl)
      · exact hx
      · exact hy
  · simp [Scope.binds]

@[simp] theorem parent_bind (s : Scope) (x : String) : (s.bind x).parent = s.parent := by
  unfold Scope.bind
  split <;> rfl

theorem binds_foldl_bind (names : List String) (s : Scope) (x : String) :
    (names.foldl Scope.bind s).binds x = true ↔ s.binds x = true ∨ x ∈ names := by
  induction names generalizing s with
  | nil => simp
  | cons name names ih => rw [List.foldl_cons, ih, binds_bind, List.mem_cons, or_assoc]

@[simp] theorem parent_foldl_bind (names : List String) (s : Scope) :
    (names.foldl Scope.bind s).parent = s.parent := by
  induction names generalizing s with
  | nil => rfl
  | cons name names ih => rw [List.foldl_cons, ih, parent_bind]

/-- **A table with a scope for every lambda**: the scope around it, and the names that `binds` lists. -/
structure ScopesAre (t : Tree) (binds : Handle → String → Prop) (scopes : Table Handle Scope) : Prop where
  sorted : scopes.Sorted
  sound : ∀ h s, scopes.find? h = some s → ∃ p ps cs, t.get? h = some (.lambda p ps cs) ∧
    s.parent = p.map t.enclosingLambda ∧ ∀ x, s.binds x = true ↔ x ∈ ps ∨ binds h x
  total : ∀ h p ps cs, t.get? h = some (.lambda p ps cs) → ∃ s, scopes.find? h = some s

theorem scopesAre_parameters (t : Tree) :
    t.ScopesAre (fun _ _ => False) (Table.ofList (t.lambdas.map fun h => (h, t.parameterScope h))) := by
  have hnodup : ((t.lambdas.map fun h => (h, t.parameterScope h)).map Prod.fst).Nodup := by
    rw [List.map_map, Function.comp_def, List.map_id']
    exact List.nodup_range.filter _
  have hfind : ∀ h s, (Table.ofList (t.lambdas.map fun h => (h, t.parameterScope h))).find? h = some s ↔
      h ∈ t.lambdas ∧ s = t.parameterScope h := by
    intro h s
    rw [Table.find?_ofList_of_nodup hnodup, List.mem_map]
    constructor
    · rintro ⟨h', hm, he⟩
      cases he
      exact ⟨hm, rfl⟩
    · rintro ⟨hm, rfl⟩
      exact ⟨h, hm, rfl⟩
  refine ⟨Table.sorted_ofList _, fun h s hs => ?_, fun h p ps cs hn => ?_⟩
  · obtain ⟨hm, rfl⟩ := (hfind h s).mp hs
    obtain ⟨p, ps, cs, hn⟩ := mem_lambdas.mp hm
    refine ⟨p, ps, cs, hn, ?_, fun x => ?_⟩
    · simp [parameterScope, hn]
    · simp only [parameterScope, hn, binds_foldl_bind]
      simp [Scope.binds]
  · exact ⟨_, (hfind h _).mpr ⟨mem_lambdas.mpr ⟨p, ps, cs, hn⟩, rfl⟩⟩

/-- A scope may be replaced by one that binds more. -/
theorem ScopesAre.insert {binds binds' : Handle → String → Prop} {scopes : Table Handle Scope} {s s' : Scope}
    (hs : t.ScopesAre binds scopes) (hfind : scopes.find? h = some s) (hparent : s'.parent = s.parent)
    (hself : ∀ ps : List String, ∀ x, (s.binds x = true ↔ x ∈ ps ∨ binds h x) →
      (s'.binds x = true ↔ x ∈ ps ∨ binds' h x))
    (hother : ∀ j, j ≠ h → ∀ x, binds j x ↔ binds' j x) : t.ScopesAre binds' (scopes.insert h s') := by
  refine ⟨hs.sorted.insert h s', fun j r hr => ?_, fun j p ps cs hn => ?_⟩
  · rw [Table.find?_insert] at hr
    split at hr
    · next hj =>
      subst hj
      cases hr
      obtain ⟨p, ps, cs, hn, hp, hb⟩ := hs.sound j s hfind
      exact ⟨p, ps, cs, hn, hparent.trans hp, fun x => hself ps x (hb x)⟩
    · next hj =>
      obtain ⟨p, ps, cs, hn, hp, hb⟩ := hs.sound j r hr
      exact ⟨p, ps, cs, hn, hp, fun x => by rw [hb x, hother j hj x]⟩
  · obtain ⟨r, hr⟩ := hs.total j p ps cs hn
    rw [Table.find?_insert]
    split
    · exact ⟨_, rfl⟩
    · exact ⟨r, hr⟩

theorem ScopesAre.linkScope {binds : Handle → String → Prop} {scopes : Table Handle Scope}
    (hs : t.ScopesAre binds scopes) (h : Handle) : t.ScopesAre binds (Tree.linkScope scopes h) := by
  unfold Tree.linkScope
  split
  · exact hs
  · split
    · exact hs
    · next outer houter => exact hs.insert houter rfl (fun _ _ hx => hx) fun _ _ _ => Iff.rfl

theorem scopesAre_scopeTable (t : Tree) : t.ScopesAre (fun _ _ => False) t.scopeTable := by
  unfold scopeTable
  have hs := scopesAre_parameters t
  generalize Table.ofList (t.lambdas.map fun h => (h, t.parameterScope h)) = scopes at hs ⊢
  induction t.lambdas generalizing scopes with
  | nil => exact hs
  | cons h hs' ih => exact ih _ (hs.linkScope h)

theorem ScopesAre.bindDefinition {binds : Handle → String → Prop} {scopes : Table Handle Scope}
    (hs : t.ScopesAre binds scopes) {d : Handle × String} (hd : ∃ p ps cs, t.get? d.1 = some (.lambda p ps cs)) :
    t.ScopesAre (fun h x => binds h x ∨ (h, x) = d) (Tree.bindDefinition scopes d) := by
  obtain ⟨p, ps, cs, hn⟩ := hd
  obtain ⟨s, hfind⟩ := hs.total d.1 p ps cs hn
  obtain ⟨h, y⟩ := d
  simp only at hfind
  simp only [Tree.bindDefinition, hfind]
  refine hs.insert hfind (parent_bind s y) (fun ps x hx => ?_) fun j hj x => ?_
  · rw [binds_bind, hx]
    simp [or_assoc]
  · simp [hj]

theorem ScopesAre.bindDefinitions {binds : Handle → String → Prop} {scopes : Table Handle Scope}
    (hs : t.ScopesAre binds scopes) {ds : List (Handle × String)}
    (hds : ∀ d ∈ ds, ∃ p ps cs, t.get? d.1 = some (.lambda p ps cs)) :
    t.ScopesAre (fun h x => binds h x ∨ (h, x) ∈ ds) (ds.foldl Tree.bindDefinition scopes) := by
  induction ds generalizing binds scopes with
  | nil => simpa using hs
  | cons d ds ih =>
    have hrest := ih (hs.bindDefinition (hds d List.mem_cons_self)) fun e he => hds e (List.mem_cons_of_mem d he)
    simpa [List.mem_cons, or_assoc] using hrest

/-! ### Definitions -/

/-- Checks one after the other pass if each of them does. -/
theorem mapM_eq_ok {ε α β : Type} {f : α → Except ε β} {xs : List α} {ys : List β} :
    xs.mapM f = .ok ys ↔ List.Forall₂ (fun x y => f x = .ok y) xs ys := by
  induction xs generalizing ys with
  | nil => simp [pure, Except.pure, eq_comm]
  | cons x xs ih =>
    rw [List.mapM_cons, Except.bind_eq_ok, List.forall₂_cons_left_iff]
    constructor
    · rintro ⟨y, hy, h⟩
      obtain ⟨ys', hys, h⟩ := Except.bind_eq_ok.mp h
      cases h
      exact ⟨y, ys', hy, ih.mp hys, rfl⟩
    · rintro ⟨y, ys', hy, hys, rfl⟩
      exact ⟨y, hy, Except.bind_eq_ok.mpr ⟨ys', ih.mpr hys, rfl⟩⟩

/-- **The definitions of a tree**: every application of `define` to a variable, with the lambda around it. -/
theorem mem_definitions {ds : List (Handle × String)} (hds : t.definitions = .ok ds) {d : Handle × String} :
    d ∈ ds ↔ ∃ h parent rest, d.1 = t.enclosingLambda h ∧ t.get? h =
      some (.application parent .code (.atom (.keyword "define") :: .atom (.variable d.2) :: rest)) := by
  obtain ⟨os, hos, hds⟩ := Except.bind_eq_ok.mp hds
  cases hds
  have hall := mapM_eq_ok.mp hos
  -- one node is asked at a time
  have hdef : ∀ h, t.definition? h = .ok (some d) ↔ ∃ parent rest, d.1 = t.enclosingLambda h ∧ t.get? h =
      some (.application parent .code (.atom (.keyword "define") :: .atom (.variable d.2) :: rest)) := by
    intro h
    obtain ⟨M, x⟩ := d
    unfold definition?
    split
    · next p rest hn =>
      split
      · next name rest =>
        simp only [Except.ok.injEq, Option.some.injEq, Prod.mk.injEq, hn]
        constructor
        · rintro ⟨rfl, rfl⟩
          exact ⟨p, rest, rfl, rfl⟩
        · rintro ⟨p', rest', rfl, he⟩
          cases he
          exact ⟨rfl, rfl⟩
      · next hrest =>
        constructor
        · intro h; cases h
        · rintro ⟨p', rest', -, he⟩
          rw [hn] at he
          cases he
          exact absurd rfl (hrest x rest')
    · next hother =>
      constructor
      · intro h; cases h
      · rintro ⟨p', rest', -, he⟩
        exact absurd he (hother p' _)
  rw [List.mem_filterMap]
  constructor
  · rintro ⟨o, ho, rfl⟩
    -- the answers are in the order of the handles
    obtain ⟨i, hi, he⟩ := List.getElem_of_mem ho
    have hlen := hall.length_eq
    have hget := List.Forall₂.get hall (i := i) (by omega) hi
    simp only [List.get_eq_getElem, he] at hget
    exact ⟨_, (hdef _).mp hget⟩
  · rintro ⟨h, parent, rest, hd, hn⟩
    have hget := (hdef h).mpr ⟨parent, rest, hd, hn⟩
    have hlt : h < t.handles.length := by simpa [Tree.handles] using lt_size_of_get? hn
    have hlen := hall.length_eq
    have := List.Forall₂.get hall (i := h) hlt (hlen ▸ hlt)
    simp only [List.get_eq_getElem, Tree.handles, List.getElem_range, hget, Except.ok.injEq] at this
    exact ⟨some d, this ▸ List.getElem_mem _, rfl⟩

/-- The lambda `M` defines `x`. -/
def Defines (t : Tree) (M : Handle) (x : String) : Prop :=
  ∃ h parent rest, M = t.enclosingLambda h ∧ t.get? h =
    some (.application parent .code (.atom (.keyword "define") :: .atom (.variable x) :: rest))

theorem enclosingFrom_congr {u : Tree} (hn : u.nodes = t.nodes) (fuel : Nat) (h : Handle) :
    u.enclosingFrom fuel h = t.enclosingFrom fuel h := by
  induction fuel generalizing h with
  | zero => rfl
  | succ fuel ih => simp only [enclosingFrom, get?, hn, ih]

theorem enclosingLambda_congr {u : Tree} (hn : u.nodes = t.nodes) (h : Handle) :
    u.enclosingLambda h = t.enclosingLambda h := by
  unfold enclosingLambda size
  rw [hn]
  exact enclosingFrom_congr hn _ h

/-- **Scope analysis renames a tree whose table has all scopes.** -/
theorem resolveScopes_eq {t' : Tree} (htop : ∃ p ps cs, t.get? top = some (.lambda p ps cs))
    (ha : t.analysed = false) (hr : t.resolveScopes = (t', none)) :
    ∃ u : Tree, u = { t with scopes := u.scopes } ∧ t' = u.renameVariables ∧ u.ScopesAre u.Defines u.scopes := by
  unfold resolveScopes at hr
  rw [ha] at hr
  simp only [Bool.false_eq_true, if_false] at hr
  split at hr
  · cases hr
  · next ds hds =>
    cases hr
    refine ⟨{ t with scopes := ds.foldl Tree.bindDefinition t.scopeTable, analysed := false }, by rw [ha], rfl, ?_⟩
    have hlambda : ∀ d ∈ ds, ∃ p ps cs, t.get? d.1 = some (.lambda p ps cs) := by
      intro d hd
      obtain ⟨h, -, -, he, -⟩ := (mem_definitions hds).mp hd
      rw [he]
      exact get?_enclosingFrom htop _ _
    have hs := (scopesAre_scopeTable t).bindDefinitions hlambda
    refine ⟨hs.sorted, fun h s hfind => ?_, hs.total⟩
    obtain ⟨p, ps, cs, hn, hp, hb⟩ := hs.sound h s hfind
    refine ⟨p, ps, cs, hn, ?_, fun x => ?_⟩
    · rw [hp]
      refine congrArg (Option.map · p) (funext fun q => ?_)
      exact enclosingLambda_congr (u := t) (t := { t with scopes := _, analysed := false }) rfl q
    · rw [hb x, false_or, mem_definitions hds]
      simp only [Defines, enclosingLambda_congr (u := { t with scopes := _, analysed := false }) (t := t) rfl]
      rfl

/-- A name that a lambda binds has the lambda's handle in front of it there. -/
theorem ScopesAre.newName {binds : Handle → String → Prop} (hs : t.ScopesAre binds t.scopes)
    {p : Option Handle} {ps : List String} {cs : List Child} (hn : t.get? M = some (.lambda p ps cs))
    {x : String} (hx : x ∈ ps ∨ binds M x) : t.newName M x = scopedName M x := by
  obtain ⟨s, hfind⟩ := hs.total M p ps cs hn
  obtain ⟨p', ps', cs', hn', -, hb⟩ := hs.sound M s hfind
  rw [hn] at hn'
  cases hn'
  have hbinds := (hb x).mpr hx
  simp [Tree.newName, resolve, resolveFrom, hfind, hbinds]

end Tree

/-! ### Renamed terms -/

namespace Term

mutual

/-- **A term with its variables renamed**; `new` gives the name that a variable has in a lambda. -/
def rename (new : Handle → String → String) (M : Handle) : Term → Term
  | .atom a =>
    match a with
    | .variable x => .atom (.variable (new M x))
    | other => .atom other
  | .string h content => .string h content
  | .lambda h parameters body => .lambda h (parameters.map (new h)) (renameAll new h body)
  | .application h quotation items => .application h quotation (renameAll new M items)

/-- Several terms with their variables renamed. -/
def renameAll (new : Handle → String → String) (M : Handle) : List Term → List Term
  | [] => []
  | x :: xs => rename new M x :: renameAll new M xs

end

variable {new : Handle → String → String} {M : Handle}

theorem renameAll_eq (xs : List Term) : renameAll new M xs = xs.map (rename new M) := by
  induction xs with
  | nil => rfl
  | cons x xs ih => simp [renameAll, ih]

mutual

@[simp] theorem handles_rename : (x : Term) → (M : Handle) → (x.rename new M).handles = x.handles
  | .atom a, _ => by cases a <;> rfl
  | .string _ _, _ => rfl
  | .lambda h _ body, _ => by simp [rename, handles, handlesAll_renameAll body h]
  | .application _ _ items, M => by simp [rename, handles, handlesAll_renameAll items M]

@[simp] theorem handlesAll_renameAll : (xs : List Term) → (M : Handle) →
    handlesAll (renameAll new M xs) = handlesAll xs
  | [], _ => rfl
  | x :: xs, M => by simp [renameAll, handlesAll, handles_rename x M, handlesAll_renameAll xs M]

end

/-- Renaming leaves data as they are on the outside. -/
theorem child_rename_of_data {x : Term} (hx : x.Legal .data) : (x.rename new M).child = x.child := by
  cases x with
  | atom a =>
    cases a with
    | «variable» name => rcases hx with h | h <;> cases h
    | _ => rfl
  | _ => rfl

theorem child_rename {t : Tree} (x : Term) : (x.rename t.newName M).child = t.renameChild M x.child := by
  cases x with
  | atom a => cases a <;> rfl
  | _ => rfl

mutual

/-- **What a lambda binds carries its handle in front**: its parameters, and what is defined in it. -/
def Owned (M : Handle) : Term → Prop
  | .atom _ => True
  | .string _ _ => True
  | .lambda h parameters body => (∀ p ∈ parameters, ∃ x, p = Tree.scopedName h x) ∧ OwnedAll h body
  | .application _ quotation items =>
    (quotation = .code → ∀ name rest, items = .atom (.keyword "define") :: .atom (.variable name) :: rest →
      ∃ x, name = Tree.scopedName M x) ∧ OwnedAll M items

/-- What lambdas in several terms bind carries their handles in front. -/
def OwnedAll (M : Handle) : List Term → Prop
  | [] => True
  | x :: xs => Owned M x ∧ OwnedAll M xs

end

theorem ownedAll_iff {xs : List Term} : OwnedAll M xs ↔ ∀ x ∈ xs, x.Owned M := by
  induction xs with
  | nil => simp [OwnedAll]
  | cons x xs ih => simp [OwnedAll, ih]

theorem Sub.owned {x y : Term} (h : Sub x y) {M : Handle} (hy : y.Owned M) : ∃ N, x.Owned N := by
  induction h generalizing M with
  | refl => exact ⟨M, hy⟩
  | body hm _ ih => exact ih (ownedAll_iff.mp hy.2 _ hm)
  | item hm _ ih => exact ih (ownedAll_iff.mp hy.2 _ hm)

/-- A scoped name determines the name that was written. -/
theorem scopedName_injective (h : Handle) : Function.Injective (Tree.scopedName h) := by
  intro x y hxy
  exact (String.append_right_inj _).mp hxy

/-- A renamed definition was a definition before. -/
theorem renameAll_eq_define {items rest : List Term} {name : String}
    (h : renameAll new M items = .atom (.keyword "define") :: .atom (.variable name) :: rest) :
    ∃ x rest', items = .atom (.keyword "define") :: .atom (.variable x) :: rest' ∧ name = new M x := by
  match items, h with
  | .atom (.keyword word) :: .atom (.variable x) :: rest', h =>
    simp only [renameAll, rename, List.cons.injEq, Term.atom.injEq, Atom.keyword.injEq, Atom.variable.injEq] at h
    obtain ⟨rfl, rfl, -⟩ := h
    exact ⟨x, rest', rfl, rfl⟩
  | [], h => simp [renameAll] at h
  | [x], h => simp [renameAll] at h
  | .string .. :: _ :: _, h | .lambda .. :: _ :: _, h | .application .. :: _ :: _, h => simp [renameAll, rename] at h
  | .atom a :: .string .. :: _, h | .atom a :: .lambda .. :: _, h | .atom a :: .application .. :: _, h =>
    simp [renameAll, rename] at h
  | .atom (.number _) :: _ :: _, h | .atom (.boolean _) :: _ :: _, h | .atom (.symbol _) :: _ :: _, h
  | .atom (.variable _) :: _ :: _, h => simp [renameAll, rename] at h
  | .atom (.keyword _) :: .atom (.number _) :: _, h | .atom (.keyword _) :: .atom (.boolean _) :: _, h
  | .atom (.keyword _) :: .atom (.symbol _) :: _, h | .atom (.keyword _) :: .atom (.keyword _) :: _, h =>
    simp [renameAll, rename] at h

/-- A term after the analysis: in the new tree, as legal as before, and with the names that lambdas bind
marked. -/
structure Renamed (t : Tree) (parent : Option Handle) (layer : Layer) (M : Handle) (x : Term) : Prop where
  placed : (x.rename t.newName M).Placed t.renameVariables parent
  legal : (x.rename t.newName M).Legal layer
  owned : (x.rename t.newName M).Owned M

/-- Several terms after the analysis. -/
structure RenamedAll (t : Tree) (parent : Option Handle) (layer : Layer) (M : Handle) (xs : List Term) :
    Prop where
  placed : PlacedAll t.renameVariables parent (renameAll t.newName M xs)
  legal : LegalAll layer (renameAll t.newName M xs)
  owned : OwnedAll M (renameAll t.newName M xs)

theorem get?_renameVariables (t : Tree) (h : Handle) :
    t.renameVariables.get? h = (t.get? h).map (t.renameNode h) := by
  simp [Tree.renameVariables, Tree.get?, Array.getElem?_mapIdx]

mutual

/-- **A term survives the analysis.** The steps to the lambda around it, and its own size, are bounded by the
size of the tree. -/
theorem renamed {t : Tree} (hs : t.ScopesAre t.Defines t.scopes)
    (htop : ∃ p ps cs, t.get? Tree.top = some (.lambda p ps cs)) {layer : Layer} :
    (x : Term) → {parent : Option Handle} → {M : Handle} → {k : Nat} → x.Placed t parent → x.Legal layer →
    t.Encloses M parent k → (layer = .code → t.Unquoted parent k) → k + x.handles.length ≤ t.size →
    Renamed t parent layer M x
  | .atom a, _, _, _, _, hl, _, _, _ => by
    cases a <;> exact ⟨trivial, hl, trivial⟩
  | .string h content, _, _, _, hp, _, _, _, _ => by
    refine ⟨?_, trivial, trivial⟩
    simp only [Placed] at hp
    simp [rename, Placed, get?_renameVariables, hp, Tree.renameNode]
  | .lambda h parameters body, parent, _, k, hp, hl, _, _, hk => by
    -- the parameters of a lambda are bound by the lambda itself
    have hnames : ∀ x ∈ parameters, t.newName h x = Tree.scopedName h x :=
      fun x hx => hs.newName hp.1 (Or.inl hx)
    have hbody := renamedAll hs htop body hp.2 hl.2.2 (Tree.encloses_lambda hp.1)
      (fun _ => Tree.unquoted_lambda hp.1) (by simp only [handles, List.length_cons] at hk; omega)
    refine ⟨⟨?_, hbody.placed⟩, ⟨hl.1, ?_, hbody.legal⟩, ?_, hbody.owned⟩
    · simp [get?_renameVariables, hp.1, Tree.renameNode, renameAll_eq, Function.comp_def, child_rename]
    · rw [List.map_congr_left hnames]
      exact hl.2.1.map (scopedName_injective h)
    · intro p hpm
      obtain ⟨x, hx, rfl⟩ := List.mem_map.mp hpm
      exact ⟨x, hnames x hx⟩
  | .application h quotation items, parent, M, k, hp, hl, he, hu, hk => by
    simp only [handles, List.length_cons] at hk
    have he' := he.application hp.1
    have hM : t.enclosingLambda h = M := he'.enclosingLambda (by omega)
    have hitems : ∀ {layer'}, LegalAll layer' items → (layer' = .code → t.Unquoted (some h) (k + 1)) →
        RenamedAll t (some h) layer' M items :=
      fun hl' hu' => renamedAll hs htop items hp.2 hl' he' hu' (by omega)
    have hcode : t.isQuoted h = false → t.renameVariables.get? h =
        some (.application parent quotation ((renameAll t.newName M items).map child)) := by
      intro hq
      simp [get?_renameVariables, hp.1, Tree.renameNode, hq, hM, renameAll_eq, Function.comp_def, child_rename]
    -- data hold no variables, so that quoted items keep their children
    have hsame : LegalAll .data items → (renameAll t.newName M items).map child = items.map child := by
      intro hl'
      rw [renameAll_eq, List.map_map]
      exact List.map_congr_left fun x hx => child_rename_of_data (legalAll_iff.mp hl' x hx)
    have hdata : t.isQuoted h = true → LegalAll .data items → t.renameVariables.get? h =
        some (.application parent quotation ((renameAll t.newName M items).map child)) := by
      intro hq hl'
      simp [get?_renameVariables, hp.1, Tree.renameNode, hq, hsame hl']
    -- what a definition defines is bound by the lambda around it
    have hdefine : ∀ name rest, renameAll t.newName M items = .atom (.keyword "define") ::
        .atom (.variable name) :: rest → quotation = .code → ∃ x, name = Tree.scopedName M x := by
      rintro name rest heq rfl
      obtain ⟨x, rest', rfl, rfl⟩ := renameAll_eq_define heq
      obtain ⟨p, ps, cs, hn⟩ := Tree.get?_enclosingFrom htop (t.size + 1) h
      rw [show t.enclosingFrom (t.size + 1) h = M from hM] at hn
      exact ⟨x, hs.newName hn (Or.inr ⟨h, parent, rest'.map child, hM.symm, hp.1⟩)⟩
    -- in code and in holes items are renamed, under a quote or a backquote the node stays
    cases quotation with
    | code =>
      have hr := hitems hl.2 fun _ => (hu hl.1).code hp.1
      have hq : t.isQuoted h = false := (hu hl.1).code hp.1 (t.size + 1) (by omega)
      exact ⟨⟨hcode hq, hr.placed⟩, ⟨hl.1, hr.legal⟩, fun _ name rest h => hdefine name rest h rfl, hr.owned⟩
    | quote =>
      have hr := hitems hl.2 (fun h => by cases h)
      have hq : t.isQuoted h = true := by simp [Tree.isQuoted, Tree.isQuotedFrom, hp.1]
      exact ⟨⟨hdata hq hl.2, hr.placed⟩, ⟨hsame hl.2 ▸ hl.1, hr.legal⟩, ⟨(by intro h; cases h), hr.owned⟩⟩
    | quasiquote =>
      have hr := hitems hl.2.2 (fun h => by cases h)
      have hq : t.isQuoted h = true := by simp [Tree.isQuoted, Tree.isQuotedFrom, hp.1]
      exact ⟨⟨hdata hq hl.2.2, hr.placed⟩, ⟨hl.1, hsame hl.2.2 ▸ hl.2.1, hr.legal⟩,
        ⟨(by intro h; cases h), hr.owned⟩⟩
    | unquote =>
      have hr := hitems hl.2 fun _ => Tree.unquoted_hole hp.1
      have hq : t.isQuoted h = false := by simp [Tree.isQuoted, Tree.isQuotedFrom, hp.1]
      exact ⟨⟨hcode hq, hr.placed⟩, ⟨by rw [renameAll_eq, List.length_map]; exact hl.1, hr.legal⟩,
        ⟨(by intro h; cases h), hr.owned⟩⟩

theorem renamedAll {t : Tree} (hs : t.ScopesAre t.Defines t.scopes)
    (htop : ∃ p ps cs, t.get? Tree.top = some (.lambda p ps cs)) {layer : Layer} :
    (xs : List Term) → {parent : Option Handle} → {M : Handle} → {k : Nat} → PlacedAll t parent xs →
    LegalAll layer xs → t.Encloses M parent k → (layer = .code → t.Unquoted parent k) →
    k + (handlesAll xs).length ≤ t.size → RenamedAll t parent layer M xs
  | [], _, _, _, _, _, _, _, _ => ⟨trivial, trivial, trivial⟩
  | x :: xs, parent, M, k, hp, hl, he, hu, hk => by
    simp only [handlesAll, List.length_append] at hk
    have hx := renamed hs htop x hp.1 hl.1 he hu (by omega)
    have hxs := renamedAll hs htop xs hp.2 hl.2 he hu (by omega)
    exact ⟨⟨hx.placed, hxs.placed⟩, ⟨hx.legal, hxs.legal⟩, hx.owned, hxs.owned⟩

end

end Term

/-- **The tree after the analysis holds the renamed terms.** -/
theorem Tree.Holds.renameVariables {t : Tree} {roots : List Term} (hh : t.Holds roots)
    (hs : t.ScopesAre t.Defines t.scopes) :
    t.renameVariables.Holds (renameAll t.newName Tree.top roots) ∧
      OwnedAll Tree.top (renameAll t.newName Tree.top roots) := by
  obtain ⟨body, hbody⟩ := hh.top
  obtain ⟨rest, rfl⟩ : ∃ rest, roots = .lambda Tree.top [] body :: rest := by
    cases roots with
    | nil => cases hbody
    | cons x rest =>
      cases hbody
      exact ⟨rest, rfl⟩
  have htop : ∃ p ps cs, t.get? Tree.top = some (.lambda p ps cs) := ⟨_, _, _, hh.placed.1.1⟩
  have hsize : (handlesAll (.lambda Tree.top [] body :: rest)).length = t.size := by
    rw [hh.handles.length_eq, List.length_range]
  have hr := renamedAll hs htop _ hh.placed hh.legal (M := Tree.top) (k := 0) rfl (fun _ => trivial) (by omega)
  refine ⟨⟨⟨renameAll t.newName Tree.top body, rfl⟩, hr.placed, hr.legal, ?_⟩, hr.owned⟩
  rw [handlesAll_renameAll, show t.renameVariables.size = t.size by simp [Tree.renameVariables, Tree.size]]
  exact hh.handles

end SchemeMachine
