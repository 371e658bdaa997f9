import SchemeMachine.Proofs.Names
import SchemeMachine.Proofs.Syntax.Analysis

/-!
# Scope analysis is lexical scoping

What a name refers to can be told from the term around it: from the lambdas that enclose it, nearest first, each with
its parameters and the names that are defined in it outside nested lambdas.

* `Term.defined` lists the names that a term defines in the lambda around it.
* `Term.Chain` is the lambdas around a term with the names they bind, `Term.respell` gives every name of a term a
  spelling that depends on the nearest of them that binds it.
* `Tree.Around` ties a chain to the table of scopes, and `Tree.Around.resolve` says that the analysis looks names up
  along the chain.
* `Tree.Stand` says that terms stand in a lambda of a tree, with a chain around it; it passes to the parts of the terms.
* `Term.rename_eq_respell`: renaming along the table of scopes is respelling along the chain.
* `Tree.analyse_eq_respell` is the result for a tree, `Tree.find?_renamings` says what the table of renamings holds.
-/

namespace SchemeMachine

namespace Term

/-! ### What a lambda defines -/

/-- The name that an application defines, if it is a definition in code. -/
def definition : Quotation → List Term → List String
  | .code, .atom (.keyword "define") :: .atom (.variable x) :: _ => [x]
  | _, _ => []

mutual

/-- **The names that a term defines** in the lambda around it. -/
def defined : Term → List String
  | .atom _ => []
  | .string _ _ => []
  | .lambda _ _ _ => []
  | .application _ quotation items => definition quotation items ++ definedAll items

/-- The names that several terms define in the lambda around them. -/
def definedAll : List Term → List String
  | [] => []
  | x :: xs => defined x ++ definedAll xs

end

mutual

/-- Every definition in a term, with the lambda that it belongs to; `M` is the lambda around the term. -/
def definitions (M : Handle) : Term → List (Handle × String)
  | .atom _ => []
  | .string _ _ => []
  | .lambda h _ body => definitionsAll h body
  | .application _ quotation items => (definition quotation items).map (Prod.mk M) ++ definitionsAll M items

/-- Every definition in several terms. -/
def definitionsAll (M : Handle) : List Term → List (Handle × String)
  | [] => []
  | x :: xs => definitions M x ++ definitionsAll M xs

end

theorem definedAll_eq (xs : List Term) : definedAll xs = xs.flatMap defined := by
  induction xs with
  | nil => rfl
  | cons x xs ih => rw [definedAll, ih, List.flatMap_cons]

theorem mem_definition {quotation : Quotation} {items : List Term} {x : String} :
    x ∈ definition quotation items ↔
      quotation = .code ∧ ∃ rest, items = .atom (.keyword "define") :: .atom (.variable x) :: rest := by
  unfold definition
  split
  · next y rest =>
    rw [List.mem_singleton]
    constructor
    · rintro rfl
      exact ⟨rfl, rest, rfl⟩
    · rintro ⟨-, rest', heq⟩
      cases heq
      rfl
  · next hother =>
    constructor
    · exact (nomatch ·)
    · rintro ⟨rfl, rest, rfl⟩
      exact absurd rfl (hother x rest rfl)

mutual

/-- A definition belongs to the lambda around the term or to one inside it. -/
theorem owner_mem {M N : Handle} {name : String} : (x : Term) → (N, name) ∈ x.definitions M → N = M ∨ N ∈ x.handles
  | .atom _, h => nomatch h
  | .string _ _, h => nomatch h
  | .lambda k _ body, h => by
    rcases owner_mem_all body h with rfl | h
    · exact Or.inr (by simp [handles])
    · exact Or.inr (by simp [handles, h])
  | .application k _ items, h => by
    rcases List.mem_append.mp h with h | h
    · obtain ⟨_, -, heq⟩ := List.mem_map.mp h
      exact Or.inl (Prod.mk.inj heq).1.symm
    · exact (owner_mem_all items h).imp_right fun h => by simp [handles, h]

theorem owner_mem_all {M N : Handle} {name : String} :
    (xs : List Term) → (N, name) ∈ definitionsAll M xs → N = M ∨ N ∈ handlesAll xs
  | [], h => nomatch h
  | x :: xs, h => by
    rcases List.mem_append.mp h with h | h
    · exact (owner_mem x h).imp_right fun h => by simp [handlesAll, h]
    · exact (owner_mem_all xs h).imp_right fun h => by simp [handlesAll, h]

end

mutual

/-- What belongs to the lambda around a term is what the term defines. -/
theorem mem_definitions_self {M : Handle} {name : String} :
    (x : Term) → M ∉ x.handles → ((M, name) ∈ x.definitions M ↔ name ∈ x.defined)
  | .atom _, _ => ⟨(nomatch ·), (nomatch ·)⟩
  | .string _ _, _ => ⟨(nomatch ·), (nomatch ·)⟩
  | .lambda k _ body, hM => by
    refine ⟨fun h => ?_, (nomatch ·)⟩
    rcases owner_mem_all body h with rfl | h
    · exact absurd (by simp [handles]) hM
    · exact absurd (by simp [handles, h]) hM
  | .application k quotation items, hM => by
    have hitems : M ∉ handlesAll items := fun h => hM (by simp [handles, h])
    simp only [definitions, defined, List.mem_append, mem_definitionsAll_self items hitems, List.mem_map, Prod.mk.injEq,
      true_and, exists_eq_right]

theorem mem_definitionsAll_self {M : Handle} {name : String} :
    (xs : List Term) → M ∉ handlesAll xs → ((M, name) ∈ definitionsAll M xs ↔ name ∈ definedAll xs)
  | [], _ => ⟨(nomatch ·), (nomatch ·)⟩
  | x :: xs, hM => by
    simp only [handlesAll, List.mem_append, not_or] at hM
    rw [definitionsAll, definedAll, List.mem_append, List.mem_append, mem_definitions_self x hM.1,
      mem_definitionsAll_self xs hM.2]

end

theorem definitionsAll_append (M : Handle) (xs ys : List Term) :
    definitionsAll M (xs ++ ys) = definitionsAll M xs ++ definitionsAll M ys := by
  induction xs with
  | nil => rfl
  | cons x xs ih => rw [List.cons_append, definitionsAll, definitionsAll, ih, List.append_assoc]

/-- **No definition of other terms belongs to a lambda in these.** -/
theorem mem_definitionsAll_middle {before xs after : List Term} {M h : Handle} {name : String}
    (hnodup : (handlesAll (before ++ xs ++ after)).Nodup) (hh : h ∈ handlesAll xs) (hne : h ≠ M) :
    (h, name) ∈ definitionsAll M (before ++ xs ++ after) ↔ (h, name) ∈ definitionsAll M xs := by
  rw [handlesAll_append, handlesAll_append] at hnodup
  obtain ⟨hfirst, -, hlast⟩ := List.nodup_append.mp hnodup
  have hbefore : (h, name) ∉ definitionsAll M before := fun hmem =>
    (owner_mem_all before hmem).elim hne fun hmem => (List.nodup_append.mp hfirst).2.2 h hmem h hh rfl
  have hafter : (h, name) ∉ definitionsAll M after := fun hmem =>
    (owner_mem_all after hmem).elim hne fun hmem => hlast h (List.mem_append_right _ hh) h hmem rfl
  rw [definitionsAll_append, definitionsAll_append, List.mem_append, List.mem_append]
  simp only [hbefore, hafter, false_or, or_false]

/-! ### Chains of lambdas -/

/-- **The lambdas around a term**, the top one apart, nearest first, each with the names that it binds. -/
abbrev Chain := List (Handle × List String)

namespace Chain

/-- The nearest lambda that binds a name. -/
def binder? : Chain → String → Option Handle
  | [], _ => none
  | (h, names) :: outer, x => if x ∈ names then some h else binder? outer x

/-- A name respelled: by `inner` if a lambda of the chain binds it, else by `outer`. -/
def spell (inner : Handle → String → String) (outer : String → String) (chain : Chain) (x : String) : String :=
  match chain.binder? x with
  | some h => inner h x
  | none => outer x

/-- The chain inside a lambda. -/
def enter (chain : Chain) (h : Handle) (parameters : List String) (body : List Term) : Chain :=
  (h, parameters ++ definedAll body) :: chain

theorem mem_of_binder? {chain : Chain} {x : String} {h : Handle} (hx : chain.binder? x = some h) :
    h ∈ chain.map Prod.fst := by
  induction chain with
  | nil => cases hx
  | cons frame outer ih =>
    obtain ⟨k, names⟩ := frame
    rw [binder?] at hx
    split at hx
    · cases hx
      exact List.mem_cons_self
    · exact List.mem_cons_of_mem k (ih hx)

end Chain

mutual

/-- **A term respelled by lexical scope**: a name that a lambda around it binds by `inner`, with the nearest such lambda,
any other name by `outer`. -/
def respell (inner : Handle → String → String) (outer : String → String) (chain : Chain) : Term → Term
  | .atom a =>
    match a with
    | .variable x => .atom (.variable (chain.spell inner outer x))
    | other => .atom other
  | .string h content => .string h content
  | .lambda h parameters body =>
    .lambda h (parameters.map (inner h)) (respellAll inner outer (chain.enter h parameters body) body)
  | .application h quotation items => .application h quotation (respellAll inner outer chain items)

/-- Several terms respelled by lexical scope. -/
def respellAll (inner : Handle → String → String) (outer : String → String) (chain : Chain) : List Term → List Term
  | [] => []
  | x :: xs => respell inner outer chain x :: respellAll inner outer chain xs

end

theorem respellAll_eq {inner : Handle → String → String} {outer : String → String} {chain : Chain} (xs : List Term) :
    respellAll inner outer chain xs = xs.map (respell inner outer chain) := by
  induction xs with
  | nil => rfl
  | cons x xs ih => rw [respellAll, ih, List.map_cons]

/-! ### Every name of a term -/

mutual

/-- **What holds of every name in a term**: of each variable with the lambda around it, of each parameter with its
own lambda. -/
def Each (P : Handle → String → Prop) (M : Handle) : Term → Prop
  | .atom a => ∀ x, a = .variable x → P M x
  | .string _ _ => True
  | .lambda h parameters body => (∀ p ∈ parameters, P h p) ∧ EachAll P h body
  | .application _ _ items => EachAll P M items

/-- What holds of every name in several terms. -/
def EachAll (P : Handle → String → Prop) (M : Handle) : List Term → Prop
  | [] => True
  | x :: xs => Each P M x ∧ EachAll P M xs

end

mutual

theorem Each.imp {P Q : Handle → String → Prop} (hPQ : ∀ M x, P M x → Q M x) :
    (x : Term) → {M : Handle} → x.Each P M → x.Each Q M
  | .atom _, _, h => fun x hx => hPQ _ x (h x hx)
  | .string _ _, _, _ => trivial
  | .lambda _ _ body, _, h => ⟨fun p hp => hPQ _ p (h.1 p hp), EachAll.imp hPQ body h.2⟩
  | .application _ _ items, _, h => EachAll.imp hPQ items h

theorem EachAll.imp {P Q : Handle → String → Prop} (hPQ : ∀ M x, P M x → Q M x) :
    (xs : List Term) → {M : Handle} → EachAll P M xs → EachAll Q M xs
  | [], _, _ => trivial
  | x :: xs, _, h => ⟨Each.imp hPQ x h.1, EachAll.imp hPQ xs h.2⟩

end

mutual

/-- Renaming twice is renaming once. -/
theorem rename_rename {new : Handle → String → String} {f : String → String} : (x : Term) → {M : Handle} →
    (x.rename new M).rename (fun _ => f) M = x.rename (fun M w => f (new M w)) M
  | .atom a, _ => by cases a <;> rfl
  | .string _ _, _ => rfl
  | .lambda h parameters body, _ => by
    rw [rename, rename, rename, List.map_map, renameAll_renameAll body]
    rfl
  | .application _ _ items, _ => by rw [rename, rename, rename, renameAll_renameAll items]

theorem renameAll_renameAll {new : Handle → String → String} {f : String → String} : (xs : List Term) → {M : Handle} →
    renameAll (fun _ => f) M (renameAll new M xs) = renameAll (fun M w => f (new M w)) M xs
  | [], _ => rfl
  | x :: xs, _ => by rw [renameAll, renameAll, renameAll, rename_rename x, renameAll_renameAll xs]

end

mutual

theorem Each.and {P Q : Handle → String → Prop} : (x : Term) → {M : Handle} → x.Each P M → x.Each Q M →
    x.Each (fun M w => P M w ∧ Q M w) M
  | .atom _, _, hP, hQ => fun w hw => ⟨hP w hw, hQ w hw⟩
  | .string _ _, _, _, _ => trivial
  | .lambda _ _ body, _, hP, hQ => ⟨fun p hp => ⟨hP.1 p hp, hQ.1 p hp⟩, EachAll.and body hP.2 hQ.2⟩
  | .application _ _ items, _, hP, hQ => EachAll.and items hP hQ

theorem EachAll.and {P Q : Handle → String → Prop} : (xs : List Term) → {M : Handle} → EachAll P M xs → EachAll Q M xs →
    EachAll (fun M w => P M w ∧ Q M w) M xs
  | [], _, _, _ => trivial
  | x :: xs, _, hP, hQ => ⟨Each.and x hP.1 hQ.1, EachAll.and xs hP.2 hQ.2⟩

end

end Term

open Term

/-! ### The chain in a tree -/

namespace Tree

variable {t : Tree} {tops : List String} {M : Handle} {chain : Chain}

/-- **The scopes from a lambda outward** are those of a chain, and at last that of the top lambda, which binds `tops`. There
is no top lambda around a lambda that hangs nowhere. -/
inductive Around (t : Tree) : (tops : List String) → Handle → Chain → Prop
  | top {tops : List String} {s : Scope} (hfind : t.scopes.find? Tree.top = some s) (hparent : s.parent = none)
      (hbinds : ∀ x, s.binds x = true ↔ x ∈ tops) : Around t tops Tree.top []
  | stray {h : Handle} {s : Scope} {names : List String} (hfind : t.scopes.find? h = some s) (hparent : s.parent = none)
      (hbinds : ∀ x, s.binds x = true ↔ x ∈ names) : Around t [] h [(h, names)]
  | inside {tops : List String} {h M : Handle} {s : Scope} {names : List String} {chain : Chain}
      (hfind : t.scopes.find? h = some s) (hparent : s.parent = some M) (hbinds : ∀ x, s.binds x = true ↔ x ∈ names)
      (houter : Around t tops M chain) : Around t tops h ((h, names) :: chain)

namespace Around

theorem mem (h : t.Around tops M chain) : M = Tree.top ∨ M ∈ chain.map Prod.fst := by
  cases h with
  | top => exact Or.inl rfl
  | stray => exact Or.inr List.mem_cons_self
  | inside => exact Or.inr List.mem_cons_self

/-- Looking a name up from scope to scope follows the chain. -/
theorem resolveFrom (h : t.Around tops M chain) {fuel : Nat} (hfuel : chain.length < fuel) (x : String) :
    t.resolveFrom x fuel M = (chain.binder? x).or (if x ∈ tops then some Tree.top else none) := by
  induction h generalizing fuel with
  | top hfind hparent hbinds =>
    obtain ⟨fuel, rfl⟩ := Nat.exists_eq_succ_of_ne_zero (Nat.ne_of_gt hfuel)
    simp only [Tree.resolveFrom, hfind, hparent, hbinds, Chain.binder?, Option.none_or]
  | stray hfind hparent hbinds =>
    obtain ⟨fuel, rfl⟩ := Nat.exists_eq_succ_of_ne_zero (Nat.ne_of_gt (Nat.zero_lt_of_lt hfuel))
    rw [if_neg List.not_mem_nil, Option.or_none]
    simp only [Tree.resolveFrom, hfind, hparent, hbinds, Chain.binder?]
  | @inside tops h M s names chain hfind hparent hbinds houter ih =>
    obtain ⟨fuel, rfl⟩ := Nat.exists_eq_succ_of_ne_zero (Nat.ne_of_gt (Nat.zero_lt_of_lt hfuel))
    have hrest := ih (Nat.lt_of_succ_lt_succ hfuel)
    simp only [Tree.resolveFrom, hfind, hparent, hbinds, Chain.binder?]
    split
    · rfl
    · exact hrest

/-- A chain of different lambdas is no longer than the table of scopes. -/
theorem length_le (h : t.Around tops M chain) (hnodup : (chain.map Prod.fst).Nodup) :
    chain.length ≤ t.scopes.size := by
  have hkeys : ∀ k ∈ chain.map Prod.fst, k ∈ t.scopes.keys := by
    clear hnodup
    induction h with
    | top => exact nofun
    | stray hfind hparent hbinds =>
      intro k hk
      rw [List.mem_singleton.mp hk]
      exact Table.contains_iff_mem_keys.mp (Table.contains_iff.mpr ⟨_, hfind⟩)
    | inside hfind hparent hbinds houter ih =>
      intro k hk
      rcases List.mem_cons.mp hk with rfl | hk
      · exact Table.contains_iff_mem_keys.mp (Table.contains_iff.mpr ⟨_, hfind⟩)
      · exact ih k hk
  have hle := (List.subperm_of_subset hnodup hkeys).length_le
  rwa [List.length_map, Table.keys, List.length_map] at hle

/-- **The analysis looks names up along the chain.** -/
theorem resolve (h : t.Around tops M chain) (hnodup : (chain.map Prod.fst).Nodup) (x : String) :
    t.resolve M x = (chain.binder? x).or (if x ∈ tops then some Tree.top else none) :=
  h.resolveFrom (Nat.lt_succ_of_le (h.length_le hnodup)) x

end Around

end Tree

namespace Term

/-! ### Renaming along the scopes -/

theorem eq_atom_of_child {x : Term} {a : Atom} (h : x.child = .atom a) : x = .atom a := by
  cases x with
  | atom b => cases h; rfl
  | _ => cases h

/-- A definition can be told from the children of its node. -/
theorem eq_define_of_children {items : List Term} {name : String} {rest : List Child}
    (h : items.map child = .atom (.keyword "define") :: .atom (.variable name) :: rest) :
    ∃ others, items = .atom (.keyword "define") :: .atom (.variable name) :: others := by
  obtain ⟨x, items, rfl, hx, h⟩ := List.map_eq_cons_iff.mp h
  obtain ⟨y, others, rfl, hy, -⟩ := List.map_eq_cons_iff.mp h
  rw [eq_atom_of_child hx, eq_atom_of_child hy]
  exact ⟨others, rfl⟩

mutual

/-- The definitions of a term are those of the nodes that it has in the tree. -/
theorem mem_definitions_iff {t : Tree} {N : Handle} {name : String} :
    (x : Term) → {parent : Option Handle} → {M : Handle} → {k : Nat} → x.Placed t parent → t.Encloses M parent k →
    k + x.handles.length ≤ t.size →
    ((N, name) ∈ x.definitions M ↔ ∃ h ∈ x.handles, ∃ parent rest, N = t.enclosingLambda h ∧ t.get? h =
      some (.application parent .code (.atom (.keyword "define") :: .atom (.variable name) :: rest)))
  | .atom _, _, _, _, _, _, _ => by simp [definitions, handles]
  | .string h content, _, _, _, hp, _, _ => by
    refine ⟨(nomatch ·), ?_⟩
    rintro ⟨k, hk, parent, rest, -, hn⟩
    obtain rfl : k = h := by simpa [handles] using hk
    cases hp.symm.trans hn
  | .lambda h _ body, _, _, k, hp, _, hk => by
    simp only [handles, List.length_cons] at hk
    rw [definitions, mem_definitionsAll_iff body hp.2 (Tree.encloses_lambda hp.1) (by omega)]
    -- the node is a definition itself, or one is further down
    constructor
    · rintro ⟨j, hj, hnode⟩
      exact ⟨j, by simp [handles, hj], hnode⟩
    · rintro ⟨j, hj, parent, rest, hN, hn⟩
      rcases List.mem_cons.mp hj with rfl | hj
      · cases hp.1.symm.trans hn
      · exact ⟨j, hj, parent, rest, hN, hn⟩
  | .application h quotation items, parent, M, k, hp, he, hk => by
    simp only [handles, List.length_cons] at hk
    have he' := he.application hp.1
    have hM : t.enclosingLambda h = M := he'.enclosingLambda (by omega)
    rw [definitions, List.mem_append, mem_definitionsAll_iff items hp.2 he' (by omega), List.mem_map]
    constructor
    · rintro (⟨name', hname, heq⟩ | ⟨j, hj, hnode⟩)
      · obtain ⟨rfl, rfl⟩ := Prod.mk.inj heq
        obtain ⟨rfl, rest, rfl⟩ := mem_definition.mp hname
        exact ⟨h, by simp [handles], parent, rest.map child, hM.symm, hp.1⟩
      · exact ⟨j, by simp [handles, hj], hnode⟩
    · rintro ⟨j, hj, parent', rest, hN, hn⟩
      rcases List.mem_cons.mp hj with rfl | hj
      · obtain ⟨-, rfl, hitems⟩ : some parent = some parent' ∧ quotation = .code ∧
            items.map child = .atom (.keyword "define") :: .atom (.variable name) :: rest := by
          have hboth := hp.1.symm.trans hn
          simpa using hboth
        refine Or.inl ⟨name, mem_definition.mpr ⟨rfl, ?_⟩, by rw [hN, hM]⟩
        exact eq_define_of_children hitems
      · exact Or.inr ⟨j, hj, parent', rest, hN, hn⟩

theorem mem_definitionsAll_iff {t : Tree} {N : Handle} {name : String} :
    (xs : List Term) → {parent : Option Handle} → {M : Handle} → {k : Nat} → PlacedAll t parent xs →
    t.Encloses M parent k → k + (handlesAll xs).length ≤ t.size →
    ((N, name) ∈ definitionsAll M xs ↔ ∃ h ∈ handlesAll xs, ∃ parent rest, N = t.enclosingLambda h ∧ t.get? h =
      some (.application parent .code (.atom (.keyword "define") :: .atom (.variable name) :: rest)))
  | [], _, _, _, _, _, _ => by simp [definitionsAll, handlesAll]
  | x :: xs, _, _, k, hp, he, hk => by
    simp only [handlesAll, List.length_append] at hk
    rw [definitionsAll, List.mem_append, mem_definitions_iff x hp.1 he (by omega),
      mem_definitionsAll_iff xs hp.2 he (by omega)]
    simp only [handlesAll, List.mem_append, or_and_right, exists_or]

end

end Term

namespace Tree

variable {t : Tree} {tops : List String} {M : Handle} {chain : Chain}

/-- How a name in the lambda `M` is spelled, by the table of scopes. -/
def spelling (t : Tree) (bound : Handle → String → String) (free : String → String) (M : Handle) (x : String) :
    String :=
  match t.resolve M x with
  | none => free x
  | some N => bound N x

/-- How a name that no lambda but the top one binds is spelled. -/
def outermost (tops : List String) (bound : Handle → String → String) (free : String → String) (x : String) : String :=
  if x ∈ tops then bound Tree.top x else free x

theorem Around.spelling (h : t.Around tops M chain) (hnodup : (chain.map Prod.fst).Nodup)
    (bound : Handle → String → String) (free : String → String) (x : String) :
    t.spelling bound free M x = chain.spell bound (outermost tops bound free) x := by
  rw [Tree.spelling, h.resolve hnodup, Chain.spell]
  cases hbinder : chain.binder? x with
  | none =>
    rw [Option.none_or]
    by_cases hx : x ∈ tops <;> simp [outermost, hx]
  | some N => rfl

/-- **The chain inside a lambda**: the scope of the lambda comes in front. -/
theorem Around.enter (hs : t.ScopesAre t.Defines t.scopes) (h : t.Around tops M chain) {k p : Handle} {n : Nat}
    {parameters : List String} {body : List Term} (hp : (Term.lambda k parameters body).Placed t (some p))
    (he : t.Encloses M (some p) n) (hn : n ≤ t.size)
    (hdefines : ∀ name, t.Defines k name ↔ name ∈ definedAll body) :
    t.Around tops k (chain.enter k parameters body) := by
  obtain ⟨s, hfind⟩ := hs.total k _ _ _ hp.1
  obtain ⟨p', ps', cs', hnode, hparent, hbinds⟩ := hs.sound k s hfind
  rw [hp.1] at hnode
  cases hnode
  refine .inside hfind ?_ (fun x => ?_) h
  · rw [hparent, Option.map_some, he.enclosingLambda hn]
  · rw [hbinds, hdefines, List.mem_append]

/-! ### Terms in a lambda -/

/-- **Terms that stand in a lambda** `M`, with the lambdas of a chain around them and the top one, which binds `tops`. A term
that hangs nowhere stands in the top lambda, unless it is a lambda itself. -/
structure Stand (t : Tree) (tops : List String) (xs : List Term) (M : Handle) (chain : Chain) : Prop where
  placed : ∃ parent k, PlacedAll t parent xs ∧ t.Encloses M parent k ∧ k + (handlesAll xs).length ≤ t.size ∧
    (parent = none → ∀ h parameters body, .lambda h parameters body ∉ xs)
  around : t.Around tops M chain
  nodup : (Tree.top :: (chain.map Prod.fst ++ handlesAll xs)).Nodup
  defines : ∀ h ∈ handlesAll xs, ∀ name, t.Defines h name ↔ (h, name) ∈ definitionsAll M xs

namespace Stand

variable {t : Tree} {tops : List String} {x : Term} {xs ys : List Term} {M h : Handle} {chain : Chain}

/-- A chain of lambdas around terms has each of them once. -/
theorem nodup_chain (hx : t.Stand tops xs M chain) : (chain.map Prod.fst).Nodup :=
  (List.nodup_append.mp (List.nodup_cons.mp hx.nodup).2).1

/-- The lambdas around terms are none of those in them. -/
theorem not_mem (hx : t.Stand tops xs M chain) (hh : h ∈ handlesAll xs) : h ≠ Tree.top ∧ h ∉ chain.map Prod.fst ∧ h ≠ M := by
  obtain ⟨htop, hrest⟩ := List.nodup_cons.mp hx.nodup
  have hne : h ≠ Tree.top := by
    rintro rfl
    exact htop (List.mem_append_right _ hh)
  have hmem : h ∉ chain.map Prod.fst := fun hmem => (List.nodup_append.mp hrest).2.2 h hmem h hh rfl
  refine ⟨hne, hmem, ?_⟩
  rintro rfl
  exact hx.around.mem.elim hne hmem

/-- Some of the terms. -/
theorem of_append {before after : List Term} (hx : t.Stand tops (before ++ xs ++ after) M chain) :
    t.Stand tops xs M chain := by
  obtain ⟨p, k, hplaced, hencloses, hk, hbare⟩ := hx.placed
  have hnodup := hx.nodup
  rw [handlesAll_append, handlesAll_append, List.length_append, List.length_append] at hk
  rw [placedAll_append, placedAll_append] at hplaced
  have hsome : ∀ h ∈ handlesAll xs, h ∈ handlesAll (before ++ xs ++ after) := by
    intro h hh
    rw [handlesAll_append, handlesAll_append]
    exact List.mem_append_left _ (List.mem_append_right _ hh)
  refine ⟨⟨p, k, hplaced.1.2, hencloses, by omega, fun hp h parameters body hmem => ?_⟩, hx.around, hnodup.sublist ?_,
    fun h hh name => ?_⟩
  · exact hbare hp h parameters body (List.mem_append_left _ (List.mem_append_right _ hmem))
  · rw [handlesAll_append, handlesAll_append]
    have hinner : (handlesAll xs).Sublist (handlesAll before ++ handlesAll xs ++ handlesAll after) :=
      (List.sublist_append_right _ _).trans (List.sublist_append_left _ _)
    exact (hinner.append_left _).cons_cons _
  · have hhandles := (List.nodup_append.mp (List.nodup_cons.mp hnodup).2).2.1
    rw [hx.defines h (hsome h hh), mem_definitionsAll_middle hhandles hh (hx.not_mem (hsome h hh)).2.2]

theorem head (hx : t.Stand tops (x :: xs) M chain) : t.Stand tops [x] M chain := by
  have hx : t.Stand tops ([] ++ [x] ++ xs) M chain := hx
  exact hx.of_append

theorem tail (hx : t.Stand tops (x :: xs) M chain) : t.Stand tops xs M chain := by
  have hx : t.Stand tops ([x] ++ xs ++ []) M chain := by rwa [List.append_nil]
  exact hx.of_append

theorem mem (hxs : t.Stand tops xs M chain) (hx : x ∈ xs) : t.Stand tops [x] M chain := by
  induction xs with
  | nil => cases hx
  | cons y ys ih => exact (List.mem_cons.mp hx).elim (fun h => h ▸ hxs.head) (ih hxs.tail)

/-- The items of an application stand where it stands. -/
theorem items {k : Handle} {quotation : Quotation} {items : List Term}
    (hx : t.Stand tops [.application k quotation items] M chain) : t.Stand tops items M chain := by
  obtain ⟨p, n, ⟨⟨hnode, hplaced⟩, -⟩, hencloses, hn, -⟩ := hx.placed
  have hnodup := hx.nodup
  simp only [handlesAll, Term.handles, List.append_nil, List.length_cons] at hnodup hn
  refine ⟨⟨some k, n + 1, hplaced, hencloses.application hnode, by omega, nofun⟩, hx.around, hnodup.sublist ?_,
    fun h hh name => ?_⟩
  · exact ((List.sublist_cons_self k _).append_left _).cons_cons _
  · have hmem : h ∈ handlesAll [.application k quotation items] := by simp [handlesAll, Term.handles, hh]
    have hne := (hx.not_mem hmem).2.2
    rw [hx.defines h hmem name, definitionsAll, definitionsAll, Term.definitions, List.append_nil, List.mem_append, List.mem_map]
    refine ⟨fun hor => hor.resolve_left ?_, Or.inr⟩
    rintro ⟨_, -, heq⟩
    exact hne (Prod.mk.inj heq).1.symm

/-- The body of a lambda stands in the lambda. -/
theorem body (hs : t.ScopesAre t.Defines t.scopes) {k : Handle} {parameters : List String} {body : List Term}
    (hx : t.Stand tops [.lambda k parameters body] M chain) :
    t.Stand tops body k (chain.enter k parameters body) := by
  obtain ⟨parent, n, ⟨hplaced, -⟩, hencloses, hn, hbare⟩ := hx.placed
  obtain ⟨p, rfl⟩ : ∃ p, parent = some p :=
    Option.ne_none_iff_exists'.mp fun hnone => hbare hnone k parameters body List.mem_cons_self
  have hnodup := hx.nodup
  simp only [handlesAll, Term.handles, List.append_nil, List.length_cons] at hnodup hn
  have hdefines : ∀ h ∈ k :: handlesAll body, ∀ name, t.Defines h name ↔ (h, name) ∈ definitionsAll k body := by
    intro h hh name
    rw [hx.defines h (by simpa [handlesAll, Term.handles] using hh), definitionsAll, definitionsAll, Term.definitions, List.append_nil]
  have hk : k ∉ handlesAll body :=
    (List.nodup_cons.mp (List.nodup_append.mp (List.nodup_cons.mp hnodup).2).2.1).1
  refine ⟨⟨some k, 0, hplaced.2, encloses_lambda hplaced.1, by omega, nofun⟩, ?_, ?_,
    fun h hh => hdefines h (List.mem_cons_of_mem k hh)⟩
  · refine hx.around.enter hs hplaced hencloses (by omega) fun name => ?_
    rw [hdefines k List.mem_cons_self, mem_definitionsAll_self body hk]
  · refine (List.Perm.nodup_iff (List.Perm.cons _ ?_)).mp hnodup
    exact List.perm_middle

end Stand

end Tree

namespace Term

variable {t : Tree} {tops : List String} {bound new : Handle → String → String} {free : String → String}

mutual

/-- **Renaming along the scopes is respelling along the chain.** -/
theorem rename_eq_respell (hs : t.ScopesAre t.Defines t.scopes) :
    (x : Term) → {M : Handle} → {chain : Chain} → t.Stand tops [x] M chain →
    x.Each (fun M w => new M w = t.spelling bound free M w) M →
    x.rename new M = x.respell bound (Tree.outermost tops bound free) chain
  | .atom a, _, _, hx, heach => by
    cases a with
    | «variable» w => rw [rename, respell, heach w rfl, hx.around.spelling hx.nodup_chain]
    | _ => rfl
  | .string _ _, _, _, _, _ => rfl
  | .lambda h parameters body, _, chain, hx, heach => by
    have hbody := hx.body hs
    rw [rename, respell, renameAll_eq_respellAll hs body hbody heach.2]
    congr 1
    refine List.map_congr_left fun w hw => ?_
    rw [heach.1 w hw, hbody.around.spelling hbody.nodup_chain]
    simp [Chain.spell, Chain.enter, Chain.binder?, hw]
  | .application h quotation items, _, _, hx, heach => by
    rw [rename, respell, renameAll_eq_respellAll hs items hx.items heach]

theorem renameAll_eq_respellAll (hs : t.ScopesAre t.Defines t.scopes) :
    (xs : List Term) → {M : Handle} → {chain : Chain} → t.Stand tops xs M chain →
    EachAll (fun M w => new M w = t.spelling bound free M w) M xs →
    renameAll new M xs = respellAll bound (Tree.outermost tops bound free) chain xs
  | [], _, _, _, _ => rfl
  | x :: xs, _, _, hx, heach => by
    rw [renameAll, respellAll, rename_eq_respell hs x hx.head heach.1, renameAll_eq_respellAll hs xs hx.tail heach.2]

end

/-! ### Occurrences -/

/-- A name occurs in the lambda `M`. -/
def Occurs (t : Tree) (M : Handle) (x : String) : Prop :=
  ∃ h ∈ t.handles, x ∈ t.occurrences h ∧ t.enclosingLambda h = M

theorem mem_variables {xs : List Term} {w : String} (h : .atom (.variable w) ∈ xs) :
    w ∈ (xs.map child).filterMap Child.variableName? :=
  List.mem_filterMap.mpr ⟨_, List.mem_map.mpr ⟨_, h, rfl⟩, rfl⟩

mutual

/-- **Every name of a term occurs in the tree**, given that the term is no variable or that the variable occurs. -/
theorem each_occurs {layer : Layer} : (x : Term) → {parent : Option Handle} → {M : Handle} → {k : Nat} →
    x.Placed t parent → x.Legal layer → t.Encloses M parent k → (layer = .code → t.Unquoted parent k) →
    k + x.handles.length ≤ t.size → (∀ w, x = .atom (.variable w) → Occurs t M w) → x.Each (Occurs t) M
  | .atom a, _, _, _, _, _, _, _, _, hatom => fun w hw => hatom w (by rw [hw])
  | .string _ _, _, _, _, _, _, _, _, _, _ => trivial
  | .lambda h parameters body, parent, _, k, hp, hl, _, _, hk, _ => by
    simp only [handles, List.length_cons] at hk
    have hh : h ∈ t.handles := List.mem_range.mpr (Tree.lt_size_of_get? hp.1)
    have hself : t.enclosingLambda h = h := (Tree.encloses_lambda hp.1).enclosingLambda (by omega)
    have hnames : t.occurrences h = parameters ++ (body.map child).filterMap Child.variableName? := by
      simp only [Tree.occurrences, hp.1]
    refine ⟨fun w hw => ⟨h, hh, by rw [hnames]; exact List.mem_append_left _ hw, hself⟩, ?_⟩
    refine eachAll_occurs body hp.2 hl.2.2 (Tree.encloses_lambda hp.1) (fun _ => Tree.unquoted_lambda hp.1) (by omega)
      fun w hw => ⟨h, hh, ?_, hself⟩
    rw [hnames]
    exact List.mem_append_right _ (mem_variables hw)
  | .application h quotation items, parent, M, k, hp, hl, he, hu, hk, _ => by
    simp only [handles, List.length_cons] at hk
    have hh : h ∈ t.handles := List.mem_range.mpr (Tree.lt_size_of_get? hp.1)
    have he' := he.application hp.1
    have hM : t.enclosingLambda h = M := he'.enclosingLambda (by omega)
    have hcode : t.isQuoted h = false → ∀ w, .atom (.variable w) ∈ items → Occurs t M w := by
      intro hq w hw
      refine ⟨h, hh, ?_, hM⟩
      simp only [Tree.occurrences, hp.1, hq]
      exact mem_variables hw
    -- there are no variables in data
    have hdata : LegalAll .data items → ∀ w, .atom (.variable w) ∈ items → Occurs t M w := by
      intro hitems w hw
      rcases legalAll_iff.mp hitems _ hw with h | h <;> cases h
    cases quotation with
    | code =>
      have hu' := (hu hl.1).code hp.1
      exact eachAll_occurs items hp.2 hl.2 he' (fun _ => hu') (by omega) (hcode (hu' (t.size + 1) (by omega)))
    | quote => exact eachAll_occurs items hp.2 hl.2 he' (fun h => by cases h) (by omega) (hdata hl.2)
    | quasiquote => exact eachAll_occurs items hp.2 hl.2.2 he' (fun h => by cases h) (by omega) (hdata hl.2.2)
    | unquote =>
      refine eachAll_occurs items hp.2 hl.2 he' (fun _ => Tree.unquoted_hole hp.1) (by omega) (hcode ?_)
      simp [Tree.isQuoted, Tree.isQuotedFrom, hp.1]

theorem eachAll_occurs {layer : Layer} : (xs : List Term) → {parent : Option Handle} → {M : Handle} → {k : Nat} →
    PlacedAll t parent xs → LegalAll layer xs → t.Encloses M parent k → (layer = .code → t.Unquoted parent k) →
    k + (handlesAll xs).length ≤ t.size → (∀ w, .atom (.variable w) ∈ xs → Occurs t M w) → EachAll (Occurs t) M xs
  | [], _, _, _, _, _, _, _, _, _ => trivial
  | x :: xs, _, _, k, hp, hl, he, hu, hk, hatoms => by
    simp only [handlesAll, List.length_append] at hk
    exact ⟨each_occurs x hp.1 hl.1 he hu (by omega) fun w hw => hatoms w (hw ▸ List.mem_cons_self),
      eachAll_occurs xs hp.2 hl.2 he hu (by omega) fun w hw => hatoms w (List.mem_cons_of_mem x hw)⟩

end

end Term

namespace Tree

variable {t t' : Tree} {body strays : List Term}

/-- **What the table of renamings holds**: for every name that occurs and is bound, its binder and the name as it was
written. -/
theorem find?_renamings (hnone : t.renamings = {}) {key : String} {info : VariableInfo} :
    t.renameVariables.renamings.find? key = some info ↔ key = scopedName info.owner info.written ∧
      ∃ M, Occurs t M info.written ∧ t.resolve M info.written = some info.owner := by
  have hentries : ∀ e : String × VariableInfo, e ∈ (t.handles.flatMap fun h =>
      (t.occurrences h).filterMap (t.renamingOf? (t.enclosingLambda h))) ↔
      e.1 = scopedName e.2.owner e.2.written ∧ ∃ M, Occurs t M e.2.written ∧ t.resolve M e.2.written = some e.2.owner := by
    rintro ⟨key, owner, written⟩
    simp only [List.mem_flatMap, List.mem_filterMap, renamingOf?, Option.map_eq_some_iff, Prod.mk.injEq,
      VariableInfo.mk.injEq]
    constructor
    · rintro ⟨h, hh, w, hw, N, hN, rfl, rfl, rfl⟩
      exact ⟨rfl, t.enclosingLambda h, ⟨h, hh, hw, rfl⟩, hN⟩
    · rintro ⟨rfl, _, ⟨h, hh, hw, rfl⟩, hN⟩
      exact ⟨h, hh, written, hw, owner, hN, rfl, rfl, rfl⟩
  simp only [renameVariables, hnone]
  generalize (t.handles.flatMap fun h => (t.occurrences h).filterMap (t.renamingOf? (t.enclosingLambda h))) = entries
    at hentries
  constructor
  · intro h
    rcases Table.mem_of_find?_insertAll h with hmem | hfind
    · exact (hentries _).mp hmem
    · cases hfind
  · intro h
    have hmem := (hentries (key, info)).mpr h
    obtain ⟨info', hfind⟩ := Table.exists_find?_insertAll (∅ : Table String VariableInfo)
      (List.mem_map.mpr ⟨_, hmem, rfl⟩)
    rw [hfind]
    -- the key tells the binder and the name
    rcases Table.mem_of_find?_insertAll hfind with hmem' | hfind
    · obtain ⟨howner, hwritten⟩ := scopedName_inj (((hentries _).mp hmem').1.symm.trans h.1)
      cases info
      cases info'
      cases howner
      cases hwritten
      rfl
    · cases hfind

namespace Holds

/-! The terms `strays` are those that hang nowhere; what they define belongs to the top lambda. -/

/-- The definitions of a tree are those of its terms. -/
theorem defines_iff (hh : t.Holds (.lambda Tree.top [] body :: strays)) {N : Handle} {name : String} :
    t.Defines N name ↔ (N, name) ∈ definitionsAll Tree.top body ++ definitionsAll Tree.top strays := by
  have hsize : 0 + (handlesAll (.lambda Tree.top [] body :: strays)).length ≤ t.size := by
    rw [hh.handles.length_eq, List.length_range, Nat.zero_add]
  change _ ↔ (N, name) ∈ definitionsAll Tree.top (.lambda Tree.top [] body :: strays)
  rw [mem_definitionsAll_iff _ hh.placed rfl hsize]
  constructor
  · rintro ⟨h, parent, rest, hN, hnode⟩
    exact ⟨h, hh.handles.mem_iff.mpr (List.mem_range.mpr (lt_size_of_get? hnode)), parent, rest, hN, hnode⟩
  · rintro ⟨h, -, hnode⟩
    exact ⟨h, hnode⟩

theorem nodup (hh : t.Holds (.lambda Tree.top [] body :: strays)) :
    (Tree.top :: (handlesAll body ++ handlesAll strays)).Nodup :=
  hh.handles_nodup

/-- The top lambda binds what is defined in it. -/
theorem around (hh : t.Holds (.lambda Tree.top [] body :: strays)) (hs : t.ScopesAre t.Defines t.scopes) :
    t.Around (definedAll body ++ definedAll strays) Tree.top [] := by
  obtain ⟨s, hfind⟩ := hs.total Tree.top _ _ _ hh.placed.1.1
  obtain ⟨p, ps, cs, hnode, hparent, hbinds⟩ := hs.sound Tree.top s hfind
  rw [hh.placed.1.1] at hnode
  cases hnode
  have htop := (List.nodup_cons.mp hh.nodup).1
  rw [List.mem_append, not_or] at htop
  refine .top hfind hparent fun x => ?_
  rw [hbinds, hh.defines_iff, List.mem_append, List.mem_append, mem_definitionsAll_self body htop.1,
    mem_definitionsAll_self strays htop.2]
  simp

/-- Terms that hang nowhere are apart from the body and from each other. -/
theorem nodup_stray {x : Term} (hh : t.Holds (.lambda Tree.top [] body :: strays)) (hx : x ∈ strays) :
    (Tree.top :: x.handles).Nodup :=
  hh.nodup.sublist (((handles_sublist hx).trans (List.sublist_append_right _ _)).cons_cons _)

/-- The lambdas in a term that hangs nowhere have their definitions in it. -/
theorem defines_stray {x : Term} (hh : t.Holds (.lambda Tree.top [] body :: strays)) (hx : x ∈ strays) {h : Handle}
    (hmem : h ∈ x.handles) (name : String) : t.Defines h name ↔ (h, name) ∈ definitionsAll Tree.top [x] := by
  obtain ⟨before, after, rfl⟩ := List.append_of_mem hx
  have hnodup := (List.nodup_cons.mp hh.nodup).2
  have hlist : body ++ (before ++ x :: after) = body ++ before ++ [x] ++ after := by simp
  have hne : h ≠ Tree.top := by
    rintro rfl
    exact (List.nodup_cons.mp (hh.nodup_stray hx)).1 hmem
  rw [← handlesAll_append, hlist] at hnodup
  rw [hh.defines_iff, ← definitionsAll_append, hlist,
    mem_definitionsAll_middle hnodup (by rwa [handlesAll, handlesAll, List.append_nil]) hne]

/-- **The body of a program stands in the top lambda**, which also binds what strays define. -/
theorem stand (hh : t.Holds (.lambda Tree.top [] body :: strays))
    (hs : t.ScopesAre t.Defines t.scopes) : t.Stand (definedAll body ++ definedAll strays) body Tree.top [] := by
  have hsize := hh.handles.length_eq
  simp only [handlesAll, Term.handles, List.length_append, List.length_cons, List.length_range] at hsize
  obtain ⟨htop, hrest⟩ := List.nodup_cons.mp hh.nodup
  rw [List.mem_append, not_or] at htop
  refine ⟨⟨some Tree.top, 0, hh.placed.1.2, encloses_lambda hh.placed.1.1, by omega, nofun⟩, hh.around hs,
    List.nodup_cons.mpr ⟨htop.1, (List.nodup_append.mp hrest).1⟩, fun h hmem name => ?_⟩
  have hne : h ≠ Tree.top := by
    rintro rfl
    exact htop.1 hmem
  have hmiddle : (h, name) ∈ definitionsAll Tree.top ([] ++ body ++ strays) ↔ (h, name) ∈ definitionsAll Tree.top body :=
    mem_definitionsAll_middle (by rwa [List.nil_append, handlesAll_append]) hmem hne
  rw [hh.defines_iff, ← definitionsAll_append, ← hmiddle, List.nil_append]

/-- **What hangs nowhere stands in the top lambda**, -/
theorem stand_stray {x : Term} (hh : t.Holds (.lambda Tree.top [] body :: strays)) (hs : t.ScopesAre t.Defines t.scopes)
    (hx : x ∈ strays) (hbare : ∀ h parameters body, x ≠ .lambda h parameters body) :
    t.Stand (definedAll body ++ definedAll strays) [x] Tree.top [] := by
  have hhandles : handlesAll [x] = x.handles := by rw [handlesAll, handlesAll, List.append_nil]
  have hsize := hh.handles.length_eq
  have hlength := (handles_sublist hx).length_le
  simp only [handlesAll, Term.handles, List.length_append, List.length_cons, List.length_range] at hsize
  refine ⟨⟨none, 0, ⟨placedAll_iff.mp hh.placed.2 x hx, trivial⟩, rfl, by rw [hhandles]; omega, fun _ h parameters body => ?_⟩,
    hh.around hs, by rw [hhandles]; exact hh.nodup_stray hx, fun h hmem name => hh.defines_stray hx (hhandles ▸ hmem) name⟩
  rw [List.mem_singleton]
  exact fun heq => hbare h parameters body heq.symm

/-- but nothing is around a lambda that hangs nowhere. -/
theorem stand_stray_lambda {k : Handle} {parameters : List String} {items : List Term}
    (hh : t.Holds (.lambda Tree.top [] body :: strays)) (hs : t.ScopesAre t.Defines t.scopes)
    (hx : .lambda k parameters items ∈ strays) : t.Stand [] items k (Chain.enter [] k parameters items) := by
  have hplaced := placedAll_iff.mp hh.placed.2 _ hx
  have hnodup := hh.nodup_stray hx
  have hsize := hh.handles.length_eq
  have hlength := (handles_sublist hx).length_le
  simp only [handlesAll, Term.handles, List.length_append, List.length_cons, List.length_range] at hsize hlength hnodup
  have hk := (List.nodup_cons.mp (List.nodup_cons.mp hnodup).2).1
  have hdefines : ∀ h ∈ k :: handlesAll items, ∀ name, t.Defines h name ↔ (h, name) ∈ definitionsAll k items := by
    intro h hmem name
    rw [hh.defines_stray hx (by simpa [Term.handles] using hmem), definitionsAll, definitionsAll, Term.definitions,
      List.append_nil]
  obtain ⟨s, hfind⟩ := hs.total k _ _ _ hplaced.1
  obtain ⟨p, ps, cs, hnode, hparent, hbinds⟩ := hs.sound k s hfind
  rw [hplaced.1] at hnode
  cases hnode
  refine ⟨⟨some k, 0, hplaced.2, encloses_lambda hplaced.1, by omega, nofun⟩, .stray hfind hparent fun name => ?_, ?_,
    fun h hmem => hdefines h (List.mem_cons_of_mem k hmem)⟩
  · rw [hbinds, hdefines k List.mem_cons_self, mem_definitionsAll_self items hk, List.mem_append]
  · exact hnodup

/-- **Renaming the body of a program is respelling it.** -/
theorem renameAll_eq (hh : t.Holds (.lambda Tree.top [] body :: strays)) (hs : t.ScopesAre t.Defines t.scopes)
    {bound new : Handle → String → String} {free : String → String}
    (heach : EachAll (fun M w => new M w = t.spelling bound free M w) Tree.top body) :
    renameAll new Tree.top body =
      respellAll bound (outermost (definedAll body ++ definedAll strays) bound free) [] body :=
  renameAll_eq_respellAll hs body (hh.stand hs) heach

/-- Every name of a program occurs in its tree. -/
theorem occurs (hh : t.Holds (.lambda Tree.top [] body :: strays)) : EachAll (Occurs t) Tree.top body := by
  have hsize := hh.handles.length_eq
  simp only [handlesAll, List.length_append, List.length_range] at hsize
  have heach := each_occurs (.lambda Tree.top [] body) hh.placed.1 hh.legal.1 (M := Tree.top) (k := 0) rfl
    (fun _ => trivial) (by omega) nofun
  exact heach.2

end Holds

/-- **The analysis of a tree**: scopes are added, variables renamed along them, and tail calls marked. -/
theorem Holds.analyse_eq_ok {roots : List Term} (hh : t.Holds roots) (ha : t.analysed = false)
    (hr : t.analyse = .ok t') : ∃ u : Tree, u = { t with scopes := u.scopes } ∧ u.ScopesAre u.Defines u.scopes ∧
      t' = u.renameVariables.markTailCalls := by
  obtain ⟨cs, htop⟩ := hh.top_node
  unfold Tree.analyse at hr
  split at hr
  · next t₁ hres =>
    cases hr
    obtain ⟨u, hscopes, rfl, hs⟩ := resolveScopes_eq ⟨none, [], cs, htop⟩ ha hres
    exact ⟨u, hscopes, hs, rfl⟩
  · cases hr

/-- The terms of a tree depend on its nodes alone. -/
theorem Holds.of_nodes {u : Tree} {roots : List Term} (hh : t.Holds roots) (hnodes : u.nodes = t.nodes) : u.Holds roots := by
  refine ⟨hh.top, hh.placed.congr fun _ _ => by simp only [get?, hnodes], hh.legal, ?_⟩
  rw [show u.size = t.size by simp only [size, hnodes]]
  exact hh.handles

theorem Holds.of_scopes {u : Tree} {roots : List Term} (hh : t.Holds roots) (hu : u = { t with scopes := u.scopes }) :
    u.Holds roots :=
  hh.of_nodes (by rw [hu])

/-- Renaming the variables of a program is respelling them by scope. -/
theorem Holds.renameAll_newName (hh : t.Holds [.lambda Tree.top [] body]) (hs : t.ScopesAre t.Defines t.scopes) :
    renameAll t.newName Tree.top body =
      respellAll scopedName (outermost (definedAll body) scopedName id) [] body := by
  have heach : EachAll (fun M w => t.newName M w = t.spelling scopedName id M w) Tree.top body :=
    EachAll.imp (fun M w _ => by rw [newName, spelling]; cases t.resolve M w <;> rfl) body hh.occurs
  simpa only [definedAll, List.append_nil] using hh.renameAll_eq hs heach

/-- **Scope analysis is lexical scoping.** The analysed tree holds the terms of the tree with every name that a lambda
binds under the handle of that lambda. -/
theorem Holds.analyse_respell (hh : t.Holds [.lambda Tree.top [] body]) (ha : t.analysed = false)
    (hr : t.analyse = .ok t') :
    t'.Holds [.lambda Tree.top [] (respellAll scopedName (outermost (definedAll body) scopedName id) [] body)] := by
  obtain ⟨u, hu, hs, rfl⟩ := hh.analyse_eq_ok ha hr
  have hheld := hh.of_scopes hu
  obtain ⟨hrenamed, -⟩ := hheld.renameVariables hs
  simp only [renameAll, rename, List.map_nil, hheld.renameAll_newName hs] at hrenamed
  exact ⟨hrenamed.top, hrenamed.placed.congr fun _ _ => rfl, hrenamed.legal, hrenamed.handles⟩

end Tree

end SchemeMachine
