import SchemeMachine.Proofs.Syntax.Respelling

/-!
# What a program declares

The modules that a program imports, the native libraries that it declares, and whether its definitions are well formed
can be told from the sketches of its terms.

* `Term.imported` and `Term.declared` are what a term at the top level declares, `Tree.declarations_ofForms` says that the
  tree of a program notes just that.
* `Term.Definite` says of a term that everything defined in it is a variable, and `Tree.Holds.exists_analyse_iff` that
  this is all that the analysis asks for.
* `Term.readable_blank`, `Term.each_blank` and others say that handles are of no consequence.
-/

namespace SchemeMachine

namespace Term

/-! ### Handles -/

mutual

theorem echo_blank : (x : Term) → x.blank.echo = x.echo
  | .atom _ => rfl
  | .string _ _ => rfl
  | .lambda _ parameters body => congrArg (Term.lambda 0 parameters) (echoAll_blankAll body)
  | .application _ quotation items => congrArg (Term.application 0 quotation) (echoAll_blankAll items)

/-- Terms that are written and read again lose their handles anyway. -/
theorem echoAll_blankAll : (xs : List Term) → echoAll (blankAll xs) = echoAll xs
  | [] => rfl
  | x :: xs => by rw [blankAll, echoAll_cons, echoAll_cons, echo_blank x, echoAll_blankAll xs]

end

theorem opens_blank (x : Term) : x.blank.opens = x.opens := by
  cases x with
  | application _ quotation _ => cases quotation <;> rfl
  | _ => rfl

theorem headed_blankAll (items : List Term) : Headed (blankAll items) ↔ Headed items := by
  match items with
  | [] | .string .. :: _ | .lambda .. :: _ | .application .. :: _ => exact Iff.rfl
  | .atom (.number _) :: _ | .atom (.boolean _) :: _ | .atom (.symbol _) :: _ | .atom (.variable _) :: _ => exact Iff.rfl
  | .atom (.keyword word) :: rest =>
    simp only [blankAll, blank, Headed]
    cases rest with
    | nil => exact Iff.rfl
    | cons y rest => simp [blankAll, opens_blank]

mutual

/-- Whether a term can be read again does not depend on its handles. -/
theorem readable_blank : (x : Term) → {mode : Grammar.Mode} → (x.blank.Readable mode ↔ x.Readable mode)
  | .atom _, _ => Iff.rfl
  | .string _ _, _ => Iff.rfl
  | .lambda _ _ body, _ => by
    have hnil : blankAll body ≠ [] ↔ body ≠ [] := by cases body <;> simp [blankAll]
    simp only [blank, Readable, hnil, readableAll_blankAll body]
  | .application _ quotation items, mode => by
    cases quotation <;>
      simp only [blank, Readable, headed_blankAll, length_blankAll, readableAll_blankAll items]

theorem readableAll_blankAll : (xs : List Term) → {mode : Grammar.Mode} →
    (ReadableAll mode (blankAll xs) ↔ ReadableAll mode xs)
  | [], _ => Iff.rfl
  | x :: xs, _ => by simp only [blankAll, ReadableAll, readable_blank x, readableAll_blankAll xs]

end

mutual

theorem each_blank {P : String → Prop} : (x : Term) → {M N : Handle} →
    (x.blank.Each (fun _ w => P w) M ↔ x.Each (fun _ w => P w) N)
  | .atom _, _, _ => Iff.rfl
  | .string _ _, _, _ => Iff.rfl
  | .lambda _ _ body, _, _ => by simp only [blank, Each]; rw [eachAll_blankAll body]
  | .application _ _ items, _, _ => by simp only [blank, Each]; rw [eachAll_blankAll items]

/-- What holds of every name does not depend on handles. -/
theorem eachAll_blankAll {P : String → Prop} : (xs : List Term) → {M N : Handle} →
    (EachAll (fun _ w => P w) M (blankAll xs) ↔ EachAll (fun _ w => P w) N xs)
  | [], _, _ => Iff.rfl
  | x :: xs, M, N => by
    simp only [blankAll, EachAll]
    rw [each_blank x, eachAll_blankAll xs]

end

/-! ### Declarations -/

/-- **The module that a term at the top level imports**: path by alias. -/
def imported : Term → Option (String × String)
  | .application _ _ [.atom (.keyword "import"), .atom (.variable name), .string _ content] => some (name, content)
  | _ => none

/-- **The native library that a term at the top level declares.** -/
def declared : Term → Option String
  | .application _ _ [.atom (.keyword "native"), .atom (.variable library)] => some library
  | _ => none

theorem imported_eq_some {x : Term} {name content : String} : x.imported = some (name, content) ↔
    ∃ h quotation k,
      x = .application h quotation [.atom (.keyword "import"), .atom (.variable name), .string k content] := by
  constructor
  · intro hx
    unfold imported at hx
    split at hx
    · cases hx
      exact ⟨_, _, _, rfl⟩
    · cases hx
  · rintro ⟨_, _, _, rfl⟩
    rfl

theorem declared_eq_some {x : Term} {library : String} : x.declared = some library ↔
    ∃ h quotation, x = .application h quotation [.atom (.keyword "native"), .atom (.variable library)] := by
  constructor
  · intro hx
    unfold declared at hx
    split at hx
    · cases hx
      exact ⟨_, _, rfl⟩
    · cases hx
  · rintro ⟨_, _, rfl⟩
    rfl

theorem eq_atom_of_blank {x : Term} {a : Atom} (h : x.blank = .atom a) : x = .atom a := by
  cases x with
  | atom b => exact h
  | _ => cases h

theorem imported_blank (x : Term) : x.blank.imported = x.imported := by
  refine Option.ext fun d => ?_
  obtain ⟨name, content⟩ := d
  rw [imported_eq_some, imported_eq_some]
  constructor
  · rintro ⟨h, quotation, k, heq⟩
    cases x with
    | application h' quotation' items =>
      simp only [blank, blankAll_eq, Term.application.injEq] at heq
      obtain ⟨-, rfl, hitems⟩ := heq
      obtain ⟨a, items, rfl, ha, hitems⟩ := List.map_eq_cons_iff.mp hitems
      obtain ⟨b, items, rfl, hb, hitems⟩ := List.map_eq_cons_iff.mp hitems
      obtain ⟨c, items, rfl, hc, hitems⟩ := List.map_eq_cons_iff.mp hitems
      rw [List.map_eq_nil_iff] at hitems
      subst hitems
      rw [eq_atom_of_blank ha, eq_atom_of_blank hb]
      cases c with
      | string k' content' =>
        cases hc
        exact ⟨h', quotation', k', rfl⟩
      | _ => cases hc
    | _ => cases heq
  · rintro ⟨h, quotation, k, rfl⟩
    exact ⟨0, quotation, 0, rfl⟩

theorem declared_blank (x : Term) : x.blank.declared = x.declared := by
  refine Option.ext fun library => ?_
  rw [declared_eq_some, declared_eq_some]
  constructor
  · rintro ⟨h, quotation, heq⟩
    cases x with
    | application h' quotation' items =>
      simp only [blank, blankAll_eq, Term.application.injEq] at heq
      obtain ⟨-, rfl, hitems⟩ := heq
      obtain ⟨a, items, rfl, ha, hitems⟩ := List.map_eq_cons_iff.mp hitems
      obtain ⟨b, items, rfl, hb, hitems⟩ := List.map_eq_cons_iff.mp hitems
      rw [List.map_eq_nil_iff] at hitems
      subst hitems
      rw [eq_atom_of_blank ha, eq_atom_of_blank hb]
      exact ⟨h', quotation', rfl⟩
    | _ => cases heq
  · rintro ⟨h, quotation, rfl⟩
    exact ⟨0, quotation, rfl⟩

/-- A term with the node of an application is one. -/
theorem eq_application_of_node {t : Tree} {parent p : Option Handle} {x : Term} {quotation : Quotation}
    {children : List Child} (hp : x.Placed t parent)
    (hx : x.child.node?.bind t.get? = some (.application p quotation children)) :
    ∃ h items, x = .application h quotation items ∧ items.map child = children ∧ PlacedAll t (some h) items := by
  cases x with
  | atom a => cases hx
  | string h content => cases hp.symm.trans hx
  | lambda h parameters body => cases hp.1.symm.trans hx
  | application h quotation items =>
    cases hp.1.symm.trans hx
    exact ⟨h, items, rfl, rfl, hp.2⟩

/-- What a node imports can be told from its term. -/
theorem importDeclaration?_eq {t : Tree} {parent : Option Handle} {x : Term} (hp : x.Placed t parent) :
    t.importDeclaration? x.child = x.imported := by
  refine Option.ext fun d => ?_
  obtain ⟨name, content⟩ := d
  rw [imported_eq_some]
  constructor
  · intro hd
    unfold Tree.importDeclaration? at hd
    split at hd
    · next p quotation name' path hnode =>
      -- the node of an import has a word, a name and a string, and so has the term
      obtain ⟨h, items, rfl, hitems, hplaced⟩ := eq_application_of_node hp hnode
      obtain ⟨a, items, rfl, ha, hitems⟩ := List.map_eq_cons_iff.mp hitems
      obtain ⟨b, items, rfl, hb, hitems⟩ := List.map_eq_cons_iff.mp hitems
      obtain ⟨c, items, rfl, hc, hitems⟩ := List.map_eq_cons_iff.mp hitems
      rw [List.map_eq_nil_iff] at hitems
      subst hitems
      rw [eq_atom_of_child ha, eq_atom_of_child hb]
      obtain ⟨content', hcontent, heq⟩ := Option.map_eq_some_iff.mp hd
      cases heq
      have hcplaced := hplaced.2.2.1
      -- only a string has the node of a string
      cases c with
      | atom a => cases hc
      | string k text =>
        cases hc
        simp only [Tree.string?, show t.get? path = _ from hcplaced] at hcontent
        cases hcontent
        exact ⟨h, quotation, path, rfl⟩
      | lambda k parameters body =>
        cases hc
        simp [Tree.string?, hcplaced.1] at hcontent
      | application k quotation items =>
        cases hc
        simp [Tree.string?, hcplaced.1] at hcontent
    · cases hd
  · rintro ⟨h, quotation, k, rfl⟩
    have hstring : t.string? k = some content := by simp [Tree.string?, show t.get? k = _ from hp.2.2.2.1]
    simp [Tree.importDeclaration?, child, Child.node?, hp.1, hstring]

/-- What native library a node declares can be told from its term. -/
theorem nativeDeclaration?_eq {t : Tree} {parent : Option Handle} {x : Term} (hp : x.Placed t parent) :
    t.nativeDeclaration? x.child = x.declared := by
  refine Option.ext fun library => ?_
  rw [declared_eq_some]
  constructor
  · intro hd
    unfold Tree.nativeDeclaration? at hd
    split at hd
    · next p quotation library' hnode =>
      cases hd
      obtain ⟨h, items, rfl, hitems, -⟩ := eq_application_of_node hp hnode
      obtain ⟨a, items, rfl, ha, hitems⟩ := List.map_eq_cons_iff.mp hitems
      obtain ⟨b, items, rfl, hb, hitems⟩ := List.map_eq_cons_iff.mp hitems
      rw [List.map_eq_nil_iff] at hitems
      subst hitems
      rw [eq_atom_of_child ha, eq_atom_of_child hb]
      exact ⟨h, quotation, rfl⟩
    · cases hd
  · rintro ⟨h, quotation, rfl⟩
    simp [Tree.nativeDeclaration?, child, Child.node?, hp.1]

/-! ### Definitions -/

/-- **What is defined is a variable**: one stands after the word `define` at the head of code. -/
def Targets (quotation : Quotation) (items : List Term) : Prop :=
  quotation = .code → items.head? = some (.atom (.keyword "define")) →
    ∃ name, items[1]? = some (.atom (.variable name))

mutual

/-- **Everything that a term defines is a variable.** -/
def Definite : Term → Prop
  | .atom _ => True
  | .string _ _ => True
  | .lambda _ _ body => DefiniteAll body
  | .application _ quotation items => Targets quotation items ∧ DefiniteAll items

/-- Everything that several terms define is a variable. -/
def DefiniteAll : List Term → Prop
  | [] => True
  | x :: xs => Definite x ∧ DefiniteAll xs

end

theorem definiteAll_iff {xs : List Term} : DefiniteAll xs ↔ ∀ x ∈ xs, x.Definite := by
  induction xs with
  | nil => simp [DefiniteAll]
  | cons x xs ih => simp [DefiniteAll, ih]

theorem definiteAll_append {xs ys : List Term} : DefiniteAll (xs ++ ys) ↔ DefiniteAll xs ∧ DefiniteAll ys := by
  simp only [definiteAll_iff, List.forall_mem_append]

theorem targets_blankAll (quotation : Quotation) (items : List Term) :
    Targets quotation (blankAll items) ↔ Targets quotation items := by
  have hatom : ∀ {o : Option Term} {a : Atom}, o.map blank = some (.atom a) ↔ o = some (.atom a) := by
    intro o a
    rw [Option.map_eq_some_iff]
    constructor
    · rintro ⟨x, rfl, hx⟩
      rw [eq_atom_of_blank hx]
    · rintro rfl
      exact ⟨_, rfl, rfl⟩
  simp only [Targets, blankAll_eq, List.head?_map, List.getElem?_map, hatom]

mutual

theorem definite_blank : (x : Term) → (x.blank.Definite ↔ x.Definite)
  | .atom _ => Iff.rfl
  | .string _ _ => Iff.rfl
  | .lambda _ _ body => definiteAll_blankAll body
  | .application _ _ items => by rw [blank, Definite, Definite, targets_blankAll, definiteAll_blankAll items]

/-- Handles do not matter to what is defined. -/
theorem definiteAll_blankAll : (xs : List Term) → (DefiniteAll (blankAll xs) ↔ DefiniteAll xs)
  | [] => Iff.rfl
  | x :: xs => by rw [blankAll, DefiniteAll, DefiniteAll, definite_blank x, definiteAll_blankAll xs]

end

/-- The analysis finds nothing at fault with a node. -/
def Sane (t : Tree) (h : Handle) : Prop := ∃ d, t.definition? h = .ok d

theorem sane_application {t : Tree} {h : Handle} {parent : Option Handle} {quotation : Quotation} {items : List Term}
    (hnode : t.get? h = some (.application parent quotation (items.map child))) : Sane t h ↔ Targets quotation items := by
  have hatom : ∀ {o : Option Term} {a : Atom}, o.map child = some (.atom a) ↔ o = some (.atom a) := by
    intro o a
    rw [Option.map_eq_some_iff]
    constructor
    · rintro ⟨x, rfl, hx⟩
      rw [eq_atom_of_child hx]
    · rintro rfl
      exact ⟨_, rfl, rfl⟩
  -- the rule in terms of the children that the node has
  have htargets : Targets quotation items ↔ (quotation = .code → (items.map child).head? = some (.atom (.keyword "define")) →
      ∃ name, (items.map child)[1]? = some (.atom (.variable name))) := by
    simp only [Targets, List.head?_map, List.getElem?_map, hatom]
  rw [htargets, Sane, Tree.definition?, hnode]
  generalize items.map child = children
  split
  · next rest heq =>
    cases heq
    split
    · simp
    · next hrest =>
      refine ⟨fun ⟨_, hd⟩ => (nomatch hd), fun htarget => ?_⟩
      obtain ⟨name, hname⟩ := htarget rfl rfl
      cases rest with
      | nil => cases hname
      | cons c rest => exact absurd (congrArg (· :: rest) (Option.some.inj hname)) (hrest name rest)
  · next hother =>
    refine ⟨fun _ hcode hhead => ?_, fun _ => ⟨none, rfl⟩⟩
    obtain ⟨rest, rfl⟩ := List.head?_eq_some_iff.mp hhead
    exact absurd (by rw [hcode]) (hother parent rest)

mutual

/-- The analysis finds nothing at fault with the nodes of a term if it defines variables only. -/
theorem sane_iff {t : Tree} : (x : Term) → {parent : Option Handle} → x.Placed t parent →
    ((∀ h ∈ x.handles, Sane t h) ↔ x.Definite)
  | .atom _, _, _ => by simp [handles, Definite]
  | .string k content, _, hp => by
    have hk : Sane t k := ⟨none, by simp only [Tree.definition?, show t.get? k = _ from hp]⟩
    simp [handles, Definite, hk]
  | .lambda k _ body, _, hp => by
    have hk : Sane t k := ⟨none, by simp only [Tree.definition?, hp.1]⟩
    simp only [handles, List.forall_mem_cons, hk, true_and, Definite]
    exact saneAll_iff body hp.2
  | .application k quotation items, _, hp => by
    simp only [handles, List.forall_mem_cons, Definite, sane_application hp.1]
    exact and_congr_right fun _ => saneAll_iff items hp.2

theorem saneAll_iff {t : Tree} : (xs : List Term) → {parent : Option Handle} → PlacedAll t parent xs →
    ((∀ h ∈ handlesAll xs, Sane t h) ↔ DefiniteAll xs)
  | [], _, _ => by simp [handlesAll, DefiniteAll]
  | x :: xs, _, hp => by
    simp only [handlesAll, List.forall_mem_append, DefiniteAll, sane_iff x hp.1, saneAll_iff xs hp.2]

end

end Term

namespace Tree

open Term Form

theorem exists_mapM_iff {ε α β : Type} {f : α → Except ε β} {xs : List α} :
    (∃ ys, xs.mapM f = .ok ys) ↔ ∀ x ∈ xs, ∃ y, f x = .ok y := by
  simp only [mapM_eq_ok]
  constructor
  · rintro ⟨ys, hall⟩
    induction hall with
    | nil => exact nofun
    | cons hx _ ih => exact List.forall_mem_cons.mpr ⟨⟨_, hx⟩, ih⟩
  · intro hall
    induction xs with
    | nil => exact ⟨[], .nil⟩
    | cons x xs ih =>
      obtain ⟨⟨y, hy⟩, hrest⟩ := List.forall_mem_cons.mp hall
      obtain ⟨ys, hys⟩ := ih hrest
      exact ⟨y :: ys, .cons hy hys⟩

/-- **When the analysis of a program succeeds**: everything that is defined in it is a variable. -/
theorem Holds.exists_analyse_iff {t : Tree} {roots : List Term} (hh : t.Holds roots) (ha : t.analysed = false) :
    (∃ t', t.analyse = .ok t') ↔ DefiniteAll roots := by
  rw [← saneAll_iff roots hh.placed]
  have hall : (∀ h ∈ handlesAll roots, Sane t h) ↔ ∃ ds, t.definitions = .ok ds := by
    simp only [hh.handles.mem_iff]
    refine Iff.trans (exists_mapM_iff (f := t.definition?)).symm ⟨?_, ?_⟩
    · rintro ⟨os, hos⟩
      exact ⟨os.filterMap id, Except.bind_eq_ok.mpr ⟨os, hos, rfl⟩⟩
    · rintro ⟨ds, hds⟩
      obtain ⟨os, hos, -⟩ := Except.bind_eq_ok.mp hds
      exact ⟨os, hos⟩
  rw [hall, Tree.analyse, resolveScopes, if_neg (by simp [ha])]
  cases t.definitions with
  | error e => exact ⟨fun ⟨_, h⟩ => (nomatch h), fun ⟨_, h⟩ => (nomatch h)⟩
  | ok ds => exact ⟨fun _ => ⟨ds, rfl⟩, fun _ => ⟨_, rfl⟩⟩

/-- **What the tree of a program notes of it** can be told from the sketches of its forms. -/
theorem declarations_ofForms {forms : List Form} (hl : LegalAll .code forms) :
    (ofForms forms).natives = OrderedSet.ofMembers ((sketchAll forms).filterMap declared) ∧
      (ofForms forms).dependencies = Table.ofList ((sketchAll forms).filterMap imported) := by
  obtain ⟨body, strays, hholds, hbecome, -⟩ := holds_ofForms hl
  have hplaced := placedAll_iff.mp hholds.placed.1.2
  have hbody : (ofForms forms).bodyOf Tree.top = body.map child := by rw [bodyOf, hholds.placed.1.1]
  have hnatives : ((ofForms forms).bodyOf Tree.top).filterMap (ofForms forms).nativeDeclaration? =
      (sketchAll forms).filterMap declared := by
    rw [hbody, ← hbecome.sketch, blankAll_eq, List.filterMap_map, List.filterMap_map]
    exact List.filterMap_congr fun x hx => (nativeDeclaration?_eq (hplaced x hx)).trans (declared_blank x).symm
  have himports : ((ofForms forms).bodyOf Tree.top).filterMap (ofForms forms).importDeclaration? =
      (sketchAll forms).filterMap imported := by
    rw [hbody, ← hbecome.sketch, blankAll_eq, List.filterMap_map, List.filterMap_map]
    exact List.filterMap_congr fun x hx => (importDeclaration?_eq (hplaced x hx)).trans (imported_blank x).symm
  have hnotes := notes_ofForms hl
  rw [hnatives, himports] at hnotes
  exact ⟨congrArg Tree.natives hnotes, congrArg Tree.dependencies hnotes⟩

/-- The analysis keeps what the tree notes of the program. -/
theorem declarations_analyse {forms : List Form} (hl : LegalAll .code forms) {tree : Tree}
    (h : (ofForms forms).analyse = .ok tree) :
    tree.natives = (ofForms forms).natives ∧ tree.dependencies = (ofForms forms).dependencies := by
  obtain ⟨body, strays, hholds, -, hanalysed⟩ := holds_ofForms hl
  obtain ⟨u, hu, -, rfl⟩ := hholds.analyse_eq_ok hanalysed h
  have hnatives : u.natives = (ofForms forms).natives := by rw [hu]
  have hdependencies : u.dependencies = (ofForms forms).dependencies := by rw [hu]
  exact ⟨hnatives, hdependencies⟩

end Tree

end SchemeMachine
