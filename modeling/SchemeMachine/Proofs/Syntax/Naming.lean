import SchemeMachine.Proofs.Syntax.Respelling
import SchemeMachine.Proofs.Syntax.Wording

/-!
# The names of a program

A variable in a text is no keyword, but the name of a procedure or of a named `let` may be one. No such name is left after
the analysis of scopes: it is defined where it stands, so it comes under the handle of the lambda around it.

* `Term.Worded` says what the words of a term are that was parsed; `P` is what is known of a word, and `names` are the
  names that the lambda around the term defines.
  The terms of a program are worded (`Form.worded_sketch`), also those that hang nowhere.
* `Term.IsName` says what a variable is after the analysis, `Term.Named` says it of all variables of a term.
* `Tree.exists_named` is the result for a source text.
-/

namespace SchemeMachine

open Token (IsSymbol)

variable {P : String → Prop}

namespace Term

/-! ### Words before the analysis -/

mutual

/-- **The words of a parsed term.** A variable that is a keyword is one of the names that the lambda around it defines. -/
def Worded (P : String → Prop) (names : List String) : Term → Prop
  | .atom a =>
    match a with
    | .variable v => P v ∧ (isKeyword v = false ∨ v ∈ names)
    | other => other.Spelt P
  | .string _ _ => True
  | .lambda _ parameters body => (∀ p ∈ parameters, P p) ∧ WordedAll P (definedAll body) body
  | .application _ _ items => WordedAll P names items

/-- The words of several parsed terms. -/
def WordedAll (P : String → Prop) (names : List String) : List Term → Prop
  | [] => True
  | x :: xs => Worded P names x ∧ WordedAll P names xs

end

/-- A definition can be told without the handles around it. -/
theorem definition_blankAll (quotation : Quotation) (items : List Term) :
    definition quotation (blankAll items) = definition quotation items := by
  cases quotation with
  | code =>
    match items with
    | [] | .string .. :: _ | .lambda .. :: _ | .application .. :: _ => rfl
    | .atom (.number _) :: _ | .atom (.boolean _) :: _ | .atom (.symbol _) :: _ | .atom (.variable _) :: _ => rfl
    | .atom (.keyword word) :: rest =>
      by_cases hword : word = "define"
      · subst hword
        match rest with
        | [] | .string .. :: _ | .lambda .. :: _ | .application .. :: _ => rfl
        | .atom a :: _ => cases a <;> rfl
      · rw [definition_of_ne hword]
        exact definition_of_ne hword
  | _ => rfl

mutual

theorem defined_blank : (x : Term) → x.blank.defined = x.defined
  | .atom _ => rfl
  | .string _ _ => rfl
  | .lambda _ _ _ => rfl
  | .application _ quotation items => by
    rw [blank, defined, defined, definition_blankAll, definedAll_blankAll items]

theorem definedAll_blankAll : (xs : List Term) → definedAll (blankAll xs) = definedAll xs
  | [] => rfl
  | x :: xs => by rw [blankAll, definedAll, definedAll, defined_blank x, definedAll_blankAll xs]

end

mutual

theorem worded_blank : (x : Term) → {names : List String} → (x.blank.Worded P names ↔ x.Worded P names)
  | .atom _, _ => Iff.rfl
  | .string _ _, _ => Iff.rfl
  | .lambda _ _ body, _ => by simp only [blank, Worded, definedAll_blankAll body, wordedAll_blankAll body]
  | .application _ _ items, _ => wordedAll_blankAll items

theorem wordedAll_blankAll : (xs : List Term) → {names : List String} → (WordedAll P names (blankAll xs) ↔ WordedAll P names xs)
  | [], _ => Iff.rfl
  | x :: xs, _ => and_congr (worded_blank x) (wordedAll_blankAll xs)

end

end Term

namespace Form

open Term (Worded WordedAll defined definedAll definition)

theorem definedAll_sketchSequence_subset (body : List Term) :
    definedAll body ⊆ (sketchSequence body).defined := by
  unfold sketchSequence
  split
  · simp [definedAll]
  · exact List.subset_append_right _ _

theorem worded_sketchSequence {names : List String} {body : List Term} (h : WordedAll P names body) :
    (sketchSequence body).Worded P names := by
  unfold sketchSequence
  split
  · exact h.1
  · exact ⟨rfl, h⟩

theorem worded_lambda {parameters names : List String} {body : List Term} (hparameters : ∀ p ∈ parameters, P p)
    (hbody : WordedAll P (definedAll body) body) : (Term.lambda 0 (distinct parameters) body).Worded P names :=
  ⟨fun p hp => hparameters p (mem_of_mem_distinct hp), hbody⟩

mutual

/-- **What is known of the words of a form is known of its sketch.** -/
theorem worded_sketch : (f : Form) → {names : List String} → f.Spelt P → f.sketch.defined ⊆ names → f.sketch.Worded P names
  | .atom a, _, h, _ => by
    cases a with
    | «variable» v => exact ⟨h.1, Or.inl h.2⟩
    | _ => exact h
  | .string _ _, _, _, _ => trivial
  | .group _ _ items, _, h, hnames => worded_sketchAll items h.2 (List.append_subset.mp hnames).2
  | .lambda _ _ body, _, h, _ => worded_lambda h.1 (worded_sketchAll body h.2.2 (List.Subset.refl _))
  | .procedure _ _ name _ body, _, h, hnames =>
    ⟨rfl, ⟨h.1, Or.inr (hnames List.mem_cons_self)⟩,
      worded_lambda h.2.1 (worded_sketchAll body h.2.2.2 (List.Subset.refl _)), trivial⟩
  | .letIn _ _ name names initials body, _, h, hnames => by
    obtain ⟨hname, hparameters, hinitials, -, hbody⟩ := h
    have hlambda := worded_sketchAll body hbody (List.Subset.refl _)
    -- a `let` with a name defines it inside a lambda of its own
    cases name with
    | none =>
      refine ⟨worded_lambda hparameters hlambda, worded_sketchAll initials hinitials ?_⟩
      simpa [sketch, sketchLet, defined, definition, definedAll] using hnames
    | some name =>
      refine ⟨⟨nofun, ⟨rfl, ⟨hname name rfl, Or.inr ?_⟩, worded_lambda hparameters hlambda, trivial⟩,
        ⟨⟨hname name rfl, Or.inr ?_⟩, worded_sketchAll initials hinitials ?_⟩, trivial⟩, trivial⟩
      · simp [definedAll, defined, definition]
      · simp [definedAll, defined, definition]
      · simp [definedAll, defined, definition]
  | .clause _ test body rest, _, h, hnames => by
    obtain ⟨htest, hbody, hrest⟩ := h
    cases test with
    | none =>
      exact worded_sketchSequence (worded_sketchAll body hbody
        (List.Subset.trans (definedAll_sketchSequence_subset _) hnames))
    | some test =>
      have hitems := (List.append_subset.mp hnames).2
      simp only [definedAll, List.append_subset] at hitems
      obtain ⟨-, htests, hbodies, hrests⟩ := hitems
      refine ⟨rfl, worded_sketch test htest htests, worded_sketchSequence (worded_sketchAll body hbody
        (List.Subset.trans (definedAll_sketchSequence_subset _) hbodies)), ?_⟩
      cases rest with
      | none => trivial
      | some rest => exact ⟨worded_sketch rest hrest (List.append_subset.mp hrests).1, trivial⟩

theorem worded_sketchAll : (fs : List Form) → {names : List String} → SpeltAll P fs → definedAll (sketchAll fs) ⊆ names →
    WordedAll P names (sketchAll fs)
  | [], _, _, _ => trivial
  | f :: fs, _, h, hnames =>
    ⟨worded_sketch f h.1 (List.append_subset.mp hnames).1, worded_sketchAll fs h.2 (List.append_subset.mp hnames).2⟩

end

theorem speltAll_append {fs gs : List Form} : SpeltAll P (fs ++ gs) ↔ SpeltAll P fs ∧ SpeltAll P gs := by
  induction fs with
  | nil => simp [SpeltAll]
  | cons f fs ih => simp [SpeltAll, ih, and_assoc]

mutual

/-- The words of the clauses that are dropped. -/
theorem spelt_dropped : (f : Form) → f.Spelt P → SpeltAll P f.dropped
  | .atom _, _ => trivial
  | .string _ _, _ => trivial
  | .group _ _ items, h => spelt_droppedAll items h.2
  | .lambda _ _ body, h => spelt_droppedAll body h.2.2
  | .procedure _ _ _ _ body, h => spelt_droppedAll body h.2.2.2
  | .letIn _ _ _ _ initials body, h =>
    speltAll_append.mpr ⟨spelt_droppedAll initials h.2.2.1, spelt_droppedAll body h.2.2.2.2⟩
  | .clause _ test body rest, h => by
    refine speltAll_append.mpr ⟨?_, speltAll_append.mpr ⟨spelt_droppedOption test h.1, speltAll_append.mpr
      ⟨spelt_droppedAll body h.2.1, spelt_droppedOption rest h.2.2⟩⟩⟩
    split
    · cases rest with
      | none => trivial
      | some rest => exact ⟨h.2.2, trivial⟩
    · trivial

theorem spelt_droppedAll : (fs : List Form) → SpeltAll P fs → SpeltAll P (droppedAll fs)
  | [], _ => trivial
  | f :: fs, h => speltAll_append.mpr ⟨spelt_dropped f h.1, spelt_droppedAll fs h.2⟩

theorem spelt_droppedOption : (o : Option Form) → SpeltOption P o → SpeltAll P (droppedOption o)
  | none, _ => trivial
  | some f, h => spelt_dropped f h

end

end Form

/-! ### Names after the analysis -/

namespace Term

/-- **What a variable is after the analysis**: a word that is no keyword, or a word under the handle of the lambda that
binds it. -/
def IsName (v : String) : Prop := (IsSymbol v ∧ isKeyword v = false) ∨ ∃ N x, IsSymbol x ∧ v = Tree.scopedName N x

mutual

/-- **The words of an analysed term.** -/
def Named : Term → Prop
  | .atom a =>
    match a with
    | .variable v => IsName v
    | other => other.Spelt IsSymbol
  | .string _ _ => True
  | .lambda _ parameters body => (∀ p ∈ parameters, IsName p) ∧ NamedAll body
  | .application _ _ items => NamedAll items

/-- The words of several analysed terms. -/
def NamedAll : List Term → Prop
  | [] => True
  | x :: xs => Named x ∧ NamedAll xs

end

theorem namedAll_iff {xs : List Term} : NamedAll xs ↔ ∀ x ∈ xs, x.Named := by
  induction xs with
  | nil => simp [NamedAll]
  | cons x xs ih => simp [NamedAll, ih]

theorem namedAll_append {xs ys : List Term} : NamedAll (xs ++ ys) ↔ NamedAll xs ∧ NamedAll ys := by
  simp only [namedAll_iff, List.forall_mem_append]

theorem Sub.named {x y : Term} (h : Sub x y) (hy : y.Named) : x.Named := by
  induction h with
  | refl => exact hy
  | body hmem _ ih => exact ih (namedAll_iff.mp hy.2 _ hmem)
  | item hmem _ ih => exact ih (namedAll_iff.mp hy _ hmem)

mutual

/-- What a term defines belongs to the lambda around it. -/
theorem mem_definitions_of_defined {M : Handle} {v : String} : (x : Term) → v ∈ x.defined → (M, v) ∈ x.definitions M
  | .application _ _ items, h => by
    rcases List.mem_append.mp h with h | h
    · exact List.mem_append_left _ (List.mem_map_of_mem h)
    · exact List.mem_append_right _ (mem_definitionsAll_of_defined items h)

theorem mem_definitionsAll_of_defined {M : Handle} {v : String} :
    (xs : List Term) → v ∈ definedAll xs → (M, v) ∈ definitionsAll M xs
  | x :: xs, h => by
    rcases List.mem_append.mp h with h | h
    · exact List.mem_append_left _ (mem_definitions_of_defined x h)
    · exact List.mem_append_right _ (mem_definitionsAll_of_defined xs h)

end

/-- A word is renamed to a name, unless it is a keyword that nothing binds. -/
theorem isName_newName {u : Tree} {M : Handle} {v : String} (hv : IsSymbol v)
    (hbound : isKeyword v = false ∨ u.newName M v = Tree.scopedName M v) : IsName (u.newName M v) := by
  rcases hbound with hkeyword | hscoped
  · unfold Tree.newName
    cases u.resolve M v with
    | none => exact Or.inl ⟨hv, hkeyword⟩
    | some N => exact Or.inr ⟨N, v, hv, rfl⟩
  · exact Or.inr ⟨M, v, hv, hscoped⟩

mutual

/-- **The analysis gives every variable a name.** -/
theorem named_rename {u : Tree} (hs : u.ScopesAre u.Defines u.scopes) : (x : Term) → {names : List String} → {M : Handle} →
    {parent : Option Handle} → x.Placed u parent → x.Worded IsSymbol names → (∀ v ∈ names, u.newName M v = Tree.scopedName M v) →
    (∀ d ∈ x.definitions M, u.Defines d.1 d.2) → (x.rename u.newName M).Named
  | .atom a, _, _, _, _, hx, hnames, _ => by
    cases a with
    | «variable» v => exact isName_newName hx.1 (hx.2.imp_right (hnames v))
    | _ => exact hx
  | .string _ _, _, _, _, _, _, _, _ => trivial
  | .lambda h parameters body, _, _, _, hp, hx, _, hdefines => by
    have hscoped : ∀ v, v ∈ parameters ∨ v ∈ definedAll body → u.newName h v = Tree.scopedName h v := fun v hv =>
      hs.newName hp.1 (hv.imp_right fun hmem => hdefines _ (mem_definitionsAll_of_defined body hmem))
    refine ⟨fun p hmem => ?_, ?_⟩
    · obtain ⟨v, hv, rfl⟩ := List.mem_map.mp hmem
      exact isName_newName (hx.1 v hv) (Or.inr (hscoped v (Or.inl hv)))
    · exact named_renameAll hs body hp.2 hx.2 (fun v hv => hscoped v (Or.inr hv)) hdefines
  | .application _ _ items, _, _, _, hp, hx, hnames, hdefines =>
    named_renameAll hs items hp.2 hx hnames fun d hd => hdefines d (List.mem_append_right _ hd)

theorem named_renameAll {u : Tree} (hs : u.ScopesAre u.Defines u.scopes) : (xs : List Term) → {names : List String} →
    {M : Handle} → {parent : Option Handle} → PlacedAll u parent xs → WordedAll IsSymbol names xs →
    (∀ v ∈ names, u.newName M v = Tree.scopedName M v) → (∀ d ∈ definitionsAll M xs, u.Defines d.1 d.2) →
    NamedAll (renameAll u.newName M xs)
  | [], _, _, _, _, _, _, _ => trivial
  | x :: xs, _, _, _, hp, hx, hnames, hdefines =>
    ⟨named_rename hs x hp.1 hx.1 hnames fun d hd => hdefines d (List.mem_append_left _ hd),
      named_renameAll hs xs hp.2 hx.2 hnames fun d hd => hdefines d (List.mem_append_right _ hd)⟩

end

end Term

namespace Tree

open Term

/-- The terms of a program are worded, and so are those that hang nowhere. -/
theorem Holds.named {t : Tree} {body strays : List Term} (hh : t.Holds (.lambda Tree.top [] body :: strays))
    (hs : t.ScopesAre t.Defines t.scopes) (hbody : WordedAll IsSymbol (definedAll body) body)
    (hstrays : WordedAll IsSymbol (definedAll strays) strays) :
    NamedAll (renameAll t.newName Tree.top (.lambda Tree.top [] body :: strays)) := by
  have hdefines : ∀ d ∈ definitionsAll Tree.top body ++ definitionsAll Tree.top strays, t.Defines d.1 d.2 :=
    fun d hd => hh.defines_iff.mpr hd
  have htop : (Term.lambda Tree.top [] body).Worded IsSymbol [] := ⟨nofun, hbody⟩
  refine ⟨named_rename hs _ hh.placed.1 htop nofun fun d hd => hdefines d (List.mem_append_left _ hd), ?_⟩
  refine named_renameAll hs strays hh.placed.2 hstrays (fun v hv => hs.newName hh.placed.1.1 (Or.inr ?_)) fun d hd =>
    hdefines d (List.mem_append_right _ hd)
  exact hdefines (Tree.top, v) (List.mem_append_right _ (mem_definitionsAll_of_defined strays hv))

/-- **The names of an analysed source text**, and where they come from. -/
theorem exists_named {source : String} {t : Tree} (h : (Tree.parse source >>= Tree.analyse) = .ok t) :
    ∃ roots, t.Analysed roots ∧ NamedAll roots ∧
      ∀ key info, t.renamings.find? key = some info → key = scopedName info.owner info.written := by
  obtain ⟨v, hv, hanalyse⟩ := Except.bind_eq_ok.mp h
  obtain ⟨tokens, forms, hscan, hparse, rfl⟩ := parse_eq_ok.mp hv
  have hlegal := Form.legal_parse hparse
  have hspelt := Form.spelt_parse hscan hparse
  obtain ⟨body, strays, hholds, hbecome, hfresh⟩ := holds_ofForms hlegal
  have hbody : WordedAll IsSymbol (definedAll body) body := by
    rw [← wordedAll_blankAll, ← definedAll_blankAll, hbecome.sketch]
    exact Form.worded_sketchAll forms hspelt (List.Subset.refl _)
  have hstrays : WordedAll IsSymbol (definedAll strays) strays := by
    rw [← wordedAll_blankAll, ← definedAll_blankAll, hbecome.lost]
    exact Form.worded_sketchAll _ (Form.spelt_droppedAll forms hspelt) (List.Subset.refl _)
  obtain ⟨u, hu, hs, -, ha⟩ := hholds.analyse hfresh hanalyse
  have hheld : u.Holds (.lambda Tree.top [] body :: strays) := hholds.of_nodes hu
  refine ⟨_, ha, hheld.named hs hbody hstrays, fun key info hfind => ?_⟩
  obtain ⟨w, hw, -, rfl⟩ := hholds.analyse_eq_ok hfresh hanalyse
  have hnone : w.renamings = {} := by
    rw [hw]
    exact congrArg Tree.renamings (notes_ofForms hlegal)
  exact ((find?_renamings hnone).mp hfind).1

end Tree

end SchemeMachine
