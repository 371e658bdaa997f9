import SchemeMachine.Proofs.Syntax.Naming
import SchemeMachine.Proofs.Syntax.Printing

/-!
# Lexical scoping of a source text

The analysis renames what a lambda binds and notes every new name in a table, so that the program can be shown as it was
written. For this the new names must not be confused with names that were there before: `&0.x` is a word like any other.

* `Term.uses` lists the names in a term, each with the lambda around it. They are those that occur in the tree
  (`Tree.Holds.occurs_iff`).
* `Term.Literal` says that a term is data without holes; renaming leaves it as it is (`Term.rename_of_literal`).
* `Tree.Scoped` says of a name that it is spelled `&N.x`. Where no word of the text is, the table holds exactly the new
  names that are used (`Tree.find?_renamings_iff`), and gives back the names as they were written
  (`Tree.writtenName_newName`).
* `Tree.analyse_lexical` puts it together for a source text.
-/

namespace SchemeMachine

namespace Term

/-! ### The names in a term -/

mutual

/-- **The names in a term**, each with the lambda around it. A parameter stands in its own lambda; `M` is the lambda
around the term. -/
def uses (M : Handle) : Term → List (Handle × String)
  | .atom a =>
    match a with
    | .variable x => [(M, x)]
    | _ => []
  | .string _ _ => []
  | .lambda h parameters body => parameters.map (Prod.mk h) ++ usesAll h body
  | .application _ _ items => usesAll M items

/-- The names in several terms. -/
def usesAll (M : Handle) : List Term → List (Handle × String)
  | [] => []
  | x :: xs => uses M x ++ usesAll M xs

end

/-- The names in a program, as they are spelled. -/
def namesAll (body : List Term) : List String := (usesAll Tree.top body).map Prod.snd

mutual

theorem each_iff_uses {P : Handle → String → Prop} : (x : Term) → {M : Handle} →
    (x.Each P M ↔ ∀ u ∈ x.uses M, P u.1 u.2)
  | .atom a, M => by cases a <;> simp [Each, uses]
  | .string _ _, M => by simp [Each, uses]
  | .lambda h parameters body, M => by
    simp only [Each, uses, eachAll_iff_usesAll body, List.forall_mem_append, List.forall_mem_map]
  | .application _ _ items, M => eachAll_iff_usesAll items

theorem eachAll_iff_usesAll {P : Handle → String → Prop} : (xs : List Term) → {M : Handle} →
    (EachAll P M xs ↔ ∀ u ∈ usesAll M xs, P u.1 u.2)
  | [], M => by simp [EachAll, usesAll]
  | x :: xs, M => by
    rw [EachAll, usesAll, List.forall_mem_append, each_iff_uses x, eachAll_iff_usesAll xs]

end

mutual

/-- Renaming changes the names and not where they stand. -/
theorem uses_rename {new : Handle → String → String} : (x : Term) → {M : Handle} →
    (x.rename new M).uses M = (x.uses M).map fun u => (u.1, new u.1 u.2)
  | .atom a, M => by cases a <;> rfl
  | .string _ _, M => rfl
  | .lambda h parameters body, M => by
    rw [rename, uses, uses, usesAll_renameAll body, List.map_append, List.map_map, List.map_map]
    rfl
  | .application _ _ items, M => usesAll_renameAll items

theorem usesAll_renameAll {new : Handle → String → String} : (xs : List Term) → {M : Handle} →
    usesAll M (renameAll new M xs) = (usesAll M xs).map fun u => (u.1, new u.1 u.2)
  | [], M => rfl
  | x :: xs, M => by rw [renameAll, usesAll, usesAll, uses_rename x, usesAll_renameAll xs, List.map_append]

end

theorem mem_namesAll_renameAll {new : Handle → String → String} {body : List Term} {key : String} :
    key ∈ namesAll (renameAll new Tree.top body) ↔ ∃ M w, (M, w) ∈ usesAll Tree.top body ∧ new M w = key := by
  simp [namesAll, usesAll_renameAll]

/-- A variable among the children of a node is among the terms below it. -/
theorem mem_usesAll_of_child {M : Handle} {w : String} {xs : List Term}
    (h : w ∈ (xs.map child).filterMap Child.variableName?) : (M, w) ∈ usesAll M xs := by
  induction xs with
  | nil => cases h
  | cons x xs ih =>
    rw [List.map_cons, List.filterMap_cons] at h
    rw [usesAll, List.mem_append]
    cases x with
    | atom a =>
      cases a with
      | «variable» v =>
        rcases List.mem_cons.mp h with rfl | h
        · exact Or.inl List.mem_cons_self
        · exact Or.inr (ih h)
      | _ => exact Or.inr (ih h)
    | _ => exact Or.inr (ih h)

mutual

/-- **What occurs in a node of a term is a name in the term.** -/
theorem mem_uses_of_occurrence {t : Tree} {w : String} {j : Handle} (hw : w ∈ t.occurrences j) : (x : Term) →
    {parent : Option Handle} → {M : Handle} → {k : Nat} → x.Placed t parent → t.Encloses M parent k →
    k + x.handles.length ≤ t.size → j ∈ x.handles → (t.enclosingLambda j, w) ∈ x.uses M
  | .atom _, _, _, _, _, _, _, hj => nomatch hj
  | .string h content, _, _, _, hp, _, _, hj => by
    obtain rfl : j = h := by simpa [handles] using hj
    simp only [Tree.occurrences, show t.get? j = _ from hp] at hw
    cases hw
  | .lambda h parameters body, _, _, k, hp, _, hk, hj => by
    simp only [handles, List.length_cons] at hk
    have he := Tree.encloses_lambda hp.1
    rw [uses, List.mem_append]
    rcases List.mem_cons.mp hj with rfl | hj
    · simp only [Tree.occurrences, hp.1, List.mem_append] at hw
      rw [he.enclosingLambda (by omega)]
      exact hw.imp (fun hmem => List.mem_map_of_mem hmem) mem_usesAll_of_child
    · exact Or.inr (mem_usesAll_of_occurrence hw body hp.2 he (by omega) hj)
  | .application h quotation items, _, M, k, hp, he, hk, hj => by
    simp only [handles, List.length_cons] at hk
    have he' := he.application hp.1
    rcases List.mem_cons.mp hj with rfl | hj
    · simp only [Tree.occurrences, hp.1] at hw
      split at hw
      · cases hw
      · rw [he'.enclosingLambda (by omega)]
        exact mem_usesAll_of_child hw
    · exact mem_usesAll_of_occurrence hw items hp.2 he' (by omega) hj

theorem mem_usesAll_of_occurrence {t : Tree} {w : String} {j : Handle} (hw : w ∈ t.occurrences j) : (xs : List Term) →
    {parent : Option Handle} → {M : Handle} → {k : Nat} → PlacedAll t parent xs → t.Encloses M parent k →
    k + (handlesAll xs).length ≤ t.size → j ∈ handlesAll xs → (t.enclosingLambda j, w) ∈ usesAll M xs
  | [], _, _, _, _, _, _, hj => nomatch hj
  | x :: xs, _, _, k, hp, he, hk, hj => by
    simp only [handlesAll, List.length_append] at hk
    rw [usesAll, List.mem_append]
    exact (List.mem_append.mp hj).imp (mem_uses_of_occurrence hw x hp.1 he (by omega))
      (mem_usesAll_of_occurrence hw xs hp.2 he (by omega))

end

mutual

/-- What is known of the words of a term is known of its names. -/
theorem Worded.each {P : String → Prop} : (x : Term) → {names : List String} → {M : Handle} → x.Worded P names →
    x.Each (fun _ w => P w) M
  | .atom a, _, _, h => by
    rintro w rfl
    exact h.1
  | .string _ _, _, _, _ => trivial
  | .lambda _ _ body, _, _, h => ⟨h.1, WordedAll.each body h.2⟩
  | .application _ _ items, _, _, h => WordedAll.each items h

theorem WordedAll.each {P : String → Prop} : (xs : List Term) → {names : List String} → {M : Handle} →
    WordedAll P names xs → EachAll (fun _ w => P w) M xs
  | [], _, _, _ => trivial
  | x :: xs, _, _, h => ⟨Worded.each x h.1, WordedAll.each xs h.2⟩

end

/-! ### Data -/

mutual

/-- **Data without holes**: there is no variable in them, no lambda and nothing unquoted. -/
def Literal : Term → Prop
  | .atom a => a.isDatum = true
  | .string _ _ => True
  | .lambda _ _ _ => False
  | .application _ quotation items => quotation ≠ .unquote ∧ LiteralAll items

/-- Several data without holes. -/
def LiteralAll : List Term → Prop
  | [] => True
  | x :: xs => Literal x ∧ LiteralAll xs

end

mutual

/-- **Data are not renamed.** -/
theorem rename_of_literal {new : Handle → String → String} : (x : Term) → {M : Handle} → x.Literal → x.rename new M = x
  | .atom a, _, h => by cases a <;> first | rfl | cases h
  | .string _ _, _, _ => rfl
  | .application _ _ items, _, h => by rw [rename, renameAll_of_literal items h.2]

theorem renameAll_of_literal {new : Handle → String → String} : (xs : List Term) → {M : Handle} → LiteralAll xs →
    renameAll new M xs = xs
  | [], _, _ => rfl
  | x :: xs, _, h => by rw [renameAll, rename_of_literal x h.1, renameAll_of_literal xs h.2]

end

mutual

/-- How a term is renamed depends on the names in it. -/
theorem rename_congr {f g : Handle → String → String} : (x : Term) → {M : Handle} →
    x.Each (fun M w => f M w = g M w) M → x.rename f M = x.rename g M
  | .atom a, _, h => by
    cases a with
    | «variable» w => rw [rename, rename, h w rfl]
    | _ => rfl
  | .string _ _, _, _ => rfl
  | .lambda h parameters body, _, heach => by
    rw [rename, rename, renameAll_congr body heach.2, List.map_congr_left heach.1]
  | .application _ _ items, _, heach => by rw [rename, rename, renameAll_congr items heach]

theorem renameAll_congr {f g : Handle → String → String} : (xs : List Term) → {M : Handle} →
    EachAll (fun M w => f M w = g M w) M xs → renameAll f M xs = renameAll g M xs
  | [], _, _ => rfl
  | x :: xs, _, heach => by rw [renameAll, renameAll, rename_congr x heach.1, renameAll_congr xs heach.2]

end

/-- A part of a term is renamed where it stands. -/
theorem Sub.rename {new : Handle → String → String} {x y : Term} (h : Sub x y) {M : Handle} :
    ∃ N, Sub (x.rename new N) (y.rename new M) := by
  induction h generalizing M with
  | refl => exact ⟨M, .refl _⟩
  | @body y h parameters body hy _ ih =>
    obtain ⟨N, hN⟩ := ih (M := h)
    refine ⟨N, ?_⟩
    rw [Term.rename]
    refine .body ?_ hN
    rw [renameAll_eq]
    exact List.mem_map_of_mem hy
  | @item y h quotation items hy _ ih =>
    obtain ⟨N, hN⟩ := ih (M := M)
    refine ⟨N, ?_⟩
    rw [Term.rename]
    refine .item ?_ hN
    rw [renameAll_eq]
    exact List.mem_map_of_mem hy

end Term

namespace Tree

open Term

variable {t t' : Tree} {body : List Term}

/-! ### The table of renamings -/

/-- **A name as the analysis spells it**: `&N.x`, for a lambda `N` and a name `x`. -/
def Scoped (name : String) (N : Handle) (x : String) : Prop := x ≠ "" ∧ name = scopedName N x

theorem not_scoped {name : String} (hname : name.toList.head? ≠ some '&') (N : Handle) (x : String) :
    ¬Scoped name N x := by
  rintro ⟨-, rfl⟩
  exact hname (by simp [scopedName, Handle.label])

/-- **What occurs in the tree of a program is what its terms name.** -/
theorem Holds.occurs_iff (hh : t.Holds [.lambda Tree.top [] body]) {M : Handle} {w : String} :
    Occurs t M w ↔ (M, w) ∈ usesAll Tree.top body := by
  constructor
  · rintro ⟨h, hh', hw, rfl⟩
    -- the handles are all those of the tree, so that any node may be looked up
    have hsize : 0 + (handlesAll [.lambda Tree.top [] body]).length ≤ t.size := by
      rw [hh.handles.length_eq, List.length_range, Nat.zero_add]
    have hmem := mem_usesAll_of_occurrence (M := Tree.top) hw _ hh.placed rfl hsize (hh.handles.mem_iff.mpr hh')
    simpa [usesAll, uses] using hmem
  · intro hmem
    exact (eachAll_iff_usesAll body).mp hh.occurs (M, w) hmem

section Table

/-! `t` is a tree with its scopes, before the renaming. None of its names looks like a new one. -/

variable (hh : t.Holds [.lambda Tree.top [] body]) (hnone : t.renamings = {})
  (hplain : EachAll (fun _ w => w ≠ "" ∧ ∀ N x, ¬Scoped w N x) Tree.top body)

include hh hnone hplain

/-- **The table holds the new names that are used**, each with its binder and the name that was written. -/
theorem find?_renamings_iff {key : String} {info : VariableInfo} :
    t.renameVariables.renamings.find? key = some info ↔
      Scoped key info.owner info.written ∧ key ∈ namesAll (renameAll t.newName Tree.top body) := by
  rw [eachAll_iff_usesAll] at hplain
  rw [find?_renamings hnone, mem_namesAll_renameAll]
  constructor
  · rintro ⟨rfl, M, hoccurs, hresolve⟩
    have hmem := hh.occurs_iff.mp hoccurs
    exact ⟨⟨(hplain _ hmem).1, rfl⟩, M, info.written, hmem, by rw [newName, hresolve]⟩
  · rintro ⟨⟨hne, rfl⟩, M, w, hmem, hnew⟩
    refine ⟨rfl, M, ?_⟩
    rw [newName] at hnew
    -- a name that stays has the look of a new one, which none of the tree has
    split at hnew
    · exact absurd ⟨hne, hnew⟩ ((hplain _ hmem).2 _ _)
    · next N hresolve =>
      obtain ⟨rfl, rfl⟩ := scopedName_inj hnew
      exact ⟨hh.occurs_iff.mpr hmem, hresolve⟩

/-- **The table gives back the name that was written.** -/
theorem writtenName_newName :
    EachAll (fun M w => t.renameVariables.writtenName (t.newName M w) = w) Tree.top body := by
  have hfind := @find?_renamings_iff t body hh hnone hplain
  rw [eachAll_iff_usesAll] at hplain ⊢
  rintro ⟨M, w⟩ hmem
  rw [writtenName]
  cases hresolve : t.resolve M w with
  | none =>
    -- the name stays, and no entry can be for it
    have hnew : t.newName M w = w := by rw [newName, hresolve]
    cases hentry : t.renameVariables.renamings.find? w with
    | none => rw [hnew, hentry]; rfl
    | some info => exact absurd (hfind.mp hentry).1 ((hplain _ hmem).2 _ _)
  | some N =>
    have hnew : t.newName M w = scopedName N w := by rw [newName, hresolve]
    have hentry : t.renameVariables.renamings.find? (scopedName N w) = some ⟨N, w⟩ := by
      exact hfind.mpr ⟨⟨(hplain _ hmem).1, rfl⟩, mem_namesAll_renameAll.mpr ⟨M, w, hmem, hnew⟩⟩
    rw [hnew, hentry]
    rfl

/-- **A renamed program is shown as it was written.** -/
theorem renderProgram_writtenName (hh' : t'.Holds [.lambda Tree.top [] (renameAll t.newName Tree.top body)])
    (htable : t'.renamings = t.renameVariables.renamings) : t'.renderProgram t'.writtenName = t.renderProgram id := by
  have hname : t'.writtenName = t.renameVariables.writtenName := by
    funext name
    rw [writtenName, writtenName, htable]
  rw [hname, hh'.renderProgram_rename, hh.renderProgram_eq, renameAll_renameAll,
    renameAll_congr (g := fun _ => id) body (writtenName_newName hh hnone hplain), renameAll_self]

end Table

/-! ### The result for a source text -/

/-- **Scope analysis is lexical scoping.** In a text without words such as `&0.x` and without clauses after an `else`
clause, every name that a lambda around it binds comes under the handle of the nearest such lambda, and every other name
stays. Data stay as well. The table of renamings holds the new names that are used, each for one binder and one name, and
with it the program is shown as it was before. -/
theorem analyse_lexical {source : String} {tokens : List Token} {forms : List Form} {t' : Tree}
    (hscan : Token.scan source = .ok tokens) (hparse : Form.parse tokens = .ok forms)
    (hanalyse : (ofForms forms).analyse = .ok t')
    (hwords : ∀ tok ∈ tokens, ∀ w, tok.kind = .symbol w → ∀ N x, ¬Scoped w N x) (htrim : Form.TrimAll forms) :
    ∃ body renamed, (ofForms forms).Holds [.lambda top [] body] ∧ t'.Holds [.lambda top [] renamed] ∧
      renamed = respellAll scopedName (outermost (definedAll body) scopedName id) [] body ∧
      (∀ x : Term, x.Literal → Sub x (.lambda top [] body) → Sub x (.lambda top [] renamed)) ∧
      (∀ key info, t'.renamings.find? key = some info ↔
        Scoped key info.owner info.written ∧ key ∈ namesAll renamed) ∧
      (∀ M N x y, scopedName M x = scopedName N y → M = N ∧ x = y) ∧
      t'.renderProgram t'.writtenName = (ofForms forms).renderProgram (ofForms forms).writtenName := by
  have hlegal := Form.legal_parse hparse
  obtain ⟨body, strays, hholds, hbecome, hfresh⟩ := holds_ofForms hlegal
  -- without clauses after an else clause there are no strays
  obtain rfl := hbecome.trim htrim
  have hnone : (ofForms forms).renamings = {} := congrArg Tree.renamings (notes_ofForms hlegal)
  have hspelt : Form.SpeltAll (fun w => w ≠ "" ∧ ∀ N x, ¬Scoped w N x) forms := by
    refine Form.spelt_parse_of ?_ hscan (fun tok htok w hw => ⟨?_, hwords tok htok w hw⟩) hparse
    · exact ⟨⟨by decide, not_scoped (by decide)⟩, ⟨by decide, not_scoped (by decide)⟩, by decide, not_scoped (by decide)⟩
    · obtain ⟨c, cs, hchars, -⟩ := (Token.isSymbol_of_scan hscan tok htok w hw).word.starts
      rintro rfl
      cases hchars
  -- what is named in the tree is named in the text, or is one of the words that the parser puts in
  have hplain : EachAll (fun _ w => w ≠ "" ∧ ∀ N x, ¬Scoped w N x) top body := by
    have hworded : WordedAll (fun w => w ≠ "" ∧ ∀ N x, ¬Scoped w N x) (definedAll body) body := by
      rw [← wordedAll_blankAll, ← definedAll_blankAll, hbecome.sketch]
      exact Form.worded_sketchAll forms hspelt (List.Subset.refl _)
    exact WordedAll.each body hworded
  -- the scopes are found first, and the renaming goes by them
  obtain ⟨u, hu, hs, rfl⟩ := hholds.analyse_eq_ok hfresh hanalyse
  have hheld := hholds.of_scopes hu
  have hnone' : u.renamings = {} := by rw [hu]; exact hnone
  have hsame : renameAll u.newName top body = _ := hheld.renameAll_newName hs
  have hheld' := hholds.analyse_respell hfresh hanalyse
  refine ⟨body, _, hholds, hheld', rfl, fun x hx hsub => ?_, fun key info => ?_, fun M N x y => scopedName_inj, ?_⟩
  · obtain ⟨N, hsub⟩ : ∃ N, Sub (x.rename u.newName N) ((Term.lambda top [] body).rename u.newName top) := hsub.rename
    rw [rename_of_literal x hx, rename, hsame] at hsub
    exact hsub
  · rw [← hsame]
    exact find?_renamings_iff hheld hnone' hplain
  · have hwritten : (ofForms forms).writtenName = id := by
      funext name
      rw [writtenName, hnone]
      rfl
    rw [hwritten, hholds.renderProgram_eq, ← hheld.renderProgram_eq]
    rw [← hsame] at hheld'
    exact renderProgram_writtenName hheld hnone' hplain hheld' rfl

/-- A procedure that names what it defines further down, as it is written. -/
def lateText : String := "(define (f y) (cond (y `(x ,x)) (else (define x z) x)))"

/-- The words of the procedure. -/
def lateTokens : List Token :=
  [⟨.open, 0, 1, 1, 1⟩, ⟨.symbol "define", 1, 7, 1, 2⟩, ⟨.open, 8, 9, 1, 9⟩, ⟨.symbol "f", 9, 10, 1, 10⟩,
    ⟨.symbol "y", 11, 12, 1, 12⟩, ⟨.close, 12, 13, 1, 13⟩, ⟨.open, 14, 15, 1, 15⟩, ⟨.symbol "cond", 15, 19, 1, 16⟩,
    ⟨.open, 20, 21, 1, 21⟩, ⟨.symbol "y", 21, 22, 1, 22⟩, ⟨.quasiquote, 23, 24, 1, 24⟩, ⟨.open, 24, 25, 1, 25⟩,
    ⟨.symbol "x", 25, 26, 1, 26⟩, ⟨.unquote, 27, 28, 1, 28⟩, ⟨.symbol "x", 28, 29, 1, 29⟩, ⟨.close, 29, 30, 1, 30⟩,
    ⟨.close, 30, 31, 1, 31⟩, ⟨.open, 32, 33, 1, 33⟩, ⟨.symbol "else", 33, 37, 1, 34⟩, ⟨.open, 38, 39, 1, 39⟩,
    ⟨.symbol "define", 39, 45, 1, 40⟩, ⟨.symbol "x", 46, 47, 1, 47⟩, ⟨.symbol "z", 48, 49, 1, 49⟩,
    ⟨.close, 49, 50, 1, 50⟩, ⟨.symbol "x", 51, 52, 1, 52⟩, ⟨.close, 52, 53, 1, 53⟩, ⟨.close, 53, 54, 1, 54⟩,
    ⟨.close, 54, 55, 1, 55⟩, ⟨.endOfText, 55, 55, 1, 56⟩]

/-- The form that the procedure is read as. -/
def lateForms : List Form :=
  [.procedure ⟨0, 1, 1, 1⟩ ⟨0, 55, 1, 1⟩ "f" ["y"]
    [.clause ⟨20, 21, 1, 21⟩ (some (.atom (.variable "y")))
      [.group .quasiquote ⟨23, 30, 1, 25⟩
        [.atom (.symbol "x"), .group .unquote ⟨27, 28, 1, 28⟩ [.atom (.variable "x")]]]
      (some (.clause ⟨32, 33, 1, 33⟩ none
        [.group .code ⟨38, 50, 1, 39⟩ [.atom (.keyword "define"), .atom (.variable "x"), .atom (.variable "z")],
          .atom (.variable "x")] none))]]

/-- A name is used in a hole before it is defined in the same lambda, next to a symbol of the same spelling. -/
theorem analyse_lexical_late :
    ∃ t', (ofForms lateForms).analyse = .ok t' ∧
      ∃ body renamed, (ofForms lateForms).Holds [.lambda top [] body] ∧ t'.Holds [.lambda top [] renamed] ∧
        renamed = respellAll scopedName (outermost (definedAll body) scopedName id) [] body ∧
        (∀ x : Term, x.Literal → Sub x (.lambda top [] body) → Sub x (.lambda top [] renamed)) ∧
        (∀ key info, t'.renamings.find? key = some info ↔
          Scoped key info.owner info.written ∧ key ∈ namesAll renamed) ∧
        (∀ M N x y, scopedName M x = scopedName N y → M = N ∧ x = y) ∧
        t'.renderProgram t'.writtenName = (ofForms lateForms).renderProgram (ofForms lateForms).writtenName := by
  have hscan : Token.scan lateText = .ok lateTokens := by decide +kernel
  have hanalysed : ((ofForms lateForms).analyse).toOption.isSome = true := by decide
  have hwords : ∀ tok ∈ lateTokens, ∀ w, tok.kind = .symbol w → ∀ N x, ¬Scoped w N x := by
    have hheads : ∀ tok ∈ lateTokens, ∀ w ∈ Grammar.nextSymbol? [tok], w.toList.head? ≠ some '&' := by decide
    intro tok htok w hw
    refine not_scoped (hheads tok htok w ?_)
    rw [Grammar.nextSymbol?, show Grammar.nextKind [tok] = tok.kind from rfl, hw]
    rfl
  cases hanalyse : (ofForms lateForms).analyse with
  | error e => rw [hanalyse] at hanalysed; cases hanalysed
  | ok t' =>
    refine ⟨t', rfl, analyse_lexical hscan rfl hanalyse hwords ?_⟩
    simp [lateForms, Form.TrimAll, Form.Trim, Form.TrimOption]

end Tree

end SchemeMachine
