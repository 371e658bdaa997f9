import SchemeMachine.Proofs.Lowering.Retelling
import SchemeMachine.Proofs.Syntax.Elsewhere
import SchemeMachine.Proofs.Syntax.Scope

/-!
# Trees of the same text

The nodes of a form whose nodes come in the order of the text can be told from its sketch. Trees of forms with the same
sketches are therefore the same, but for the places of their nodes, and these matter to errors alone.

* `Term.plant` adds the nodes of a sketch to a tree, `Form.build_eq_plant` says that building a form does the same.
* `Tree.respan` is a tree with its nodes in other places, and `Tree.ofForms_eq` the result for the tree of a program.
* `Tree.analyse_respan` and `Tree.compile_respan`: neither the analysis nor the program depends on the places.
-/

namespace SchemeMachine

open Term

/-! ### Nodes in the order of the text -/

namespace Term

mutual

/-- **Add the nodes of a term to a tree**, in the order of the text; the answer is what stands for it in its parent. -/
def plant : Term → Tree → Child × Tree
  | .atom a, t => (.atom a, t)
  | .string _ content, t => (.node t.size, (t.alloc (.string none content)).2)
  | .lambda _ parameters body, t => (.node t.size, plantInto t.size body (t.alloc (.lambda none parameters [])).2)
  | .application _ quotation items, t =>
    (.node t.size, plantInto t.size items (t.alloc (Node.freshApplication none quotation)).2)

/-- Add the nodes of terms below a node, one after the other. -/
def plantInto (h : Handle) : List Term → Tree → Tree
  | [], t => t
  | x :: xs, t => plantInto h xs ((plant x t).2.pushChild h (plant x t).1)

end

end Term

namespace Form

variable {t u : Tree}

theorem nodes_pushChild (h : t.nodes = u.nodes) (k : Handle) (c : Child) :
    (t.pushChild k c).nodes = (u.pushChild k c).nodes := by
  cases c with
  | atom a => simp only [Tree.pushChild, Tree.modify, h]
  | node j => simp only [Tree.pushChild, Tree.modify, h]

/-- A node that is new can be changed before it is added. -/
theorem modify_alloc (t : Tree) (n : Node) (f : Node → Node) : (t.alloc n).2.modify t.size f = (t.alloc (f n)).2 := by
  have hnodes : (t.nodes.push n).modify t.nodes.size f = t.nodes.push (f n) := by
    refine Array.ext (by simp) fun i _ hi => ?_
    simp only [Array.size_push] at hi
    rw [Array.getElem_modify, Array.getElem_push, Array.getElem_push]
    by_cases hlt : i < t.nodes.size
    · simp [hlt, Nat.ne_of_gt hlt]
    · have hlast : i = t.nodes.size := by omega
      simp [hlast]
  simp only [Tree.alloc, Tree.modify, Tree.size, hnodes]

/-- The parameters of a lambda that is new. -/
theorem addParameters_alloc (t : Tree) (names : List String) :
    addParameters t.size names (t.alloc (Node.freshLambda none)).2 = (t.alloc (.lambda none (distinct names) [])).2 := by
  have hfold : ∀ seen : List String, addParameters t.size names (t.alloc (.lambda none seen [])).2 =
      (t.alloc (.lambda none (names.foldl (fun seen name => if name ∈ seen then seen else seen ++ [name]) seen) [])).2 := by
    induction names with
    | nil => exact fun seen => rfl
    | cons name names ih =>
      intro seen
      rw [List.foldl_cons, ← ih, addParameters, List.foldl_cons, Tree.addParameter, modify_alloc]
      rfl
  exact hfold []

/-- The places of nodes are kept beside the nodes. -/
theorem setSpan_nodes (t : Tree) (k : Handle) (s : Span) : (t.setSpan k s).nodes = t.nodes := rfl

theorem alloc_congr (h : t.nodes = u.nodes) (n : Node) : t.size = u.size ∧ (t.alloc n).2.nodes = (u.alloc n).2.nodes := by
  simp only [Tree.size, Tree.alloc, h, true_and]

/-! ### Forms without nodes -/

theorem eq_of_sketchSequence {xs : List Term} {a : Atom} (h : sketchSequence xs = .atom a) : xs = [.atom a] := by
  unfold sketchSequence at h
  split at h
  · rw [h]
  · cases h

mutual

/-- **A form that becomes an atom makes no nodes.** -/
theorem build_of_atom : (f : Form) → f.Trim → {a : Atom} → f.sketch = .atom a → (t : Tree) → f.build t = (.atom a, t)
  | .atom b, _, a, h, t => by
    rw [Term.atom.inj h, build]
  | .clause s none body rest, htrim, a, h, t => by
    have hbody : sketchAll body = [a].map .atom := eq_of_sketchSequence h
    obtain rfl : rest = none := Option.isNone_iff_eq_none.mp (htrim.2.2.2 rfl)
    have hbuild : buildAll body t = ([a].map Child.atom, t) := buildAll_of_atoms body htrim.2.1 hbody t
    simp only [build, buildOption, hbuild, List.map_cons, List.map_nil, sequence]
  | .clause _ (some _) _ _, _, _, h, _ => nomatch h
  | .string .., _, _, h, _ | .group .., _, _, h, _ | .lambda .., _, _, h, _ | .procedure .., _, _, h, _
  | .letIn _ _ none .., _, _, h, _ | .letIn _ _ (some _) .., _, _, h, _ => nomatch h

theorem buildAll_of_atoms : (fs : List Form) → TrimAll fs → {atoms : List Atom} → sketchAll fs = atoms.map .atom →
    (t : Tree) → buildAll fs t = (atoms.map Child.atom, t)
  | [], _, [], _, _ => rfl
  | f :: fs, htrim, a :: atoms, h, t => by
    obtain ⟨hfirst, hothers⟩ := List.cons.inj h
    simp only [buildAll, build_of_atom f htrim.1 hfirst, buildAll_of_atoms fs htrim.2 hothers, List.map_cons]
  | [], _, _ :: _, h, _ => nomatch h
  | _ :: _, _, [], h, _ => nomatch h

end

theorem buildOption_of_atoms {o : Option Form} (htrim : TrimOption o) {atoms : List Atom}
    (h : (sketchOption o).toList = atoms.map .atom) (t : Tree) :
    ∃ c : Option Child, buildOption o t = (c, t) ∧ c.toList = atoms.map Child.atom := by
  cases o with
  | none =>
    have hnone : atoms = [] := List.map_eq_nil_iff.mp h.symm
    exact ⟨none, rfl, by rw [hnone]; rfl⟩
  | some f =>
    obtain ⟨a, hone, hfirst⟩ := List.map_eq_singleton_iff.mp h.symm
    rw [buildOption, build_of_atom f htrim hfirst.symm t, hone]
    exact ⟨some (.atom a), rfl, rfl⟩

theorem pushAll_eq_plantInto (atoms : List Atom) {t u : Tree} (h : t.nodes = u.nodes) (k : Handle) :
    (pushAll k (atoms.map Child.atom) t).nodes = (plantInto k (atoms.map .atom) u).nodes := by
  induction atoms generalizing t u with
  | nil => exact h
  | cons a atoms ih => exact ih (nodes_pushChild h k (.atom a))

/-! ### Forms with nodes -/

mutual

/-- **The nodes of a form are those of its sketch**, if they come in the order of the text. -/
theorem build_eq_plant : (f : Form) → f.Plain → {t u : Tree} → t.nodes = u.nodes →
    (f.build t).1 = (f.sketch.plant u).1 ∧ (f.build t).2.nodes = (f.sketch.plant u).2.nodes
  | .atom _, _, _, _, h => ⟨rfl, h⟩
  | .string _ content, _, _, _, h => by
    obtain ⟨hsize, hnodes⟩ := alloc_congr h (.string none content)
    exact ⟨congrArg Child.node hsize, hnodes⟩
  | .group quotation _ items, hplain, _, _, h => by
    obtain ⟨hsize, hnodes⟩ := alloc_congr h (Node.freshApplication none quotation)
    refine ⟨congrArg Child.node hsize, ?_⟩
    rw [sketch, plant, ← hsize]
    exact buildInto_eq_plantInto items hplain hnodes _
  | .lambda _ parameters body, hplain, t, _, h => by
    obtain ⟨hsize, hnodes⟩ := alloc_congr h (.lambda none (distinct parameters) [])
    refine ⟨congrArg Child.node hsize, ?_⟩
    rw [sketch, plant, ← hsize]
    rw [← addParameters_alloc] at hnodes
    exact buildInto_eq_plantInto body hplain hnodes _
  | .procedure _ _ name parameters body, hplain, t, u, h => by
    obtain ⟨hsize, hnodes⟩ := alloc_congr h (Node.freshApplication none .code)
    refine ⟨congrArg Child.node hsize, ?_⟩
    -- the words are hung below the definition before its lambda is made
    have hwords := nodes_pushChild (nodes_pushChild hnodes t.size (.atom (.keyword "define"))) t.size
      (.atom (.variable name))
    obtain ⟨hlambda, hadded⟩ := alloc_congr hwords (.lambda none (distinct parameters) [])
    rw [← addParameters_alloc] at hadded
    have hbody := fun k => nodes_pushChild (buildInto_eq_plantInto body hplain hadded k) t.size (.node k)
    simp only [sketch, plant, plantInto, ← hsize, ← hlambda]
    exact hbody _
  | .letIn s bodySpan name names initials body, hplain, t, u, h => by
    obtain ⟨rfl, ⟨htrim, atoms, hatoms⟩, hplain⟩ := hplain
    obtain ⟨hsize, hnodes⟩ := alloc_congr h (Node.freshApplication none .code)
    refine ⟨congrArg Child.node hsize, ?_⟩
    obtain ⟨hlambda, hadded⟩ := alloc_congr hnodes (.lambda none (distinct names) [])
    rw [← addParameters_alloc] at hadded
    have hbody := fun k => show (((buildInto k body _).setSpan k bodySpan).setSpan t.size s).nodes = _ from
      buildInto_eq_plantInto body hplain hadded k
    -- the initial values are hung behind the lambda
    have hall := fun k => pushAll_eq_plantInto atoms (nodes_pushChild (hbody k) t.size (.node k)) t.size
    simp only [build, buildAll_of_atoms initials htrim hatoms, sketch, sketchLet, hatoms, plant, plantInto, ← hsize,
      ← hlambda, Tree.alloc_fst, pushAll, List.foldl_cons]
    exact hall (t.alloc (Node.freshApplication none .code)).2.size
  | .clause s none body rest, hplain, _, _, _ => nomatch hplain.1
  | .clause s (some test) body rest, hplain, t, u, h => by
    obtain ⟨-, htrim, atoms, hatoms⟩ := hplain
    obtain ⟨hsize, hnodes⟩ := alloc_congr h (Node.freshApplication none .code)
    obtain ⟨-, -, hitems⟩ := Term.application.inj hatoms
    obtain ⟨word, others, rfl, hword, hothers⟩ := List.map_eq_cons_iff.mp hitems.symm
    obtain ⟨a, others, rfl, htest, hothers⟩ := List.map_eq_cons_iff.mp hothers
    obtain ⟨b, others, rfl, hbody, hrest⟩ := List.map_eq_cons_iff.mp hothers
    obtain rfl := Term.atom.inj hword
    have hbody' : sketchAll body = [b].map .atom := eq_of_sketchSequence hbody.symm
    obtain ⟨c, hc, hchildren⟩ := buildOption_of_atoms htrim.2.2.1 hrest.symm t
    simp only [build, buildOption, build_of_atom test htrim.1 htest.symm, buildAll_of_atoms body htrim.2.1 hbody', hc,
      List.map_cons, List.map_nil, sequence, application, hchildren, hatoms, plant, ← hsize, setSpan_nodes]
    exact ⟨rfl, pushAll_eq_plantInto (.keyword "if" :: a :: b :: others) hnodes t.size⟩

theorem buildInto_eq_plantInto : (fs : List Form) → PlainAll fs → {t u : Tree} → t.nodes = u.nodes → (h : Handle) →
    (buildInto h fs t).nodes = (plantInto h (sketchAll fs) u).nodes
  | [], _, _, _, h, _ => h
  | f :: fs, hplain, t, u, h, k => by
    obtain ⟨hchild, hnodes⟩ := build_eq_plant f hplain.1 h
    rw [buildInto, sketchAll, plantInto, ← hchild]
    exact buildInto_eq_plantInto fs hplain.2 (nodes_pushChild hnodes k _) k

end

end Form

/-! ### Places -/

namespace Tree

/-- The tree with its nodes in other places of a text. -/
def respan (spans : Table Handle Span) (t : Tree) : Tree := { t with spans }

variable (spans : Table Handle Span) (t : Tree)

@[simp] theorem get?_respan (h : Handle) : (t.respan spans).get? h = t.get? h := rfl

@[simp] theorem handles_respan : (t.respan spans).handles = t.handles := rfl

@[simp] theorem enclosingLambda_respan (h : Handle) : (t.respan spans).enclosingLambda h = t.enclosingLambda h :=
  enclosingLambda_congr (show (t.respan spans).nodes = t.nodes from rfl) h

@[simp] theorem isQuoted_respan (h : Handle) : (t.respan spans).isQuoted h = t.isQuoted h := by
  have hfrom : ∀ fuel h, (t.respan spans).isQuotedFrom fuel h = t.isQuotedFrom fuel h := by
    intro fuel
    induction fuel with
    | zero => exact fun h => rfl
    | succ fuel ih =>
      intro h
      simp only [isQuotedFrom, get?_respan, ih]
  exact hfrom (t.size + 1) h

@[simp] theorem resolve_respan (h : Handle) (name : String) : (t.respan spans).resolve h name = t.resolve h name := by
  have hfrom : ∀ fuel h, (t.respan spans).resolveFrom name fuel h = t.resolveFrom name fuel h := by
    intro fuel
    induction fuel with
    | zero => exact fun h => rfl
    | succ fuel ih =>
      intro h
      simp only [resolveFrom, ih]
      rfl
  exact hfrom (t.scopes.size + 1) h

theorem scopeTable_respan : (t.respan spans).scopeTable = t.scopeTable := by
  have hscope (h : Handle) : (t.respan spans).parameterScope h = t.parameterScope h := by
    have henclosing : (t.respan spans).enclosingLambda = t.enclosingLambda := funext (enclosingLambda_respan spans t)
    simp only [parameterScope, get?_respan, henclosing]
  simp only [scopeTable, hscope]
  rfl

theorem definitions_respan {ds : List (Handle × String)} (h : t.definitions = .ok ds) :
    (t.respan spans).definitions = .ok ds := by
  have hone (h : Handle) {d : Option (Handle × String)} (hd : t.definition? h = .ok d) :
      (t.respan spans).definition? h = .ok d := by
    unfold definition? at hd ⊢
    rw [get?_respan, enclosingLambda_respan]
    split at hd
    · split at hd
      · exact hd
      · cases hd
    · exact hd
  obtain ⟨os, hos, h⟩ := Except.bind_eq_ok.mp h
  have hothers : t.handles.mapM (t.respan spans).definition? = .ok os :=
    mapM_eq_ok.mpr ((mapM_eq_ok.mp hos).imp fun h _ hd => hone h hd)
  rw [definitions, handles_respan, hothers]
  exact h

theorem renameVariables_respan : (t.respan spans).renameVariables = t.renameVariables.respan spans := by
  have hnew : (t.respan spans).newName = t.newName := by
    funext h name
    simp only [newName, resolve_respan]
  have hchild : (t.respan spans).renameChild = t.renameChild := by
    funext h c
    cases c with
    | atom a => cases a <;> simp only [renameChild, hnew]
    | node h => rfl
  have hnode : (t.respan spans).renameNode = t.renameNode := by
    funext h n
    cases n <;> simp only [renameNode, hnew, hchild, isQuoted_respan, enclosingLambda_respan]
  have hentry : (t.respan spans).renamingOf? = t.renamingOf? := by
    funext h name
    simp only [renamingOf?, resolve_respan]
  have hoccurrences : (t.respan spans).occurrences = t.occurrences := by
    funext h
    simp only [occurrences, get?_respan, isQuoted_respan]
  simp only [renameVariables, hnode, hentry, hoccurrences, enclosingLambda_respan]
  rfl

theorem markTailCalls_respan : (t.respan spans).markTailCalls = t.markTailCalls.respan spans := by
  have hbelow : ∀ fuel c, (t.respan spans).tailCallsBelow fuel c = t.tailCallsBelow fuel c := by
    intro fuel
    induction fuel with
    | zero => exact fun c => rfl
    | succ fuel ih =>
      intro c
      cases c with
      | atom a => rfl
      | node h => simp only [tailCallsBelow, get?_respan, funext ih]
  have htails : (t.respan spans).tailCallsOf = t.tailCallsOf := by
    funext h
    have hsize : (t.respan spans).size = t.size := rfl
    have hbody : (t.respan spans).bodyOf h = t.bodyOf h := rfl
    simp only [tailCallsOf, hbody, hsize, funext (hbelow _)]
  simp only [markTailCalls, htails]
  rfl

/-- **The analysis of a tree does not depend on the places of its nodes.** -/
theorem analyse_respan {t t' : Tree} (h : t.analyse = .ok t') : (t.respan spans).analyse = .ok (t'.respan spans) := by
  unfold analyse at h ⊢
  unfold resolveScopes at h ⊢
  by_cases hanalysed : t.analysed
  · have hsame : (t.respan spans).analysed = true := hanalysed
    rw [if_pos hanalysed] at h
    rw [if_pos hsame]
    cases h
    exact congrArg Except.ok (markTailCalls_respan spans t)
  · have hsame : ¬ (t.respan spans).analysed = true := hanalysed
    rw [if_neg hanalysed] at h
    rw [if_neg hsame]
    dsimp only at h ⊢
    cases hds : t.definitions with
    | error e =>
      rw [hds] at h
      cases h
    | ok ds =>
      rw [hds] at h
      cases h
      rw [definitions_respan spans t hds, scopeTable_respan]
      exact congrArg Except.ok ((congrArg markTailCalls (renameVariables_respan spans
        { t with scopes := ds.foldl bindDefinition t.scopeTable })).trans (markTailCalls_respan spans _))

/-- **The program of a tree does not depend on the places of its nodes.** -/
theorem compile_respan {t : Tree} {program : Program} (h : t.compile = .ok program) :
    (t.respan spans).compile = .ok program :=
  compile_of_spans h spans

open Form

/-- Trees of forms with the same nodes differ in the places of these. -/
theorem ofForms_eq_of_nodes {fs gs : List Form} (hl : LegalAll .code fs) (hl' : LegalAll .code gs)
    (hnodes : (ofForms gs).nodes = (ofForms fs).nodes) : ofForms gs = (ofForms fs).respan (ofForms gs).spans := by
  have hget : (ofForms gs).get? = (ofForms fs).get? := by
    funext h
    simp only [get?, hnodes]
  have hbody : (ofForms gs).bodyOf top = (ofForms fs).bodyOf top := by simp only [bodyOf, hget]
  have hnative : (ofForms gs).nativeDeclaration? = (ofForms fs).nativeDeclaration? := by
    funext c
    simp only [nativeDeclaration?, hget]
  have himport : (ofForms gs).importDeclaration? = (ofForms fs).importDeclaration? := by
    funext c
    simp only [importDeclaration?, string?, hget]
  have hnotes := notes_ofForms hl'
  rw [hbody, hnative, himport, ← notes_ofForms hl] at hnotes
  generalize ofForms gs = u at hnodes hnotes
  generalize ofForms fs = t at hnodes hnotes
  obtain ⟨nodes, spans, scopes, tailCalls, renamings, natives, dependencies, analysed⟩ := t
  obtain ⟨nodes', spans', scopes', tailCalls', renamings', natives', dependencies', analysed'⟩ := u
  cases hnodes
  cases hnotes
  rfl

/-- **Trees of forms with the same sketches** differ in the places of their nodes. -/
theorem ofForms_eq {fs gs : List Form} (hfs : PlainAll fs) (hgs : PlainAll gs) (hl : LegalAll .code fs)
    (hl' : LegalAll .code gs) (h : sketchAll gs = sketchAll fs) :
    ofForms gs = (ofForms fs).respan (ofForms gs).spans := by
  refine ofForms_eq_of_nodes hl hl' ?_
  have hplanted : ∀ {forms : List Form}, PlainAll forms →
      (ofForms forms).nodes = (Term.plantInto top (sketchAll forms) empty).nodes := fun hforms =>
    buildInto_eq_plantInto _ hforms rfl top
  rw [hplanted hgs, hplanted hfs, h]

end Tree

end SchemeMachine
