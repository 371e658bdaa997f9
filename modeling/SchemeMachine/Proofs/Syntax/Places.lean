import SchemeMachine.Proofs.Syntax.Planting

/-!
# Forms in other places

The places of forms go into the spans of a tree and nowhere else. Forms that are the same but for their places have trees
that are the same but for their spans, whatever the order is in which their nodes are made.

* `Form.agree_build` says that places do not matter to nodes.
* `Tree.ofForms_unplaced` is the result for the tree of a program.
-/

namespace SchemeMachine

namespace Form

/-! ### Nodes -/

/-- **The same answer, and trees with the same nodes.** -/
structure Agree {α : Type} (x y : α × Tree) : Prop where
  answer : x.1 = y.1
  nodes : x.2.nodes = y.2.nodes

section Rules

variable {α : Type} {t u : Tree}

theorem Agree.pure (a : α) (h : t.nodes = u.nodes) : Agree (a, t) (a, u) := ⟨rfl, h⟩

theorem Agree.exists_eq {x y : α × Tree} (h : Agree x y) : ∃ a t u, x = (a, t) ∧ y = (a, u) ∧ t.nodes = u.nodes := by
  obtain ⟨a, t⟩ := x
  obtain ⟨b, u⟩ := y
  obtain ⟨rfl, hnodes⟩ := h
  exact ⟨a, t, u, rfl, rfl, hnodes⟩

theorem agree_alloc (h : t.nodes = u.nodes) (n : Node) : Agree (t.alloc n) (u.alloc n) :=
  ⟨(alloc_congr h n).1, (alloc_congr h n).2⟩

/-- The places of nodes are kept beside the nodes. -/
theorem nodes_setSpan (h : t.nodes = u.nodes) (k : Handle) (s s' : Span) :
    (t.setSpan k s).nodes = (u.setSpan k s').nodes := h

theorem nodes_pushAll (h : t.nodes = u.nodes) (k : Handle) (cs : List Child) :
    (pushAll k cs t).nodes = (pushAll k cs u).nodes := by
  induction cs generalizing t u with
  | nil => exact h
  | cons c cs ih => exact ih (nodes_pushChild h k c)

theorem nodes_addParameters (h : t.nodes = u.nodes) (k : Handle) (names : List String) :
    (addParameters k names t).nodes = (addParameters k names u).nodes := by
  induction names generalizing t u with
  | nil => exact h
  | cons name names ih => exact ih (by simp only [Tree.addParameter, Tree.modify, h])

theorem agree_application (h : t.nodes = u.nodes) (s s' : Span) (cs : List Child) :
    Agree (application s cs t) (application s' cs u) := by
  obtain ⟨k, t, u, ht, hu, h⟩ := (agree_alloc h (Node.freshApplication none .code)).exists_eq
  simp only [application, ht, hu]
  exact .pure k (nodes_pushAll h k cs)

theorem agree_sequence (h : t.nodes = u.nodes) (s s' : Span) (cs : List Child) :
    Agree (sequence s cs t) (sequence s' cs u) := by
  unfold sequence
  split
  · exact .pure _ h
  · obtain ⟨k, t, u, ht, hu, h⟩ := (agree_application h s s' (.atom (.keyword "begin") :: cs)).exists_eq
    simp only [ht, hu]
    exact .pure _ h

end Rules

mutual

/-- **Places do not matter to the nodes of a form.** -/
theorem agree_build : (f : Form) → {t u : Tree} → t.nodes = u.nodes → Agree (f.build t) (f.unplaced.build u)
  | .atom _, _, _, h => .pure _ h
  | .string _ content, _, _, h => by
    obtain ⟨k, t, u, ht, hu, h⟩ := (agree_alloc h (.string none content)).exists_eq
    simp only [unplaced, build, ht, hu]
    exact .pure _ h
  | .group quotation _ items, _, _, h => by
    obtain ⟨k, t, u, ht, hu, h⟩ := (agree_alloc h (Node.freshApplication none quotation)).exists_eq
    simp only [unplaced, build, ht, hu]
    exact .pure _ (nodes_buildInto items h k)
  | .lambda _ parameters body, _, _, h => by
    obtain ⟨k, t, u, ht, hu, h⟩ := (agree_alloc h (Node.freshLambda none)).exists_eq
    simp only [unplaced, build, ht, hu]
    exact .pure _ (nodes_buildInto body (nodes_addParameters h k parameters) k)
  | .procedure _ s name parameters body, _, _, h => by
    obtain ⟨define, t, u, ht, hu, h⟩ := (agree_alloc h (Node.freshApplication none .code)).exists_eq
    have hwords := nodes_pushAll h define [.atom (.keyword "define"), .atom (.variable name)]
    obtain ⟨k, t', u', ht', hu', h⟩ := (agree_alloc hwords (Node.freshLambda none)).exists_eq
    have hbody := nodes_setSpan (nodes_buildInto body (nodes_addParameters h k parameters) k) k s .unplaced
    simp only [unplaced, build, ht, hu, ht', hu']
    exact .pure _ (nodes_setSpan (nodes_pushChild hbody define (.node k)) define s .unplaced)
  | .letIn s s' name names initials body, _, _, h => by
    -- handles are given out in the same order, so that the same nodes are made
    obtain ⟨app, t, u, ht, hu, h⟩ := (agree_alloc h (Node.freshApplication none .code)).exists_eq
    obtain ⟨values, t₁, u₁, ht₁, hu₁, h⟩ := (agree_buildAll initials h).exists_eq
    obtain ⟨k, t₂, u₂, ht₂, hu₂, h⟩ := (agree_alloc h (Node.freshLambda none)).exists_eq
    have hbody := nodes_setSpan (nodes_buildInto body (nodes_addParameters h k names) k) k s' .unplaced
    replace hbody := nodes_setSpan hbody app s .unplaced
    simp only [unplaced, build, ht, hu, ht₁, hu₁, ht₂, hu₂]
    cases name with
    | none => exact .pure _ (nodes_pushAll hbody app _)
    | some name =>
      obtain ⟨wrapper, t₃, u₃, ht₃, hu₃, h⟩ := (agree_alloc hbody (Node.freshLambda none)).exists_eq
      simp only [ht₃, hu₃]
      obtain ⟨define, t₄, u₄, ht₄, hu₄, h⟩ := (agree_application h s .unplaced
        [.atom (.keyword "define"), .atom (.variable name), .node k]).exists_eq
      simp only [ht₄, hu₄]
      obtain ⟨call, t₅, u₅, ht₅, hu₅, h⟩ := (agree_application (nodes_pushChild h wrapper (.node define)) s .unplaced
        (.atom (.variable name) :: values)).exists_eq
      simp only [ht₅, hu₅]
      have hlinked := nodes_pushChild (nodes_pushChild h wrapper (.node call)) app (.node wrapper)
      exact .pure _ (nodes_setSpan hlinked wrapper s .unplaced)
  | .clause s test body rest, _, _, h => by
    obtain ⟨test', t, u, ht, hu, h⟩ := (agree_buildOption test h).exists_eq
    obtain ⟨body', t₁, u₁, ht₁, hu₁, h⟩ := (agree_buildAll body h).exists_eq
    obtain ⟨rest', t₂, u₂, ht₂, hu₂, h⟩ := (agree_buildOption rest h).exists_eq
    obtain ⟨body'', t₃, u₃, ht₃, hu₃, h⟩ := (agree_sequence h s .unplaced body').exists_eq
    simp only [unplaced, build, ht, hu, ht₁, hu₁, ht₂, hu₂, ht₃, hu₃]
    cases test' with
    | none => exact .pure _ h
    | some test =>
      obtain ⟨k, t₄, u₄, ht₄, hu₄, h⟩ := (agree_application h s .unplaced
        (.atom (.keyword "if") :: test :: body'' :: rest'.toList)).exists_eq
      simp only [ht₄, hu₄]
      exact .pure _ h

theorem nodes_buildInto : (fs : List Form) → {t u : Tree} → t.nodes = u.nodes → (k : Handle) →
    (buildInto k fs t).nodes = (buildInto k (unplacedAll fs) u).nodes
  | [], _, _, h, _ => h
  | f :: fs, _, _, h, k => by
    obtain ⟨c, t, u, ht, hu, h⟩ := (agree_build f h).exists_eq
    simp only [unplacedAll, buildInto, ht, hu]
    exact nodes_buildInto fs (nodes_pushChild h k c) k

theorem agree_buildAll : (fs : List Form) → {t u : Tree} → t.nodes = u.nodes →
    Agree (buildAll fs t) (buildAll (unplacedAll fs) u)
  | [], _, _, h => .pure _ h
  | f :: fs, _, _, h => by
    obtain ⟨c, t, u, ht, hu, h⟩ := (agree_build f h).exists_eq
    obtain ⟨cs, t', u', ht', hu', h⟩ := (agree_buildAll fs h).exists_eq
    simp only [unplacedAll, buildAll, ht, hu, ht', hu']
    exact .pure _ h

theorem agree_buildOption : (o : Option Form) → {t u : Tree} → t.nodes = u.nodes →
    Agree (buildOption o t) (buildOption (unplacedOption o) u)
  | none, _, _, h => .pure _ h
  | some f, _, _, h => by
    obtain ⟨c, t, u, ht, hu, h⟩ := (agree_build f h).exists_eq
    simp only [unplacedOption, buildOption, ht, hu]
    exact .pure _ h

end

end Form

/-! ### Programs -/

open Form in
/-- **Trees of forms that are the same but for their places** differ in the places of their nodes. -/
theorem Tree.ofForms_unplaced {fs gs : List Form} (hl : LegalAll .code fs) (hl' : LegalAll .code gs)
    (h : unplacedAll gs = unplacedAll fs) : ofForms gs = (ofForms fs).respan (ofForms gs).spans := by
  refine ofForms_eq_of_nodes hl hl' ?_
  have hnodes : ∀ forms : List Form, (ofForms forms).nodes = (buildInto top (unplacedAll forms) empty).nodes :=
    fun forms => nodes_buildInto forms rfl top
  rw [hnodes, hnodes, h]

end SchemeMachine
