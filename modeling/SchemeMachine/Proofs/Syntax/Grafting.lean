import SchemeMachine.Proofs.Syntax.Building
import SchemeMachine.Proofs.Syntax.Joining

/-!
# Nodes after those of another tree

The nodes of forms are made in the same way whatever nodes there are before them. If there are some, the new ones get higher
handles, and what is hung below the top lambda comes behind what hangs there already.

* `Child.relocate` and `Node.relocate` rename handles, `Tree.offset` says where a node comes to stand after those of a tree.
* `Tree.Grafted` compares a tree with the same tree after another one. There is one lemma for each thing that can be done to
  a tree.
* `Form.grafts_build` says that building a form keeps trees grafted, `Form.grafted_buildInto` is the result for a program.
-/

namespace SchemeMachine

/-- A child with its handle renamed. -/
def Child.relocate (ρ : Handle → Handle) : Child → Child
  | .node h => .node (ρ h)
  | .atom a => .atom a

@[simp] theorem Child.relocate_node (ρ : Handle → Handle) (h : Handle) : (Child.node h).relocate ρ = .node (ρ h) := rfl

@[simp] theorem Child.relocate_atom (ρ : Handle → Handle) (a : Atom) : (Child.atom a).relocate ρ = .atom a := rfl

namespace Node

/-- **A node with the handles in it renamed.** -/
def relocate (ρ : Handle → Handle) : Node → Node
  | .lambda parent parameters body => .lambda (parent.map ρ) parameters (body.map (Child.relocate ρ))
  | .application parent quotation children =>
    .application (parent.map ρ) quotation (children.map (Child.relocate ρ))
  | .string parent content => .string (parent.map ρ) content

/-- A node whose children come behind others. -/
def behind (first : List Child) : Node → Node
  | .lambda parent parameters body => .lambda parent parameters (first ++ body)
  | .application parent quotation children => .application parent quotation (first ++ children)
  | .string parent content => .string parent content

variable (ρ : Handle → Handle) (first : List Child) (n : Node)

theorem relocate_setParent (h : Handle) : (n.setParent h).relocate ρ = (n.relocate ρ).setParent (ρ h) := by
  cases n <;> rfl

theorem relocate_push (c : Child) : (n.push c).relocate ρ = (n.relocate ρ).push (c.relocate ρ) := by
  cases n <;> simp [relocate, push]

theorem relocate_addParameter (name : String) :
    (n.addParameter name).relocate ρ = (n.relocate ρ).addParameter name := by
  cases n <;> rfl

theorem behind_setParent (h : Handle) : (n.setParent h).behind first = (n.behind first).setParent h := by
  cases n <;> rfl

theorem behind_push (c : Child) : (n.push c).behind first = (n.behind first).push c := by
  cases n <;> simp [behind, push]

theorem behind_addParameter (name : String) :
    (n.addParameter name).behind first = (n.behind first).addParameter name := by
  cases n <;> rfl

end Node

namespace Tree

/-- **Where a node comes to stand** in a tree that is made after `t`: the top lambda is shared, the other nodes come after
those of `t`. -/
def offset (t : Tree) (h : Handle) : Handle := if h = top then top else h + (t.size - 1)

variable {t u v : Tree} {σ : Shift} {n : Nat}

@[simp] theorem offset_top (t : Tree) : t.offset top = top := if_pos rfl

theorem offset_of_ne (t : Tree) {h : Handle} (hne : h ≠ top) : t.offset h = h + (t.size - 1) := if_neg hne

theorem offset_inj (t : Tree) {h k : Handle} : t.offset h = t.offset k ↔ h = k := by
  have hnat : ∀ d h k : Nat, (if h = 0 then 0 else h + d) = (if k = 0 then 0 else k + d) ↔ h = k := by
    intro d h k
    split <;> split <;> omega
  exact hnat _ h k

/-- A node of `t` is not in the way. -/
theorem ne_offset (t : Tree) {j : Handle} (hj : j ≠ top) (hlt : j < t.size) (h : Handle) : j ≠ t.offset h := by
  have hnat : ∀ size j h : Nat, j ≠ 0 → j < size → j ≠ if h = 0 then 0 else h + (size - 1) := by
    intro size j h hj hlt
    split <;> omega
  exact hnat _ j h hj hlt

/-- **A tree after another one**: `v` has the nodes of `u` after those of `t`, and in its top lambda what hangs there in `u`
comes behind what hangs there in `t`. All nodes of `u` that have a place are known to be nodes, and `n` of its handles are in
use. -/
structure Grafted (σ : Shift) (t : Tree) (n : Nat) (u v : Tree) : Prop where
  used : n ≤ u.size
  pos : 0 < u.size
  size : v.size = u.size + (t.size - 1)
  top_node : v.get? top = (u.get? top).map fun m => (m.relocate t.offset).behind (t.bodyOf top)
  node : ∀ h, h ≠ top → v.get? (t.offset h) = (u.get? h).map (Node.relocate t.offset)
  kept : ∀ j, j ≠ top → j < t.size → v.get? j = t.get? j
  inside : ∀ h, u.size ≤ h → u.spans.find? h = none
  span : ∀ h, h ≠ top → v.spans.find? (t.offset h) = (u.spans.find? h).map (Span.shift σ)
  span_kept : ∀ j, j ≠ top → j < t.size → v.spans.find? j = t.spans.find? j

namespace Grafted

/-- Fewer handles are in use as well. -/
theorem mono {m : Nat} (hg : Grafted σ t n u v) (hle : m ≤ n) : Grafted σ t m u v :=
  { hg with used := hle.trans hg.used }

/-- **A node is changed on both sides.** -/
theorem modify (hg : Grafted σ t n u v) (h : Handle) {f f' : Node → Node}
    (hrelocate : ∀ m, (f m).relocate t.offset = f' (m.relocate t.offset))
    (hbehind : ∀ m, (f' m).behind (t.bodyOf top) = f' (m.behind (t.bodyOf top))) :
    Grafted σ t n (u.modify h f) (v.modify (t.offset h) f') := by
  refine ⟨by rw [size_modify]; exact hg.used, by rw [size_modify]; exact hg.pos, ?_, ?_, ?_, ?_, ?_, hg.span,
    hg.span_kept⟩
  · rw [size_modify, size_modify, hg.size]
  · rw [get?_modify, get?_modify, hg.top_node]
    -- the top node is that of both trees
    have hiff : top = t.offset h ↔ top = h := by
      have hinj : t.offset top = t.offset h ↔ top = h := offset_inj t
      rwa [offset_top] at hinj
    by_cases htop : top = h
    · rw [if_pos htop, if_pos (hiff.mpr htop), Option.map_map, Option.map_map]
      congr 1
      funext m
      rw [Function.comp_apply, Function.comp_apply, hrelocate, hbehind]
    · rw [if_neg htop, if_neg (mt hiff.mp htop)]
  · intro j hj
    rw [get?_modify, get?_modify, hg.node j hj]
    by_cases heq : j = h
    · rw [if_pos heq, if_pos (offset_inj t |>.mpr heq), Option.map_map, Option.map_map]
      congr 1
      funext m
      exact (hrelocate m).symm
    · rw [if_neg heq, if_neg (mt (offset_inj t).mp heq)]
  · intro j hj hlt
    rw [get?_modify, if_neg (t.ne_offset hj hlt h)]
    exact hg.kept j hj hlt
  · intro j hj
    rw [size_modify] at hj
    exact hg.inside j hj

theorem addParameter (hg : Grafted σ t n u v) (h : Handle) (name : String) :
    Grafted σ t n (u.addParameter h name) (v.addParameter (t.offset h) name) :=
  hg.modify h (fun m => m.relocate_addParameter t.offset name) fun m => m.behind_addParameter _ name

theorem addParameters (hg : Grafted σ t n u v) (h : Handle) (names : List String) :
    Grafted σ t n (Form.addParameters h names u) (Form.addParameters (t.offset h) names v) := by
  induction names generalizing u v with
  | nil => exact hg
  | cons name names ih => exact ih (hg.addParameter h name)

theorem pushChild (hg : Grafted σ t n u v) (h : Handle) (c : Child) :
    Grafted σ t n (u.pushChild h c) (v.pushChild (t.offset h) (c.relocate t.offset)) := by
  have hpush : ∀ {u v : Tree}, Grafted σ t n u v →
      Grafted σ t n (u.modify h (Node.push c)) (v.modify (t.offset h) (Node.push (c.relocate t.offset))) := fun hg =>
    hg.modify h (fun m => m.relocate_push t.offset c) fun m => m.behind_push _ _
  cases c with
  | atom a => exact hpush hg
  | node below =>
    exact hpush (hg.modify below (fun m => m.relocate_setParent t.offset h) fun m => m.behind_setParent _ _)

theorem pushAll (hg : Grafted σ t n u v) (h : Handle) (cs : List Child) :
    Grafted σ t n (Form.pushAll h cs u) (Form.pushAll (t.offset h) (cs.map (Child.relocate t.offset)) v) := by
  induction cs generalizing u v with
  | nil => exact hg
  | cons c cs ih => exact ih (hg.pushChild h c)

/-- **A node is added on both sides.** It names no handles yet. -/
theorem alloc (hg : Grafted σ t n u v) {m : Node} (hm : m.relocate t.offset = m) :
    ∃ k u' v', u.alloc m = (k, u') ∧ v.alloc m = (t.offset k, v') ∧ n ≤ k ∧ Grafted σ t (k + 1) u' v' := by
  have hne : u.size ≠ top := Nat.ne_of_gt hg.pos
  have hoffset : t.offset u.size = v.size := (t.offset_of_ne hne).trans hg.size.symm
  refine ⟨u.size, (u.alloc m).2, (v.alloc m).2, rfl, by rw [hoffset]; rfl, hg.used, ?_⟩
  refine ⟨(size_alloc u m).ge, by rw [size_alloc]; exact Nat.succ_pos _, ?_, ?_, ?_, ?_, ?_, hg.span, hg.span_kept⟩
  · rw [size_alloc, size_alloc, hg.size]
    omega
  · have hne' : top ≠ v.size := by
      rw [← hoffset, ← offset_top t]
      exact mt (offset_inj t).mp hne.symm
    rw [get?_alloc, get?_alloc, if_neg hne.symm, if_neg hne', hg.top_node]
  · intro h hh
    rw [get?_alloc, get?_alloc, hg.node h hh, ← hoffset]
    by_cases heq : h = u.size
    · rw [if_pos heq, if_pos (congrArg t.offset heq), Option.map_some, hm]
    · rw [if_neg heq, if_neg (mt (offset_inj t).mp heq)]
  · intro j hj hlt
    rw [get?_alloc, ← hoffset, if_neg (t.ne_offset hj hlt u.size)]
    exact hg.kept j hj hlt
  · intro j hj
    rw [size_alloc] at hj
    exact hg.inside j (Nat.le_of_succ_le hj)

/-- **A node is placed on both sides.** -/
theorem setSpan (hg : Grafted σ t n u v) {k : Handle} (hlt : k < n) (s : Span) :
    Grafted σ t n (u.setSpan k s) (v.setSpan (t.offset k) (s.shift σ)) := by
  refine { hg with inside := ?_, span := ?_, span_kept := ?_ }
  · intro h hh
    have hne : h ≠ k := Nat.ne_of_gt (hlt.trans_le (hg.used.trans hh))
    exact (Table.find?_insert_of_ne _ hne s).trans (hg.inside h hh)
  · intro h hh
    simp only [Tree.setSpan, Table.find?_insert, offset_inj]
    by_cases heq : h = k
    · rw [if_pos heq, if_pos heq]
      rfl
    · rw [if_neg heq, if_neg heq]
      exact hg.span h hh
  · intro j hj hjt
    exact (Table.find?_insert_of_ne _ (t.ne_offset hj hjt k) _).trans (hg.span_kept j hj hjt)

end Grafted

end Tree

namespace Form

open SchemeMachine.Tree (Grafted top)

section Grafts

variable {α β : Type} {σ : Shift} {t u v : Tree} {m n : Nat} {F : α → β}

/-- **What is made on both sides**: an answer, renamed on the right, and trees that are grafted. -/
def Grafts (σ : Shift) (t : Tree) (n : Nat) (F : α → β) (x : α × Tree) (y : β × Tree) : Prop :=
  ∃ a u v, x = (a, u) ∧ y = (F a, v) ∧ Grafted σ t n u v

theorem Grafts.pure (a : α) (hg : Grafted σ t m u v) (hle : n ≤ m) : Grafts σ t n F (a, u) (F a, v) :=
  ⟨a, u, v, rfl, rfl, hg.mono hle⟩

theorem grafts_application (hg : Grafted σ t n u v) (s : Span) (cs : List Child) :
    Grafts σ t n t.offset (application s cs u) (application (s.shift σ) (cs.map (Child.relocate t.offset)) v) := by
  obtain ⟨k, u, v, hu, hv, hle, hg⟩ := hg.alloc (m := Node.freshApplication none .code) rfl
  simp only [application, hu, hv]
  exact .pure k ((hg.pushAll k cs).setSpan (Nat.lt_succ_self k) s) (Nat.le_succ_of_le hle)

theorem grafts_sequence (hg : Grafted σ t n u v) (s : Span) (cs : List Child) :
    Grafts σ t n (Child.relocate t.offset) (sequence s cs u)
      (sequence (s.shift σ) (cs.map (Child.relocate t.offset)) v) := by
  obtain ⟨k, u', v', hu, hv, hg'⟩ := grafts_application hg s (.atom (.keyword "begin") :: cs)
  match cs, hu, hv with
  | [single], _, _ => exact .pure single hg le_rfl
  | [], hu, hv =>
    simp only [sequence, List.map_cons, List.map_nil, Child.relocate_atom] at hv ⊢
    rw [hu, hv]
    exact .pure (Child.node k) hg' le_rfl
  | c :: c' :: cs, hu, hv =>
    simp only [sequence, List.map_cons, Child.relocate_atom] at hv ⊢
    rw [hu, hv]
    exact .pure (Child.node k) hg' le_rfl

end Grafts

variable {σ : Shift} {t : Tree}

mutual

/-- **The nodes of a form are made in the same way after another tree.** -/
theorem grafts_build : (f : Form) → {n : Nat} → {u v : Tree} → Grafted σ t n u v →
    Grafts σ t n (Child.relocate t.offset) (f.build u) ((f.mapSpans (Span.shift σ)).build v)
  | .atom a, _, _, _, hg => .pure (Child.atom a) hg le_rfl
  | .string s content, _, _, _, hg => by
    obtain ⟨k, u, v, hu, hv, hle, hg⟩ := hg.alloc (m := .string none content) rfl
    simp only [mapSpans, build, hu, hv]
    exact .pure (Child.node k) (hg.setSpan (Nat.lt_succ_self k) s) (Nat.le_succ_of_le hle)
  | .group quotation s items, _, _, _, hg => by
    obtain ⟨k, u, v, hu, hv, hle, hg⟩ := hg.alloc (m := Node.freshApplication none quotation) rfl
    simp only [mapSpans, build, hu, hv]
    exact .pure (Child.node k) ((grafted_buildInto items hg k).setSpan (Nat.lt_succ_self k) s) (Nat.le_succ_of_le hle)
  | .lambda s parameters body, _, _, _, hg => by
    obtain ⟨k, u, v, hu, hv, hle, hg⟩ := hg.alloc (m := Node.freshLambda none) rfl
    have hbody := grafted_buildInto body (hg.addParameters k parameters) k
    simp only [mapSpans, build, hu, hv]
    exact .pure (Child.node k) (hbody.setSpan (Nat.lt_succ_self k) s) (Nat.le_succ_of_le hle)
  | .procedure s s' name parameters body, _, _, _, hg => by
    -- a definition: its words first, then the lambda, which is linked in the end
    obtain ⟨define, u, v, hu, hv, hle, hg⟩ := hg.alloc (m := Node.freshApplication none .code) rfl
    have hwords := hg.pushAll define [.atom (.keyword "define"), .atom (.variable name)]
    obtain ⟨k, u', v', hu', hv', hle', hg⟩ := hwords.alloc (m := Node.freshLambda none) rfl
    have hbody := (grafted_buildInto body (hg.addParameters k parameters) k).setSpan (Nat.lt_succ_self k) s'
    have hdefined := hbody.pushChild define (.node k)
    simp only [List.map_cons, List.map_nil, Child.relocate_atom] at hv'
    simp only [mapSpans, build, hu, hv, hu', hv']
    exact .pure (Child.node define) (hdefined.setSpan (Nat.lt_succ_of_lt hle') s) (by omega)
  | .letIn s s' name names initials body, _, _, _, hg => by
    -- a let makes its application first, and links the lambda and the values to it in the end
    obtain ⟨app, u, v, hu, hv, hle, hg⟩ := hg.alloc (m := Node.freshApplication none .code) rfl
    obtain ⟨values, u₁, v₁, hu₁, hv₁, hg⟩ := grafts_buildAll initials hg
    obtain ⟨k, u₂, v₂, hu₂, hv₂, hle₂, hg⟩ := hg.alloc (m := Node.freshLambda none) rfl
    have hbody := (grafted_buildInto body (hg.addParameters k names) k).setSpan (Nat.lt_succ_self k) s'
    replace hbody := hbody.setSpan (Nat.lt_succ_of_lt hle₂) s
    simp only [mapSpans, build, hu, hv, hu₁, hv₁, hu₂, hv₂]
    cases name with
    | none => exact .pure (Child.node app) (hbody.pushAll app (.node k :: values)) (by omega)
    | some name =>
      -- a named one puts a lambda around, which defines the name and calls it
      obtain ⟨wrapper, u₃, v₃, hu₃, hv₃, hle₃, hg⟩ := hbody.alloc (m := Node.freshLambda none) rfl
      simp only [hu₃, hv₃]
      obtain ⟨define, u₄, v₄, hu₄, hv₄, hg⟩ := grafts_application hg s
        [.atom (.keyword "define"), .atom (.variable name), .node k]
      simp only [List.map_cons, List.map_nil, Child.relocate_atom, Child.relocate_node] at hv₄
      simp only [hu₄, hv₄]
      obtain ⟨call, u₅, v₅, hu₅, hv₅, hg⟩ := grafts_application (hg.pushChild wrapper (.node define)) s
        (.atom (.variable name) :: values)
      simp only [List.map_cons, Child.relocate_atom, Child.relocate_node] at hv₅
      simp only [hu₅, hv₅]
      have happ := (hg.pushChild wrapper (.node call)).pushChild app (.node wrapper)
      exact .pure (Child.node app) (happ.setSpan (Nat.lt_succ_self wrapper) s) (by omega)
  | .clause s test body rest, _, _, _, hg => by
    obtain ⟨test', u, v, hu, hv, hg⟩ := grafts_buildOption test hg
    obtain ⟨body', u₁, v₁, hu₁, hv₁, hg⟩ := grafts_buildAll body hg
    obtain ⟨rest', u₂, v₂, hu₂, hv₂, hg⟩ := grafts_buildOption rest hg
    obtain ⟨body'', u₃, v₃, hu₃, hv₃, hg⟩ := grafts_sequence hg s body'
    simp only [mapSpans, build, hu, hv, hu₁, hv₁, hu₂, hv₂, hu₃, hv₃]
    cases test' with
    | none => exact .pure body'' hg le_rfl
    | some test =>
      obtain ⟨k, u₄, v₄, hu₄, hv₄, hg⟩ := grafts_application hg s
        (.atom (.keyword "if") :: test :: body'' :: rest'.toList)
      have hrest : (rest'.map (Child.relocate t.offset)).toList = rest'.toList.map (Child.relocate t.offset) := by
        cases rest' <;> rfl
      simp only [List.map_cons, Child.relocate_atom, ← hrest] at hv₄
      simp only [Option.map_some, hu₄, hv₄]
      exact .pure (Child.node k) hg le_rfl

theorem grafted_buildInto : (fs : List Form) → {n : Nat} → {u v : Tree} → Grafted σ t n u v → (k : Handle) →
    Grafted σ t n (buildInto k fs u) (buildInto (t.offset k) (mapSpansAll (Span.shift σ) fs) v)
  | [], _, _, _, hg, _ => hg
  | f :: fs, _, _, _, hg, k => by
    obtain ⟨c, u, v, hu, hv, hg⟩ := grafts_build f hg
    simp only [mapSpansAll, buildInto, hu, hv]
    exact grafted_buildInto fs (hg.pushChild k c) k

theorem grafts_buildAll : (fs : List Form) → {n : Nat} → {u v : Tree} → Grafted σ t n u v →
    Grafts σ t n (List.map (Child.relocate t.offset)) (buildAll fs u) (buildAll (mapSpansAll (Span.shift σ) fs) v)
  | [], _, _, _, hg => .pure [] hg le_rfl
  | f :: fs, _, _, _, hg => by
    obtain ⟨c, u, v, hu, hv, hg⟩ := grafts_build f hg
    obtain ⟨cs, u', v', hu', hv', hg⟩ := grafts_buildAll fs hg
    simp only [mapSpansAll, buildAll, hu, hv, hu', hv']
    exact .pure (c :: cs) hg le_rfl

theorem grafts_buildOption : (o : Option Form) → {n : Nat} → {u v : Tree} → Grafted σ t n u v →
    Grafts σ t n (Option.map (Child.relocate t.offset)) (buildOption o u)
      (buildOption (mapSpansOption (Span.shift σ) o) v)
  | none, _, _, _, hg => .pure none hg le_rfl
  | some f, _, _, _, hg => by
    obtain ⟨c, u, v, hu, hv, hg⟩ := grafts_build f hg
    simp only [mapSpansOption, buildOption, hu, hv]
    exact .pure (some c) hg le_rfl

end

end Form

end SchemeMachine
