import SchemeMachine.Proofs.Syntax.Building
import SchemeMachine.Proofs.Table
import SchemeMachine.Tree.TailCall

/-!
# What is marked as a tail call

Every node of a term stands in tail position or does not, and since each handle belongs to one node, the mark
that a tree keeps for a handle is a mark of that position.

* `Term.positions` lists the nodes of a term, with whether each is in tail position.
* `Tree.Holds.position_of_tailCall`: what is marked is in tail position.
* `Tree.isCall_of_tailCall`: what is marked is a call.
-/

namespace SchemeMachine

namespace Term

/-- The flag of the last of `n` items; the others are in no tail position. -/
def lastFlag (flag : Bool) (n : Nat) : List Bool := List.replicate (n - 1) false ++ [flag]

/-- Which items of an application are in tail position, given whether the application is. Items that the
list does not reach are not. -/
def itemFlags (tail : Bool) : Quotation → List Term → List Bool
  | .code, .atom (.keyword word) :: rest =>
    if word = "if" then [false, false, tail, tail]
    else if word = "begin" ∨ word = "and" ∨ word = "or" then false :: lastFlag tail rest.length
    else []
  | _, _ => []

mutual

/-- **The nodes of a term**, with whether each is in tail position. -/
def positions (tail : Bool) : Term → List (Handle × Bool)
  | .atom _ => []
  | .string h _ => [(h, tail)]
  | .lambda h _ body => (h, tail) :: positionsAll (lastFlag true body.length) body
  | .application h quotation items => (h, tail) :: positionsAll (itemFlags tail quotation items) items

/-- The nodes of several terms; `flags` says which of the terms are in tail position. -/
def positionsAll (flags : List Bool) : List Term → List (Handle × Bool)
  | [] => []
  | x :: xs => positions (flags.headD false) x ++ positionsAll flags.tail xs

end

mutual

theorem map_fst_positions : (x : Term) → (tail : Bool) → (x.positions tail).map Prod.fst = x.handles
  | .atom _, _ => rfl
  | .string _ _, _ => rfl
  | .lambda h _ body, tail => by simp [positions, handles, map_fst_positionsAll body]
  | .application h _ items, tail => by simp [positions, handles, map_fst_positionsAll items]

theorem map_fst_positionsAll : (xs : List Term) → (flags : List Bool) →
    (positionsAll flags xs).map Prod.fst = handlesAll xs
  | [], _ => rfl
  | x :: xs, flags => by simp [positionsAll, handlesAll, map_fst_positions x, map_fst_positionsAll xs]

end

/-- An item has the position that the flags give it. -/
theorem positions_subset {before after : List Term} {x : Term} (flags : List Bool) :
    x.positions (flags.getD before.length false) ⊆ positionsAll flags (before ++ x :: after) := by
  induction before generalizing flags with
  | nil =>
    intro p hp
    have hflag : flags.headD false = flags.getD 0 false := by cases flags <;> rfl
    exact List.mem_append_left _ (hflag ▸ hp)
  | cons y before ih =>
    intro p hp
    refine List.mem_append_right _ (ih flags.tail ?_)
    cases flags with
    | nil => exact hp
    | cons flag flags => exact hp

/-- The last item has the flag of the last item. -/
theorem positions_subset_last {before : List Term} {x : Term} (flag : Bool) :
    x.positions flag ⊆ positionsAll (lastFlag flag (before ++ [x]).length) (before ++ [x]) := by
  have hflag : (lastFlag flag (before ++ [x]).length).getD before.length false = flag := by
    simp [lastFlag]
  have hsub : x.positions _ ⊆ positionsAll _ (before ++ x :: []) :=
    positions_subset (lastFlag flag (before ++ [x]).length)
  rwa [hflag] at hsub

/-- The positions inside a lambda do not depend on where it stands. -/
theorem Sub.positions {h : Handle} {parameters : List String} {body : List Term} {x : Term}
    (hs : Sub (.lambda h parameters body) x) (tail : Bool) :
    positionsAll (lastFlag true body.length) body ⊆ x.positions tail := by
  generalize hy : Term.lambda h parameters body = y at hs
  induction hs generalizing tail with
  | refl =>
    subst hy
    exact fun p hp => List.mem_cons_of_mem _ hp
  | body hm _ ih =>
    obtain ⟨before, after, rfl⟩ := List.append_of_mem hm
    exact fun p hp => List.mem_cons_of_mem _ (positions_subset _ (ih _ hp))
  | item hm _ ih =>
    obtain ⟨before, after, rfl⟩ := List.append_of_mem hm
    exact fun p hp => List.mem_cons_of_mem _ (positions_subset _ (ih _ hp))

end Term

namespace Tree

open Term

variable {t : Tree}

/-- What is marked below a child in tail position is in tail position. -/
theorem position_of_tailCallsBelow (fuel : Nat) {x : Term} {parent : Option Handle} (hx : x.Placed t parent)
    {h : Handle} (hh : h ∈ t.tailCallsBelow fuel x.child) : (h, true) ∈ x.positions true := by
  induction fuel generalizing x parent with
  | zero => simp [tailCallsBelow] at hh
  | succ fuel ih =>
    cases x with
    | atom a => simp [child, tailCallsBelow] at hh
    | string k content =>
      simp only [Placed] at hx
      simp [child, tailCallsBelow, hx] at hh
    | lambda k parameters body => simp [child, tailCallsBelow, hx.1] at hh
    | application k quotation items =>
      have item : ∀ before y after, items = before ++ y :: after →
          (itemFlags true quotation items).getD before.length false = true →
          h ∈ t.tailCallsBelow fuel y.child → (h, true) ∈ (Term.application k quotation items).positions true := by
        intro before y after he hflag hy
        have hsub : y.positions _ ⊆ positionsAll _ (before ++ y :: after) :=
          positions_subset (itemFlags true quotation items)
        rw [hflag, ← he] at hsub
        have hplaced := placedAll_iff.mp hx.2 y (by simp [he])
        exact List.mem_cons_of_mem _ (hsub (ih hplaced hy))
      cases quotation with
      | quote => simp [child, tailCallsBelow, hx.1] at hh
      | quasiquote => simp [child, tailCallsBelow, hx.1] at hh
      | unquote => simp [child, tailCallsBelow, hx.1] at hh
      | code =>
        cases items with
        | nil => simp [child, tailCallsBelow, hx.1] at hh
        | cons head rest =>
          simp only [child, tailCallsBelow, hx.1, List.map_cons] at hh
          split at hh
          · next word hword =>
            obtain rfl : head = .atom (.keyword word) := by
              cases head <;> simp_all [child]
            by_cases hif : word = "if"
            · subst hif
              -- the second and third operand are the branches
              rcases rest with _ | ⟨test, _ | ⟨yes, _ | ⟨no, more⟩⟩⟩
              · simp at hh
              · simp at hh
              · have hyes : h ∈ t.tailCallsBelow fuel yes.child := by simpa using hh
                exact item [_, test] yes [] rfl rfl hyes
              · have hbranch : h ∈ t.tailCallsBelow fuel yes.child ∨ h ∈ t.tailCallsBelow fuel no.child := by
                  simpa using hh
                rcases hbranch with hyes | hno
                · exact item [_, test] yes (no :: more) rfl rfl hyes
                · exact item [_, test, yes] no more rfl rfl hno
            · rw [if_neg hif] at hh
              split at hh
              · next hseq =>
                rcases List.eq_nil_or_concat rest with rfl | ⟨before, last, rfl⟩
                · simp at hh
                · have hlast : h ∈ t.tailCallsBelow fuel last.child := by simpa using hh
                  refine item (.atom (.keyword word) :: before) last [] (by simp) ?_ hlast
                  simp [itemFlags, hif, hseq, lastFlag]
              · cases hh
          · obtain rfl : h = k := by simpa using hh
            exact List.mem_cons_self

/-- Every handle of a tree is the root of a part. -/
theorem Holds.exists_sub {roots : List Term} (hh : t.Holds roots) {h : Handle} (hlt : h < t.size) :
    ∃ root ∈ roots, ∃ y, Sub y root ∧ y.child = .node h :=
  exists_sub_of_mem_handlesAll roots (hh.handles.mem_iff.mpr (List.mem_range.mpr hlt))

/-- Every lambda of a tree is a part. -/
theorem Holds.lambda {roots : List Term} (hh : t.Holds roots) {h : Handle} {parent : Option Handle}
    {parameters : List String} {children : List Child} (hn : t.get? h = some (.lambda parent parameters children)) :
    ∃ root ∈ roots, ∃ body, Sub (.lambda h parameters body) root ∧ children = body.map child ∧
      PlacedAll t (some h) body ∧ LegalAll .code body ∧ parameters.Nodup := by
  obtain ⟨root, hroot, y, hsub, hy⟩ := hh.exists_sub (lt_size_of_get? hn)
  obtain ⟨p, hp⟩ := hsub.placed (placedAll_iff.mp hh.placed root hroot)
  obtain ⟨layer, hl⟩ := hsub.legal (legalAll_iff.mp hh.legal root hroot)
  cases y with
  | atom a => cases hy
  | string k content =>
    cases hy
    cases hn.symm.trans hp
  | application k quotation items =>
    cases hy
    cases hn.symm.trans hp.1
  | lambda k parameters' body =>
    cases hy
    cases hn.symm.trans hp.1
    exact ⟨root, hroot, body, hsub, rfl, hp.2, hl.2.2, hl.2.1⟩

/-- What is marked is a tail call of some lambda. -/
theorem mem_tailCallsOf_of_contains {h : Handle} (hm : t.markTailCalls.tailCalls.contains h = true) :
    ∃ M ∈ t.lambdas, h ∈ t.tailCallsOf M := by
  have hadd : ∀ (ks : List Handle) (s : OrderedSet Handle), (OrderedSet.addAll s ks).contains h = true →
      s.contains h = true ∨ h ∈ ks := by
    intro ks
    induction ks with
    | nil => exact fun s hs => Or.inl hs
    | cons k ks ih =>
      intro s hs
      rcases ih _ hs with hs | hs
      · rcases (Table.contains_insert s h k ()).mp hs with rfl | hs
        · exact Or.inr List.mem_cons_self
        · exact Or.inl hs
      · exact Or.inr (List.mem_cons_of_mem k hs)
  rcases hadd _ _ hm with hs | hs
  · cases hs
  · exact List.mem_flatMap.mp hs

/-- A node that is a call: an application in code whose head is no keyword. -/
def IsCall (t : Tree) (h : Handle) : Prop :=
  ∃ p head rest, t.get? h = some (.application p .code (head :: rest)) ∧ ∀ word, head ≠ .atom (.keyword word)

theorem isCall_of_tailCallsBelow (fuel : Nat) {c : Child} {h : Handle} (hh : h ∈ t.tailCallsBelow fuel c) :
    t.IsCall h := by
  induction fuel generalizing c with
  | zero => simp [tailCallsBelow] at hh
  | succ fuel ih =>
    cases c with
    | atom a => simp [tailCallsBelow] at hh
    | node k =>
      simp only [tailCallsBelow] at hh
      split at hh
      · next p head rest hn =>
        split at hh
        · split at hh
          · obtain ⟨c, -, hc⟩ := List.mem_flatMap.mp hh
            exact ih hc
          · split at hh
            · obtain ⟨c, -, hc⟩ := List.mem_flatMap.mp hh
              exact ih hc
            · cases hh
        · next hword =>
          obtain rfl := List.mem_singleton.mp hh
          exact ⟨p, head, rest, hn, hword⟩
      · cases hh

/-- **What is marked as a tail call is a call.** -/
theorem isCall_of_tailCall {h : Handle} (hm : t.markTailCalls.tailCalls.contains h = true) : t.IsCall h := by
  obtain ⟨M, -, hmem⟩ := mem_tailCallsOf_of_contains hm
  obtain ⟨c, -, hc⟩ := List.mem_flatMap.mp hmem
  exact isCall_of_tailCallsBelow _ hc

/-- **What is marked as a tail call is in tail position.** -/
theorem Holds.position_of_tailCall {roots : List Term} (hh : t.Holds roots) {h : Handle}
    (hm : t.markTailCalls.tailCalls.contains h = true) : (h, true) ∈ positionsAll [] roots := by
  obtain ⟨M, hM, hmem⟩ := mem_tailCallsOf_of_contains hm
  obtain ⟨p, ps, cs, hn⟩ := mem_lambdas.mp hM
  obtain ⟨root, hroot, body, hsub, rfl, hplaced, -, -⟩ := hh.lambda hn
  unfold tailCallsOf bodyOf at hmem
  rw [hn] at hmem
  rcases List.eq_nil_or_concat body with rfl | ⟨before, last, rfl⟩
  · simp at hmem
  · have hlast : h ∈ t.tailCallsBelow (t.size + 1) last.child := by simpa using hmem
    have hpos := position_of_tailCallsBelow _ (placedAll_iff.mp hplaced last (by simp)) hlast
    obtain ⟨first, rest, rfl⟩ := List.append_of_mem hroot
    rw [List.concat_eq_append] at hsub
    exact positions_subset [] (hsub.positions _ (positions_subset_last true hpos))

/-- A node that is in no tail position is not marked. -/
theorem Holds.not_tailCall {roots : List Term} (hh : t.Holds roots) {h : Handle}
    (hp : (h, false) ∈ positionsAll [] roots) : t.markTailCalls.tailCalls.contains h = false := by
  by_contra hne
  have hp' := hh.position_of_tailCall (eq_true_of_ne_false hne)
  have hnodup : ((positionsAll [] roots).map Prod.fst).Nodup := by
    rw [map_fst_positionsAll]
    exact hh.handles_nodup
  cases List.inj_on_of_nodup_map hnodup hp hp' rfl

end Tree

end SchemeMachine
