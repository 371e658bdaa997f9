import SchemeMachine.Compilation
import SchemeMachine.Proofs.Syntax.Scope
import SchemeMachine.Proofs.Syntax.TailCall

/-!
# Analysed trees

What parsing and analysis leave of a source text, in terms of the terms that the tree holds.

* `Tree.Analysed` says it of a tree.
* `Tree.holds_parse` and `Tree.Holds.analyse` prove it, stage by stage.
-/

namespace SchemeMachine

open Term

/-- **An analysed tree**: the terms it holds, with the names that lambdas bind marked; a scope for every
lambda, with the scope around it; and marks for tail calls only. -/
structure Tree.Analysed (t : Tree) (roots : List Term) : Prop where
  holds : t.Holds roots
  owned : OwnedAll Tree.top roots
  sorted : t.scopes.Sorted
  scopes : ∀ h s, t.scopes.find? h = some s →
    ∃ p ps cs, t.get? h = some (.lambda p ps cs) ∧ s.parent = p.map t.enclosingLambda
  total : ∀ h p ps cs, t.get? h = some (.lambda p ps cs) → ∃ s, t.scopes.find? h = some s
  tails : ∀ h, (h, false) ∈ positionsAll [] roots → t.tailCalls.contains h = false
  calls : ∀ h, t.tailCalls.contains h = true → t.IsCall h
  analysed : t.analysed = true

namespace Tree

variable {t t' : Tree} {roots : List Term}

/-- A source text is parsed by way of its tokens and forms. -/
theorem parse_eq_ok {source : String} :
    Tree.parse source = .ok t ↔ ∃ tokens forms, Token.scan source = .ok tokens ∧ Form.parse tokens = .ok forms ∧
      t = ofForms forms := by
  unfold Tree.parse
  cases hscan : Token.scan source with
  | error e =>
    constructor
    · exact (nomatch ·)
    · rintro ⟨_, _, htokens, -⟩
      cases htokens
  | ok tokens =>
    cases hparse : Form.parse tokens with
    | error e =>
      refine ⟨fun h => ?_, fun ⟨_, _, htokens, hforms, _⟩ => ?_⟩
      · simp only [Except.mapError, bind, Except.bind, hparse] at h
        cases h
      · cases htokens
        rw [hparse] at hforms
        cases hforms
    | ok forms =>
      simp only [Except.mapError, bind, Except.bind, hparse, pure, Except.pure, Except.ok.injEq]
      constructor
      · rintro rfl
        exact ⟨tokens, forms, rfl, hparse, rfl⟩
      · rintro ⟨_, _, rfl, hforms, rfl⟩
        rw [hparse] at hforms
        cases hforms
        rfl

/-- **A source text is parsed to a tree that holds terms.** -/
theorem holds_parse {source : String} (h : Tree.parse source = .ok t) :
    ∃ roots, t.Holds roots ∧ t.analysed = false := by
  obtain ⟨tokens, forms, -, hforms, rfl⟩ := parse_eq_ok.mp h
  obtain ⟨body, strays, hholds, -, hanalysed⟩ := holds_ofForms (Form.legal_parse hforms)
  exact ⟨_, hholds, hanalysed⟩

/-- Renaming leaves the parents of nodes. -/
theorem enclosingFrom_renameVariables (t : Tree) (fuel : Nat) (h : Handle) :
    t.renameVariables.enclosingFrom fuel h = t.enclosingFrom fuel h := by
  induction fuel generalizing h with
  | zero => rfl
  | succ fuel ih =>
    simp only [enclosingFrom, get?_renameVariables]
    cases t.get? h with
    | none => rfl
    | some n =>
      cases n with
      | lambda p ps cs => rfl
      | string p content => simp [renameNode, Node.parent, ih]
      | application p quotation cs =>
        by_cases hq : t.isQuoted h <;> simp [renameNode, hq, Node.parent, ih]

theorem enclosingLambda_renameVariables (t : Tree) (h : Handle) :
    t.renameVariables.enclosingLambda h = t.enclosingLambda h := by
  unfold enclosingLambda
  rw [show t.renameVariables.size = t.size by simp [Tree.renameVariables, Tree.size]]
  exact enclosingFrom_renameVariables t _ h

/-- **Analysis gives an analysed tree**, which holds the terms of the tree with their variables renamed; `u` is
the tree with its scopes, before the renaming. -/
theorem Holds.analyse (hh : t.Holds roots) (ha : t.analysed = false) (hr : t.analyse = .ok t') :
    ∃ u : Tree, u.nodes = t.nodes ∧ u.ScopesAre u.Defines u.scopes ∧ t'.scopes = u.scopes ∧
      t'.Analysed (renameAll u.newName Tree.top roots) := by
  unfold Tree.analyse at hr
  split at hr
  · next t₁ hres =>
    cases hr
    obtain ⟨cs, htop⟩ := hh.top_node
    -- the scopes are found without touching the nodes
    obtain ⟨u, hscopes, rfl, hs⟩ := resolveScopes_eq ⟨none, [], cs, htop⟩ ha hres
    have hu : u.nodes = t.nodes := by rw [hscopes]
    have hheld : u.Holds roots :=
      ⟨hh.top, hh.placed.congr fun _ _ => by simp only [get?, hu], hh.legal, by
        rw [show u.size = t.size by simp only [size, hu]]; exact hh.handles⟩
    obtain ⟨hh', howned⟩ := hheld.renameVariables hs
    refine ⟨u, hu, hs, rfl, ⟨hh'.top, hh'.placed.congr fun _ _ => rfl, hh'.legal, hh'.handles⟩, howned, hs.sorted,
      fun h s hfind => ?_, fun h p ps cs hn => ?_, fun h hp => hh'.not_tailCall hp,
      fun h hm => isCall_of_tailCall (t := u.renameVariables) hm, rfl⟩
    · obtain ⟨p, ps, cs, hn, hp, -⟩ := hs.sound h s hfind
      refine ⟨p, ps.map (u.newName h), cs.map (u.renameChild h), ?_, ?_⟩
      · have hget := get?_renameVariables u h
        rw [hn] at hget
        exact hget
      · rw [hp]
        refine congrArg (Option.map · p) (funext fun q => ?_)
        -- marking tail calls leaves the lambdas where they are
        have hmark := enclosingLambda_congr (u := u.renameVariables.markTailCalls) (t := u.renameVariables) rfl q
        exact (hmark.trans (enclosingLambda_renameVariables u q)).symm
    · have hget := get?_renameVariables u h
      rw [show u.renameVariables.get? h = _ from hn] at hget
      cases hnode : u.get? h with
      | none => simp [hnode] at hget
      | some n =>
        cases n with
        | lambda p ps cs => exact hs.total h p ps cs hnode
        | string p content => simp [hnode, renameNode] at hget
        | application p quotation cs =>
          simp only [hnode, Option.map_some, renameNode, Option.some.injEq] at hget
          split at hget <;> cases hget
  · cases hr

end Tree

end SchemeMachine
