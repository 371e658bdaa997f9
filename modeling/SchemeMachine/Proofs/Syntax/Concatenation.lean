import SchemeMachine.Proofs.Syntax.Declaration
import SchemeMachine.Proofs.Syntax.Grafting
import SchemeMachine.Proofs.Syntax.Placement

/-!
# Sources one below the other

A source that stands below another one is read as by itself. Its forms come after those of the other, with their own nodes
and in their own places, and what is wrong with it is found some lines further down.

* `Tree.Joins` says of a tree that it is one tree with another after it: the nodes, their places and the declarations.
* `Tree.joins_ofForms` is the result for forms, `Tree.parse_join` for sources.
-/

namespace SchemeMachine

namespace Tree

/-- **A tree that is `t₁` with `t₂` after it.** The top lambda is shared. Any other node of `t₂` has a handle that is larger
by the number of nodes of `t₁` below its top, and so have the handles in it; its place is some bytes and lines further
down. -/
structure Joins (σ : Shift) (t₁ t₂ t : Tree) : Prop where
  size : t.size + 1 = t₁.size + t₂.size
  /-- The top lambda has what hangs in that of `t₁`, and then what hangs in that of `t₂`. -/
  body : t.bodyOf top = t₁.bodyOf top ++ (t₂.bodyOf top).map (Child.relocate t₁.offset)
  root : t.get? top = some (.lambda none [] (t.bodyOf top))
  first : ∀ h, h ≠ top → h < t₁.size → t.get? h = t₁.get? h
  second : ∀ h, h ≠ top → t.get? (t₁.offset h) = (t₂.get? h).map (Node.relocate t₁.offset)
  first_span : ∀ h, h ≠ top → h < t₁.size → t.spans.find? h = t₁.spans.find? h
  second_span : ∀ h, h ≠ top → t.spans.find? (t₁.offset h) = (t₂.spans.find? h).map (Span.shift σ)
  natives : t.natives = t₁.natives.union t₂.natives
  /-- Where both import something under one name, it is what `t₂` imports. -/
  dependencies : t.dependencies = t₁.dependencies.union t₂.dependencies

open Form

variable {σ : Shift}

theorem buildInto_append (h : Handle) (fs gs : List Form) (t : Tree) :
    buildInto h (fs ++ gs) t = buildInto h gs (buildInto h fs t) := by
  induction fs generalizing t with
  | nil => rfl
  | cons f fs ih => exact ih _

/-- The empty tree, and a tree after which nothing has been made yet. -/
theorem grafted_empty {t : Tree} (htop : ∃ body, t.get? top = some (.lambda none [] body))
    (hspans : ∀ h, t.size ≤ h → t.spans.find? h = none) : Grafted σ t 0 empty t := by
  obtain ⟨body, htop⟩ := htop
  have hbody : t.bodyOf top = body := by rw [bodyOf, htop]
  have hpos : 0 < t.size := lt_size_of_get? htop
  -- what is not the top comes after the nodes of `t`
  have habove : ∀ h, h ≠ top → t.size ≤ t.offset h := by
    intro h hh
    rw [t.offset_of_ne hh]
    have hh : 0 < h := Nat.pos_of_ne_zero hh
    exact (show t.size ≤ 1 + (t.size - 1) by omega).trans (Nat.add_le_add_right hh _)
  refine ⟨Nat.zero_le _, Nat.one_pos, ?_, ?_, ?_, fun _ _ _ => rfl, fun _ _ => rfl, ?_, fun _ _ _ => rfl⟩
  · change t.size = 1 + (t.size - 1)
    omega
  · rw [htop, hbody]
    change _ = some (Node.lambda none [] (body ++ []))
    rw [List.append_nil]
  · intro h hh
    have hnone : empty.get? h = none := get?_eq_none_of_size_le (Nat.pos_of_ne_zero hh)
    rw [hnone, get?_eq_none_of_size_le (habove h hh)]
    rfl
  · intro h hh
    rw [hspans _ (habove h hh)]
    rfl

/-- **The tree of forms, and of forms further down after them.** -/
theorem joins_ofForms {forms others : List Form} (hl : LegalAll .code (forms ++ shiftAll σ others))
    (hl₁ : LegalAll .code forms) (hl₂ : LegalAll .code others) :
    Joins σ (ofForms forms) (ofForms others) (ofForms (forms ++ shiftAll σ others)) := by
  have htop : ∀ {forms}, LegalAll .code forms → ∃ body, (ofForms forms).get? top = some (.lambda none [] body) := by
    intro forms hl
    obtain ⟨body, strays, hholds, -⟩ := holds_ofForms hl
    exact hholds.top_node
  -- a node that is not there has no place
  -- the empty trees are grafted, and adding the forms one by one keeps it so
  have hstart : Grafted σ empty 0 empty empty := grafted_empty ⟨[], rfl⟩ fun _ _ => rfl
  have hspans : ∀ h, (ofForms forms).size ≤ h → (ofForms forms).spans.find? h = none :=
    (grafted_buildInto forms hstart top).inside
  -- the forms are made after the first tree, and the declarations leave nodes and places alone
  have hgrafted : Grafted σ (ofForms forms) 0 (buildInto top others empty)
      (buildInto top (forms ++ shiftAll σ others) empty) := by
    have hfirst : Grafted σ (ofForms forms) 0 empty (buildInto top forms empty) :=
      { grafted_empty (t := ofForms forms) (htop hl₁) hspans with }
    have hafter := grafted_buildInto others hfirst top
    rw [offset_top] at hafter
    rw [buildInto_append]
    exact hafter
  have hroot : (ofForms (forms ++ shiftAll σ others)).get? top =
      some (.lambda none [] ((ofForms forms).bodyOf top ++
        ((ofForms others).bodyOf top).map (Child.relocate (ofForms forms).offset))) := by
    obtain ⟨body, hbody⟩ := htop hl₂
    have hsecond : (ofForms others).bodyOf top = body := by rw [bodyOf, hbody]
    refine hgrafted.top_node.trans ?_
    rw [show (buildInto top others empty).get? top = _ from hbody, hsecond]
    rfl
  have hbody : (ofForms (forms ++ shiftAll σ others)).bodyOf top = (ofForms forms).bodyOf top ++
      ((ofForms others).bodyOf top).map (Child.relocate (ofForms forms).offset) := by
    rw [bodyOf, hroot]
  have hsketch : sketchAll (forms ++ shiftAll σ others) = sketchAll forms ++ sketchAll others := by
    rw [sketchAll_append, shiftAll, sketchAll_of_unplacedAll (unplacedAll_mapSpansAll _ others)]
  obtain ⟨hnatives, hdependencies⟩ := declarations_ofForms hl
  obtain ⟨hnatives₁, hdependencies₁⟩ := declarations_ofForms hl₁
  obtain ⟨hnatives₂, hdependencies₂⟩ := declarations_ofForms hl₂
  refine ⟨?_, hbody, by rw [hroot, hbody], hgrafted.kept, ?_, hgrafted.span_kept, hgrafted.span, ?_, ?_⟩
  · have hpos : 0 < (ofForms forms).size := by
      obtain ⟨body, hbody⟩ := htop hl₁
      exact lt_size_of_get? hbody
    have hsize : (ofForms (forms ++ shiftAll σ others)).size = (ofForms others).size + ((ofForms forms).size - 1) :=
      hgrafted.size
    omega
  · exact hgrafted.node
  · rw [hnatives, hnatives₁, hnatives₂, hsketch, List.filterMap_append, OrderedSet.ofMembers_append]
  · rw [hdependencies, hdependencies₁, hdependencies₂, hsketch, List.filterMap_append, Table.ofList_append]

end Tree

/-! ### Sources -/

theorem Token.LexError.unplaced_shift (σ : Shift) (e : LexError) : (e.shift σ).unplaced = e.unplaced := by
  cases e <;> rfl

theorem ParseError.unplaced_shift (σ : Shift) (e : ParseError) : (e.shift σ).unplaced = e.unplaced := by
  cases e <;> rfl

/-- **Sources one below the other.** If both can be read, so can the whole, and its tree is that of the first with that of the
second after it. If the second cannot be read, the whole cannot either, for the same reason and in the same column, further
down by the lines of the first. -/
theorem Tree.parse_join {s₁ : String} {t₁ : Tree} (h₁ : parse s₁ = .ok t₁) (s₂ : String) :
    (∀ t₂, parse s₂ = .ok t₂ → ∃ t, parse (s₁ ++ "\n" ++ s₂) = .ok t ∧
      Joins ⟨s₁.utf8ByteSize + 1, 1 + s₁.toList.count '\n'⟩ t₁ t₂ t) ∧
    ∀ e, parse s₂ = .error e → ∃ e', parse (s₁ ++ "\n" ++ s₂) = .error e' ∧ e'.unplaced = e.unplaced ∧
      e'.place? = e.place?.map fun place => (place.1 + (1 + s₁.toList.count '\n'), place.2) := by
  obtain ⟨tokens, forms, hscan, hforms, rfl⟩ := parse_eq_ok.mp h₁
  -- the tokens of the whole are those of the first source, without its end, and those of the second, shifted
  have hwhole := Token.scan_join hscan s₂
  generalize hσ : (⟨s₁.utf8ByteSize + 1, 1 + s₁.toList.count '\n'⟩ : Shift) = σ at hwhole ⊢
  have hlines : σ.lines = 1 + s₁.toList.count '\n' := by rw [← hσ]
  refine ⟨fun t₂ h₂ => ?_, fun e h₂ => ?_⟩
  · obtain ⟨others, forms₂, hscan₂, hforms₂, rfl⟩ := parse_eq_ok.mp h₂
    rw [hscan₂] at hwhole
    have hparse := Form.parse_append_shift σ hscan hforms hscan₂
    rw [hforms₂] at hparse
    refine ⟨_, parse_eq_ok.mpr ⟨_, _, hwhole, hparse, rfl⟩, ?_⟩
    exact joins_ofForms (Form.legal_parse hparse) (Form.legal_parse hforms) (Form.legal_parse hforms₂)
  · rw [← hlines]
    unfold parse at h₂ ⊢
    rw [hwhole]
    cases hscan₂ : Token.scan s₂ with
    | error fault =>
      rw [hscan₂] at h₂
      cases h₂
      refine ⟨_, rfl, congrArg CompileError.lex (fault.unplaced_shift σ), ?_⟩
      exact congrArg some (fault.place_shift σ)
    | ok others =>
      rw [hscan₂] at h₂
      cases hforms₂ : Form.parse others with
      | ok forms₂ =>
        rw [show (Except.ok others : Except Token.LexError _).mapError CompileError.lex = .ok others from rfl] at h₂
        dsimp only [bind, Except.bind] at h₂
        rw [hforms₂] at h₂
        cases h₂
      | error fault =>
        have hparse := Form.parse_append_shift σ hscan hforms hscan₂
        rw [hforms₂] at hparse
        dsimp only [Except.mapError, bind, Except.bind, Except.map] at h₂ hparse ⊢
        rw [hforms₂] at h₂
        rw [hparse]
        cases h₂
        exact ⟨_, rfl, congrArg CompileError.parse (fault.unplaced_shift σ), fault.place?_shift σ⟩

/-- A comment at the end of the first source does not run on into the second, whose string comes to stand at 3. -/
theorem Tree.parse_join_comment : ∃ t₁ t₂ t,
    parse "(f) ; one" = .ok t₁ ∧ parse "(import L \"b\")" = .ok t₂ ∧ parse "(f) ; one\n(import L \"b\")" = .ok t ∧
      Joins ⟨10, 1⟩ t₁ t₂ t ∧ t.get? 3 = some (.string (some 2) "b") ∧
      ∃ e, parse "(f) ; one\n)" = .error e ∧ e.place? = some (2, 1) := by
  obtain ⟨t₁, h₁, hsize⟩ : ∃ t₁, parse "(f) ; one" = .ok t₁ ∧ t₁.size = 2 :=
    ⟨{ nodes := #[.lambda none [] [.node 1], .application (some 0) .code [.atom (.variable "f")]]
       spans := ⟨[(1, ⟨0, 3, 1, 1⟩)]⟩ }, by decide +kernel, rfl⟩
  obtain ⟨t₂, h₂, hstring⟩ : ∃ t₂, parse "(import L \"b\")" = .ok t₂ ∧ t₂.get? 2 = some (.string (some 1) "b") :=
    ⟨{ nodes := #[.lambda none [] [.node 1],
         .application (some 0) .code [.atom (.keyword "import"), .atom (.variable "L"), .node 2],
         .string (some 1) "b"]
       spans := ⟨[(1, ⟨0, 14, 1, 1⟩), (2, ⟨10, 13, 1, 11⟩)]⟩
       dependencies := ⟨[("L", "b")]⟩ }, by decide +kernel, rfl⟩
  obtain ⟨t, h, hjoins⟩ := (parse_join h₁ _).1 t₂ h₂
  have hfault : parse ")" = .error (.parse (.unexpected ")" "expression" 1 1)) := by decide +kernel
  obtain ⟨e, he, -, hplace⟩ := (parse_join h₁ _).2 _ hfault
  have hthree : t₁.offset 2 = 3 := by
    rw [t₁.offset_of_ne (by decide), hsize]
  have hsecond := hjoins.second 2 (by decide)
  rw [hthree, hstring] at hsecond
  have hone : t₁.offset 1 = 2 := by
    rw [t₁.offset_of_ne (by decide), hsize]
  refine ⟨t₁, t₂, t, h₁, h₂, h, hjoins, ?_, e, he, hplace⟩
  rw [hsecond, Option.map_some, Node.relocate, Option.map_some, hone]

end SchemeMachine
