import SchemeMachine.Proofs.Layout
import SchemeMachine.Proofs.Lowering.Compiled

/-!
# Everything that is evaluated has its code

A program is laid out block by block, and the code of a term holds the code of the terms that are evaluated with it. So
every term that a compiled tree evaluates has its piece at a place of the program.

* `Term.Evaluates` says which terms a term evaluates in the code of its lambda, `Term.EvaluatedIn` which are evaluated in a
  body.
* `Piece.Stands` says that the lines of a term's piece are among some lines; `Piece.Stands.evaluates` is the step from a
  term to what it evaluates.
* `Program.Compiled.exists_place` is the result for a compiled program, `Program.exists_place` for a source that compiles.
-/

namespace SchemeMachine

open Lowering Piece
open Term (Placed PlacedAll placedAll_iff)

/-! ### What is evaluated -/

namespace Term

/-- **An expression in a hole** of an item of a template. -/
inductive HasHole : Term → Term → Prop
  | here {h : Handle} {x : Term} : HasHole (.application h .unquote [x]) x
  | within {h : Handle} {quotation : Quotation} {items : List Term} {item x : Term} (hq : quotation ≠ .unquote)
      (hitem : item ∈ items) (hx : HasHole item x) : HasHole (.application h quotation items) x

theorem HasHole.placed {t : Tree} {x y : Term} {parent : Option Handle} (h : HasHole x y) (hx : x.Placed t parent) :
    ∃ parent', y.Placed t parent' := by
  induction h generalizing parent with
  | here => exact ⟨_, hx.2.1⟩
  | within _ hitem _ ih => exact ih (placedAll_iff.mp hx.2 _ hitem)

/-- **A form that a body evaluates**: the last one, in whose place the body stands, or one before it that has an effect. -/
inductive IsForm (tail : Bool) : List Term → Bool → Term → Prop
  | last {x : Term} : IsForm tail [x] tail x
  | form {x y : Term} {xs : List Term} (hx : x.isLiteral = false) : IsForm tail (x :: y :: xs) false x
  | later {x y z : Term} {xs : List Term} {tail' : Bool} (hz : IsForm tail (y :: xs) tail' z) :
      IsForm tail (x :: y :: xs) tail' z

theorem IsForm.mem {tail tail' : Bool} {xs : List Term} {x : Term} (h : IsForm tail xs tail' x) : x ∈ xs := by
  induction h with
  | last => exact List.mem_cons_self
  | form => exact List.mem_cons_self
  | later _ ih => exact List.mem_cons_of_mem _ ih

/-- **What a term evaluates** in the code of the lambda that it stands in. The flags say which of the terms are in tail
position. The body of a nested lambda is other code, and quoted data are evaluated only where a template has a hole. -/
inductive Evaluates : Bool → Term → Bool → Term → Prop
  | operator {tail : Bool} {h h' : Handle} {inner args : List Term} :
      Evaluates tail (.application h .code (.application h' .code inner :: args)) false (.application h' .code inner)
  | argument {tail : Bool} {h : Handle} {operator y : Term} {args : List Term}
      (hoperator : ∀ word, operator ≠ .atom (.keyword word)) (hy : y ∈ args) :
      Evaluates tail (.application h .code (operator :: args)) false y
  | operand {tail : Bool} {h : Handle} {word : String} {y : Term} {args : List Term}
      (hword : (arithmeticOf? word).isSome ∨ (fixedOf? word).isSome ∨ word = "display") (hy : y ∈ args) :
      Evaluates tail (.application h .code (.atom (.keyword word) :: args)) false y
  | right {tail : Bool} {h : Handle} {word : String} {target y : Term} (hword : word = "define" ∨ word = "set!")
      (hy : y.isLambda = false) : Evaluates tail (.application h .code [.atom (.keyword word), target, y]) false y
  | test {tail : Bool} {h : Handle} {y : Term} {branches : List Term} :
      Evaluates tail (.application h .code (.atom (.keyword "if") :: y :: branches)) false y
  | branch {tail : Bool} {h : Handle} {test y : Term} {branches : List Term} (hy : y ∈ branches) :
      Evaluates tail (.application h .code (.atom (.keyword "if") :: test :: branches)) tail y
  | clause {tail conjunction : Bool} {h : Handle} {y last : Term} {clauses : List Term} (hy : y ∈ clauses) :
      Evaluates tail
        (.application h .code (.atom (.keyword (if conjunction then "and" else "or")) :: (clauses ++ [last]))) false y
  | lastClause {tail conjunction : Bool} {h : Handle} {last : Term} {clauses : List Term} :
      Evaluates tail
        (.application h .code (.atom (.keyword (if conjunction then "and" else "or")) :: (clauses ++ [last]))) tail last
  | form {tail tail' : Bool} {h : Handle} {y : Term} {forms : List Term} (hy : IsForm tail forms tail' y) :
      Evaluates tail (.application h .code (.atom (.keyword "begin") :: forms)) tail' y
  | hole {tail : Bool} {h : Handle} {items : List Term} {item y : Term} (hitem : item ∈ items) (hy : HasHole item y) :
      Evaluates tail (.application h .quasiquote items) false y

/-- **The terms that are evaluated in a body**: its forms, and whatever these evaluate. -/
inductive EvaluatedIn (body : List Term) : Bool → Term → Prop
  | form {tail : Bool} {x : Term} (hx : IsForm true body tail x) : EvaluatedIn body tail x
  | part {tail tail' : Bool} {x y : Term} (hx : EvaluatedIn body tail x) (hy : x.Evaluates tail tail' y) :
      EvaluatedIn body tail' y

end Term

/-! ### Lines among lines -/

section Infix

variable {o : String} {d : Nat} {q : Piece} {ps : List Piece}

theorem infix_valuedLines (o : String) (d : Nat) (yields : Bool) (ls : List Line) : ls <:+: valuedLines o d yields ls := by
  cases yields with
  | true => exact List.infix_refl ls
  | false => exact (List.prefix_append ls _).isInfix

theorem infix_droppedLines (o : String) (d : Nat) (yields : Bool) (ls : List Line) :
    ls <:+: droppedLines o d yields ls := by
  cases yields with
  | true => exact (List.prefix_append ls _).isInfix
  | false => exact List.infix_refl ls

theorem infix_linesAll (hq : q ∈ ps) (d : Nat) : ∃ e, q.lines o e <:+: linesAll o d ps := by
  induction ps generalizing d with
  | nil => cases hq
  | cons p ps ih =>
    rw [linesAll]
    rcases List.mem_cons.mp hq with rfl | hq
    · exact ⟨d, (infix_valuedLines o d _ _).trans (List.prefix_append _ _).isInfix⟩
    · obtain ⟨e, he⟩ := ih hq (d + 1)
      exact ⟨e, he.trans (List.suffix_append _ _).isInfix⟩

theorem infix_linesThen (hq : q ∈ ps) (d : Nat) (i : Instruction) : q.lines o d <:+: linesThen o d i ps := by
  induction ps with
  | nil => cases hq
  | cons p ps ih =>
    rw [linesThen]
    rcases List.mem_cons.mp hq with rfl | hq
    · exact (infix_valuedLines o d _ _).trans (List.prefix_append _ _).isInfix
    · exact (ih hq).trans ((List.suffix_cons _ _).trans (List.suffix_append _ _)).isInfix

theorem infix_linesDropped (hq : q ∈ ps) (d : Nat) : q.lines o d <:+: linesDropped o d ps := by
  induction ps with
  | nil => cases hq
  | cons p ps ih =>
    rw [linesDropped]
    rcases List.mem_cons.mp hq with rfl | hq
    · exact (infix_droppedLines o d _ _).trans (List.prefix_append _ _).isInfix
    · exact (ih hq).trans (List.suffix_append _ _).isInfix

theorem infix_linesOf {blocks : List Block} {b : Block} (hb : b ∈ blocks) : b.lines <:+: Program.linesOf blocks := by
  obtain ⟨before, after, rfl⟩ := List.append_of_mem hb
  rw [Program.linesOf, List.flatMap_append, List.flatMap_cons, ← List.append_assoc]
  exact (List.infix_append _ _ _).trans ((List.suffix_cons _ _).trans (List.suffix_cons _ _)).isInfix

/-- A stretch of a list begins somewhere in it. -/
theorem exists_drop_of_infix {α : Type} {xs ys : List α} (h : xs <:+: ys) : ∃ start, xs <+: ys.drop start := by
  obtain ⟨before, after, rfl⟩ := h
  refine ⟨before.length, after, ?_⟩
  rw [List.append_assoc before, List.drop_left]

end Infix

/-! ### The pieces of keywords -/

section Keywords

variable {t : Tree} {K : Table Handle Constant} {M h : Handle} {tail : Bool} {args : List Term} {q : Piece}

/-- The pieces of definitions and assignments. -/
theorem Lowers.of_assignment {word : String} {target right : Term} (hword : word = "define" ∨ word = "set!")
    (hx : Lowers t K M tail (.application h .code [.atom (.keyword word), target, right]) q) :
    ∃ op name p, q = .assignment op name p ∧ LowersRight t K M right p := by
  generalize hargs : [target, right] = args at hx
  cases hx with
  | define hright =>
    cases hargs
    exact ⟨_, _, _, rfl, hright⟩
  | assign hright =>
    cases hargs
    exact ⟨_, _, _, rfl, hright⟩
  | @connective _ conjunction => cases conjunction <;> simp at hword
  | declaration hdeclared => rcases hdeclared with rfl | rfl <;> simp at hword
  | arithmetic hop => rcases hword with rfl | rfl <;> cases hop
  | primitive hop => rcases hword with rfl | rfl <;> cases hop
  | sequence | conditionalShort => simp at hword
  | _ => cases hargs

/-- The pieces of `if`. -/
theorem Lowers.of_conditional {test : Term} {branches : List Term}
    (hx : Lowers t K M tail (.application h .code (.atom (.keyword "if") :: test :: branches)) q) :
    ∃ n p yes no, q = .conditional n p yes no ∧ Lowers t K M false test p ∧
      ∀ y ∈ branches, Lowers t K M tail y yes ∨ Lowers t K M tail y no := by
  generalize hword : "if" = word at hx
  generalize hargs : test :: branches = args at hx
  cases hx with
  | conditional htest hyes hno =>
    cases hargs
    refine ⟨_, _, _, _, rfl, htest, fun y hy => ?_⟩
    rcases List.mem_pair.mp hy with rfl | rfl
    · exact Or.inl hyes
    · exact Or.inr hno
  | conditionalShort htest hyes =>
    cases hargs
    refine ⟨_, _, _, _, rfl, htest, fun y hy => ?_⟩
    obtain rfl := List.mem_singleton.mp hy
    exact Or.inl hyes
  | @connective _ conjunction => cases conjunction <;> simp at hword
  | connectiveNone | newline | arithmeticNone => cases hargs
  | declaration hdeclared => rcases hdeclared with rfl | rfl <;> simp at hword
  | arithmeticNeutral hop => subst hword; cases hop
  | arithmetic hop => subst hword; cases hop
  | primitive hop => subst hword; cases hop
  | _ => simp at hword

/-- The pieces of `begin`. -/
theorem Lowers.of_sequence {forms : List Term}
    (hx : Lowers t K M tail (.application h .code (.atom (.keyword "begin") :: forms)) q) :
    ∃ ps p, q = .body ps p ∧ LowersForms t K M tail forms ps p := by
  generalize hword : "begin" = word at hx
  cases hx with
  | sequence hforms => exact ⟨_, _, rfl, hforms⟩
  | @connective _ conjunction => cases conjunction <;> simp at hword
  | @connectiveNone _ conjunction => cases conjunction <;> simp at hword
  | declaration hdeclared => rcases hdeclared with rfl | rfl <;> simp at hword
  | arithmeticNone hop => rcases hop with ⟨rfl, -⟩ | ⟨rfl, -⟩ <;> simp at hword
  | arithmeticNeutral hop => subst hword; cases hop
  | arithmetic hop => subst hword; cases hop
  | primitive hop => subst hword; cases hop
  | _ => simp at hword

/-- The pieces of `and` and `or`. -/
theorem Lowers.of_connective {conjunction : Bool}
    (hx : Lowers t K M tail (.application h .code (.atom (.keyword (if conjunction then "and" else "or")) :: args)) q) :
    (args = [] ∧ q = .push (.atom (.boolean conjunction))) ∨
    ∃ n clauses last ps p returns, args = clauses ++ [last] ∧ q = .connective conjunction n ps p returns ∧
      LowersAll t K M clauses ps ∧ Lowers t K M tail last p ∧ (returns = true → p.IsTailCall) := by
  -- two rules speak of connectives; the words of all others are different ones
  generalize hx' : Term.application h .code (.atom (.keyword (if conjunction then "and" else "or")) :: args) = x at hx
  cases hx with
  | @connectiveNone _ conjunction' =>
    obtain rfl : conjunction = conjunction' := by
      cases conjunction <;> cases conjunction' <;> simp_all
    simp only [Term.application.injEq, List.cons.injEq] at hx'
    exact Or.inl ⟨hx'.2.2.2, rfl⟩
  | @connective _ conjunction' returns h n clauses last ps p hclauses hlast hreturns =>
    obtain rfl : conjunction = conjunction' := by
      cases conjunction <;> cases conjunction' <;> simp_all
    simp only [Term.application.injEq, List.cons.injEq] at hx'
    exact Or.inr ⟨n, clauses, last, ps, p, returns, hx'.2.2.2, rfl, hclauses, hlast, hreturns⟩
  | declaration hword =>
    rcases hword with rfl | rfl <;> cases conjunction <;> simp at hx'
  | arithmeticNone hword =>
    rcases hword with ⟨rfl, -⟩ | ⟨rfl, -⟩ <;> cases conjunction <;> simp at hx'
  | arithmeticNeutral hop | arithmetic hop =>
    simp only [Term.application.injEq, List.cons.injEq, Term.atom.injEq, Atom.keyword.injEq] at hx'
    obtain ⟨-, -, rfl, -⟩ := hx'
    cases conjunction <;> cases hop
  | primitive hop =>
    simp only [Term.application.injEq, List.cons.injEq, Term.atom.injEq, Atom.keyword.injEq] at hx'
    obtain ⟨-, -, rfl, -⟩ := hx'
    cases conjunction <;> cases hop
  | _ => cases conjunction <;> simp at hx'

end Keywords

/-! ### The pieces of what is evaluated -/

section Pieces

variable {t : Tree} {K : Table Handle Constant} {M : Handle} {tail : Bool} {x y : Term} {xs : List Term} {p q : Piece}
  {ps : List Piece}

theorem LowersAll.exists_piece (h : LowersAll t K M xs ps) (hy : y ∈ xs) : ∃ q ∈ ps, Lowers t K M false y q := by
  induction xs generalizing ps with
  | nil => cases hy
  | cons x xs ih =>
    cases h with
    | @cons _ _ p ps hx hxs =>
      rcases List.mem_cons.mp hy with rfl | hy
      · exact ⟨p, List.mem_cons_self, hx⟩
      · obtain ⟨q, hq, hlowers⟩ := ih hxs hy
        exact ⟨q, List.mem_cons_of_mem p hq, hlowers⟩

theorem LowersItems.exists_piece (h : LowersItems t K M xs ps) (hy : y ∈ xs) : ∃ q ∈ ps, LowersItem t K M y q := by
  induction xs generalizing ps with
  | nil => cases hy
  | cons x xs ih =>
    cases h with
    | @cons _ _ p ps hx hxs =>
      rcases List.mem_cons.mp hy with rfl | hy
      · exact ⟨p, List.mem_cons_self, hx⟩
      · obtain ⟨q, hq, hlowers⟩ := ih hxs hy
        exact ⟨q, List.mem_cons_of_mem p hq, hlowers⟩

/-- **The piece of a term stands among lines.** In tail position there are no operands below it. -/
def Piece.Stands (t : Tree) (K : Table Handle Constant) (M : Handle) (tail : Bool) (x : Term) (ls : List Line) : Prop :=
  ∃ q d, Lowers t K M tail x q ∧ (tail = true → d = 0) ∧ q.lines (Handle.label M) d <:+: ls

theorem Piece.Stands.mono {ls ls' : List Line} (h : Stands t K M tail x ls) (hsub : ls <:+: ls') :
    Stands t K M tail x ls' := by
  obtain ⟨q, d, hq, hd, hlines⟩ := h
  exact ⟨q, d, hq, hd, hlines.trans hsub⟩

theorem Lowers.stands (h : Lowers t K M tail x q) {d : Nat} (hd : tail = true → d = 0) :
    Stands t K M tail x (valuedLines (Handle.label M) d q.yields (q.lines (Handle.label M) d)) :=
  ⟨q, d, h, hd, infix_valuedLines _ _ _ _⟩

theorem LowersAll.stands (h : LowersAll t K M xs ps) (hy : y ∈ xs) (d : Nat) :
    Stands t K M false y (linesAll (Handle.label M) d ps) := by
  obtain ⟨q, hq, hlowers⟩ := h.exists_piece hy
  obtain ⟨e, he⟩ := infix_linesAll hq d
  exact ⟨q, e, hlowers, by simp, he⟩

theorem LowersAll.stands_then (h : LowersAll t K M xs ps) (hy : y ∈ xs) (d : Nat) (i : Instruction) :
    Stands t K M false y (linesThen (Handle.label M) d i ps) := by
  obtain ⟨q, hq, hlowers⟩ := h.exists_piece hy
  exact ⟨q, d, hlowers, by simp, infix_linesThen hq d i⟩

theorem LowersForms.stands {tail' : Bool} (h : LowersForms t K M tail xs ps p) (hy : Term.IsForm tail xs tail' y) {d : Nat}
    (hd : tail = true → d = 0) :
    Stands t K M tail' y (linesDropped (Handle.label M) d ps ++
      valuedLines (Handle.label M) d p.yields (p.lines (Handle.label M) d)) := by
  induction hy generalizing ps with
  | last =>
    cases h with
    | last hx => exact (hx.stands hd).mono (List.suffix_append _ _).isInfix
  | form hliteral =>
    cases h with
    | skip hx => exact absurd (hx.symm.trans hliteral) (by simp)
    | @form _ _ _ _ q _ _ _ hq =>
      exact ⟨q, d, hq, by simp,
        (infix_linesDropped List.mem_cons_self d).trans (List.prefix_append _ _).isInfix⟩
  | later hz ih =>
    cases h with
    | skip hx hxs => exact ih hxs
    | form hx hq hxs =>
      refine (ih hxs).mono ?_
      rw [linesDropped, List.append_assoc]
      exact (List.suffix_append _ _).isInfix

variable {parent : Option Handle}

/-- A hole in a constant would be a constant. -/
theorem Term.HasHole.not_kept (h : x.HasHole y) (hplaced : x.Placed t parent)
    (hholes : ∀ h parent children, t.get? h = some (.application parent .unquote children) → K.find? h = none) :
    ¬x.Kept K := by
  induction h generalizing parent with
  | here =>
    intro hkept
    exact absurd ((hholes _ _ _ hplaced.1).symm.trans hkept.1) (by simp)
  | within hq hitem hx ih =>
    intro hkept
    exact ih (placedAll_iff.mp hplaced.2 _ hitem) (keptAll_iff.mp hkept.2 _ hitem)

/-- **The lines of an item of a template** hold those of what stands in its holes. -/
theorem LowersItem.stands (hitem : LowersItem t K M x q) (hhole : x.HasHole y) (hplaced : x.Placed t parent)
    (hholes : ∀ h parent children, t.get? h = some (.application parent .unquote children) → K.find? h = none) (d : Nat) :
    Stands t K M false y (q.lines (Handle.label M) d) := by
  induction hhole generalizing q parent d with
  | here =>
    cases hitem with
    | hole hx => exact ⟨q, d, hx, by simp, List.infix_refl _⟩
    | constant hq => exact absurd rfl hq
    | list hq => exact absurd rfl hq
  | within hq hmem hx ih =>
    cases hitem with
    | hole => exact absurd rfl hq
    | constant _ hk => exact absurd hk (Term.HasHole.not_kept (.within hq hmem hx) hplaced hholes)
    | list _ hitems hk =>
      obtain ⟨q, hq, hlowers⟩ := hitems.exists_piece hmem
      obtain ⟨e, he⟩ := infix_linesAll hq d
      refine (ih hlowers (placedAll_iff.mp hplaced.2 _ hmem) e).mono (he.trans ?_)
      rw [lines]
      exact (List.prefix_append _ _).isInfix

/-- **The lines of a term hold those of what it evaluates.** -/
theorem Lowers.stands_evaluated {tail' : Bool} (hx : Lowers t K M tail x q) (hplaced : x.Placed t parent)
    --  operand hword hy =>|the operands of a primitive: only those of some words are evaluated in order
    (hholes : ∀ h parent children, t.get? h = some (.application parent .unquote children) → K.find? h = none)
    (hy : x.Evaluates tail tail' y) {d : Nat} (hd : tail = true → d = 0) :
    Stands t K M tail' y (q.lines (Handle.label M) d) := by
  -- one way to be evaluated after the other; the form around tells what the piece is and where in it the lines stand
  cases hy with
  | operator =>
    cases hx with
    | computedCall _ hargs =>
      rw [lines]
      exact (hargs.stands List.mem_cons_self d).mono ((List.suffix_cons _ _).isInfix.trans (List.infix_append _ _ _))
  | argument hoperator hy =>
    cases hx with
    | call _ hargs =>
      rw [lines]
      exact (hargs.stands hy d).mono (List.prefix_append _ _).isInfix
    | lambdaCall _ _ hargs =>
      rw [lines]
      exact (hargs.stands hy d).mono (List.prefix_append _ _).isInfix
    | computedCall _ hargs =>
      rw [lines]
      exact (hargs.stands (List.mem_cons_of_mem _ hy) d).mono
        ((List.suffix_cons _ _).isInfix.trans (List.infix_append _ _ _))
    | _ => exact absurd rfl (hoperator _)
  | operand hword hy =>
    cases hx with
    | display hp =>
      obtain rfl := List.mem_singleton.mp hy
      rw [lines]
      exact (hp.stands (by simp)).mono (List.prefix_append _ _).isInfix
    | arithmeticNeutral _ _ hp =>
      rw [lines]
      exact ((LowersAll.cons hp .nil).stands_then hy _ _).mono (List.suffix_append _ _).isInfix
    | arithmetic _ _ hp hps =>
      rw [lines]
      rcases List.mem_cons.mp hy with rfl | hy
      · exact (hp.stands (by simp)).mono (List.prefix_append _ _).isInfix
      · exact (hps.stands_then hy _ _).mono (List.suffix_append _ _).isInfix
    | primitive _ hps =>
      rw [lines]
      exact (hps.stands hy d).mono (List.prefix_append _ _).isInfix
    | connectiveNone | newline | arithmeticNone => cases hy
    | @connective _ conjunction => cases conjunction <;> simp [arithmeticOf?, fixedOf?] at hword
    | declaration hdeclared => rcases hdeclared with rfl | rfl <;> simp [arithmeticOf?, fixedOf?] at hword
    | _ => simp [arithmeticOf?, fixedOf?] at hword
  | right hword hy =>
    obtain ⟨op, name, p, rfl, hright⟩ := Lowers.of_assignment hword hx
    cases hright with
    | lambda => cases hy
    | other _ hp =>
      rw [lines]
      exact (hp.stands (by simp)).mono (List.prefix_append _ _).isInfix
  | test =>
    obtain ⟨n, p, yes, no, rfl, hp, -⟩ := hx.of_conditional
    rw [lines]
    refine (hp.stands (d := d) (by simp)).mono (List.IsPrefix.isInfix ?_)
    exact ((List.prefix_append _ _).trans (List.prefix_append _ _)).trans (List.prefix_append _ _)
  | branch hy =>
    obtain ⟨n, p, yes, no, rfl, -, hbranches⟩ := hx.of_conditional
    rw [lines]
    rcases hbranches _ hy with hyes | hno
    · refine (hyes.stands hd).mono (List.IsInfix.trans ?_ (List.prefix_append _ _).isInfix)
      exact ((List.suffix_cons _ _).trans (List.suffix_cons _ _)).isInfix.trans (List.suffix_append _ _).isInfix
    · refine (hno.stands hd).mono (List.IsInfix.trans ?_ ((List.prefix_append _ _).trans (List.prefix_append _ _)).isInfix)
      exact ((List.suffix_cons _ _).trans (List.suffix_append _ _)).isInfix
  | @clause conjunction _ _ _ _ hy =>
    rcases hx.of_connective with ⟨hnone, -⟩ | ⟨n, clauses, last, ps, p, returns, hargs, rfl, hclauses, -⟩
    · cases (List.append_eq_nil_iff.mp hnone).2
    · obtain ⟨rfl, -⟩ := List.append_inj' hargs rfl
      rw [lines]
      refine (hclauses.stands_then hy d (clauseJump conjunction n)).mono (List.IsPrefix.isInfix ?_)
      exact ((List.prefix_append _ _).trans (List.prefix_append _ _)).trans (List.prefix_append _ _)
  | lastClause =>
    rcases hx.of_connective with ⟨hnone, -⟩ | ⟨n, clauses, last, ps, p, returns, hargs, rfl, -, hlast, -⟩
    · cases (List.append_eq_nil_iff.mp hnone).2
    · obtain ⟨-, hlast'⟩ := List.append_inj' hargs rfl
      cases hlast'
      rw [lines]
      exact (hlast.stands hd).mono
        ((List.suffix_append _ _).isInfix.trans ((List.prefix_append _ _).trans (List.prefix_append _ _)).isInfix)
  | form hy =>
    obtain ⟨ps, p, rfl, hforms⟩ := hx.of_sequence
    rw [lines]
    exact hforms.stands hy hd
  | hole hitem hy =>
    cases hx with
    | template hp => exact hp.stands (.within (by simp) hitem hy) hplaced hholes d

/-- What a term of a tree evaluates is in the tree too. -/
theorem Term.Evaluates.placed {tail' : Bool} (h : x.Evaluates tail tail' y) (hplaced : x.Placed t parent) :
    ∃ parent', y.Placed t parent' := by
  have hitem {h : Handle} {quotation : Quotation} {items : List Term} (hy : y ∈ items)
      (hplaced : (Term.application h quotation items).Placed t parent) : ∃ parent', y.Placed t parent' :=
    ⟨_, placedAll_iff.mp hplaced.2 y hy⟩
  cases h with
  | operator => exact hitem List.mem_cons_self hplaced
  | argument _ hy | operand _ hy => exact hitem (List.mem_cons_of_mem _ hy) hplaced
  | right => exact hitem (by simp) hplaced
  | test => exact hitem (by simp) hplaced
  | branch hy => exact hitem (by simp [hy]) hplaced
  | clause hy => exact hitem (by simp [hy]) hplaced
  | lastClause => exact hitem (by simp) hplaced
  | form hy => exact hitem (List.mem_cons_of_mem _ hy.mem) hplaced
  | hole hmem hy => exact hy.placed (placedAll_iff.mp hplaced.2 _ hmem)

end Pieces

/-! ### Compiled programs -/

variable {t : Tree} {roots : List Term} {blocks : List Block} {p : Program} {M : Handle} {parent : Option Handle}
  {parameters : List String} {body : List Term} {tail : Bool} {x : Term}

/-- The lines of a body hold those of what is evaluated in it. -/
theorem LowersForms.stands_evaluated {K : Table Handle Constant} {ps : List Piece} {q : Piece}
    (hforms : LowersForms t K M true body ps q) (hbody : PlacedAll t parent body)
    (hholes : ∀ h parent children, t.get? h = some (.application parent .unquote children) → K.find? h = none)
    (hx : Term.EvaluatedIn body tail x) :
    (∃ parent', x.Placed t parent') ∧ Stands t K M tail x ((Piece.body ps q).lines (Handle.label M) 0) := by
  induction hx with
  | form hx =>
    rw [lines]
    exact ⟨⟨_, placedAll_iff.mp hbody _ hx.mem⟩, hforms.stands hx fun _ => rfl⟩
  | part hx hy ih =>
    obtain ⟨⟨parent', hplaced⟩, q, d, hlowers, hd, hlines⟩ := ih
    exact ⟨hy.placed hplaced, (hlowers.stands_evaluated hplaced hholes hy hd).mono hlines⟩

/-- **Whatever a lambda of the tree evaluates has its piece at a place of the program**, both the lines and the code. -/
theorem Program.Compiled.exists_place (hp : p.Compiled t roots blocks) (hM : (Term.lambda M parameters body).Placed t parent)
    (hx : Term.EvaluatedIn body tail x) :
    (∃ parent', x.Placed t parent') ∧ ∃ q d start, Lowers t p.constants M tail x q ∧ (tail = true → d = 0) ∧
      q.lines (Handle.label M) d <+: (Program.linesOf blocks).drop start ∧ q.code <+: p.code.toList.drop start := by
  obtain ⟨b, hb, rfl⟩ := hp.exists_block hM.1
  obtain ⟨forms, hforms⟩ := hp.blocks b hb
  obtain ⟨ps, last, hbody, hlowered⟩ := hforms.lowered
  obtain ⟨parent', hnode⟩ := hforms.node
  obtain rfl : body = forms := by
    refine PlacedAll.unique hM.2 hforms.sits.placed ?_
    have hsame := hM.1.symm.trans hnode
    rw [Option.some.injEq, Node.lambda.injEq] at hsame
    exact hsame.2.2
  obtain ⟨hplaced, q, d, hlowers, hd, hlines⟩ := hlowered.stands_evaluated hM.2 hp.holes hx
  refine ⟨hplaced, ?_⟩
  -- the body is a stretch of its block, and the block one of the program
  have hblock : (Piece.body ps last).lines (Handle.label b.handle) 0 <:+: b.lines := by
    rw [← hbody]
    have hvalued := infix_valuedLines (Handle.label b.handle) 0 b.body.yields (b.body.lines (Handle.label b.handle) 0)
    exact (hvalued.trans (List.infix_append _ _ _)).trans ((List.suffix_cons _ _).trans (List.suffix_cons _ _)).isInfix
  obtain ⟨start, hstart⟩ := exists_drop_of_infix (hlines.trans (hblock.trans (infix_linesOf hb)))
  refine ⟨q, d, start, hlowers, hd, hstart, ?_⟩
  rw [hp.code, List.toList_toArray, ← Program.map_linesOf, ← Piece.map_lines q d, ← List.map_drop]
  exact hstart.map _

/-- **Whatever is evaluated in a source that compiles has its piece at a place of the program.** -/
theorem Program.exists_place {source : String} (hp : Program.compile source = .ok p) :
    ∃ t blocks stock, (Tree.parse source >>= Tree.analyse) = .ok t ∧ t.blocks = .ok (blocks, stock) ∧
      ∀ (M : Handle) (parent : Option Handle) (parameters : List String) (body : List Term),
        (Term.lambda M parameters body).Placed t parent → ∀ tail x, Term.EvaluatedIn body tail x →
        (∃ parent', x.Placed t parent') ∧ ∃ q d start, Lowers t p.constants M tail x q ∧ (tail = true → d = 0) ∧
          q.lines (Handle.label M) d <+: (Program.linesOf blocks).drop start ∧ q.code <+: p.code.toList.drop start := by
  obtain ⟨t, roots, blocks, ht, hcompiled⟩ := Program.compiled_compile hp
  obtain ⟨stock, hblocks⟩ := hcompiled.lowered
  exact ⟨t, blocks, stock, ht, hblocks, fun M parent parameters body hM tail x hx => hcompiled.exists_place hM hx⟩

end SchemeMachine
