import SchemeMachine.Proofs.Lowering.Compiled
import SchemeMachine.Proofs.TailCall.Lowering

/-!
# Code with and without tail calls

Without tail calls a program has the same instructions at the same places, except that a tail call is a call that is
followed by nothing but the way to a return. This holds where no tail call stands in `and` or `or`, which look at the
value of a call that comes back.

* `Exits` says that code goes on to a return and does nothing else before.
* `Aligned` compares code with and without tail calls, instruction by instruction.
* `Piece.Tailed` says where the tail calls of a piece are; `Lowers.tailed` derives it from where the marks of the tree
  are, `Piece.aligned` uses it.
* `Program.Untails` says it of whole programs, and `Tree.Analysed.untails` proves it.
-/

namespace SchemeMachine

open Lowering Piece

/-! ### Code that returns -/

/-- **Places from which code goes on to a return** and does nothing else before. -/
inductive Exits (code : Array Instruction) : Nat → Prop
  | ret {pc : Nat} (hi : code[pc]? = some (plain .ret)) : Exits code pc
  | label {pc : Nat} {name : String} (hi : code[pc]? = some (.label name)) (hnext : Exits code (pc + 1)) : Exits code pc
  | goto {pc place : Nat} {name : String} (hi : code[pc]? = some (toLabel .goto name))
      (hplace : code[place]? = some (.label name)) (hnext : Exits code place) : Exits code pc

/-- Code stands at a place. -/
def CodeAt (code : Array Instruction) (a : Nat) (ds : Code) : Prop := ∀ k i, ds[k]? = some i → code[a + k]? = some i

/-- **Code and the same code without tail calls**, which stands at a place. A call in place of a tail call is followed
by the way to a return. -/
inductive Aligned (code : Array Instruction) : Nat → Code → Code → Prop
  | nil (a : Nat) : Aligned code a [] []
  | same {a : Nat} {i : Instruction} {cs ds : Code} (h : Aligned code (a + 1) cs ds) : Aligned code a (i :: cs) (i :: ds)
  | tail {a : Nat} {target : Operand} {cs ds : Code} (hexits : Exits code (a + 1)) (h : Aligned code (a + 1) cs ds) :
      Aligned code a (callTo true target :: cs) (callTo false target :: ds)

variable {code : Array Instruction} {a : Nat} {cs cs' ds ds' : Code}

namespace CodeAt

theorem left (h : CodeAt code a (ds ++ ds')) : CodeAt code a ds :=
  fun k i hk => h k i (by rw [List.getElem?_append_left (List.getElem?_eq_some_iff.mp hk).1, hk])

theorem right (h : CodeAt code a (ds ++ ds')) : CodeAt code (a + ds.length) ds' := by
  intro k i hk
  rw [Nat.add_assoc]
  exact h _ i (by rw [List.getElem?_append_right (Nat.le_add_right _ _), Nat.add_sub_cancel_left, hk])

theorem head {i : Instruction} (h : CodeAt code a (i :: ds)) : code[a]? = some i := h 0 i rfl

theorem tail {i : Instruction} (h : CodeAt code a (i :: ds)) : CodeAt code (a + 1) ds := by
  intro k j hk
  rw [Nat.add_assoc, Nat.add_comm 1]
  exact h (k + 1) j hk

end CodeAt

namespace Aligned

theorem refl (cs : Code) (a : Nat) : Aligned code a cs cs := by
  induction cs generalizing a with
  | nil => exact .nil a
  | cons i cs ih => exact .same (ih (a + 1))

theorem append (h : Aligned code a cs ds) (h' : Aligned code (a + ds.length) cs' ds') :
    Aligned code a (cs ++ cs') (ds ++ ds') := by
  induction h with
  | nil => exact h'
  | same _ ih =>
    refine .same (ih ?_)
    rwa [List.length_cons, Nat.add_comm _ 1, ← Nat.add_assoc] at h'
  | tail hexits _ ih =>
    refine .tail hexits (ih ?_)
    rwa [List.length_cons, Nat.add_comm _ 1, ← Nat.add_assoc] at h'

/-- Code that is the same on both sides may follow. -/
theorem concat (h : Aligned code a cs ds) (es : Code) : Aligned code a (cs ++ es) (ds ++ es) :=
  h.append (.refl es _)

/-- Tail calls are no labels. -/
theorem enter_eq (h : Aligned code a cs ds) (labels : LabelTable) (place : Nat) :
    LabelTable.enter labels place cs = LabelTable.enter labels place ds := by
  induction h generalizing labels place with
  | nil => rfl
  | @same a i cs ds _ ih =>
    cases i with
    | label name =>
      unfold LabelTable.enter
      split
      · rfl
      · exact ih _ _
    | _ => exact ih _ _
  | tail _ _ ih => exact ih _ _

/-- **What stands at a place** on both sides. -/
theorem getElem? (h : Aligned code a cs ds) (k : Nat) :
    cs[k]? = ds[k]? ∨ ∃ target, cs[k]? = some (callTo true target) ∧ ds[k]? = some (callTo false target) ∧
      Exits code (a + k + 1) := by
  induction h generalizing k with
  | nil => exact Or.inl rfl
  | @same a i cs ds _ ih =>
    cases k with
    | zero => exact Or.inl rfl
    | succ k =>
      rw [← Nat.add_assoc, Nat.add_right_comm a k 1]
      exact ih k
  | @tail a target cs ds hexits _ ih =>
    cases k with
    | zero => exact Or.inr ⟨target, rfl, rfl, hexits⟩
    | succ k =>
      rw [← Nat.add_assoc, Nat.add_right_comm a k 1]
      exact ih k

end Aligned

/-! ### Where tail calls are -/

namespace Piece

mutual

/-- **Tail calls in tail position only**, and none in `and` or `or`. The flag says whether the piece is in tail
position. -/
def Tailed (tail : Bool) : Piece → Prop
  | .call marked _ args => (marked = true → tail = true) ∧ TailedAll args
  | .computedCall marked _ operands => (marked = true → tail = true) ∧ TailedAll operands
  | .assignment _ _ right => right.Tailed false
  | .conditional _ test yes no => test.Tailed false ∧ yes.Tailed tail ∧ no.Tailed tail
  | .connective _ _ clauses last returns => returns = false ∧ TailedAll clauses ∧ last.Tailed false
  | .body forms last => TailedAll forms ∧ last.Tailed tail
  | .display shown => shown.Tailed false
  | .primitive _ args => TailedAll args
  | .arithmetic _ first rest => first.Tailed false ∧ TailedAll rest
  | .template items _ => TailedAll items
  | _ => True

/-- No tail calls in any of several pieces. -/
def TailedAll : List Piece → Prop
  | [] => True
  | p :: ps => p.Tailed false ∧ TailedAll ps

end

/-- What has no tail calls to begin with may stand in tail position. -/
theorem Tailed.weaken (tail : Bool) : {p : Piece} → p.Tailed false → p.Tailed tail
  | .call .., h => ⟨fun hm => absurd (h.1 hm) Bool.false_ne_true, h.2⟩
  | .computedCall .., h => ⟨fun hm => absurd (h.1 hm) Bool.false_ne_true, h.2⟩
  | .conditional .., h => ⟨h.1, h.2.1.weaken tail, h.2.2.weaken tail⟩
  | .body .., h => ⟨h.1, h.2.weaken tail⟩
  | .assignment .., h | .connective .., h | .display _, h | .primitive .., h | .arithmetic .., h | .template .., h => h
  | .push _, h | .load _, h | .closure _, h => h
  | .callWithContinuation .., h | .fork _, h | .newline, h | .declaration, h => h

/-- A statement makes no tail call. -/
theorem Tailed.of_not_yields {p : Piece} {tail : Bool} (h : p.Tailed tail) (hp : p.yields = false) : p.Tailed false := by
  cases p <;> first
    | exact h
    | cases hp

end Piece

/-- **A node in an `and` or `or` form of its lambda**, or the form itself. -/
inductive Tree.Connects (t : Tree) : Handle → Prop
  | form {h : Handle} {parent : Option Handle} {word : String} {clauses : List Child}
      (hn : t.get? h = some (.application parent .code (.atom (.keyword word) :: clauses)))
      (hword : word = "and" ∨ word = "or") : Connects t h
  | inside {h parent : Handle} {quotation : Quotation} {children : List Child}
      (hn : t.get? h = some (.application (some parent) quotation children)) (hparent : Connects t parent) : Connects t h

/-- Whether a node may be in an `and` or `or` form of its lambda, with a look at `fuel` nodes at most. -/
def Tree.mayConnect (t : Tree) : (fuel : Nat) → Handle → Bool
  | 0, _ => true
  | fuel + 1, h =>
    match t.get? h with
    | some (.application parent _ children) =>
      decide (children.head? = some (.atom (.keyword "and")) ∨ children.head? = some (.atom (.keyword "or")))
        || parent.any (t.mayConnect fuel)
    | _ => false

theorem Tree.Connects.mayConnect {t : Tree} {h : Handle} (hc : t.Connects h) (fuel : Nat) :
    t.mayConnect fuel h = true := by
  induction hc generalizing fuel with
  | form hn hword =>
    cases fuel with
    | zero => rfl
    | succ fuel => simpa [Tree.mayConnect, hn] using Or.inl hword
  | inside hn _ ih =>
    cases fuel with
    | zero => rfl
    | succ fuel => simp [Tree.mayConnect, hn, ih fuel]

section Marks

variable {t : Tree} {K : Table Handle Constant} {M : Handle}

open Term

/-- What stands below a part of `and` or `or` is a part of it. -/
theorem connects_of_placed {h : Handle} {parent : Option Handle} {quotation : Quotation} {items : List Term}
    (hx : (Term.application h quotation items).Placed t parent) (hin : ∃ g, parent = some g ∧ t.Connects g) :
    ∃ g, some h = some g ∧ t.Connects g := by
  obtain ⟨g, rfl, hg⟩ := hin
  exact ⟨h, rfl, .inside hx.1 hg⟩

mutual

/-- **The piece of a term has its tail calls in tail position.** In `and` and `or` there are none, so that the flag is
that of the term or the term is a part of such a form. -/
theorem Lowers.tailed (hfree : ∀ h, t.tailCalls.contains h = true → ¬t.Connects h) :
    {tail : Bool} → {x : Term} → {q : Piece} → Lowers t K M tail x q → {parent : Option Handle} →
    x.Placed t parent → {flag : Bool} → (flag = tail ∨ ∃ g, parent = some g ∧ t.Connects g) → q.Tailed flag
  | _, _, _, .variable _, _, _, _, _ => trivial
  | _, _, _, .keyword _, _, _, _, _ => trivial
  | _, _, _, .literal _, _, _, _, _ => trivial
  | _, _, _, .string _, _, _, _, _ => trivial
  | _, _, _, .lambda _, _, _, _, _ => trivial
  | _, _, _, .quote _, _, _, _, _ => trivial
  | _, _, _, .template hitem, _, hx, flag, _ => (hitem.tailed hfree hx).weaken flag
  | _, _, _, .call hmark hargs, _, hx, _, hflag => by
    refine ⟨fun hm => ?_, hargs.tailed hfree hx.2.2⟩
    -- a marked call is in tail position, or it would stand in an and or or, where no call is marked
    rcases hflag with rfl | hin
    · exact hmark hm
    · obtain ⟨g, hg, hin⟩ := connects_of_placed hx hin
      cases hg
      exact absurd hin (hfree _ hm)
  | _, _, _, .lambdaCall hmark _ hargs, _, hx, _, hflag => by
    refine ⟨fun hm => ?_, hargs.tailed hfree hx.2.2⟩
    rcases hflag with rfl | hin
    · exact hmark hm
    · obtain ⟨g, hg, hin⟩ := connects_of_placed hx hin
      cases hg
      exact absurd hin (hfree _ hm)
  | _, _, _, .computedCall hmark hargs, _, hx, _, hflag => by
    refine ⟨fun hm => ?_, hargs.tailed hfree hx.2⟩
    rcases hflag with rfl | hin
    · exact hmark hm
    · obtain ⟨g, hg, hin⟩ := connects_of_placed hx hin
      cases hg
      exact absurd hin (hfree _ hm)
  | _, _, _, .define hright, _, hx, _, _ => hright.tailed hfree hx.2.2.2.1
  | _, _, _, .assign hright, _, hx, _, _ => hright.tailed hfree hx.2.2.2.1
  | _, _, _, .conditional htest hyes hno, _, hx, _, hflag =>
    ⟨htest.tailed hfree hx.2.2.1 (Or.inl rfl), hyes.tailed hfree hx.2.2.2.1 (hflag.imp_right (connects_of_placed hx)),
      hno.tailed hfree hx.2.2.2.2.1 (hflag.imp_right (connects_of_placed hx))⟩
  | _, _, _, .conditionalShort htest hyes, _, hx, _, hflag =>
    ⟨htest.tailed hfree hx.2.2.1 (Or.inl rfl), hyes.tailed hfree hx.2.2.2.1 (hflag.imp_right (connects_of_placed hx)),
      trivial⟩
  | _, _, _, .connectiveNone, _, _, _, _ => trivial
  | _, _, _, @Lowers.connective _ _ _ _ c _ h _ _ _ _ _ hclauses hlast hreturns, _, hx, _, _ => by
    have hform : t.Connects h := .form hx.1 (by cases c <;> simp)
    obtain ⟨-, hitems⟩ := hx.2
    obtain ⟨hfirst, hrest⟩ := placedAll_append.mp hitems
    -- the last clause is one of tail position, but stands in the form, so that it has no tail calls
    have hlast' := @Lowers.tailed hfree _ _ _ hlast _ hrest.1 false (Or.inr ⟨h, rfl, hform⟩)
    refine ⟨?_, hclauses.tailed hfree hfirst, hlast'⟩
    rw [Bool.eq_false_iff]
    intro hr
    rcases hreturns hr with ⟨target, args, rfl⟩ | ⟨n, operands, rfl⟩
    · exact Bool.false_ne_true (hlast'.1 rfl)
    · exact Bool.false_ne_true (hlast'.1 rfl)
  | _, _, _, .sequence hforms, _, hx, _, hflag =>
    hforms.tailed hfree hx.2.2 (hflag.imp_right (connects_of_placed hx))
  | _, _, _, .callWithContinuation, _, _, _, _ => trivial
  | _, _, _, .callLambdaWithContinuation _, _, _, _, _ => trivial
  | _, _, _, .fork _ _, _, _, _, _ => trivial
  | _, _, _, .display hq, _, hx, _, _ => hq.tailed hfree hx.2.2.1 (Or.inl rfl)
  | _, _, _, .newline, _, _, _, _ => trivial
  | _, _, _, .declaration _, _, _, _, _ => trivial
  | _, _, _, .arithmeticNone _, _, _, _, _ => trivial
  | _, _, _, .arithmeticNeutral _ _ hq, _, hx, _, _ => ⟨trivial, hq.tailed hfree hx.2.2.1 (Or.inl rfl), trivial⟩
  | _, _, _, .arithmetic _ _ hq hqs, _, hx, _, _ =>
    ⟨hq.tailed hfree hx.2.2.1 (Or.inl rfl), hqs.tailed hfree hx.2.2.2⟩
  | _, _, _, .primitive _ hqs, _, hx, _, _ => hqs.tailed hfree hx.2.2

theorem LowersAll.tailed (hfree : ∀ h, t.tailCalls.contains h = true → ¬t.Connects h) :
    {xs : List Term} → {qs : List Piece} → LowersAll t K M xs qs → {parent : Option Handle} →
    PlacedAll t parent xs → TailedAll qs
  | _, _, .nil, _, _ => trivial
  | _, _, .cons hx hxs, _, hp => ⟨hx.tailed hfree hp.1 (Or.inl rfl), hxs.tailed hfree hp.2⟩

theorem LowersRight.tailed (hfree : ∀ h, t.tailCalls.contains h = true → ¬t.Connects h) :
    {x : Term} → {q : Piece} → LowersRight t K M x q → {parent : Option Handle} → x.Placed t parent → q.Tailed false
  | _, _, .lambda _, _, _ => trivial
  | _, _, .other _ hq, _, hx => hq.tailed hfree hx (Or.inl rfl)

theorem LowersForms.tailed (hfree : ∀ h, t.tailCalls.contains h = true → ¬t.Connects h) :
    {tail : Bool} → {xs : List Term} → {qs : List Piece} → {q : Piece} → LowersForms t K M tail xs qs q →
    {parent : Option Handle} → PlacedAll t parent xs → {flag : Bool} →
    (flag = tail ∨ ∃ g, parent = some g ∧ t.Connects g) → TailedAll qs ∧ q.Tailed flag
  | _, _, _, _, .empty, _, _, _, _ => ⟨trivial, trivial⟩
  | _, _, _, _, .last hx, _, hp, _, hflag => ⟨trivial, hx.tailed hfree hp.1 hflag⟩
  | _, _, _, _, .skip _ hxs, _, hp, _, hflag => hxs.tailed hfree hp.2 hflag
  | _, _, _, _, .form _ hq hxs, _, hp, _, hflag => by
    obtain ⟨hqs, hlast⟩ := hxs.tailed hfree hp.2 hflag
    exact ⟨⟨hq.tailed hfree hp.1 (Or.inl rfl), hqs⟩, hlast⟩

theorem LowersItem.tailed (hfree : ∀ h, t.tailCalls.contains h = true → ¬t.Connects h) :
    {x : Term} → {q : Piece} → LowersItem t K M x q → {parent : Option Handle} → x.Placed t parent → q.Tailed false
  | _, _, .atom _, _, _ => trivial
  | _, _, .string _, _, _ => trivial
  | _, _, .hole hx, _, hp => hx.tailed hfree hp.2.1 (Or.inl rfl)
  | _, _, .constant _ _, _, _ => trivial
  | _, _, .list _ hitems _, _, hp => hitems.tailed hfree hp.2

theorem LowersItems.tailed (hfree : ∀ h, t.tailCalls.contains h = true → ¬t.Connects h) :
    {xs : List Term} → {qs : List Piece} → LowersItems t K M xs qs → {parent : Option Handle} →
    PlacedAll t parent xs → TailedAll qs
  | _, _, .nil, _, _ => trivial
  | _, _, .cons hx hxs, _, hp => ⟨hx.tailed hfree hp.1, hxs.tailed hfree hp.2⟩

end

end Marks

/-! ### Code with and without tail calls -/

namespace Piece

variable {p : Piece} {tail : Bool}

/-- A value is aligned if its piece is: the `#f` after a statement is the same on both sides. -/
theorem aligned_value (hp : ∀ flag, p.Tailed flag → CodeAt code a p.untail.code →
      (flag = true → Exits code (a + p.untail.code.length)) → Aligned code a p.code p.untail.code)
    (ht : p.Tailed tail) (hat : CodeAt code a p.untail.value)
    (hexits : tail = true → Exits code (a + p.untail.value.length)) : Aligned code a p.value p.untail.value := by
  unfold value valued at hat hexits ⊢
  rw [yields_untail] at hat hexits ⊢
  split at hat
  · next hy =>
    rw [if_pos hy] at hexits ⊢
    rw [if_pos hy]
    exact hp tail ht hat hexits
  · next hy =>
    rw [if_neg hy, if_neg hy]
    exact (hp false (ht.of_not_yields (Bool.eq_false_iff.mpr hy)) hat.left Bool.noConfusion).concat _

/-- A piece whose value is dropped makes no tail call. -/
theorem aligned_dropped (hp : CodeAt code a p.untail.code → Aligned code a p.code p.untail.code)
    (hat : CodeAt code a (dropped p.untail.yields p.untail.code)) :
    Aligned code a (dropped p.yields p.code) (dropped p.untail.yields p.untail.code) := by
  unfold dropped at hat ⊢
  rw [yields_untail] at hat ⊢
  split at hat
  · next hy =>
    rw [if_pos hy, if_pos hy]
    exact (hp hat.left).concat _
  · next hy =>
    rw [if_neg hy, if_neg hy]
    exact hp hat

/-- A call at the end of code, which leads to a return if it is a tail call. -/
theorem aligned_callTo {marked : Bool} {target : Operand} (hmark : marked = true → tail = true)
    (hexits : tail = true → Exits code (a + (ds ++ [callTo false target]).length)) :
    Aligned code (a + ds.length) [callTo marked target] [callTo false target] := by
  cases marked with
  | false => exact .refl _ _
  | true =>
    refine .tail ?_ (.nil _)
    rw [Nat.add_assoc]
    simpa using hexits (hmark rfl)

mutual

/-- **The code of a piece and its code without tail calls**, which stands at a place that leads to a return if the
piece is in tail position. -/
theorem aligned : (p : Piece) → {tail : Bool} → {a : Nat} → p.Tailed tail → CodeAt code a p.untail.code →
    (tail = true → Exits code (a + p.untail.code.length)) → Aligned code a p.code p.untail.code
  | .push _, _, _, _, _, _ => .refl _ _
  | .load _, _, _, _, _, _ => .refl _ _
  | .closure _, _, _, _, _, _ => .refl _ _
  | .call marked target args, tail, a, ht, hat, hexits => by
    simp only [untail, Piece.code] at hat hexits ⊢
    exact (aligned_eachValue [] args ht.2 hat.left).append (aligned_callTo ht.1 hexits)
  | .computedCall marked n operands, tail, a, ht, hat, hexits => by
    simp only [untail, Piece.code, length_untailAll] at hat hexits ⊢
    have hblock : Aligned code a (toLabel .goto (blockLabel n ++ "_end") :: blockCode n operands.length) _ := .refl _ a
    have hoperands := aligned_eachValue [] operands ht.2 hat.left.right.tail
    exact (hblock.append (.same hoperands)).append (aligned_callTo ht.1 hexits)
  | .assignment _ _ right, _, _, ht, hat, _ => by
    simp only [untail, Piece.code] at hat ⊢
    exact (aligned_value (fun _ => aligned right) ht hat.left Bool.noConfusion).concat _
  | .conditional n test yes no, tail, a, ht, hat, hexits => by
    obtain ⟨htest, hyes, hno⟩ := ht
    simp only [untail, Piece.code] at hat hexits ⊢
    have hgoto := hat.left.right.head
    have hend := hat.right.head
    rw [List.length_append, ← Nat.add_assoc, List.length_singleton] at hexits
    -- both branches lead to the label at the end, the second one by a jump
    have hlabel := fun h => Exits.label hend (hexits h)
    have hjump := fun h => Exits.goto hgoto hend (hlabel h)
    have hfirst := aligned_value (fun _ => aligned test) htest hat.left.left.left Bool.noConfusion
    have hsecond := aligned_value (fun _ => aligned no) hno hat.left.left.right.tail fun h => by
      simpa [value, Nat.add_assoc, Nat.add_comm, Nat.add_left_comm] using hjump h
    have hthird := aligned_value (fun _ => aligned yes) hyes hat.left.right.tail.tail fun h => by
      simpa [value, Nat.add_assoc, Nat.add_comm, Nat.add_left_comm] using hlabel h
    exact ((hfirst.append (.same hsecond)).append (.same (.same hthird))).concat _
  | .connective conjunction n clauses last returns, _, _, ht, hat, _ => by
    obtain ⟨rfl, hclauses, hlast⟩ := ht
    simp only [untail, Piece.code] at hat ⊢
    have hfirst := aligned_eachValue [clauseJump conjunction n] clauses hclauses hat.left.left.left
    exact ((hfirst.append (aligned_value (fun _ => aligned last) hlast hat.left.left.right Bool.noConfusion)).concat _).concat _
  | .body forms last, _, _, ht, hat, hexits => by
    simp only [untail, Piece.code] at hat hexits ⊢
    rw [List.length_append, ← Nat.add_assoc] at hexits
    exact (aligned_eachForm forms ht.1 hat.left).append (aligned_value (fun _ => aligned last) ht.2 hat.right hexits)
  | .callWithContinuation _ _, _, _, _, _, _ => .refl _ _
  | .fork _, _, _, _, _, _ => .refl _ _
  | .display shown, _, _, ht, hat, _ => by
    simp only [untail, Piece.code] at hat ⊢
    exact (aligned_value (fun _ => aligned shown) ht hat.left Bool.noConfusion).concat _
  | .newline, _, _, _, _, _ => .refl _ _
  | .declaration, _, _, _, _, _ => .refl _ _
  | .primitive _ args, _, _, ht, hat, _ => by
    simp only [untail, Piece.code] at hat ⊢
    exact (aligned_eachValue [] args ht hat.left).concat _
  | .arithmetic op first rest, _, _, ht, hat, _ => by
    simp only [untail, Piece.code] at hat ⊢
    exact (aligned_value (fun _ => aligned first) ht.1 hat.left Bool.noConfusion).append
      (aligned_eachValue [plain op] rest ht.2 hat.right)
  | .template items empty, _, _, ht, hat, _ => by
    simp only [untail, Piece.code, length_untailAll] at hat ⊢
    exact (aligned_eachValue [] items ht hat.left).concat _

theorem aligned_eachValue (suffix : Code) : (ps : List Piece) → {a : Nat} → TailedAll ps →
    CodeAt code a (eachValue suffix (untailAll ps)) → Aligned code a (eachValue suffix ps) (eachValue suffix (untailAll ps))
  | [], _, _, _ => .refl _ _
  | p :: ps, _, ht, hat => by
    simp only [untailAll, eachValue] at hat ⊢
    have hfirst := aligned_value (fun _ => aligned p) ht.1 hat.left.left Bool.noConfusion
    exact (hfirst.concat suffix).append (aligned_eachValue suffix ps ht.2 hat.right)

theorem aligned_eachForm : (ps : List Piece) → {a : Nat} → TailedAll ps →
    CodeAt code a (eachForm (untailAll ps)) → Aligned code a (eachForm ps) (eachForm (untailAll ps))
  | [], _, _, _ => .refl _ _
  | p :: ps, _, ht, hat => by
    simp only [untailAll, eachForm] at hat ⊢
    have hfirst := aligned_dropped (fun h => aligned p ht.1 h Bool.noConfusion) hat.left
    exact hfirst.append (aligned_eachForm ps ht.2 hat.right)

end

end Piece

/-! ### Programs with and without tail calls -/

theorem Block.aligned {b : Block} (ht : b.body.Tailed true) (hat : CodeAt code a b.untail.code) :
    Aligned code a b.code b.untail.code := by
  have hbody := hat.tail.tail.left.right
  have hret := hat.tail.tail.right.head
  have haligned := Piece.aligned_value (fun _ => b.body.aligned) ht hbody fun _ => by
    rw [Nat.add_assoc, ← List.length_append]
    exact .ret hret
  exact .same (.same (((Aligned.refl _ _).append haligned).concat _))

theorem Block.aligned_flatMap {blocks : List Block} (ht : ∀ b ∈ blocks, b.body.Tailed true)
    (hat : CodeAt code a ((blocks.map Block.untail).flatMap Block.code)) :
    Aligned code a (blocks.flatMap Block.code) ((blocks.map Block.untail).flatMap Block.code) := by
  induction blocks generalizing a with
  | nil => exact .nil a
  | cons b blocks ih =>
    rw [List.map_cons, List.flatMap_cons] at hat ⊢
    rw [List.flatMap_cons]
    exact (Block.aligned (ht b List.mem_cons_self) hat.left).append
      (ih (fun b' hb' => ht b' (List.mem_cons_of_mem b hb')) hat.right)

/-- **A program and the same program without tail calls.** A call in place of a tail call is followed by the way to a
return. -/
structure Program.Untails (p q : Program) : Prop where
  rest : p = { q with code := p.code }
  labels : LabelTable.ofCode p.code = LabelTable.ofCode q.code
  code : ∀ pc : Nat, p.code[pc]? = q.code[pc]? ∨ ∃ target,
    p.code[pc]? = some (callTo true target) ∧ q.code[pc]? = some (callTo false target) ∧ Exits q.code (pc + 1)

/-- **A tree without its marks has a program**, which is that of the tree without tail calls. -/
theorem Tree.Analysed.untails {t : Tree} {roots : List Term} {p : Program} (ha : t.Analysed roots)
    (hfree : ∀ h, t.tailCalls.contains h = true → ¬t.Connects h) (hp : Program.ofTree t = .ok p) :
    ∃ q, Program.ofTree t.unmarked = .ok q ∧ p.Untails q := by
  obtain ⟨blocks, hcompiled⟩ := ha.compiled_ofTree hp
  obtain ⟨stock, hblocks⟩ := hcompiled.lowered
  rw [Program.ofTree, if_pos ha.analysed, hblocks] at hp
  have hbodies : ∀ b ∈ blocks, b.body.Tailed true := by
    intro b hb
    obtain ⟨body, hbody⟩ := hcompiled.blocks b hb
    obtain ⟨ps, last, heq, hforms⟩ := hbody.lowered
    rw [heq]
    exact hforms.tailed hfree hbody.sits.placed (Or.inl rfl)
  have hat : CodeAt (Program.codeOf (blocks.map Block.untail)).toArray 0 (Program.codeOf (blocks.map Block.untail)) := by
    intro k i hk
    rw [Nat.zero_add, List.getElem?_toArray, hk]
  -- the two codes are aligned block by block
  have haligned : Aligned (Program.codeOf (blocks.map Block.untail)).toArray 0 (Program.codeOf blocks)
      (Program.codeOf (blocks.map Block.untail)) :=
    .same (.same (Block.aligned_flatMap hbodies hat.tail.tail))
  have hq : Program.ofTree t.unmarked = .ok { p with
      code := (Program.codeOf (blocks.map Block.untail)).toArray, constants := stock.constants } := by
    rw [Program.ofTree, if_pos (show t.unmarked.analysed = true from ha.analysed), Tree.blocks_unmarked hblocks]
    cases hp
    rfl
  cases hp
  refine ⟨_, hq, rfl, ?_, fun pc => ?_⟩
  · exact haligned.enter_eq Table.empty 0
  · have := haligned.getElem? pc
    rw [Nat.zero_add] at this
    simpa only [List.getElem?_toArray] using this

end SchemeMachine
