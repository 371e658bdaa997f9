import SchemeMachine.Proofs.Layout.Flow

/-!
# Compiled code is well laid out

The lines of a compiled program follow upon each other. The proof goes along `Lowers`: the lines of a piece
lead from any number of operands to one more, or to as many if the piece leaves no value; a tail call needs to
have none but its arguments on the stack, which holds in tail position.

* `Plan.ofBlocks` is the plan of a compiled program.
* `Lowers.chain` is the result for a piece, `Lowering.LowersBlock.chain` for a block.
* `Program.Compiled.layout` is the layout of a compiled program.
-/

namespace SchemeMachine

open Lowering Piece

/-- **The plan of a compiled program.** A lambda stands in the lambda around it, the block of a computed call in
the lambda with the call. A lambda owns its variables and the continuations captured in it, the block of a
computed call its parameters. -/
def Plan.ofBlocks (t : Tree) (blocks : List Block) : Plan where
  lines := Program.linesOf blocks
  inside N o :=
    (∃ M K, t.Inside M K ∧ N = Handle.label K ∧ o = Handle.label M) ∨
    ∃ n M, N = blockLabel n ∧ o = Handle.label M ∧ ∃ line ∈ Program.linesOf blocks,
      line.instruction = .label (blockLabel n ++ "_end") ∧ line.spot.owner = some o
  owns o x :=
    (∃ M y, o = Handle.label M ∧ x = Tree.scopedName M y) ∨
    (∃ n, x = resumeLabel n ∧ ∃ line ∈ Program.linesOf blocks, line.instruction = .label x ∧ line.spot.owner = some o) ∨
    ∃ n i : Nat, o = blockLabel n ∧ x = blockLabel n ++ s!".p{i}"

variable {t : Tree} {roots : List Term} {blocks : List Block} {p : Program} {P : Plan} {o : String} {d : Nat}
  {M N : Handle}

/-! ### Pieces of lines -/

/-- The spot after a line, where it is known. -/
theorem next_eq {s : Spot} : ∀ x ∈ some s, x = s := fun _ hx => (Option.some.inj hx).symm

/-- Where the next line is not gone on to, it may have any spot. -/
theorem next_none {s : Spot} : ∀ x ∈ (none : Option Spot), x = s := by simp

theorem Chain.valued {yields : Bool} {ls : List Line}
    (h : Chain p P ⟨o, d, none⟩ ls ⟨o, d + yields.toNat, none⟩) :
    Chain p P ⟨o, d, none⟩ (valuedLines o d yields ls) ⟨o, d + 1, none⟩ := by
  cases yields with
  | true => exact h
  | false => exact h.concat (.push rfl (by simp) (by simp))

theorem Chain.dropped {yields : Bool} {ls : List Line}
    (h : Chain p P ⟨o, d, none⟩ ls ⟨o, d + yields.toNat, none⟩) :
    Chain p P ⟨o, d, none⟩ (droppedLines o d yields ls) ⟨o, d, none⟩ := by
  cases yields with
  | true => exact h.concat .pop
  | false => exact h

theorem chain_storeLines {xs : List String} (hxs : ∀ x ∈ xs, P.owns o x) :
    Chain p P ⟨o, xs.length, none⟩ (storeLines o xs) ⟨o, 0, none⟩ := by
  induction xs with
  | nil => exact .nil _
  | cons x xs ih =>
    refine .cons (.store (hxs x List.mem_cons_self) (by simp)) next_eq ?_
    exact ih fun y hy => hxs y (List.mem_cons_of_mem x hy)

theorem chain_loadLines (xs : List String) (d : Nat) :
    Chain p P ⟨o, d, none⟩ (loadLines o d xs) ⟨o, d + xs.length, none⟩ := by
  induction xs generalizing d with
  | nil => exact .nil _
  | cons x xs ih =>
    refine .cons .load next_eq ?_
    have hrest := ih (d + 1)
    rwa [Nat.add_right_comm] at hrest

theorem chain_consLines (count : Nat) :
    Chain p P ⟨o, d + count + 1, none⟩ (consLines o d count) ⟨o, d + 1, none⟩ := by
  induction count with
  | zero => exact .nil _
  | succ count ih =>
    exact .cons (.operation (d := d + count) (k := 2) rfl) next_eq ih

theorem length_blockParameters (n count : Nat) : (blockParameters n count).length = count := by
  simp [blockParameters]

/-- **The block of a computed call** takes its operands, and calls the first with the others. -/
theorem chain_blockLines {n count : Nat} (howns : ∀ i : Nat, P.owns (blockLabel n) (blockLabel n ++ s!".p{i}")) (s : Spot) :
    Chain p P ⟨blockLabel n, count, none⟩ (blockLines n count) s := by
  have hstores : Chain p P ⟨blockLabel n, count, none⟩
      (storeLines (blockLabel n) (blockParameters n count).reverse) ⟨blockLabel n, 0, none⟩ := by
    have h : Chain p P ⟨blockLabel n, _, none⟩ (storeLines (blockLabel n) (blockParameters n count).reverse) _ :=
      chain_storeLines fun x hx => by
        obtain ⟨i, -, rfl⟩ := List.mem_map.mp (List.mem_reverse.mp hx)
        exact howns i
    rwa [List.length_reverse, length_blockParameters] at h
  have hloads : Chain p P ⟨blockLabel n, 0, none⟩ (loadLines (blockLabel n) 0 (blockParameters n count).tail)
      ⟨blockLabel n, count - 1, none⟩ := by
    have h : Chain p P ⟨blockLabel n, 0, none⟩ _ _ := chain_loadLines (blockParameters n count).tail 0
    rwa [List.length_tail, length_blockParameters, Nat.zero_add] at h
  refine .cons .label next_eq ((hstores.append hloads).append ?_)
  exact .cons .tailCall next_none (.last .ret s)

/-- A piece that calls and does not come back ends with the tail call. -/
theorem Piece.IsTailCall.exists_lines {q : Piece} (hq : q.IsTailCall) (o : String) (d : Nat) :
    ∃ ls target n, q.lines o d = ls ++ [⟨⟨o, d + n, none⟩, callTo true target, n⟩] ∧ q.yields = true := by
  rcases hq with ⟨target, args, rfl⟩ | ⟨n, operands, rfl⟩
  · exact ⟨_, _, _, rfl, rfl⟩
  · exact ⟨_, _, _, rfl, rfl⟩

/-- A piece that calls and does not come back may be followed by anything. -/
theorem Chain.of_isTailCall {q : Piece} (hq : q.IsTailCall) {s s' : Spot} (h : Chain p P s (q.lines o d) s')
    (s'' : Spot) : Chain p P s (valuedLines o d q.yields (q.lines o d)) s'' := by
  obtain ⟨ls, target, n, hls, hyields⟩ := hq.exists_lines o d
  rw [hyields]
  show Chain p P s (q.lines o d) s''
  rw [hls] at h ⊢
  obtain ⟨s₁, hleft, hright⟩ := h.split
  refine hleft.append ?_
  cases hright with
  | cons hflow hnext hrest => exact .last (hflow.of_tailCall rfl) s''

/-! ### Pieces of code -/

section Pieces

variable (hp : p.Compiled t roots blocks)

theorem inside_of_inside (hin : t.Inside M N) :
    (Plan.ofBlocks t blocks).inside (Handle.label N) (Handle.label M) :=
  Or.inl ⟨M, N, hin, rfl, rfl⟩

include hp in
/-- A lambda is entered at its label. -/
theorem exists_entry {parent : Option Handle} {parameters : List String} {children : List Child}
    (hn : t.get? N = some (.lambda parent parameters children)) :
    (Plan.ofBlocks t blocks).Entry (Handle.label N) parameters.length := by
  obtain ⟨b, hb, rfl⟩ := hp.exists_block hn
  obtain ⟨body, hbody⟩ := hp.blocks b hb
  obtain ⟨parent', hn'⟩ := hbody.node
  cases hn.symm.trans hn'
  refine ⟨⟨⟨Handle.label b.handle, b.parameters.length, none⟩, .label (Handle.label b.handle), 0⟩, ?_, rfl, rfl⟩
  refine List.mem_cons_of_mem _ (List.mem_cons_of_mem _ (List.mem_flatMap.mpr ⟨b, hb, ?_⟩))
  exact List.mem_cons_of_mem _ List.mem_cons_self

include hp in
/-- A lambda waits in the lambda around it. -/
theorem waits_of_inside (hin : t.Inside M N) :
    (Plan.ofBlocks t blocks).Waits p (Handle.label M) (Handle.label N) := by
  obtain ⟨q, ps, cs, hn, -⟩ := hin.enclosing
  exact ⟨inside_of_inside hin, hp.enclosing_of_inside hin, _, exists_entry hp hn⟩

/-- The line that an assignment ends with. -/
theorem flows_assignment {op : Opcode} {name : String} {pending : Option String}
    (hop : op = .store ∧ P.owns o name ∨ op = .set)
    (hpending : ∀ N ∈ pending, P.Waits p o N) :
    Flows p P ⟨⟨o, d + 1, pending⟩, onVariable op name, 0⟩ (some ⟨o, d, none⟩) := by
  rcases hop with ⟨rfl, howns⟩ | rfl
  · exact .store howns hpending
  · exact .set hpending

/-- The jump after a clause. -/
theorem flows_clauseJump {conjunction : Bool} {n : Nat} (hat : P.At (sinkLabel conjunction n) ⟨o, d, none⟩) :
    Flows p P ⟨⟨o, d + 1, none⟩, clauseJump conjunction n, 0⟩ (some ⟨o, d, none⟩) := by
  cases conjunction with
  | true => exact .branch (Or.inr rfl) hat
  | false => exact .branch (Or.inl rfl) hat

/-- The line of a call, in tail position or not. -/
theorem chain_call {tail : Bool} {target : Operand} {n : Nat} (hd : tail = true → d = 0)
    (hcall : Flows p P ⟨⟨o, d + n, none⟩, callTo false target, n⟩ (some ⟨o, d + 1, none⟩))
    (htail : Flows p P ⟨⟨o, n, none⟩, callTo true target, n⟩ none) :
    Chain p P ⟨o, d + n, none⟩ [⟨⟨o, d + n, none⟩, callTo tail target, n⟩] ⟨o, d + 1, none⟩ := by
  cases tail with
  | false => exact .single hcall
  | true =>
    obtain rfl := hd rfl
    rw [Nat.zero_add]
    exact .last htail _

theorem subset_of_valuedLines {yields : Bool} {ls all : List Line} (h : valuedLines o d yields ls ⊆ all) :
    ls ⊆ all :=
  fun line hline => h (by cases yields <;> simp [valuedLines, hline])

theorem subset_of_droppedLines {yields : Bool} {ls all : List Line} (h : droppedLines o d yields ls ⊆ all) :
    ls ⊆ all :=
  fun line hline => h (by cases yields <;> simp [droppedLines, hline])

theorem Plan.at_of_mem {name : String} {s : Spot} (h : ⟨s, .label name, 0⟩ ∈ P.lines) : P.At name s :=
  ⟨_, h, rfl, rfl⟩

/-- The lines after the clauses of `and` or `or`. -/
theorem chain_decided {conjunction : Bool} {n : Nat}
    (hend : P.At (sinkLabel conjunction n ++ "_end") ⟨o, d + 1, none⟩) :
    Chain p P ⟨o, d, none⟩
      [⟨⟨o, d, none⟩, pushBoolean conjunction, 0⟩,
        ⟨⟨o, d + 1, none⟩, toLabel .goto (sinkLabel conjunction n ++ "_end"), 0⟩,
        ⟨⟨o, d, none⟩, .label (sinkLabel conjunction n), 0⟩, ⟨⟨o, d, none⟩, pushBoolean (!conjunction), 0⟩,
        ⟨⟨o, d + 1, none⟩, .label (sinkLabel conjunction n ++ "_end"), 0⟩]
      ⟨o, d + 1, none⟩ := by
  have hsecond : Chain p P ⟨o, d, none⟩ [⟨⟨o, d, none⟩, .label (sinkLabel conjunction n), 0⟩,
      ⟨⟨o, d, none⟩, pushBoolean (!conjunction), 0⟩,
      ⟨⟨o, d + 1, none⟩, .label (sinkLabel conjunction n ++ "_end"), 0⟩] ⟨o, d + 1, none⟩ :=
    .cons .label next_eq (.cons (.push rfl (by simp) (by simp)) next_eq (.single .label))
  exact .cons (.push rfl (by simp) (by simp)) next_eq (.cons (.goto hend) next_none hsecond)

/-- The lines of a call with the continuation. -/
theorem chain_resumed {n : Nat} {target : Operand} (hat : P.At (resumeLabel n) ⟨o, d + 1, none⟩)
    (howns : P.owns o (resumeLabel n))
    (hcall : Flows p P ⟨⟨o, d + 1, none⟩, callTo false target, 1⟩ (some ⟨o, d + 1, none⟩)) :
    Chain p P ⟨o, d, none⟩ ((Piece.callWithContinuation n target).lines o d) ⟨o, d + 1, none⟩ :=
  .cons (.capture howns hat) next_eq (.cons .load next_eq (.cons hcall next_eq (.single .label)))

theorem owns_resumeLabel {n : Nat} (hat : (Plan.ofBlocks t blocks).At (resumeLabel n) ⟨o, d, none⟩) :
    (Plan.ofBlocks t blocks).owns o (resumeLabel n) := by
  obtain ⟨line, hline, hi, hspot⟩ := hat
  exact Or.inr (Or.inl ⟨n, rfl, line, hline, hi, by rw [hspot]⟩)

theorem flows_arithmetic {word : String} {op : Opcode} (hop : arithmeticOf? word = some op) :
    Flows p P ⟨⟨o, d + 1 + 1, none⟩, plain op, 0⟩ (some ⟨o, d + 1, none⟩) := by
  unfold arithmeticOf? at hop
  split at hop <;> first
    | cases hop; exact .operation (d := d) (k := 2) rfl
    | cases hop

theorem flows_primitive {word : String} {op : Opcode} {k : Nat} (hop : fixedOf? word = some (op, k)) :
    Flows p P ⟨⟨o, d + k, none⟩, plain op, 0⟩ (some ⟨o, d + 1, none⟩) := by
  unfold fixedOf? at hop
  split at hop <;> first
    | cases hop; exact .operation (d := d) rfl
    | cases hop

/-- Only the right side of an assignment leaves a label. -/
theorem Lowers.pendingLabel_eq {K : Table Handle Constant} {tail : Bool} {x : Term} {q : Piece}
    (hq : Lowers t K M tail x q) : q.pendingLabel = none := by
  cases hq with
  | template hq =>
    cases hq <;> rfl
  | _ => rfl

mutual

/-- **The lines of a piece** lead to one operand more, or to as many as before if it leaves no value. -/
theorem Lowers.chain (hp : p.Compiled t roots blocks) : {tail : Bool} → {x : Term} → {q : Piece} →
    Lowers t p.constants M tail x q → (d : Nat) → (tail = true → d = 0) →
    q.lines (Handle.label M) d ⊆ Program.linesOf blocks →
    Chain p (Plan.ofBlocks t blocks) ⟨Handle.label M, d, none⟩ (q.lines (Handle.label M) d)
      ⟨Handle.label M, d + q.yields.toNat, none⟩
  | _, _, _, .variable name, d, _, _ => .single .load
  | _, _, _, .keyword h, d, _, _ => .single (.push rfl (by simp) (by simp))
  | _, .atom (.number _), _, .literal _, d, _, _ => .single (.push rfl (by simp) (by simp))
  | _, .atom (.boolean _), _, .literal _, d, _, _ => .single (.push rfl (by simp) (by simp))
  | _, .atom (.symbol _), _, .literal _, d, _, _ => .single (.push rfl (by simp) (by simp))
  | _, _, _, .string hk, d, _, _ =>
    .single (.push rfl (by simp) fun h hh => by cases hh; exact Table.contains_iff.mpr ⟨_, hk⟩)
  | _, _, _, .lambda hin, d, _, _ => .single (.loadClosure (waits_of_inside hp hin))
  | _, _, _, .quote hk, d, _, _ =>
    .single (.push rfl (by simp) fun h hh => by cases hh; exact Table.contains_iff.mpr ⟨_, hk.1⟩)
  | _, _, _, .template hq, d, _, hsub => hq.chain hp d hsub
  | _, _, _, .call hmark hargs, d, hd, hsub => by
    simp only [lines, List.append_subset] at hsub ⊢
    exact (hargs.chain hp d hsub.1).append (chain_call (fun hm => hd (hmark hm)) .call .tailCall)
  | _, _, _, .lambdaCall (N := N) hmark hin hargs, d, hd, hsub => by
    simp only [lines, List.append_subset] at hsub ⊢
    obtain ⟨k, hentry⟩ := (waits_of_inside hp hin).entry
    have hblock : ∀ n, p.enclosing.find? (Handle.label N) = none → k = n := by
      intro n hnone
      rw [hp.enclosing_of_inside hin] at hnone
      cases hnone
    exact (hargs.chain hp d hsub.1).append (chain_call (fun hm => hd (hmark hm))
      (.callLabel (inside_of_inside hin) hentry (hblock _)) (.tailCallLabel (inside_of_inside hin) hentry (hblock _)))
  | _, _, .computedCall _ _ qs, .computedCall (n := n) hmark hargs, d, hd, hsub => by
    -- the block stands in the code, between the jump over it and the call
    have hat : (Plan.ofBlocks t blocks).At (blockLabel n ++ "_end") ⟨Handle.label M, d, none⟩ :=
      Plan.at_of_mem (hsub (by simp [lines]))
    have hentry : (Plan.ofBlocks t blocks).Entry (blockLabel n) qs.length :=
      Plan.at_of_mem (hsub (by simp [lines, blockLines]))
    have hin : (Plan.ofBlocks t blocks).inside (blockLabel n) (Handle.label M) := by
      obtain ⟨line, hline, hi, hspot⟩ := hat
      exact Or.inr ⟨n, M, rfl, rfl, line, hline, hi, by rw [hspot]⟩
    simp only [lines, List.append_subset, List.cons_subset] at hsub ⊢
    refine .append (.append ?_ (.cons .label next_eq (hargs.chain hp d hsub.1.2.2))) ?_
    · exact .cons (.goto hat) next_none
        (chain_blockLines (fun i => Or.inr (Or.inr ⟨n, i, rfl, rfl⟩)) _)
    · exact chain_call (fun hm => hd (hmark hm)) (.callLabel hin hentry fun _ => rfl)
        (.tailCallLabel hin hentry fun _ => rfl)
  | _, _, _, .define (x := x) hright, d, _, hsub => by
    simp only [lines, List.append_subset] at hsub ⊢
    obtain ⟨hchain, hpending⟩ := hright.chain hp d (subset_of_valuedLines hsub.1)
    exact hchain.concat (flows_assignment (Or.inl ⟨rfl, Or.inl ⟨M, x, rfl, rfl⟩⟩) hpending)
  | _, _, _, .assign hright, d, _, hsub => by
    simp only [lines, List.append_subset] at hsub ⊢
    obtain ⟨hchain, hpending⟩ := hright.chain hp d (subset_of_valuedLines hsub.1)
    exact hchain.concat (flows_assignment (Or.inr rfl) hpending)
  | _, _, _, .conditional (n := n) htest hyes hno, d, hd, hsub => by
    have hthen : (Plan.ofBlocks t blocks).At (thenLabel n) ⟨Handle.label M, d, none⟩ :=
      Plan.at_of_mem (hsub (by simp [lines]))
    have hend : (Plan.ofBlocks t blocks).At (endLabel n) ⟨Handle.label M, d + 1, none⟩ :=
      Plan.at_of_mem (hsub (by simp [lines]))
    simp only [lines, List.append_subset, List.cons_subset] at hsub ⊢
    have htest' := (htest.chain hp d (by simp) (subset_of_valuedLines hsub.1.1.1)).valued
    have hno' := (hno.chain hp d hd (subset_of_valuedLines hsub.1.1.2.2)).valued
    have hyes' := (hyes.chain hp d hd (subset_of_valuedLines hsub.1.2.2.2)).valued
    exact ((htest'.append (.cons (.branch (Or.inl rfl) hthen) next_eq hno')).append
      (.cons (.goto hend) next_none (.cons .label next_eq hyes'))).concat .label
  | _, _, _, .conditionalShort (n := n) htest hyes, d, hd, hsub => by
    have hthen : (Plan.ofBlocks t blocks).At (thenLabel n) ⟨Handle.label M, d, none⟩ :=
      Plan.at_of_mem (hsub (by simp [lines]))
    have hend : (Plan.ofBlocks t blocks).At (endLabel n) ⟨Handle.label M, d + 1, none⟩ :=
      Plan.at_of_mem (hsub (by simp [lines]))
    simp only [lines, List.append_subset, List.cons_subset] at hsub ⊢
    have htest' := (htest.chain hp d (by simp) (subset_of_valuedLines hsub.1.1.1)).valued
    have hyes' := (hyes.chain hp d hd (subset_of_valuedLines hsub.1.2.2.2)).valued
    exact ((htest'.append (.cons (.branch (Or.inl rfl) hthen) next_eq
      (.single (.push rfl (by simp) (by simp))))).append
      (.cons (.goto hend) next_none (.cons .label next_eq hyes'))).concat .label
  | _, _, _, .connectiveNone, d, _, _ => .single (.push rfl (by simp) (by simp))
  | _, _, .connective c n _ _ _, .connective hclauses hlast hreturns, d, hd, hsub => by
    have hsink : (Plan.ofBlocks t blocks).At (sinkLabel c n) ⟨Handle.label M, d, none⟩ :=
      Plan.at_of_mem (hsub (by simp [lines]))
    have hend : (Plan.ofBlocks t blocks).At (sinkLabel c n ++ "_end") ⟨Handle.label M, d + 1, none⟩ :=
      Plan.at_of_mem (hsub (by simp [lines]))
    simp only [lines, List.append_subset] at hsub ⊢
    have hclauses' := hclauses.chainThen hp d _ (flows_clauseJump hsink) hsub.1.1.1
    have hlast' := hlast.chain hp d hd (subset_of_valuedLines hsub.1.1.2)
    split
    · next hr =>
      rw [List.append_nil]
      exact (hclauses'.append (hlast'.of_isTailCall (hreturns hr) _)).append (chain_decided hend)
    · exact ((hclauses'.append hlast'.valued).concat (flows_clauseJump hsink)).append (chain_decided hend)
  | _, _, _, .sequence hforms, d, hd, hsub => by
    simp only [lines, List.append_subset] at hsub ⊢
    obtain ⟨hfirst, hlast⟩ := hforms.chain hp d hd hsub.1 (subset_of_valuedLines hsub.2)
    exact hfirst.append hlast.valued
  | _, _, _, .callWithContinuation (n := n), d, _, hsub => by
    have hat : (Plan.ofBlocks t blocks).At (resumeLabel n) ⟨Handle.label M, d + 1, none⟩ :=
      Plan.at_of_mem (hsub (by simp [lines]))
    exact chain_resumed hat (owns_resumeLabel hat) .call
  | _, _, _, .callLambdaWithContinuation (n := n) (N := N) hin, d, _, hsub => by
    have hat : (Plan.ofBlocks t blocks).At (resumeLabel n) ⟨Handle.label M, d + 1, none⟩ :=
      Plan.at_of_mem (hsub (by simp [lines]))
    obtain ⟨k, hentry⟩ := (waits_of_inside hp hin).entry
    refine chain_resumed hat (owns_resumeLabel hat) (.callLabel (inside_of_inside hin) hentry fun hnone => ?_)
    rw [hp.enclosing_of_inside hin] at hnone
    cases hnone
  | _, _, _, .fork hk hchild, d, _, _ => .single (.fork (contains_of_kept hk hchild))
  | _, _, _, .display hx, d, _, hsub => by
    simp only [lines, List.append_subset] at hsub ⊢
    exact (hx.chain hp d (by simp) (subset_of_valuedLines hsub.1)).valued.concat (.operation (k := 1) rfl)
  | _, _, _, .newline, d, _, _ => .single (.operation (k := 0) rfl)
  | _, _, _, .declaration _, d, _, _ => .nil _
  | _, _, _, .arithmeticNone _, d, _, _ => .single (.push rfl (by simp) (by simp))
  | _, _, _, .arithmeticNeutral hop _ hq, d, _, hsub => by
    simp only [lines, linesThen, List.append_subset, List.cons_subset] at hsub ⊢
    have hq' := (hq.chain hp (d + 1) (by simp) (subset_of_valuedLines hsub.2.1)).valued
    exact .append (.single (.push rfl (by simp) (by simp))) (hq'.append (.single (flows_arithmetic hop)))
  | _, _, _, .arithmetic hop _ hq hqs, d, _, hsub => by
    simp only [lines, List.append_subset] at hsub ⊢
    have hq' := (hq.chain hp d (by simp) (subset_of_valuedLines hsub.1)).valued
    exact hq'.append (hqs.chainThen hp (d + 1) _ (flows_arithmetic hop) hsub.2)
  | _, _, _, .primitive hop hqs, d, _, hsub => by
    simp only [lines, List.append_subset] at hsub ⊢
    refine (hqs.chain hp d hsub.1).concat ?_
    rw [← hqs.length_eq]
    exact flows_primitive hop

theorem LowersAll.chain (hp : p.Compiled t roots blocks) : {xs : List Term} → {qs : List Piece} →
    LowersAll t p.constants M xs qs → (d : Nat) →
    linesAll (Handle.label M) d qs ⊆ Program.linesOf blocks →
    Chain p (Plan.ofBlocks t blocks) ⟨Handle.label M, d, none⟩ (linesAll (Handle.label M) d qs)
      ⟨Handle.label M, d + qs.length, none⟩
  | _, _, .nil, d, _ => .nil _
  | _, _, .cons hx hxs, d, hsub => by
    simp only [linesAll, List.append_subset] at hsub ⊢
    have hfirst := (hx.chain hp d (by simp) (subset_of_valuedLines hsub.1)).valued
    have hrest := hxs.chain hp (d + 1) hsub.2
    rw [Nat.add_right_comm] at hrest
    exact hfirst.append hrest

/-- Values each of which the next instruction uses up. -/
theorem LowersAll.chainThen (hp : p.Compiled t roots blocks) : {xs : List Term} → {qs : List Piece} →
    LowersAll t p.constants M xs qs → (d : Nat) → (i : Instruction) →
    Flows p (Plan.ofBlocks t blocks) ⟨⟨Handle.label M, d + 1, none⟩, i, 0⟩ (some ⟨Handle.label M, d, none⟩) →
    linesThen (Handle.label M) d i qs ⊆ Program.linesOf blocks →
    Chain p (Plan.ofBlocks t blocks) ⟨Handle.label M, d, none⟩ (linesThen (Handle.label M) d i qs)
      ⟨Handle.label M, d, none⟩
  | _, _, .nil, d, _, _, _ => .nil _
  | _, _, .cons hx hxs, d, i, hi, hsub => by
    simp only [linesThen, List.append_subset, List.cons_subset] at hsub ⊢
    have hfirst := (hx.chain hp d (by simp) (subset_of_valuedLines hsub.1)).valued
    exact hfirst.append (.cons hi next_eq (hxs.chainThen hp d i hi hsub.2.2))

theorem LowersRight.chain (hp : p.Compiled t roots blocks) : {x : Term} → {q : Piece} →
    LowersRight t p.constants M x q → (d : Nat) → q.lines (Handle.label M) d ⊆ Program.linesOf blocks →
    Chain p (Plan.ofBlocks t blocks) ⟨Handle.label M, d, none⟩
        (valuedLines (Handle.label M) d q.yields (q.lines (Handle.label M) d))
        ⟨Handle.label M, d + 1, q.pendingLabel⟩ ∧
      ∀ N ∈ q.pendingLabel, (Plan.ofBlocks t blocks).Waits p (Handle.label M) N
  | _, _, .lambda hin, d, _ => by
    refine ⟨.single .pushLabel, fun N hN => ?_⟩
    cases hN
    exact waits_of_inside hp hin
  | _, q, .other hx hq, d, hsub => by
    have hchain := (hq.chain hp d (by simp) hsub).valued
    have hnone : q.pendingLabel = none := hq.pendingLabel_eq
    rw [hnone]
    exact ⟨hchain, by simp⟩

theorem LowersForms.chain (hp : p.Compiled t roots blocks) : {tail : Bool} → {xs : List Term} → {qs : List Piece} →
    {q : Piece} → LowersForms t p.constants M tail xs qs q → (d : Nat) → (tail = true → d = 0) →
    linesDropped (Handle.label M) d qs ⊆ Program.linesOf blocks →
    q.lines (Handle.label M) d ⊆ Program.linesOf blocks →
    Chain p (Plan.ofBlocks t blocks) ⟨Handle.label M, d, none⟩ (linesDropped (Handle.label M) d qs)
        ⟨Handle.label M, d, none⟩ ∧
      Chain p (Plan.ofBlocks t blocks) ⟨Handle.label M, d, none⟩ (q.lines (Handle.label M) d)
        ⟨Handle.label M, d + q.yields.toNat, none⟩
  | _, _, _, _, .empty, d, _, _, _ => ⟨.nil _, .single (.push rfl (by simp) (by simp))⟩
  | _, _, _, _, .last hx, d, hd, _, hsub => ⟨.nil _, hx.chain hp d hd hsub⟩
  | _, _, _, _, .skip _ hxs, d, hd, hdropped, hsub => hxs.chain hp d hd hdropped hsub
  | _, _, _, _, .form _ hq hxs, d, hd, hdropped, hsub => by
    simp only [linesDropped, List.append_subset] at hdropped ⊢
    obtain ⟨hrest, hlast⟩ := hxs.chain hp d hd hdropped.2 hsub
    exact ⟨(hq.chain hp d (by simp) (subset_of_droppedLines hdropped.1)).dropped.append hrest, hlast⟩

theorem LowersItem.chain (hp : p.Compiled t roots blocks) : {x : Term} → {q : Piece} →
    LowersItem t p.constants M x q → (d : Nat) → q.lines (Handle.label M) d ⊆ Program.linesOf blocks →
    Chain p (Plan.ofBlocks t blocks) ⟨Handle.label M, d, none⟩ (q.lines (Handle.label M) d)
      ⟨Handle.label M, d + q.yields.toNat, none⟩
  | .atom (.number _), _, .atom _, d, _ => .single (.push rfl (by simp) (by simp))
  | .atom (.boolean _), _, .atom _, d, _ => .single (.push rfl (by simp) (by simp))
  | .atom (.symbol _), _, .atom _, d, _ => .single (.push rfl (by simp) (by simp))
  | _, _, .string hk, d, _ =>
    .single (.push rfl (by simp) fun h hh => by cases hh; exact Table.contains_iff.mpr ⟨_, hk⟩)
  | _, _, .hole hx, d, hsub => hx.chain hp d (by simp) hsub
  | _, _, .constant _ hk, d, _ =>
    .single (.push rfl (by simp) fun h hh => by cases hh; exact Table.contains_iff.mpr ⟨_, hk.1⟩)
  | _, _, .list _ hitems hk, d, hsub => by
    simp only [lines, List.append_subset, List.cons_subset] at hsub ⊢
    refine (hitems.chain hp d hsub.1).append (.cons (.push rfl (by simp) fun h hh => ?_) next_eq ?_)
    · cases hh
      exact Table.contains_iff.mpr ⟨_, hk⟩
    · exact chain_consLines _

theorem LowersItems.chain (hp : p.Compiled t roots blocks) : {xs : List Term} → {qs : List Piece} →
    LowersItems t p.constants M xs qs → (d : Nat) →
    linesAll (Handle.label M) d qs ⊆ Program.linesOf blocks →
    Chain p (Plan.ofBlocks t blocks) ⟨Handle.label M, d, none⟩ (linesAll (Handle.label M) d qs)
      ⟨Handle.label M, d + qs.length, none⟩
  | _, _, .nil, d, _ => .nil _
  | _, _, .cons hx hxs, d, hsub => by
    simp only [linesAll, List.append_subset] at hsub ⊢
    have hfirst := (hx.chain hp d (subset_of_valuedLines hsub.1)).valued
    have hrest := hxs.chain hp (d + 1) hsub.2
    rw [Nat.add_right_comm] at hrest
    exact hfirst.append hrest

end

/-! ### Blocks and programs -/

include hp in
/-- **The lines of a block** follow upon each other, and nothing is gone on to after them. -/
theorem LowersBlock.chain {b : Block} (hb : b ∈ blocks) (s : Spot) :
    Chain p (Plan.ofBlocks t blocks) ⟨Handle.label b.handle, b.parameters.length, none⟩ b.lines s := by
  obtain ⟨body, hbody⟩ := hp.blocks b hb
  obtain ⟨ps, last, hpiece, hforms⟩ := hbody.lowered
  have hsub : b.lines ⊆ Program.linesOf blocks := fun line hline =>
    List.mem_cons_of_mem _ (List.mem_cons_of_mem _ (List.mem_flatMap.mpr ⟨b, hb, hline⟩))
  simp only [Block.lines, List.cons_subset, List.append_subset] at hsub ⊢
  have hbodySub := subset_of_valuedLines hsub.2.2.1.2
  rw [hpiece, lines, List.append_subset] at hbodySub
  obtain ⟨hfirst, hlast⟩ := hforms.chain hp 0 (fun _ => rfl) hbodySub.1 (subset_of_valuedLines hbodySub.2)
  have hstores : Chain p (Plan.ofBlocks t blocks) ⟨Handle.label b.handle, b.parameters.length, none⟩
      (storeLines (Handle.label b.handle) b.parameters.reverse) ⟨Handle.label b.handle, 0, none⟩ := by
    have h : Chain p (Plan.ofBlocks t blocks) ⟨Handle.label b.handle, _, none⟩
        (storeLines (Handle.label b.handle) b.parameters.reverse) _ :=
      chain_storeLines fun x hx => by
        obtain ⟨y, hy⟩ := hbody.owned x (List.mem_reverse.mp hx)
        exact Or.inl ⟨b.handle, y, rfl, hy⟩
    rwa [List.length_reverse] at h
  refine .cons .comment next_eq (.cons .label next_eq ((hstores.append ?_).append (.last .ret s)))
  rw [hpiece]
  exact hfirst.append hlast.valued

include hp in
/-- **The lines of a program** follow upon each other. -/
theorem Program.Compiled.chain (s : Spot) :
    Chain p (Plan.ofBlocks t blocks) ⟨none, 0, none⟩ (Program.linesOf blocks) s := by
  have hblocks : ∀ bs : List Block, (∀ b ∈ bs, b ∈ blocks) →
      ∃ s', Chain p (Plan.ofBlocks t blocks) s' (bs.flatMap Block.lines) s := by
    intro bs hbs
    induction bs with
    | nil => exact ⟨s, .nil s⟩
    | cons b bs ih =>
      obtain ⟨s', hrest⟩ := ih fun b' hb' => hbs b' (List.mem_cons_of_mem b hb')
      exact ⟨_, (LowersBlock.chain hp (hbs b List.mem_cons_self) s').append hrest⟩
  obtain ⟨s', hrest⟩ := hblocks blocks fun _ hb => hb
  obtain ⟨body, hn⟩ := hp.analysed.holds.top_node
  refine .cons (.start ?_ (exists_entry hp hn) ?_) next_eq (.cons .halt next_none hrest)
  · cases hfind : p.enclosing.find? (Handle.label Tree.top) with
    | none => rfl
    | some l =>
      obtain ⟨N, q, ps, cs, hN, hn', -⟩ := hp.enclosing_eq_some.mp hfind
      rw [Handle.label_injective hN, hn'] at hn
      cases hn
  · rintro o (⟨M, K, hin, hK, -⟩ | ⟨n, M, hn', -⟩)
    · obtain ⟨q, ps, cs, hn', -⟩ := hin.enclosing
      rw [Handle.label_injective hK, hn'] at hn
      cases hn
    · exact absurd hn' (Names.label_ne_blockLabel _ _)

include hp in
/-- The last line of a program is not gone on from. -/
theorem Program.Compiled.getLast : ∃ ls o, Program.linesOf blocks = ls ++ [⟨⟨o, 1, none⟩, plain .ret, 0⟩] := by
  obtain ⟨body, hn⟩ := hp.analysed.holds.top_node
  obtain ⟨b, hb, -⟩ := hp.exists_block hn
  rcases List.eq_nil_or_concat blocks with rfl | ⟨bs, last, rfl⟩
  · cases hb
  · simp only [Program.linesOf, List.concat_eq_append, List.flatMap_append, List.flatMap_singleton, Block.lines,
      ← List.cons_append, ← List.append_assoc]
    exact ⟨_, _, rfl⟩

include hp in
/-- A label stands on one line. -/
theorem Program.Compiled.line_unique {name : String} {line line' : Line} (h : line ∈ Program.linesOf blocks)
    (h' : line' ∈ Program.linesOf blocks) (hi : line.instruction = .label name) (hi' : line'.instruction = .label name) :
    line = line' := by
  obtain ⟨labels, hlabels⟩ := hp.labels
  have hplace : ∀ {line : Line} {pc : Nat}, (Program.linesOf blocks)[pc]? = some line →
      line.instruction = .label name → labels.find? name = some pc := by
    intro line pc hline hi
    rw [LabelTable.find?_ofCode hlabels, hp.code, List.getElem?_toArray, ← Program.map_linesOf, List.getElem?_map,
      hline, Option.map_some, hi]
  obtain ⟨pc, hpc⟩ := List.getElem?_of_mem h
  obtain ⟨pc', hpc'⟩ := List.getElem?_of_mem h'
  have heq := (hplace hpc hi).symm.trans (hplace hpc' hi')
  rw [Option.some.inj heq, hpc'] at hpc
  exact (Option.some.inj hpc).symm

open Classical in
/-- How large the code at a label is: lambdas by their nodes, other code not at all. -/
noncomputable def Tree.rank (t : Tree) (l : String) : Nat :=
  if h : ∃ N, l = Handle.label N then t.weight h.choose + 1 else 0

theorem Tree.rank_label (t : Tree) (N : Handle) : t.rank (Handle.label N) = t.weight N + 1 := by
  have hex : ∃ K, Handle.label N = Handle.label K := ⟨N, rfl⟩
  rw [Tree.rank, dif_pos hex, ← Handle.label_injective hex.choose_spec]

theorem Tree.rank_blockLabel (t : Tree) (n : Nat) : t.rank (blockLabel n) = 0 := by
  rw [Tree.rank, dif_neg]
  rintro ⟨N, hN⟩
  exact Names.label_ne_blockLabel N n hN.symm

include hp in
theorem Program.Compiled.inside_unique {N o o' : String} (h : (Plan.ofBlocks t blocks).inside N o)
    (h' : (Plan.ofBlocks t blocks).inside N o') : o = o' := by
  rcases h with ⟨M, K, hin, rfl, rfl⟩ | ⟨n, M, rfl, rfl, line, hline, hi, ho⟩ <;>
    rcases h' with ⟨M', K', hin', hK, rfl⟩ | ⟨n', M', hn, rfl, line', hline', hi', ho'⟩
  · obtain rfl := Handle.label_injective hK
    obtain ⟨q, ps, cs, hn, rfl⟩ := hin.enclosing
    obtain ⟨q', ps', cs', hn', rfl⟩ := hin'.enclosing
    cases hn.symm.trans hn'
    rfl
  · exact absurd hn (Names.label_ne_blockLabel _ _)
  · exact absurd hK.symm (Names.label_ne_blockLabel _ _)
  · obtain rfl := Names.blockLabel_injective hn
    obtain rfl := hp.line_unique hline hline' hi hi'
    exact Option.some.inj (ho.symm.trans ho')

include hp in
theorem Program.Compiled.owns_unique {o o' x : String} (h : (Plan.ofBlocks t blocks).owns o x)
    (h' : (Plan.ofBlocks t blocks).owns o' x) : o = o' := by
  rcases h with ⟨M, y, rfl, rfl⟩ | ⟨n, rfl, line, hline, hi, ho⟩ | ⟨n, i, rfl, rfl⟩ <;>
    rcases h' with ⟨M', y', rfl, hx⟩ | ⟨n', hx, line', hline', hi', ho'⟩ | ⟨n', i', rfl, hx⟩
  · rw [(Tree.scopedName_inj hx).1]
  · exact absurd hx (Names.scopedName_ne_resumeLabel _ _ _)
  · exact absurd hx (Names.scopedName_ne_blockParameter _ _ _ _)
  · exact absurd hx.symm (Names.scopedName_ne_resumeLabel _ _ _)
  · obtain rfl := hp.line_unique hline hline' hi hi'
    exact Option.some.inj (ho.symm.trans ho')
  · exact absurd hx (Names.resumeLabel_ne_blockParameter _ _ _)
  · exact absurd hx.symm (Names.scopedName_ne_blockParameter _ _ _ _)
  · exact absurd hx.symm (Names.resumeLabel_ne_blockParameter _ _ _)
  · rw [Names.blockParameter_inj hx]

/-- The block of a computed call is no lambda. -/
theorem Program.Compiled.enclosing_blockLabel (hp : p.Compiled t roots blocks) (n : Nat) :
    p.enclosing.find? (blockLabel n) = none := by
  cases hfind : p.enclosing.find? (blockLabel n) with
  | none => rfl
  | some l =>
    obtain ⟨N, q, ps, cs, hN, -⟩ := hp.enclosing_eq_some.mp hfind
    exact absurd hN.symm (Names.label_ne_blockLabel _ _)

/-- **The layout of a compiled program.** -/
noncomputable def Program.Compiled.layout (hp : p.Compiled t roots blocks) : Layout p where
  toPlan := Plan.ofBlocks t blocks
  code := by
    rw [hp.code]
    exact Program.map_linesOf blocks
  start := ⟨_, rfl, rfl⟩
  flows pc line hline := by
    change (Program.linesOf blocks)[pc]? = some line at hline
    obtain ⟨next, hflow, hnext⟩ := (hp.chain ⟨none, 0, none⟩).flows hline
    refine ⟨next, hflow, fun s hs => ?_⟩
    cases hline' : (Program.linesOf blocks)[pc + 1]? with
    | some line' => exact ⟨line', hline', hnext s hs line' hline'⟩
    | none =>
      -- the line is the last one, a return
      obtain ⟨ls, o, hls⟩ := hp.getLast
      have hlt : pc < (Program.linesOf blocks).length := (List.getElem?_eq_some_iff.mp hline).1
      rw [hls] at hline' hline hlt
      simp only [List.getElem?_eq_none_iff, List.length_append, List.length_singleton] at hline' hlt
      obtain rfl : pc = ls.length := by omega
      rw [List.getElem?_concat_length] at hline
      cases hline
      rw [hflow.next_of_ret rfl] at hs
      cases hs
  inside_unique _ _ _ := hp.inside_unique
  rank := t.rank
  rank_lt := by
    rintro N o (⟨M, K, hin, rfl, rfl⟩ | ⟨n, M, rfl, rfl, -⟩)
    · rw [Tree.rank_label, Tree.rank_label]
      exact Nat.succ_lt_succ hin.lighter
    · rw [Tree.rank_label, Tree.rank_blockLabel]
      exact Nat.succ_pos _
  owns_unique _ _ _ := hp.owns_unique
  enclosing := by
    rintro N o (⟨M, K, hin, rfl, rfl⟩ | ⟨n, M, rfl, rfl, -⟩)
    · exact Or.inl (hp.enclosing_of_inside hin)
    · exact Or.inr (hp.enclosing_blockLabel n)

/-- **The handles in compiled code are constants.** -/
theorem Layout.grounded (L : Layout p) {i : Instruction} (hi : i ∈ p.code) {op : Opcode} {h : Handle}
    (hop : i = .op op (some (.handle h))) : p.constants.contains h := by
  have hmem : i ∈ L.lines.map Line.instruction := by
    rw [L.code]
    exact Array.mem_toList_iff.mpr hi
  obtain ⟨line, hline, rfl⟩ := List.mem_map.mp hmem
  obtain ⟨pc, hpc⟩ := List.getElem?_of_mem hline
  obtain ⟨next, hflow, -⟩ := L.flows pc line hpc
  cases hflow with
  | push hv _ hhandle =>
    cases hop
    cases hv
    exact hhandle h rfl
  | fork hh =>
    cases hop
    exact hh
  | _ => cases hop

end Pieces

end SchemeMachine
