import SchemeMachine.Proofs.Layout.Compiled

/-!
# Where a value is supplied

A call may pass fewer arguments than its target takes. The target then takes operands of its caller, so that the number
of operands at a place is not what the layout says. Even so there is always an operand where an assignment takes one:
the line before it has just left a value.

* `Instruction.Supplies` says that an instruction leaves a value on top of the stack, or is not gone on from. A label
  supplies one if the ways that meet at it do (`Piece.IsJoin`).
* `Line.Follows` says what a line asks of the line before it, `Linked` says it of several lines.
* `Lowers.supplied` proves it of the lines of a term, whatever stands before them, and `Program.Compiled.linked` of those of
  a program. `Linked.supplied` says where such lines supply a value (`Plan.Supplied`).
-/

namespace SchemeMachine

open Lowering Piece

/-! ### Labels at which ways meet -/

/-- **A label at which ways meet that have all left a value**: the end of an `if`, of `and` or `or`, and the place where a
continuation is resumed. -/
def Piece.IsJoin (name : String) : Prop :=
  (∃ n, name = endLabel n) ∨ (∃ conjunction n, name = sinkLabel conjunction n ++ "_end") ∨ ∃ n, name = resumeLabel n

namespace Piece

theorem isJoin_endLabel (n : Nat) : IsJoin (endLabel n) := Or.inl ⟨n, rfl⟩

theorem isJoin_sinkEnd (conjunction : Bool) (n : Nat) : IsJoin (sinkLabel conjunction n ++ "_end") :=
  Or.inr (Or.inl ⟨conjunction, n, rfl⟩)

theorem isJoin_resumeLabel (n : Nat) : IsJoin (resumeLabel n) := Or.inr (Or.inr ⟨n, rfl⟩)

/-- The second character of a label at which ways meet. -/
theorem IsJoin.second {name : String} (h : IsJoin name) : name.toList[1]? ∈ [some 'e', some 'a', some 'o', some 'c'] := by
  rcases h with ⟨n, rfl⟩ | ⟨conjunction, n, rfl⟩ | ⟨n, rfl⟩
  · simp [endLabel]
  · cases conjunction <;> simp [sinkLabel]
  · simp [resumeLabel]

theorem not_isJoin_thenLabel (n : Nat) : ¬IsJoin (thenLabel n) := by
  intro h
  have hsecond := h.second
  simp [thenLabel] at hsecond

theorem not_isJoin_blockLabel (n : Nat) : ¬IsJoin (blockLabel n) := by
  intro h
  have hsecond := h.second
  simp [blockLabel] at hsecond

theorem not_isJoin_blockEnd (n : Nat) : ¬IsJoin (blockLabel n ++ "_end") := by
  intro h
  have hsecond := h.second
  simp [blockLabel] at hsecond

theorem not_isJoin_label (h : Handle) : ¬IsJoin (Handle.label h) := by
  rintro (⟨n, he⟩ | ⟨conjunction, n, he⟩ | ⟨n, he⟩)
  · have hl := congrArg String.toList he
    simp [Handle.label, endLabel] at hl
  · have hl := congrArg String.toList he
    cases conjunction <;> simp [Handle.label, sinkLabel] at hl
  · have hl := congrArg String.toList he
    simp [Handle.label, resumeLabel] at hl

theorem not_isJoin_sinkLabel (conjunction : Bool) (n : Nat) : ¬IsJoin (sinkLabel conjunction n) := by
  rintro (⟨m, he⟩ | ⟨conjunction', m, he⟩ | ⟨m, he⟩)
  · have hl := congrArg String.toList he
    cases conjunction <;> simp [sinkLabel, endLabel] at hl
  · have hsame : conjunction = conjunction' := by
      have hl := congrArg String.toList he
      cases conjunction <;> cases conjunction' <;> first | rfl | simp [sinkLabel] at hl
    subst hsame
    have he' : (if conjunction then "_and" else "_or") ++ toString n ++ "" =
        (if conjunction then "_and" else "_or") ++ toString m ++ "_end" := by
      simpa [sinkLabel] using he
    have hending := (Names.number_inj (by simp) (by simp) he').2
    simp at hending
  · have hl := congrArg String.toList he
    cases conjunction <;> simp [sinkLabel, resumeLabel] at hl

end Piece

/-! ### What a line asks of the line before it -/

/-- **An instruction that leaves a value on top of the stack**, or is not gone on from. -/
def Instruction.Supplies : Instruction → Prop
  | .label name => IsJoin name
  | .comment _ => False
  | .op opcode _ =>
    opcode ∈ [.push, .load, .loadClosure, .call, .tailCall] ∨
      opcode.answers = true ∧ opcode.operandCount?.isSome = true

/-- **What a line asks of the instruction before it.** Ways meet at a label with a value or without, and the code of a
label is not entered where ways meet. A jump to where ways meet with a value has one, and so have an assignment and a
return. -/
def Line.Follows (before : Instruction) (line : Line) : Prop :=
  match line.instruction with
  | .label name => (before.Supplies ↔ IsJoin name) ∧ (IsJoin name → line.spot.owner ≠ some name)
  | .op .goto (some (.label name)) => IsJoin name → before.Supplies
  | .op .ifTrue (some (.label name)) => ¬IsJoin name
  | .op .ifFalse (some (.label name)) => ¬IsJoin name
  | .op .set _ => before.Supplies
  | .op .ret _ => before.Supplies
  | _ => True

/-- **Lines each of which finds what it asks for**, after an instruction. -/
def Linked (before : Instruction) : List Line → Prop
  | [] => True
  | line :: rest => line.Follows before ∧ Linked line.instruction rest

/-- The last instruction of some lines, or the one before them if there are none. -/
def finalOf (before : Instruction) (ls : List Line) : Instruction := ls.foldl (fun _ line => line.instruction) before

namespace Linked

variable {before : Instruction} {ls ls' : List Line} {line : Line}

theorem append (h : Linked before ls) (h' : Linked (finalOf before ls) ls') : Linked before (ls ++ ls') := by
  induction ls generalizing before with
  | nil => exact h'
  | cons line ls ih => exact ⟨h.1, ih h.2 h'⟩

/-- A line in its place. -/
theorem follows (h : Linked before ls) {i : Nat} (hi : ls[i]? = some line) :
    ∃ last, (before :: ls.map Line.instruction)[i]? = some last ∧ line.Follows last := by
  induction ls generalizing before i with
  | nil => cases hi
  | cons first ls ih =>
    cases i with
    | zero =>
      cases hi
      exact ⟨before, rfl, h.1⟩
    | succ i =>
      obtain ⟨last, hlast, hfollows⟩ := ih h.2 hi
      exact ⟨last, hlast, hfollows⟩

end Linked

theorem finalOf_append (before : Instruction) (ls ls' : List Line) :
    finalOf before (ls ++ ls') = finalOf (finalOf before ls) ls' :=
  List.foldl_append

theorem finalOf_cons (before : Instruction) (line : Line) (ls : List Line) :
    finalOf before (line :: ls) = finalOf line.instruction ls := rfl

/-! ### Pieces -/

section Pieces

variable {o : String} {before : Instruction} {d : Nat}

/-- **The lines of a piece are linked**, whatever stands before them, and a piece that leaves a value supplies it. -/
def Piece.Supplied (o : String) (q : Piece) : Prop :=
  ∀ before d, Linked before (q.lines o d) ∧ (q.yields = true → (finalOf before (q.lines o d)).Supplies)

/-- Lines that are linked whatever stands before them, and supply a value. -/
def Supplying (ls : List Line) : Prop := ∀ before, Linked before ls ∧ (finalOf before ls).Supplies

theorem Supplying.append {ls ls' : List Line} (h : ∀ before, Linked before ls) (h' : Supplying ls') :
    Supplying (ls ++ ls') := by
  intro before
  refine ⟨(h before).append (h' _).1, ?_⟩
  rw [finalOf_append]
  exact (h' _).2

theorem supplies_call (tail : Bool) (target : Operand) : (callTo tail target).Supplies := by
  cases tail <;> exact Or.inl (by decide)

/-- An instruction that is no primitive leaves a value only if it is one of a few. -/
theorem not_supplies {op : Opcode} {operand : Option Operand}
    (hop : op ∉ [.push, .load, .loadClosure, .call, .tailCall]) (hcount : op.operandCount? = none) :
    ¬(Instruction.op op operand).Supplies := by
  rintro (hmem | ⟨-, hsome⟩)
  · exact hop hmem
  · rw [hcount] at hsome
    cases hsome

theorem not_supplies_goto (name : String) : ¬(toLabel .goto name).Supplies := not_supplies (by decide) rfl

theorem supplies_plain {op : Opcode} {k : Nat} (hanswers : op.answers = true) (hop : op.operandCount? = some k) :
    (plain op).Supplies :=
  Or.inr ⟨hanswers, by rw [hop]; rfl⟩

/-- A line that pushes a value. -/
theorem supplying_single {line : Line} (hfollows : ∀ before, line.Follows before) (h : line.instruction.Supplies) :
    Supplying [line] :=
  fun before => ⟨⟨hfollows before, trivial⟩, h⟩

theorem Supplying.piece {q : Piece} (h : ∀ d, Supplying (q.lines o d)) : q.Supplied o :=
  fun before d => ⟨(h d before).1, fun _ => (h d before).2⟩

namespace Piece.Supplied

theorem valued {q : Piece} (h : q.Supplied o) (d : Nat) : Supplying (valuedLines o d q.yields (q.lines o d)) := by
  intro before
  obtain ⟨hlinked, hsupplies⟩ := h before d
  cases hyields : q.yields with
  | true => exact ⟨hlinked, hsupplies hyields⟩
  | false =>
    refine ⟨hlinked.append ⟨trivial, trivial⟩, ?_⟩
    rw [valuedLines, if_neg Bool.false_ne_true, finalOf_append]
    exact Or.inl (by decide)

theorem dropped {q : Piece} (h : q.Supplied o) (d : Nat) (before : Instruction) :
    Linked before (droppedLines o d q.yields (q.lines o d)) := by
  cases hyields : q.yields with
  | true => exact (h before d).1.append ⟨trivial, trivial⟩
  | false => exact (h before d).1

/-- A piece that leaves no value. -/
theorem of_not_yields {q : Piece} (hyields : q.yields = false) (h : ∀ before d, Linked before (q.lines o d)) :
    q.Supplied o :=
  fun before d => ⟨h before d, fun hy => by rw [hyields] at hy; cases hy⟩

theorem linesAll {qs : List Piece} (h : ∀ q ∈ qs, q.Supplied o) (before : Instruction) (d : Nat) :
    Linked before (linesAll o d qs) := by
  induction qs generalizing before d with
  | nil => trivial
  | cons q qs ih =>
    exact ((h q List.mem_cons_self).valued d before).1.append (ih (fun q' hq' => h q' (List.mem_cons_of_mem q hq')) _ _)

/-- Values each of which is followed by a line that asks for nothing. -/
theorem linesThen {qs : List Piece} {i : Instruction} (h : ∀ q ∈ qs, q.Supplied o)
    (hi : ∀ before d, Line.Follows before ⟨⟨o, d, none⟩, i, 0⟩) (before : Instruction) (d : Nat) :
    Linked before (linesThen o d i qs) := by
  induction qs generalizing before with
  | nil => trivial
  | cons q qs ih =>
    refine ((h q List.mem_cons_self).valued d before).1.append ⟨hi _ _, ?_⟩
    exact ih (fun q' hq' => h q' (List.mem_cons_of_mem q hq')) _

theorem linesDropped {qs : List Piece} (h : ∀ q ∈ qs, q.Supplied o) (before : Instruction) (d : Nat) :
    Linked before (linesDropped o d qs) := by
  induction qs generalizing before with
  | nil => trivial
  | cons q qs ih =>
    exact ((h q List.mem_cons_self).dropped d before).append (ih (fun q' hq' => h q' (List.mem_cons_of_mem q hq')) _)

theorem push (operand : Operand) : (Piece.push operand).Supplied o :=
  Supplying.piece fun _ => supplying_single (fun _ => trivial) (Or.inl (by decide))

theorem load (name : String) : (Piece.load name).Supplied o :=
  Supplying.piece fun _ => supplying_single (fun _ => trivial) (Or.inl (by decide))

theorem closure (N : Handle) : (Piece.closure N).Supplied o :=
  Supplying.piece fun _ => supplying_single (fun _ => trivial) (Or.inl (by decide))

theorem follows_call (tail : Bool) (target : Operand) (before : Instruction) (s : Spot) (n : Nat) :
    Line.Follows before ⟨s, callTo tail target, n⟩ := by
  cases tail <;> trivial

theorem call {tail : Bool} {target : Operand} {args : List Piece} (h : ∀ q ∈ args, q.Supplied o) :
    (Piece.call tail target args).Supplied o :=
  Supplying.piece fun d => Supplying.append (fun before => linesAll h before d)
    (supplying_single (follows_call tail target · _ _) (supplies_call tail target))

theorem storeLines (o : String) (xs : List String) (before : Instruction) : Linked before (storeLines o xs) := by
  induction xs generalizing before with
  | nil => trivial
  | cons x xs ih => exact ⟨trivial, ih _⟩

theorem loadLines (o : String) (xs : List String) (before : Instruction) (d : Nat) :
    Linked before (loadLines o d xs) := by
  induction xs generalizing before d with
  | nil => trivial
  | cons x xs ih => exact ⟨trivial, ih _ _⟩

/-- A label that is entered without a value. -/
theorem follows_label {name : String} {s : Spot} {n : Nat} (hbefore : ¬before.Supplies) (hname : ¬IsJoin name) :
    Line.Follows before ⟨s, .label name, n⟩ :=
  ⟨iff_of_false hbefore hname, fun h => absurd h hname⟩

/-- A label at which ways meet with a value. -/
theorem follows_join {name : String} {d n : Nat} (hbefore : before.Supplies) (hname : IsJoin name) (ho : ¬IsJoin o) :
    Line.Follows before ⟨⟨o, d, none⟩, .label name, n⟩ := by
  refine ⟨iff_of_true hbefore hname, fun _ he => ho ?_⟩
  cases he
  exact hname

theorem computedCall {tail : Bool} {n : Nat} {operands : List Piece} (h : ∀ q ∈ operands, q.Supplied o) :
    (Piece.computedCall tail n operands).Supplied o := by
  refine Supplying.piece fun d => ?_
  have hblock : Linked (toLabel .goto (blockLabel n ++ "_end")) (blockLines n operands.length) := by
    refine ⟨follows_label (not_supplies_goto _) (not_isJoin_blockLabel n), ?_⟩
    refine ((storeLines _ _ _).append (loadLines _ _ _ _)).append ⟨trivial, ?_, trivial⟩
    exact supplies_call true (.atom (.variable (blockLabel n ++ ".p0")))
  have hret : ∀ before, finalOf before (blockLines n operands.length) = plain .ret := by
    intro before
    rw [blockLines, finalOf_cons, finalOf_append]
    rfl
  refine Supplying.append (fun before => Linked.append ⟨fun hjoin => absurd hjoin (not_isJoin_blockEnd n), hblock⟩ ⟨?_, ?_⟩)
    (supplying_single (follows_call tail _ · _ _) (supplies_call tail _))
  · refine follows_label ?_ (not_isJoin_blockEnd n)
    rw [finalOf_cons, hret]
    exact not_supplies (by decide) rfl
  · exact linesAll h _ d

theorem assignment {op : Opcode} {name : String} {right : Piece} (hop : op = .store ∨ op = .set)
    (h : right.Supplied o) : (Piece.assignment op name right).Supplied o := by
  refine of_not_yields rfl fun before d => (h.valued d before).1.append ⟨?_, trivial⟩
  rcases hop with rfl | rfl
  · trivial
  · exact (h.valued d before).2

theorem conditional {n : Nat} {test yes no : Piece} (ho : ¬IsJoin o) (htest : test.Supplied o) (hyes : yes.Supplied o)
    (hno : no.Supplied o) : (Piece.conditional n test yes no).Supplied o := by
  refine Supplying.piece fun d before => ?_
  have hno' := hno.valued d (toLabel .ifTrue (thenLabel n))
  have hyes' := hyes.valued d (.label (thenLabel n))
  have hfirst : Linked before (valuedLines o d test.yields (test.lines o d) ++
      ⟨⟨o, d + 1, none⟩, toLabel .ifTrue (thenLabel n), 0⟩ :: valuedLines o d no.yields (no.lines o d)) :=
    (htest.valued d before).1.append ⟨not_isJoin_thenLabel n, hno'.1⟩
  have hsecond : Linked (finalOf (toLabel .ifTrue (thenLabel n)) (valuedLines o d no.yields (no.lines o d)))
      (⟨⟨o, d + 1, none⟩, toLabel .goto (endLabel n), 0⟩ :: ⟨⟨o, d, none⟩, .label (thenLabel n), 0⟩ ::
        valuedLines o d yes.yields (yes.lines o d)) :=
    ⟨fun _ => hno'.2, follows_label (not_supplies_goto _) (not_isJoin_thenLabel n), hyes'.1⟩
  have hlast : Linked (finalOf (.label (thenLabel n)) (valuedLines o d yes.yields (yes.lines o d)))
      [⟨⟨o, d + 1, none⟩, .label (endLabel n), 0⟩] :=
    ⟨follows_join hyes'.2 (isJoin_endLabel n) ho, trivial⟩
  rw [lines]
  refine ⟨(hfirst.append ?_).append ?_, ?_⟩
  · rw [finalOf_append, finalOf_cons]
    exact hsecond
  · rw [finalOf_append, finalOf_cons, finalOf_cons]
    exact hlast
  · rw [finalOf_append]
    exact isJoin_endLabel n

theorem follows_clauseJump (conjunction : Bool) (n : Nat) (before : Instruction) (d : Nat) :
    Line.Follows before ⟨⟨o, d, none⟩, clauseJump conjunction n, 0⟩ := by
  have hsink := not_isJoin_sinkLabel conjunction n
  cases conjunction <;> exact hsink

theorem connective {conjunction returns : Bool} {n : Nat} {clauses : List Piece} {last : Piece} (ho : ¬IsJoin o)
    (hclauses : ∀ q ∈ clauses, q.Supplied o) (hlast : last.Supplied o) :
    (Piece.connective conjunction n clauses last returns).Supplied o := by
  refine Supplying.piece fun d => ?_
  rw [lines]
  refine Supplying.append (fun before => ?_) fun before => ⟨⟨trivial, fun _ => Or.inl (by decide), ?_, trivial, ?_, trivial⟩, ?_⟩
  · have hbefore := (linesThen hclauses (fun before d => follows_clauseJump conjunction n before d) before d).append
      (hlast.valued d _).1
    refine hbefore.append ?_
    split
    · trivial
    · exact ⟨follows_clauseJump conjunction n _ _, trivial⟩
  · exact follows_label (not_supplies_goto _) (not_isJoin_sinkLabel conjunction n)
  · exact follows_join (Or.inl (by decide)) (isJoin_sinkEnd conjunction n) ho
  · exact isJoin_sinkEnd conjunction n

theorem body {forms : List Piece} {last : Piece} (hforms : ∀ q ∈ forms, q.Supplied o) (hlast : last.Supplied o) :
    (Piece.body forms last).Supplied o :=
  Supplying.piece fun d => Supplying.append (fun before => linesDropped hforms before d) (hlast.valued d)

theorem callWithContinuation {n : Nat} {target : Operand} (ho : ¬IsJoin o) :
    (Piece.callWithContinuation n target).Supplied o :=
  Supplying.piece fun _ _ => ⟨⟨trivial, trivial, follows_call false target _ _ _,
    follows_join (supplies_call false target) (isJoin_resumeLabel n) ho, trivial⟩, isJoin_resumeLabel n⟩

theorem fork (h : Handle) : (Piece.fork h).Supplied o := of_not_yields rfl fun _ _ => ⟨trivial, trivial⟩

theorem display {shown : Piece} (h : shown.Supplied o) : (Piece.display shown).Supplied o :=
  of_not_yields rfl fun before d => (h.valued d before).1.append ⟨trivial, trivial⟩

theorem newline : Piece.newline.Supplied o := of_not_yields rfl fun _ _ => ⟨trivial, trivial⟩

theorem declaration : Piece.declaration.Supplied o := of_not_yields rfl fun _ _ => trivial

/-- A primitive that answers asks for nothing. -/
theorem follows_plain {op : Opcode} {k : Nat} (hop : op.operandCount? = some k) (before : Instruction) (s : Spot) :
    Line.Follows before ⟨s, plain op, 0⟩ := by
  cases op <;> trivial

theorem primitive {op : Opcode} {k : Nat} {args : List Piece} (hanswers : op.answers = true)
    (hop : op.operandCount? = some k) (h : ∀ q ∈ args, q.Supplied o) : (Piece.primitive op args).Supplied o :=
  Supplying.piece fun d => Supplying.append (fun before => linesAll h before d)
    (supplying_single (follows_plain hop · _) (supplies_plain hanswers hop))

theorem arithmetic {op : Opcode} {k : Nat} {first : Piece} {rest : List Piece} (hanswers : op.answers = true)
    (hop : op.operandCount? = some k) (hfirst : first.Supplied o) (hrest : ∀ q ∈ rest, q.Supplied o) :
    (Piece.arithmetic op first rest).Supplied o := by
  refine Supplying.piece fun d before => ?_
  obtain ⟨hlinked, hsupplies⟩ := hfirst.valued d before
  rw [lines]
  refine ⟨hlinked.append (linesThen hrest (fun before d => follows_plain hop before _) _ _), ?_⟩
  rw [finalOf_append]
  generalize finalOf before (valuedLines o d first.yields (first.lines o d)) = i at hsupplies
  clear hrest
  induction rest generalizing i with
  | nil => exact hsupplies
  | cons q qs ih =>
    rw [Piece.linesThen, finalOf_append, finalOf_cons]
    exact ih _ (supplies_plain hanswers hop)

theorem consLines (count : Nat) (hbefore : before.Supplies) :
    Linked before (consLines o d count) ∧ (finalOf before (consLines o d count)).Supplies := by
  induction count generalizing before with
  | zero => exact ⟨trivial, hbefore⟩
  | succ count ih =>
    have hcons : (plain .cons).Supplies := supplies_plain (k := 2) rfl rfl
    obtain ⟨hlinked, hsupplies⟩ := ih hcons
    exact ⟨⟨trivial, hlinked⟩, hsupplies⟩

theorem template {items : List Piece} {empty : Handle} (h : ∀ q ∈ items, q.Supplied o) :
    (Piece.template items empty).Supplied o := by
  refine Supplying.piece fun d => Supplying.append (fun before => linesAll h before d) fun before => ?_
  have hpush : (pushHandle empty).Supplies := Or.inl (by decide)
  obtain ⟨hlinked, hsupplies⟩ := consLines (o := o) (d := d) items.length hpush
  exact ⟨⟨trivial, hlinked⟩, hsupplies⟩

end Piece.Supplied

end Pieces

/-! ### Terms and their pieces -/

theorem Opcode.answers_of_arithmetic {word : String} {op : Opcode} (h : arithmeticOf? word = some op) :
    op.answers = true ∧ op.operandCount? = some 2 := by
  unfold arithmeticOf? at h
  split at h <;> cases h <;> exact ⟨rfl, rfl⟩

theorem Opcode.answers_of_fixed {word : String} {op : Opcode} {count : Nat} (h : fixedOf? word = some (op, count)) :
    op.answers = true ∧ op.operandCount? = some count := by
  unfold fixedOf? at h
  split at h <;> cases h <;> exact ⟨rfl, rfl⟩

section

variable {t : Tree} {K : Table Handle Constant} {M : Handle} {o : String}

mutual

/-- **The lines of a term are linked**, and supply a value if its piece leaves one. -/
theorem Lowers.supplied (ho : ¬IsJoin o) : {tail : Bool} → {x : Term} → {q : Piece} → Lowers t K M tail x q →
    q.Supplied o
  | _, _, _, .variable _ => .load _
  | _, _, _, .keyword _ => .push _
  | _, _, _, .literal _ => .push _
  | _, _, _, .string _ => .push _
  | _, _, _, .lambda _ => .closure _
  | _, _, _, .quote _ => .push _
  | _, _, _, .template hq => hq.supplied ho
  | _, _, _, .call _ hargs => .call (hargs.supplied ho)
  | _, _, _, .lambdaCall _ _ hargs => .call (hargs.supplied ho)
  | _, _, _, .computedCall _ hargs => .computedCall (hargs.supplied ho)
  | _, _, _, .define hright => .assignment (Or.inl rfl) (hright.supplied ho)
  | _, _, _, .assign hright => .assignment (Or.inr rfl) (hright.supplied ho)
  | _, _, _, .conditional htest hyes hno => .conditional ho (htest.supplied ho) (hyes.supplied ho) (hno.supplied ho)
  | _, _, _, .conditionalShort htest hyes => .conditional ho (htest.supplied ho) (hyes.supplied ho) (.push _)
  | _, _, _, .connectiveNone => .push _
  | _, _, _, .connective hclauses hlast _ => .connective ho (hclauses.supplied ho) (hlast.supplied ho)
  | _, _, _, .sequence hforms => .body (hforms.supplied ho).1 (hforms.supplied ho).2
  | _, _, _, .callWithContinuation => .callWithContinuation ho
  | _, _, _, .callLambdaWithContinuation _ => .callWithContinuation ho
  | _, _, _, .fork _ _ => .fork _
  | _, _, _, .display hshown => .display (hshown.supplied ho)
  | _, _, _, .newline => .newline
  | _, _, _, .declaration _ => .declaration
  | _, _, _, .arithmeticNone _ => .push _
  -- the operand that is put in front answers, too
  | _, _, _, .arithmeticNeutral hop _ hoperand => by
    obtain ⟨hanswers, hcount⟩ := Opcode.answers_of_arithmetic hop
    refine .arithmetic hanswers hcount (.push _) fun q hq => ?_
    rw [List.mem_singleton.mp hq]
    exact hoperand.supplied ho
  | _, _, _, .arithmetic hop _ hfirst hrest => by
    obtain ⟨hanswers, hcount⟩ := Opcode.answers_of_arithmetic hop
    exact .arithmetic hanswers hcount (hfirst.supplied ho) (hrest.supplied ho)
  | _, _, _, .primitive hop hargs => by
    obtain ⟨hanswers, hcount⟩ := Opcode.answers_of_fixed hop
    exact .primitive hanswers hcount (hargs.supplied ho)

theorem LowersAll.supplied (ho : ¬IsJoin o) : {xs : List Term} → {qs : List Piece} → LowersAll t K M xs qs →
    ∀ q ∈ qs, q.Supplied o
  | _, _, .nil => nofun
  | _, _, .cons hx hxs => List.forall_mem_cons.mpr ⟨hx.supplied ho, hxs.supplied ho⟩

theorem LowersRight.supplied (ho : ¬IsJoin o) : {x : Term} → {q : Piece} → LowersRight t K M x q → q.Supplied o
  | _, _, .lambda _ => .push _
  | _, _, .other _ hq => hq.supplied ho

theorem LowersForms.supplied (ho : ¬IsJoin o) : {tail : Bool} → {xs : List Term} → {qs : List Piece} → {q : Piece} →
    LowersForms t K M tail xs qs q → (∀ q' ∈ qs, q'.Supplied o) ∧ q.Supplied o
  | _, _, _, _, .empty => ⟨nofun, .push _⟩
  | _, _, _, _, .last hx => ⟨nofun, hx.supplied ho⟩
  | _, _, _, _, .skip _ hxs => hxs.supplied ho
  | _, _, _, _, .form _ hq hxs =>
    ⟨List.forall_mem_cons.mpr ⟨hq.supplied ho, (hxs.supplied ho).1⟩, (hxs.supplied ho).2⟩

theorem LowersItem.supplied (ho : ¬IsJoin o) : {x : Term} → {q : Piece} → LowersItem t K M x q → q.Supplied o
  | _, _, .atom _ => .push _
  | _, _, .string _ => .push _
  | _, _, .hole hx => hx.supplied ho
  | _, _, .constant _ _ => .push _
  | _, _, .list _ hitems _ => .template (hitems.supplied ho)

theorem LowersItems.supplied (ho : ¬IsJoin o) : {xs : List Term} → {qs : List Piece} → LowersItems t K M xs qs →
    ∀ q ∈ qs, q.Supplied o
  | _, _, .nil => nofun
  | _, _, .cons hx hxs => List.forall_mem_cons.mpr ⟨hx.supplied ho, hxs.supplied ho⟩

end

end

/-! ### Programs -/

variable {t : Tree} {roots : List Term} {blocks : List Block} {p : Program}

/-- The lines of a block are linked, whatever stands before them. -/
theorem LowersBlock.linked (hp : p.Compiled t roots blocks) {b : Block} (hb : b ∈ blocks) (before : Instruction) :
    Linked before b.lines := by
  obtain ⟨body, hbody⟩ := hp.blocks b hb
  obtain ⟨qs, last, hpiece, hforms⟩ := hbody.lowered
  obtain ⟨hqs, hlast⟩ := hforms.supplied (not_isJoin_label b.handle)
  have hsupplied : b.body.Supplied (Handle.label b.handle) := hpiece ▸ .body hqs hlast
  have hvalued := hsupplied.valued 0
  refine ⟨trivial, Piece.Supplied.follows_label id (not_isJoin_label _), ?_⟩
  refine ((Piece.Supplied.storeLines _ _ _).append (hvalued _).1).append ⟨?_, trivial⟩
  rw [finalOf_append]
  exact (hvalued _).2

/-- **The lines of a program are linked.** -/
theorem Program.Compiled.linked (hp : p.Compiled t roots blocks) (before : Instruction) :
    Linked before (Program.linesOf blocks) := by
  have hblocks : ∀ bs : List Block, (∀ b ∈ bs, b ∈ blocks) → ∀ before, Linked before (bs.flatMap Block.lines) := by
    intro bs hbs
    induction bs with
    | nil => exact fun _ => trivial
    | cons b bs ih =>
      intro before
      exact (LowersBlock.linked hp (hbs b List.mem_cons_self) before).append
        (ih (fun b' hb' => hbs b' (List.mem_cons_of_mem b hb')) _)
  exact ⟨trivial, trivial, hblocks blocks (fun _ hb => hb) _⟩

/-- A value is supplied at a place: the line before it has left one. -/
def Plan.SuppliedAt (P : Plan) (pc : Nat) : Prop :=
  ∃ k line, pc = k + 1 ∧ P.lines[k]? = some line ∧ line.instruction.Supplies

theorem Plan.suppliedAt_succ {P : Plan} {pc : Nat} {line : Line} (hline : P.lines[pc]? = some line) :
    P.SuppliedAt (pc + 1) ↔ line.instruction.Supplies := by
  constructor
  · rintro ⟨k, line', hk, hline', h⟩
    cases hk
    cases hline.symm.trans hline'
    exact h
  · exact fun h => ⟨pc, line, rfl, hline, h⟩

/-- **Where a value is supplied**, and where it is not. -/
structure Plan.Supplied (P : Plan) : Prop where
  /-- A value is there just where ways meet with one. -/
  label : ∀ pc line name, P.lines[pc]? = some line → line.instruction = .label name → (P.SuppliedAt pc ↔ IsJoin name)
  /-- Code is not entered with one. -/
  entry : ∀ pc line name, P.lines[pc]? = some line → line.instruction = .label name → line.spot.owner = some name →
    ¬P.SuppliedAt pc
  goto : ∀ pc line name, P.lines[pc]? = some line → line.instruction = toLabel .goto name → IsJoin name →
    P.SuppliedAt pc
  branch : ∀ (pc : Nat) (line : Line) (op : Opcode) (name : String), P.lines[pc]? = some line → (op = .ifTrue ∨ op = .ifFalse) →
    line.instruction = toLabel op name → ¬IsJoin name
  set : ∀ pc line name, P.lines[pc]? = some line → line.instruction = onVariable .set name → P.SuppliedAt pc
  ret : ∀ pc line, P.lines[pc]? = some line → line.instruction = plain .ret → P.SuppliedAt pc

/-- **Linked lines supply values.** -/
theorem Linked.supplied {P : Plan} (h : ∀ before, Linked before P.lines) : P.Supplied := by
  -- a comment stands for what is before the first line, so nothing is supplied there
  have hfollows : ∀ {pc line}, P.lines[pc]? = some line →
      ∃ last, line.Follows last ∧ (last.Supplies ↔ P.SuppliedAt pc) := by
    intro pc line hline
    obtain ⟨last, hlast, hfollows⟩ := (h (.comment "")).follows hline
    refine ⟨last, hfollows, ?_⟩
    cases pc with
    | zero =>
      cases hlast
      refine iff_of_false id ?_
      rintro ⟨k, _, hk, -⟩
      cases hk
    | succ k =>
      rw [List.getElem?_cons_succ, List.getElem?_map, Option.map_eq_some_iff] at hlast
      obtain ⟨line', hline', rfl⟩ := hlast
      exact (Plan.suppliedAt_succ hline').symm
  refine ⟨?_, ?_, ?_, ?_, ?_, ?_⟩
  · intro pc line name hline hi
    obtain ⟨last, hlast, hiff⟩ := hfollows hline
    simp only [Line.Follows, hi] at hlast
    rw [← hiff]
    exact hlast.1
  · intro pc line name hline hi howner
    obtain ⟨last, hlast, hiff⟩ := hfollows hline
    simp only [Line.Follows, hi] at hlast
    rw [← hiff, hlast.1]
    exact fun hjoin => hlast.2 hjoin howner
  · intro pc line name hline hi hjoin
    obtain ⟨last, hlast, hiff⟩ := hfollows hline
    simp only [Line.Follows, hi, toLabel] at hlast
    exact hiff.mp (hlast hjoin)
  · intro pc line op name hline hop hi
    obtain ⟨last, hlast, -⟩ := hfollows hline
    rcases hop with rfl | rfl <;> simpa only [Line.Follows, hi, toLabel] using hlast
  · intro pc line name hline hi
    obtain ⟨last, hlast, hiff⟩ := hfollows hline
    simp only [Line.Follows, hi, onVariable] at hlast
    exact hiff.mp hlast
  · intro pc line hline hi
    obtain ⟨last, hlast, hiff⟩ := hfollows hline
    simp only [Line.Follows, hi, plain] at hlast
    exact hiff.mp hlast

end SchemeMachine
