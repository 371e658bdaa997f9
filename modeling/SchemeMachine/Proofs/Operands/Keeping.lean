import SchemeMachine.Proofs.Operands.Move

/-!
# Expressions keep to their operands

While an expression is evaluated, its code takes operands that it has left itself, and it goes from line to line, jumps
inside the expression, or calls. It is left for good only by a tail call, and outside tail position not even so.

* `Flows.exists_next`, `Flows.at_jump` and `Flows.of_call` say where a line goes to in the code that it belongs to, and
  `Flows.depth_of_tailCall` what a tail call leaves behind: nothing.
* `Line.Keeping` is what holds of the lines of such an expression, and `Lowers.keeping` proves it.
-/

namespace SchemeMachine

open Lowering Piece

/-! ### Flow -/

namespace Flows

variable {p : Program} {P : Plan} {line : Line} {next : Option Spot}

/-- A line finds the operands that it takes. -/
theorem taken_le (h : Flows p P line next) : line.taken ≤ line.spot.depth := by
  cases h with
  | operation hop =>
    rw [(Line.of_operation hop _ _).1]
    exact Nat.le_add_left _ _
  | branch hop => rcases hop with rfl | rfl <;> exact Nat.le_add_left _ _
  | call => exact Nat.le_add_left _ _
  | callLabel => exact Nat.le_add_left _ _
  | store => exact Nat.le_add_left _ _
  | set => exact Nat.le_add_left _ _
  | pop => exact Nat.le_add_left _ _
  | tailCall => exact Nat.le_refl _
  | tailCallLabel => exact Nat.le_refl _
  | _ => exact Nat.zero_le _

/-- The next line belongs to the same code. -/
theorem exists_next (h : Flows p P line next) (hfalls : line.falls = true) :
    ∃ s ∈ next, s.owner = line.spot.owner := by
  cases h with
  | tailCall => cases hfalls
  | tailCallLabel => cases hfalls
  | ret => cases hfalls
  | goto => cases hfalls
  | halt => cases hfalls
  | _ => exact ⟨_, rfl, rfl⟩

/-- A jump leads to the same code. -/
theorem at_jump (h : Flows p P line next) {name : String} (hjump : name ∈ line.jump?) :
    ∃ s, P.At name s ∧ s.owner = line.spot.owner := by
  cases h with
  | branch hop hat =>
    rcases hop with rfl | rfl <;>
    · cases hjump
      exact ⟨_, hat, rfl⟩
  | goto hat =>
    cases hjump
    exact ⟨_, hat, rfl⟩
  | operation hop =>
    rw [(Line.of_operation hop _ _).2.2.2] at hjump
    cases hjump
  | _ => cases hjump

/-- A call comes back to the operands below its arguments, with one value more. -/
theorem of_call (h : Flows p P line next) {target : Operand} (hi : line.instruction = callTo false target) :
    ∃ d, line.spot.depth = d + line.taken ∧ next = some ⟨line.spot.owner, d + 1, none⟩ := by
  cases h with
  | start => exact ⟨0, rfl, rfl⟩
  | call => exact ⟨_, rfl, rfl⟩
  | callLabel => exact ⟨_, rfl, rfl⟩
  | branch hop => rcases hop with rfl | rfl <;> cases hi
  | _ => cases hi

/-- A tail call finds its arguments and nothing else. -/
theorem depth_of_tailCall (h : Flows p P line next) {target : Operand} (hi : line.instruction = callTo true target) :
    line.spot.depth = line.arguments := by
  cases h with
  | tailCall => rfl
  | tailCallLabel => rfl
  | branch hop => rcases hop with rfl | rfl <;> cases hi
  | _ => cases hi

end Flows

/-! ### Expressions keep to their operands -/

/-- **A line that keeps to its operands**: if it is of the code at `o`, it takes none of the first `d` operands, leaves the
code by a tail call at most, and that in tail position only, and jumps to a label among the lines `all`. -/
def Line.Keeping (all : List Line) (o : String) (tail : Bool) (d : Nat) (line : Line) : Prop :=
  line.spot.owner = some o →
    d + line.taken ≤ line.spot.depth ∧
      (line.leaves = true → tail = true ∧ ∃ target, line.instruction = callTo true target) ∧
      ∀ name ∈ line.jump?, ∃ line' ∈ all, line'.instruction = .label name

section Keeping

variable {all ls ls' : List Line} {o : String} {tail : Bool} {d d' : Nat} {line : Line}

/-- A line that does not jump. -/
theorem Line.Keeping.stays (htaken : d + line.taken ≤ line.spot.depth) (hleaves : line.leaves = false)
    (hjump : line.jump? = none) : line.Keeping all o tail d :=
  fun _ => ⟨htaken, by simp [hleaves], by simp [hjump]⟩

theorem Line.Keeping.jumps (htaken : d + line.taken ≤ line.spot.depth) (hleaves : line.leaves = false) {name : String}
    (hjump : line.jump? = some name) {s : Spot} (hmem : ⟨s, .label name, 0⟩ ∈ all) : line.Keeping all o tail d := by
  refine fun _ => ⟨htaken, by simp [hleaves], fun name' hname => ?_⟩
  cases hjump.symm.trans hname
  exact ⟨_, hmem, rfl⟩

theorem Line.Keeping.mono (h : line.Keeping all o tail d') (hd : d ≤ d') : line.Keeping all o tail d := by
  intro howner
  obtain ⟨htaken, hrest⟩ := h howner
  exact ⟨by omega, hrest⟩

theorem keeping_valuedLines {yields : Bool} (h : ∀ line ∈ ls, line.Keeping all o tail d) :
    ∀ line ∈ valuedLines o d yields ls, line.Keeping all o tail d := by
  cases yields with
  | true => exact h
  | false => exact List.forall_mem_append.mpr ⟨h, List.forall_mem_singleton.mpr (.stays (Nat.le_refl _) rfl rfl)⟩

theorem keeping_droppedLines {yields : Bool} (h : ∀ line ∈ ls, line.Keeping all o tail d) :
    ∀ line ∈ droppedLines o d yields ls, line.Keeping all o tail d := by
  cases yields with
  | false => exact h
  | true => exact List.forall_mem_append.mpr ⟨h, List.forall_mem_singleton.mpr (.stays (Nat.le_refl _) rfl rfl)⟩

theorem keeping_consLines (count : Nat) : ∀ line ∈ consLines o d count, line.Keeping all o tail d := by
  induction count with
  | zero => simp [consLines]
  | succ count ih =>
    have htaken : d + 2 ≤ d + count + 2 := by omega
    exact List.forall_mem_cons.mpr ⟨.stays htaken rfl rfl, ih⟩

/-- The block of a computed call is other code. -/
theorem keeping_blockLines {M : Handle} (n count : Nat) :
    ∀ line ∈ blockLines n count, line.Keeping all (Handle.label M) tail d := by
  have howner : ∀ line ∈ blockLines n count, line.spot.owner = some (blockLabel n) := by
    have hstore : ∀ xs, ∀ line ∈ storeLines (blockLabel n) xs, line.spot.owner = some (blockLabel n) := by
      intro xs
      induction xs with
      | nil => simp [storeLines]
      | cons x xs ih => exact List.forall_mem_cons.mpr ⟨rfl, ih⟩
    have hload : ∀ xs d, ∀ line ∈ loadLines (blockLabel n) d xs, line.spot.owner = some (blockLabel n) := by
      intro xs
      induction xs with
      | nil => simp [loadLines]
      | cons x xs ih => exact fun d => List.forall_mem_cons.mpr ⟨rfl, ih (d + 1)⟩
    simpa [blockLines, or_imp, forall_and] using ⟨hstore _, hload _ _⟩
  intro line hline hsame
  rw [howner line hline] at hsame
  exact absurd (Option.some.inj hsame).symm (Names.label_ne_blockLabel M n)

/-- A call, which is a tail call in tail position only. -/
theorem keeping_call {mark : Bool} (hmark : mark = true → tail = true) {pending : Option String} {target : Operand}
    {n : Nat} : Line.Keeping all o tail d ⟨⟨o, d + n, pending⟩, callTo mark target, n⟩ := by
  cases mark with
  | true => exact fun _ => ⟨Nat.le_refl _, fun _ => ⟨hmark rfl, target, rfl⟩, by simp [Line.jump?, callTo]⟩
  | false => exact .stays (Nat.le_refl _) rfl rfl

theorem keeping_clauseJump {conjunction : Bool} {n : Nat} {s s' : Spot} (hs : s.depth = d + 1)
    (hmem : ⟨s', .label (sinkLabel conjunction n), 0⟩ ∈ all) :
    Line.Keeping all o tail d ⟨s, clauseJump conjunction n, 0⟩ := by
  cases conjunction with
  | true => exact .jumps (Nat.le_of_eq hs.symm) rfl rfl hmem
  | false => exact .jumps (Nat.le_of_eq hs.symm) rfl rfl hmem

/-- The line of a primitive that finds its operands. -/
theorem keeping_operation {op : Opcode} {k : Nat} (hop : op.operandCount? = some k) {s : Spot} (hs : s.depth = d + k) :
    Line.Keeping all o tail d ⟨s, plain op, 0⟩ := by
  obtain ⟨htaken, -, hleaves, hjump⟩ := Line.of_operation hop s 0
  exact .stays (by rw [htaken, hs]) hleaves hjump

theorem operandCount?_of_arithmetic {word : String} {op : Opcode} (hop : arithmeticOf? word = some op) :
    op.operandCount? = some 2 := by
  unfold arithmeticOf? at hop
  split at hop <;> cases hop <;> rfl

theorem operandCount?_of_fixed {word : String} {op : Opcode} {k : Nat} (hop : fixedOf? word = some (op, k)) :
    op.operandCount? = some k := by
  unfold fixedOf? at hop
  split at hop <;> cases hop <;> rfl

/-- The lines of a conditional around those of its parts. -/
theorem keeping_conditional {n : Nat} {test yes no : Piece} (hsub : (Piece.conditional n test yes no).lines o d ⊆ all)
    (htest : ∀ line ∈ test.lines o d, line.Keeping all o tail d) (hyes : ∀ line ∈ yes.lines o d, line.Keeping all o tail d)
    (hno : ∀ line ∈ no.lines o d, line.Keeping all o tail d) :
    ∀ line ∈ (Piece.conditional n test yes no).lines o d, line.Keeping all o tail d := by
  have hthen : ⟨⟨o, d, none⟩, .label (thenLabel n), 0⟩ ∈ all := hsub (by simp [lines])
  have hend : ⟨⟨o, d + 1, none⟩, .label (endLabel n), 0⟩ ∈ all := hsub (by simp [lines])
  simp only [lines, List.forall_mem_append, List.forall_mem_cons]
  exact ⟨⟨⟨keeping_valuedLines htest, .jumps (Nat.le_refl _) rfl rfl hthen, keeping_valuedLines hno⟩,
    .jumps (Nat.le_succ d) rfl rfl hend, .stays (Nat.le_refl _) rfl rfl, keeping_valuedLines hyes⟩,
    .stays (Nat.le_succ d) rfl rfl, by simp⟩

/-- The lines of a call with the continuation. -/
theorem keeping_callWithContinuation (n : Nat) (target : Operand) :
    ∀ line ∈ (Piece.callWithContinuation n target).lines o d, line.Keeping all o tail d := by
  simp only [lines, List.forall_mem_cons]
  exact ⟨.stays (Nat.le_refl _) rfl rfl, .stays (Nat.le_refl _) rfl rfl, .stays (Nat.le_refl _) rfl rfl,
    .stays (Nat.le_succ d) rfl rfl, by simp⟩

end Keeping

variable {t : Tree} {K : Table Handle Constant} {M : Handle} {all : List Line} {flag : Bool}

mutual

/-- **The lines of an expression keep to their operands.** -/
theorem Lowers.keeping : {tail : Bool} → {x : Term} → {q : Piece} → Lowers t K M tail x q →
    (tail = true → flag = true) → (d : Nat) → q.lines (Handle.label M) d ⊆ all →
    ∀ line ∈ q.lines (Handle.label M) d, line.Keeping all (Handle.label M) flag d
  -- a single line leaves its value on what was there
  | _, _, _, .variable name, _, d, _ => List.forall_mem_singleton.mpr (.stays (Nat.le_refl _) rfl rfl)
  | _, _, _, .keyword h, _, d, _ => List.forall_mem_singleton.mpr (.stays (Nat.le_refl _) rfl rfl)
  | _, _, _, .literal _, _, d, _ => List.forall_mem_singleton.mpr (.stays (Nat.le_refl _) rfl rfl)
  | _, _, _, .string hk, _, d, _ => List.forall_mem_singleton.mpr (.stays (Nat.le_refl _) rfl rfl)
  | _, _, _, .lambda hin, _, d, _ => List.forall_mem_singleton.mpr (.stays (Nat.le_refl _) rfl rfl)
  | _, _, _, .quote hk, _, d, _ => List.forall_mem_singleton.mpr (.stays (Nat.le_refl _) rfl rfl)
  | _, _, _, .template hq, ht, d, hsub => hq.keeping d hsub
  -- the arguments first, and then the call, which takes them and answers
  | _, _, _, .call hmark hargs, ht, d, hsub => by
    rw [lines, List.append_subset] at hsub
    exact List.forall_mem_append.mpr ⟨hargs.keeping d hsub.1, List.forall_mem_singleton.mpr (keeping_call fun h => ht (hmark h))⟩
  | _, _, _, .lambdaCall hmark _ hargs, ht, d, hsub => by
    rw [lines, List.append_subset] at hsub
    exact List.forall_mem_append.mpr ⟨hargs.keeping d hsub.1, List.forall_mem_singleton.mpr (keeping_call fun h => ht (hmark h))⟩
  -- the block of the operator is jumped over, to a label among the same lines
  | _, _, _, .computedCall (n := n) hmark hargs, ht, d, hsub => by
    have hend : ⟨⟨Handle.label M, d, none⟩, .label (blockLabel n ++ "_end"), 0⟩ ∈ all := hsub (by simp [lines])
    simp only [lines, List.append_subset, List.cons_subset] at hsub
    simp only [lines, List.forall_mem_append, List.forall_mem_cons]
    exact ⟨⟨⟨.jumps (Nat.le_refl _) rfl rfl hend, keeping_blockLines n _⟩, .stays (Nat.le_refl _) rfl rfl,
      hargs.keeping d hsub.1.2.2⟩, keeping_call fun h => ht (hmark h), by simp⟩
  | _, _, _, .define hright, ht, d, hsub => by
    rw [lines, List.append_subset] at hsub
    exact List.forall_mem_append.mpr ⟨keeping_valuedLines (hright.keeping d (subset_of_valuedLines hsub.1)),
      List.forall_mem_singleton.mpr (.stays (Nat.le_refl _) rfl rfl)⟩
  | _, _, _, .assign hright, ht, d, hsub => by
    rw [lines, List.append_subset] at hsub
    exact List.forall_mem_append.mpr ⟨keeping_valuedLines (hright.keeping d (subset_of_valuedLines hsub.1)),
      List.forall_mem_singleton.mpr (.stays (Nat.le_refl _) rfl rfl)⟩
  | _, _, _, .conditional htest hyes hno, ht, d, hsub => by
    have hall := hsub
    simp only [lines, List.append_subset, List.cons_subset] at hsub
    exact keeping_conditional hall (htest.keeping nofun d (subset_of_valuedLines hsub.1.1.1))
      (hyes.keeping ht d (subset_of_valuedLines hsub.1.2.2.2)) (hno.keeping ht d (subset_of_valuedLines hsub.1.1.2.2))
  | _, _, _, .conditionalShort htest hyes, ht, d, hsub => by
    have hall := hsub
    simp only [lines, List.append_subset, List.cons_subset] at hsub
    exact keeping_conditional hall (htest.keeping nofun d (subset_of_valuedLines hsub.1.1.1))
      (hyes.keeping ht d (subset_of_valuedLines hsub.1.2.2.2))
      (List.forall_mem_singleton.mpr (.stays (Nat.le_refl _) rfl rfl))
  | _, _, _, .connectiveNone, _, d, _ => List.forall_mem_singleton.mpr (.stays (Nat.le_refl _) rfl rfl)
  -- every clause is left for the sink with the operands that stood there before the first one
  | _, _, _, @Lowers.connective _ _ _ _ c _ _ n _ _ _ _ hclauses hlast _, ht, d, hsub => by
    have hsink : ⟨⟨Handle.label M, d, none⟩, .label (sinkLabel c n), 0⟩ ∈ all := hsub (by simp [lines])
    have hend : ⟨⟨Handle.label M, d + 1, none⟩, .label (sinkLabel c n ++ "_end"), 0⟩ ∈ all := hsub (by simp [lines])
    simp only [lines, List.append_subset] at hsub
    simp only [lines, List.forall_mem_append, List.forall_mem_cons]
    refine ⟨⟨⟨hclauses.keepingThen d d (Nat.le_refl d) _ (fun s hs => keeping_clauseJump hs hsink) hsub.1.1.1,
      keeping_valuedLines (hlast.keeping ht d (subset_of_valuedLines hsub.1.1.2))⟩, ?_⟩,
      .stays (Nat.le_refl _) rfl rfl, .jumps (Nat.le_succ d) rfl rfl hend, .stays (Nat.le_refl _) rfl rfl,
      .stays (Nat.le_refl _) rfl rfl, .stays (Nat.le_succ d) rfl rfl, by simp⟩
    split
    · simp
    · exact List.forall_mem_singleton.mpr (keeping_clauseJump rfl hsink)
  | _, _, _, .sequence hforms, ht, d, hsub => by
    rw [lines, List.append_subset] at hsub
    obtain ⟨hfirst, hlast⟩ := hforms.keeping ht d hsub.1 (subset_of_valuedLines hsub.2)
    exact List.forall_mem_append.mpr ⟨hfirst, keeping_valuedLines hlast⟩
  | _, _, _, .callWithContinuation, _, d, _ => keeping_callWithContinuation _ _
  | _, _, _, .callLambdaWithContinuation _, _, d, _ => keeping_callWithContinuation _ _
  | _, _, _, .fork hk hchild, _, d, _ => List.forall_mem_singleton.mpr (.stays (Nat.le_refl _) rfl rfl)
  | _, _, _, .display hx, ht, d, hsub => by
    rw [lines, List.append_subset] at hsub
    exact List.forall_mem_append.mpr ⟨keeping_valuedLines (hx.keeping nofun d (subset_of_valuedLines hsub.1)),
      List.forall_mem_singleton.mpr (.stays (Nat.le_refl _) rfl rfl)⟩
  | _, _, _, .newline, _, d, _ => List.forall_mem_singleton.mpr (.stays (Nat.le_refl _) rfl rfl)
  | _, _, _, .declaration _, _, d, _ => by simp [lines]
  | _, _, _, .arithmeticNone _, _, d, _ => List.forall_mem_singleton.mpr (.stays (Nat.le_refl _) rfl rfl)
  | _, _, _, .arithmeticNeutral hop _ hq, _, d, hsub => by
    simp only [lines, linesThen, List.append_subset, List.cons_subset] at hsub
    simp only [lines, linesThen, List.forall_mem_append, List.forall_mem_cons]
    have hq' := hq.keeping nofun (d + 1) (subset_of_valuedLines hsub.2.1)
    exact ⟨keeping_valuedLines (List.forall_mem_singleton.mpr (.stays (Nat.le_refl _) rfl rfl)),
      fun line hline => (keeping_valuedLines hq' line hline).mono (Nat.le_succ d),
      keeping_operation (operandCount?_of_arithmetic hop) rfl, by simp⟩
  | _, _, _, .arithmetic hop _ hq hqs, _, d, hsub => by
    rw [lines, List.append_subset] at hsub
    refine List.forall_mem_append.mpr ⟨keeping_valuedLines (hq.keeping nofun d (subset_of_valuedLines hsub.1)), ?_⟩
    exact hqs.keepingThen d (d + 1) (Nat.le_succ d) _
      (fun s hs => keeping_operation (operandCount?_of_arithmetic hop) hs) hsub.2
  | _, _, _, .primitive hop hqs, ht, d, hsub => by
    rw [lines, List.append_subset] at hsub
    refine List.forall_mem_append.mpr ⟨hqs.keeping d hsub.1, List.forall_mem_singleton.mpr ?_⟩
    exact keeping_operation (operandCount?_of_fixed hop) (by rw [hqs.length_eq])

theorem LowersAll.keeping : {xs : List Term} → {qs : List Piece} → LowersAll t K M xs qs → (d : Nat) →
    linesAll (Handle.label M) d qs ⊆ all → ∀ line ∈ linesAll (Handle.label M) d qs, line.Keeping all (Handle.label M) flag d
  | _, _, .nil, d, _ => by simp [linesAll]
  | _, _, .cons hx hxs, d, hsub => by
    rw [linesAll, List.append_subset] at hsub
    refine List.forall_mem_append.mpr ⟨keeping_valuedLines (hx.keeping nofun d (subset_of_valuedLines hsub.1)), ?_⟩
    exact fun line hline => (hxs.keeping (d + 1) hsub.2 line hline).mono (Nat.le_succ d)

theorem LowersAll.keepingThen : {xs : List Term} → {qs : List Piece} → LowersAll t K M xs qs → (d e : Nat) → d ≤ e →
    (i : Instruction) → (∀ s : Spot, s.depth = e + 1 → Line.Keeping all (Handle.label M) flag d ⟨s, i, 0⟩) →
    linesThen (Handle.label M) e i qs ⊆ all →
    ∀ line ∈ linesThen (Handle.label M) e i qs, line.Keeping all (Handle.label M) flag d
  | _, _, .nil, d, _, _, _, _, _ => by simp [linesThen]
  | _, _, .cons hx hxs, d, e, hde, i, hi, hsub => by
    rw [linesThen, List.append_subset, List.cons_subset] at hsub
    have hfirst := hx.keeping nofun e (subset_of_valuedLines hsub.1)
    exact List.forall_mem_append.mpr ⟨fun line hline => (keeping_valuedLines hfirst line hline).mono hde,
      List.forall_mem_cons.mpr ⟨hi _ rfl, hxs.keepingThen d e hde i hi hsub.2.2⟩⟩

theorem LowersRight.keeping : {x : Term} → {q : Piece} → LowersRight t K M x q → (d : Nat) →
    q.lines (Handle.label M) d ⊆ all → ∀ line ∈ q.lines (Handle.label M) d, line.Keeping all (Handle.label M) flag d
  | _, _, .lambda _, _, _ => List.forall_mem_singleton.mpr (.stays (Nat.le_refl _) rfl rfl)
  | _, _, .other _ hq, d, hsub => hq.keeping nofun d hsub

theorem LowersForms.keeping : {tail : Bool} → {xs : List Term} → {qs : List Piece} → {q : Piece} →
    LowersForms t K M tail xs qs q → (tail = true → flag = true) → (d : Nat) →
    linesDropped (Handle.label M) d qs ⊆ all → q.lines (Handle.label M) d ⊆ all →
    (∀ line ∈ linesDropped (Handle.label M) d qs, line.Keeping all (Handle.label M) flag d) ∧
      ∀ line ∈ q.lines (Handle.label M) d, line.Keeping all (Handle.label M) flag d
  | _, _, _, _, .empty, _, d, _, _ =>
    ⟨by simp [linesDropped], List.forall_mem_singleton.mpr (.stays (Nat.le_refl _) rfl rfl)⟩
  | _, _, _, _, .last hx, ht, d, _, hsub => ⟨by simp [linesDropped], hx.keeping ht d hsub⟩
  | _, _, _, _, .skip _ hxs, ht, d, hdropped, hsub => hxs.keeping ht d hdropped hsub
  | _, _, _, _, .form _ hq hxs, ht, d, hdropped, hsub => by
    rw [linesDropped, List.append_subset] at hdropped
    obtain ⟨hrest, hlast⟩ := hxs.keeping ht d hdropped.2 hsub
    exact ⟨List.forall_mem_append.mpr
      ⟨keeping_droppedLines (hq.keeping nofun d (subset_of_droppedLines hdropped.1)), hrest⟩, hlast⟩

theorem LowersItem.keeping : {x : Term} → {q : Piece} → LowersItem t K M x q → (d : Nat) →
    q.lines (Handle.label M) d ⊆ all → ∀ line ∈ q.lines (Handle.label M) d, line.Keeping all (Handle.label M) flag d
  | _, _, .atom _, d, _ => List.forall_mem_singleton.mpr (.stays (Nat.le_refl _) rfl rfl)
  | _, _, .string hk, d, _ => List.forall_mem_singleton.mpr (.stays (Nat.le_refl _) rfl rfl)
  | _, _, .hole hx, d, hsub => hx.keeping nofun d hsub
  | _, _, .constant _ hk, d, _ => List.forall_mem_singleton.mpr (.stays (Nat.le_refl _) rfl rfl)
  | _, _, .list _ hitems hk, d, hsub => by
    rw [lines, List.append_subset] at hsub
    refine List.forall_mem_append.mpr ⟨hitems.keeping d hsub.1, List.forall_mem_cons.mpr ⟨?_, keeping_consLines _⟩⟩
    exact .stays (Nat.le_add_right _ _) rfl rfl

theorem LowersItems.keeping : {xs : List Term} → {qs : List Piece} → LowersItems t K M xs qs → (d : Nat) →
    linesAll (Handle.label M) d qs ⊆ all → ∀ line ∈ linesAll (Handle.label M) d qs, line.Keeping all (Handle.label M) flag d
  | _, _, .nil, d, _ => by simp [linesAll]
  | _, _, .cons hx hxs, d, hsub => by
    rw [linesAll, List.append_subset] at hsub
    refine List.forall_mem_append.mpr ⟨keeping_valuedLines (hx.keeping d (subset_of_valuedLines hsub.1)), ?_⟩
    exact fun line hline => (hxs.keeping (d + 1) hsub.2 line hline).mono (Nat.le_succ d)

end

end SchemeMachine
