import SchemeMachine.Proofs.Layout
import SchemeMachine.Proofs.Lowering.Compiled
import SchemeMachine.Value

/-!
# What flows through code

An instruction takes operands off the stack and leaves others, binds names, jumps and calls. `Flows` says for each
line which of this is in order: jumps lead to lines with the same spot, names are bound by the code that
owns them, procedures are closed in the code that they are written in.

* `Plan` is what the lines of a program are held against: the lines themselves, which code stands in which, and
  which code owns which names.
* `Flows` relates a line to the spot after it, `Chain` several lines.
* `Layout` is a plan that holds for a program.
-/

namespace SchemeMachine

open Lowering

/-- How many operands a primitive takes off the stack. -/
def Opcode.operandCount? : Opcode → Option Nat
  | .add | .sub | .mul | .div | .mod | .pow | .ge | .le | .gt | .lt | .eqn | .and | .or | .cons => some 2
  | .not | .car | .cdr | .display => some 1
  | .newline => some 0
  | _ => none

/-- Whether a primitive leaves a value. -/
def Opcode.answers : Opcode → Bool
  | .display | .newline => false
  | _ => true

/-- **What lines are held against.** -/
structure Plan where
  lines : List Line
  /-- The code at the first label stands in the code at the second, not in code nested in that. -/
  inside : String → String → Prop
  /-- The code at a label binds a name. -/
  owns : String → String → Prop

namespace Plan

/-- A label stands at a spot. -/
def At (P : Plan) (name : String) (s : Spot) : Prop := ∃ line ∈ P.lines, line.instruction = .label name ∧ line.spot = s

/-- A label at which code is entered, with a number of arguments. -/
def Entry (P : Plan) (name : String) (count : Nat) : Prop := P.At name ⟨name, count, none⟩

/-- **The lambda at the second label stands in the code at the first**, and the program knows it. -/
structure Waits (P : Plan) (p : Program) (o N : String) : Prop where
  inside : P.inside N o
  enclosing : p.enclosing.find? N = some o
  entry : ∃ n, P.Entry N n

end Plan

/-- **What a line makes of its spot**: the spot of the next line, or nothing if the next line is not gone on to. -/
inductive Flows (p : Program) (P : Plan) : Line → Option Spot → Prop
  | comment {s : Spot} {text : String} {n : Nat} : Flows p P ⟨s, .comment text, n⟩ (some s)
  | label {s : Spot} {name : String} {n : Nat} : Flows p P ⟨s, .label name, n⟩ (some s)
  | store {o name : String} {d : Nat} {pending : Option String} (howns : P.owns o name)
      (hpending : ∀ N ∈ pending, P.Waits p o N) :
      Flows p P ⟨⟨o, d + 1, pending⟩, onVariable .store name, 0⟩ (some ⟨o, d, none⟩)
  | load {o name : String} {d : Nat} : Flows p P ⟨⟨o, d, none⟩, onVariable .load name, 0⟩ (some ⟨o, d + 1, none⟩)
  | loadClosure {o N : String} {d : Nat} (hwaits : P.Waits p o N) :
      Flows p P ⟨⟨o, d, none⟩, toLabel .loadClosure N, 0⟩ (some ⟨o, d + 1, none⟩)
  | push {o : String} {d : Nat} {operand : Operand} {v : Value} (hv : Value.ofOperand? operand = some v)
      (hlabel : ∀ N, v ≠ .label N) (hhandle : ∀ h, v = .handle h → p.constants.contains h) :
      Flows p P ⟨⟨o, d, none⟩, .op .push (some operand), 0⟩ (some ⟨o, d + 1, none⟩)
  | pushLabel {o N : String} {d : Nat} :
      Flows p P ⟨⟨o, d, none⟩, .op .push (some (.label N)), 0⟩ (some ⟨o, d + 1, some N⟩)
  | pop {o : String} {d : Nat} : Flows p P ⟨⟨o, d + 1, none⟩, plain .pop, 0⟩ (some ⟨o, d, none⟩)
  | set {o name : String} {d : Nat} {pending : Option String} (hpending : ∀ N ∈ pending, P.Waits p o N) :
      Flows p P ⟨⟨o, d + 1, pending⟩, onVariable .set name, 0⟩ (some ⟨o, d, none⟩)
  | start {N : String} (hout : p.enclosing.find? N = none) (hentry : P.Entry N 0) (hnot : ∀ o, ¬P.inside N o) :
      Flows p P ⟨⟨none, 0, none⟩, callTo false (.label N), 0⟩ (some ⟨none, 1, none⟩)
  | call {o name : String} {d n : Nat} :
      Flows p P ⟨⟨o, d + n, none⟩, callTo false (.atom (.variable name)), n⟩ (some ⟨o, d + 1, none⟩)
  | callLabel {o N : String} {d n k : Nat} (hin : P.inside N o) (hentry : P.Entry N k)
      (hblock : p.enclosing.find? N = none → k = n) :
      Flows p P ⟨⟨o, d + n, none⟩, callTo false (.label N), n⟩ (some ⟨o, d + 1, none⟩)
  | tailCall {o name : String} {n : Nat} :
      Flows p P ⟨⟨o, n, none⟩, callTo true (.atom (.variable name)), n⟩ none
  | tailCallLabel {o N : String} {n k : Nat} (hin : P.inside N o) (hentry : P.Entry N k)
      (hblock : p.enclosing.find? N = none → k = n) :
      Flows p P ⟨⟨o, n, none⟩, callTo true (.label N), n⟩ none
  | ret {o : String} : Flows p P ⟨⟨o, 1, none⟩, plain .ret, 0⟩ none
  | capture {o name : String} {d : Nat} (howns : P.owns o name) (hat : P.At name ⟨o, d + 1, none⟩) :
      Flows p P ⟨⟨o, d, none⟩, onVariable .capture name, 0⟩ (some ⟨o, d, none⟩)
  | branch {o name : String} {d : Nat} {op : Opcode} (hop : op = .ifTrue ∨ op = .ifFalse)
      (hat : P.At name ⟨o, d, none⟩) :
      Flows p P ⟨⟨o, d + 1, none⟩, toLabel op name, 0⟩ (some ⟨o, d, none⟩)
  | goto {o name : String} {d : Nat} (hat : P.At name ⟨o, d, none⟩) :
      Flows p P ⟨⟨o, d, none⟩, toLabel .goto name, 0⟩ none
  | operation {o : String} {d k : Nat} {op : Opcode} (hop : op.operandCount? = some k) :
      Flows p P ⟨⟨o, d + k, none⟩, plain op, 0⟩ (some ⟨o, d + op.answers.toNat, none⟩)
  | fork {o : String} {d : Nat} {h : Handle} (hh : p.constants.contains h) :
      Flows p P ⟨⟨o, d, none⟩, .op .fork (some (.handle h)), 0⟩ (some ⟨o, d, none⟩)
  | halt : Flows p P ⟨⟨none, 1, none⟩, plain .halt, 0⟩ none

/-- A tail call is not gone on from. -/
theorem Flows.of_tailCall {p : Program} {P : Plan} {line : Line} {next : Option Spot} (h : Flows p P line next)
    {target : Operand} (hi : line.instruction = callTo true target) : Flows p P line none := by
  cases h with
  | tailCall => exact .tailCall
  | tailCallLabel hin hentry hblock => exact .tailCallLabel hin hentry hblock
  | branch hop => rcases hop with rfl | rfl <;> cases hi
  | _ => cases hi

/-- A return is not gone on from. -/
theorem Flows.next_of_ret {p : Program} {P : Plan} {line : Line} {next : Option Spot} (h : Flows p P line next)
    (hi : line.instruction = plain .ret) : next = none := by
  cases h with
  | ret => rfl
  | branch hop => rcases hop with rfl | rfl <;> cases hi
  | operation hop =>
    cases hi
    cases hop
  | _ => cases hi

/-- **Lines that follow upon each other**, from one spot to another. -/
inductive Chain (p : Program) (P : Plan) : Spot → List Line → Spot → Prop
  | nil (s : Spot) : Chain p P s [] s
  | cons {line : Line} {rest : List Line} {next : Option Spot} {s s' : Spot} (hflow : Flows p P line next)
      (hnext : ∀ x ∈ next, x = s) (hrest : Chain p P s rest s') : Chain p P line.spot (line :: rest) s'

namespace Chain

variable {p : Program} {P : Plan} {s s' s'' : Spot} {line : Line} {ls ls' : List Line}

theorem single (hflow : Flows p P line (some s)) : Chain p P line.spot [line] s :=
  .cons hflow (fun _ hx => (Option.some.inj hx).symm) (.nil s)

/-- After a line that is not gone on from, anything may follow. -/
theorem last (hflow : Flows p P line none) (s : Spot) : Chain p P line.spot [line] s :=
  .cons hflow (by simp) (.nil s)

theorem append (h : Chain p P s ls s') (h' : Chain p P s' ls' s'') : Chain p P s (ls ++ ls') s'' := by
  induction h with
  | nil => exact h'
  | cons hflow hnext _ ih => exact .cons hflow hnext (ih h')

theorem concat (h : Chain p P s ls line.spot) (hflow : Flows p P line (some s')) : Chain p P s (ls ++ [line]) s' :=
  h.append (.single hflow)

theorem split (h : Chain p P s (ls ++ ls') s'') : ∃ s', Chain p P s ls s' ∧ Chain p P s' ls' s'' := by
  induction ls generalizing s with
  | nil => exact ⟨s, .nil s, h⟩
  | cons line ls ih =>
    cases h with
    | cons hflow hnext hrest =>
      obtain ⟨s', hleft, hright⟩ := ih hrest
      exact ⟨s', .cons hflow hnext hleft, hright⟩

/-- A line of a chain is in order, and the line after it, if there is one, has the spot that it leaves. -/
theorem flows (h : Chain p P s ls s') {i : Nat} (hi : ls[i]? = some line) :
    ∃ next, Flows p P line next ∧ ∀ x ∈ next, ∀ line', ls[i + 1]? = some line' → line'.spot = x := by
  induction h generalizing i with
  | nil => simp at hi
  | @cons line rest next s s' hflow hnext hrest ih =>
    cases i with
    | zero =>
      cases hi
      refine ⟨next, hflow, fun x hx line' hline' => ?_⟩
      rw [hnext x hx]
      cases hrest with
      | nil => simp at hline'
      | cons =>
        cases hline'
        rfl
    | succ i => exact ih hi

end Chain

/-- **A plan that holds for a program.** -/
structure Layout (p : Program) extends Plan where
  code : lines.map Line.instruction = p.code.toList
  /-- The run starts at a spot of its own. -/
  start : ∃ line, lines[0]? = some line ∧ line.spot = ⟨none, 0, none⟩
  /-- Every line is in order, and the next one has the spot that it leaves. -/
  flows : ∀ pc line, lines[pc]? = some line → ∃ next, Flows p toPlan line next ∧
    ∀ s ∈ next, ∃ line', lines[pc + 1]? = some line' ∧ line'.spot = s
  inside_unique : ∀ N o o', inside N o → inside N o' → o = o'
  /-- Code stands in larger code. -/
  rank : String → Nat
  rank_lt : ∀ N o, inside N o → rank N < rank o
  owns_unique : ∀ o o' name, owns o name → owns o' name → o = o'
  enclosing : ∀ N o, inside N o → p.enclosing.find? N = some o ∨ p.enclosing.find? N = none

/-! ### Labels -/

namespace LabelTable

theorem find?_enter {code : List Instruction} {labels labels' : LabelTable} {place : Nat}
    (h : enter labels place code = .ok labels') (name : String) (pc : Nat) :
    labels'.find? name = some pc ↔
      labels.find? name = some pc ∨ ∃ k, pc = place + k ∧ code[k]? = some (.label name) := by
  induction code generalizing labels place with
  | nil =>
    cases h
    simp
  | cons i code ih =>
    -- the first instruction, or one behind it
    have hsplit : (∃ k, pc = place + k ∧ (i :: code)[k]? = some (.label name)) ↔
        pc = place ∧ i = .label name ∨ ∃ k, pc = place + 1 + k ∧ code[k]? = some (.label name) := by
      constructor
      · rintro ⟨k, rfl, hk⟩
        cases k with
        | zero => exact Or.inl ⟨rfl, Option.some.inj hk⟩
        | succ k => exact Or.inr ⟨k, by omega, hk⟩
      · rintro (⟨rfl, rfl⟩ | ⟨k, rfl, hk⟩)
        · exact ⟨0, rfl, rfl⟩
        · exact ⟨k + 1, by omega, hk⟩
    rw [hsplit]
    cases i with
    | comment text => simp [ih h]
    | op opcode operand => simp [ih h]
    | label l =>
      simp only [enter] at h
      split at h
      · cases h
      · next hnew =>
        -- a label is entered once, as a second one is an error
        have hnone : labels.find? l = none := by simpa [Table.contains] using hnew
        rw [ih h, Table.find?_insert]
        by_cases hl : name = l
        · subst hl
          simp [hnone, eq_comm]
        · have hne : l ≠ name := fun he => hl he.symm
          simp [hl, hne]

/-- **The place of a label is where the label stands.** -/
theorem find?_ofCode {code : Array Instruction} {labels : LabelTable} (h : ofCode code = .ok labels) {name : String}
    {pc : Nat} : labels.find? name = some pc ↔ code[pc]? = some (.label name) := by
  rw [find?_enter h]
  simp [Table.find?, Table.empty, Table.lookupEntry]

end LabelTable

namespace Layout

variable {p : Program} {labels : LabelTable} {name : String}

/-- The place of a label is that of its line. -/
theorem find?_eq_some (L : Layout p) (hlabels : LabelTable.ofCode p.code = .ok labels) {pc : Nat} :
    labels.find? name = some pc ↔ ∃ line, L.lines[pc]? = some line ∧ line.instruction = .label name := by
  rw [LabelTable.find?_ofCode hlabels, ← Array.getElem?_toList, ← L.code, List.getElem?_map, Option.map_eq_some_iff]

/-- A label that stands somewhere is found there. -/
theorem exists_place (L : Layout p) (hlabels : LabelTable.ofCode p.code = .ok labels) {s : Spot} (h : L.At name s) :
    ∃ pc line, labels.find? name = some pc ∧ L.lines[pc]? = some line ∧ line.instruction = .label name ∧
      line.spot = s := by
  obtain ⟨line, hline, hi, hspot⟩ := h
  obtain ⟨pc, hpc⟩ := List.getElem?_of_mem hline
  exact ⟨pc, line, (L.find?_eq_some hlabels).mpr ⟨line, hpc, hi⟩, hpc, hi, hspot⟩

/-- Code at a label is entered with one number of arguments. -/
theorem entry_unique (L : Layout p) (hlabels : LabelTable.ofCode p.code = .ok labels) {pc n : Nat} {line : Line}
    (hline : L.lines[pc]? = some line) (hi : line.instruction = .label name) (h : L.Entry name n) :
    line.spot = ⟨name, n, none⟩ := by
  obtain ⟨pc', line', hpc', hline', -, hspot⟩ := L.exists_place hlabels h
  have hpc := (L.find?_eq_some hlabels).mpr ⟨line, hline, hi⟩
  cases hpc.symm.trans hpc'
  cases hline.symm.trans hline'
  exact hspot

end Layout

end SchemeMachine
