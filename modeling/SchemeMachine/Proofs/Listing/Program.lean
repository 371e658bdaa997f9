import SchemeMachine.Proofs.Listing.Compiled

/-!
# A program survives its listing

The instructions of a program are written one to a line and read from there, whether the program was read from a listing
or compiled from a source text. Reading a listing never fails on what was written, and what is lost is exactly the operands
that look like something else.

* `Program.Obtained` says where a program comes from, `Program.Obtained.written` what is known of its instructions.
* `Program.readLines_text` goes over the lines.
* `Program.ofListing_listing` is the result: **a listing is read back, and gives the same instructions if and only if no
  operand is lossy**.
-/

namespace SchemeMachine.Program

/-! ### Where programs come from -/

/-- **A program that was read from a listing or compiled from a source text.** The handles of a compiled program fit a
machine word. -/
inductive Obtained : Program → Prop
  | listing {text : String} {p : Program} (h : ofListing text = .ok p) : Obtained p
  | source {source : String} {p : Program} (h : compile source = .ok p) (hfits : ∀ i ∈ p.code.toList, i.Fits) : Obtained p

/-- What lines are read as can be written. -/
theorem written_of_readLines {n : Nat} {lines : List (List Char)} {code : List Instruction}
    (hlines : ∀ l ∈ lines, '\n' ∉ l) (h : readLines n lines = .ok code) : ∀ i ∈ code, i.Written := by
  induction lines generalizing n code with
  | nil =>
    cases h
    exact List.forall_mem_nil _
  | cons line lines ih =>
    obtain ⟨hline, hlines⟩ := List.forall_mem_cons.mp hlines
    obtain ⟨first, hfirst, h⟩ := Except.bind_eq_ok.mp h
    obtain ⟨others, hothers, h⟩ := Except.bind_eq_ok.mp h
    cases h
    refine List.forall_mem_append.mpr ⟨fun i hi => ?_, ih hlines hothers⟩
    rw [Option.mem_toList.mp hi] at hfirst
    exact Instruction.written_of_readLine hline hfirst

theorem Obtained.written {p : Program} (hp : p.Obtained) : ∀ i ∈ p.code.toList, i.Written := by
  cases hp with
  | listing h =>
    obtain ⟨code, hcode, h⟩ := Except.bind_eq_ok.mp h
    cases h
    exact written_of_readLines (fun l hl => Text.not_mem_lines hl) hcode
  | source h hfits => exact written_compile h hfits

/-! ### From line to line -/

/-- **Written instructions are read from their lines**, each the same unless it is lossy. -/
theorem readLines_text {code : List Instruction} (h : ∀ i ∈ code, i.Written) (n : Nat) :
    ∃ read, readLines n (code.map fun i => i.text.toList) = .ok read ∧
      List.Forall₂ (fun j i => j.same i = true ↔ ¬i.Lossy) read code := by
  induction code generalizing n with
  | nil => exact ⟨[], rfl, .nil⟩
  | cons i code ih =>
    obtain ⟨hi, hcode⟩ := List.forall_mem_cons.mp h
    obtain ⟨j, hj, hsame⟩ := Instruction.readLine_text hi n
    obtain ⟨read, hread, hall⟩ := ih hcode (n + 1)
    refine ⟨j :: read, ?_, .cons hsame hall⟩
    rw [List.map_cons, readLines, hj, hread]
    rfl

theorem toList_listing (p : Program) :
    p.listing.toList = (p.code.toList.map fun i => i.text.toList).flatMap (· ++ ['\n']) := by
  rw [listing]
  induction p.code.toList with
  | nil => rfl
  | cons i code ih =>
    rw [List.map_cons, String.join_cons, String.toList_append, ih, String.toList_append]
    rfl

/-- Code is the same if each instruction is. -/
theorem sameCode_iff {read code : Array Instruction}
    (h : List.Forall₂ (fun j i => j.same i = true ↔ ¬i.Lossy) read.toList code.toList) :
    sameCode read code = true ↔ ∀ i ∈ code.toList, ¬i.Lossy := by
  have hsize : read.size = code.size := h.length_eq
  have hzip : ((read.toList.zip code.toList).all fun p => p.1.same p.2) = true ↔ ∀ i ∈ code.toList, ¬i.Lossy := by
    generalize read.toList = js, code.toList = is at h
    induction h with
    | nil => simp
    | cons hsame _ ih => simp [hsame, ih]
  simp only [sameCode, hsize, decide_true, Bool.true_and, hzip]

/-- **A listing is a faithful text of the instructions.** What was written is read back, and the instructions are the same
if and only if no operand is an infinite number, a variable that starts with `@`, or one that is an ampersand followed by
the digits of a machine word. -/
theorem ofListing_listing {p : Program} (hp : p.Obtained) :
    ∃ q, ofListing p.listing = .ok q ∧ (sameCode q.code p.code = true ↔
      ∀ opcode operand, .op opcode (some operand) ∈ p.code.toList → ¬operand.Lossy) := by
  have hwritten := hp.written
  -- no instruction is written with a line feed, so that its lines are those of the listing
  have hlines : Text.lines p.listing.toList = p.code.toList.map fun i => i.text.toList := by
    rw [toList_listing]
    refine Text.lines_flatMap fun l hl => ?_
    obtain ⟨i, hi, rfl⟩ := List.mem_map.mp hl
    exact Instruction.line_text (hwritten i hi)
  obtain ⟨read, hread, hall⟩ := readLines_text hwritten 1
  refine ⟨{ code := read.toArray }, ?_, ?_⟩
  · rw [ofListing, hlines, hread]
    rfl
  · rw [sameCode_iff hall]
    refine ⟨fun h opcode operand hmem => h _ hmem, fun h i hi => ?_⟩
    match i with
    | .op opcode (some operand) => exact h opcode operand hi
    | .op opcode none => exact id
    | .comment text => exact id
    | .label name => exact id

/-- A procedure and a loop that are named by keywords, compiled and read back from the listing; and a number that is too
large, which is not. -/
theorem ofListing_listing_keywords :
    (∃ p, compile "(define (if x) x) (let pow ((y 0.5)) y)" = .ok p ∧
      ∃ q, ofListing p.listing = .ok q ∧ sameCode q.code p.code = true) ∧
    ∃ p, ofListing "push 1e999" = .ok p ∧ ∃ q, ofListing p.listing = .ok q ∧ sameCode q.code p.code = false := by
  constructor
  · have hchecked : (compile "(define (if x) x) (let pow ((y 0.5)) y)").toOption.any (fun p =>
        decide (∀ i ∈ p.code.toList, i.Fits ∧ ¬i.Lossy)) = true := by
      decide +kernel
    cases hcompile : compile "(define (if x) x) (let pow ((y 0.5)) y)" with
    | error e =>
      rw [hcompile] at hchecked
      cases hchecked
    | ok p =>
      rw [hcompile] at hchecked
      have hall : ∀ i ∈ p.code.toList, i.Fits ∧ ¬i.Lossy := of_decide_eq_true hchecked
      obtain ⟨q, hq, hsame⟩ := ofListing_listing (.source hcompile fun i hi => (hall i hi).1)
      exact ⟨p, rfl, q, hq, hsame.mpr fun _ _ hmem => (hall _ hmem).2⟩
  · have hread : ofListing "push 1e999" = .ok { code := #[.op .push (some (.atom (.number (1.0 / 0.0))))] } := by
      decide
    obtain ⟨q, hq, hsame⟩ := ofListing_listing (.listing hread)
    have hlossy : (Operand.atom (.number (1.0 / 0.0))).Lossy := by decide
    exact ⟨_, hread, q, hq, Bool.eq_false_iff.mpr fun h => hsame.mp h _ _ List.mem_cons_self hlossy⟩

end SchemeMachine.Program
