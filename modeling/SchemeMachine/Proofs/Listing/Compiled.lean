import SchemeMachine.Proofs.Listing.Line
import SchemeMachine.Proofs.Lowering.Compiled
import SchemeMachine.Proofs.Syntax.Naming

/-!
# What the compiler writes

The operands of a compiled program are the atoms of its source, the names that the analysis gave to variables, and the
labels and names that the compiler makes. All of them can be written in a listing.

* `Piece.Listed` says it of a piece: its operands can be written if their handles fit a machine word.
* `Lowers.listed` says that the pieces of named terms are listed, construct by construct, and `Piece.listable_code` that
  so are their instructions.
* `Program.written_compile` is the result for a source text.
-/

namespace SchemeMachine

open Token (IsSymbol)
open Lowering

/-! ### Words and names -/

/-- An operand that can be written if its handle fits a machine word. -/
def Operand.Listable (o : Operand) : Prop := o.Fits → o.Written

/-- An instruction that can be written if its handle fits a machine word. -/
def Instruction.Listable (i : Instruction) : Prop := i.Fits → i.Written

namespace Operand

/-- A word of a text that is no keyword can be written as a variable. -/
theorem written_variable {v : String} (hv : IsSymbol v) (hkeyword : isKeyword v = false) :
    (Operand.atom (.variable v)).Written := by
  have hkind := hv.kind
  have hne : v.toList ≠ [] := hv.word.ne_nil
  refine ⟨hv.word.line, fun h => hne (by rw [h]; rfl), fun h => ?_, ?_, ?_, ?_, hkeyword⟩
  · have hquote := hv.word.plain '\'' (List.mem_of_mem_head? h)
    cases hquote
  · rintro rfl
    cases hkind
  · rintro rfl
    cases hkind
  · refine Bool.eq_false_iff.mpr fun hnumeral => ?_
    unfold Token.wordKind? at hkind
    split at hkind
    · cases hkind
    split at hkind
    · cases hkind
    obtain ⟨x, -, hx⟩ := Option.map_eq_some_iff.mp hkind
    cases hx

/-- Text without blanks can be marked as a symbol or a label. -/
theorem line_cons {mark : Char} {cs : List Char} (hmark : Text.isBlank mark = false)
    (h : ∀ c ∈ cs, Text.isBlank c = false) : Text.Line (mark :: cs) :=
  Text.line_of_not_blank (List.forall_mem_cons.mpr ⟨hmark, h⟩)

theorem not_blank_of_isSymbol {v : String} (hv : IsSymbol v) : ∀ c ∈ v.toList, Text.isBlank c = false :=
  fun c hc => Token.not_blank_of_isDelimiter (hv.word.plain c hc)

/-- The digits of a number are no blanks. -/
theorem not_blank_digits (n : Nat) : ∀ c ∈ (toString n).toList, Text.isBlank c = false := by
  intro c hc
  rw [Names.toList_interpolated] at hc
  exact Token.not_blank_of_isDelimiter (Number.isDigit_plain (Nat.isDigit_of_mem_toDigits (by decide) (by decide) hc)).1

theorem not_blank_append {s r : String} (hs : ∀ c ∈ s.toList, Text.isBlank c = false)
    (hr : ∀ c ∈ r.toList, Text.isBlank c = false) : ∀ c ∈ (s ++ r).toList, Text.isBlank c = false := by
  rw [String.toList_append]
  exact List.forall_mem_append.mpr ⟨hs, hr⟩

theorem not_blank_label (N : Handle) : ∀ c ∈ (Handle.label N).toList, Text.isBlank c = false :=
  not_blank_append (by decide) (not_blank_digits N)

/-- **A name that the analysis gives can be written.** -/
theorem written_name {v : String} (hv : Term.IsName v) : (Operand.atom (.variable v)).Written := by
  rcases hv with ⟨hsymbol, hkeyword⟩ | ⟨N, x, hx, rfl⟩
  · exact written_variable hsymbol hkeyword
  · refine written_marked (Or.inl rfl) (Text.line_of_not_blank ?_) ?_
    · exact not_blank_append (not_blank_append (not_blank_label N) (by decide)) (not_blank_of_isSymbol hx)
    · rw [Tree.scopedName, String.toList_append, String.toList_append, toList_label]
      rfl

/-- A label without blanks can be written. -/
theorem listable_label {name : String} (h : ∀ c ∈ name.toList, Text.isBlank c = false) : (Operand.label name).Listable :=
  fun _ => line_cons rfl h

theorem listable_handle (h : Handle) : (Operand.handle h).Listable := id

/-- An atom of quoted data can be written. -/
theorem listable_datum {a : Atom} (ha : a.Spelt IsSymbol) (hdatum : a.isDatum = true) : (Operand.atom a).Listable := by
  intro _
  cases a with
  | number x => exact ha
  | boolean b => trivial
  | symbol s => exact line_cons rfl (not_blank_of_isSymbol ha)
  | «variable» v => cases hdatum
  | keyword k => cases hdatum

end Operand

/-! ### Names that the compiler makes -/

namespace Piece

open Operand (not_blank_append not_blank_digits)

/-- What the compiler numbers has no blanks. -/
theorem not_blank_numbered (word : String) (n : Nat) (h : ∀ c ∈ word.toList, Text.isBlank c = false) :
    ∀ c ∈ (word ++ toString n).toList, Text.isBlank c = false :=
  not_blank_append h (not_blank_digits n)

theorem not_blank_blockLabel (n : Nat) : ∀ c ∈ (blockLabel n).toList, Text.isBlank c = false :=
  not_blank_numbered "_tmp" n (by decide)

theorem not_blank_sinkLabel (conjunction : Bool) (n : Nat) :
    ∀ c ∈ (sinkLabel conjunction n).toList, Text.isBlank c = false := by
  cases conjunction with
  | true => exact not_blank_numbered "_and" n (by decide)
  | false => exact not_blank_numbered "_or" n (by decide)

/-- A name that the compiler makes can be written as a variable. -/
theorem written_made (word : String) (n : Nat) (rest : String) (hword : ∀ c ∈ word.toList, Text.isBlank c = false)
    (hhead : word.toList.head? = some '_') (hrest : ∀ c ∈ rest.toList, Text.isBlank c = false) :
    (Operand.atom (.variable (word ++ toString n ++ rest))).Written := by
  refine Operand.written_marked (Or.inr rfl)
    (Text.line_of_not_blank (not_blank_append (not_blank_numbered word n hword) hrest)) ?_
  have hne : word.toList ≠ [] := by
    intro h
    rw [h] at hhead
    cases hhead
  rw [String.toList_append, String.toList_append, List.append_assoc, List.head?_append_of_ne_nil _ hne]
  exact hhead

theorem written_blockParameter (n i : Nat) : (Operand.atom (.variable (blockLabel n ++ s!".p{i}"))).Written :=
  written_made "_tmp" n _ (by decide) (by decide) (not_blank_numbered ".p" i (by decide))

theorem written_resumeLabel (n : Nat) : (Operand.atom (.variable (resumeLabel n))).Written := by
  have hmade := written_made "_cont" n "" (by decide) (by decide) (by decide)
  rwa [String.append_empty] at hmade

/-! ### Pieces -/

mutual

/-- **A piece whose operands can be written.** -/
def Listed : Piece → Prop
  | .push operand => operand.Listable
  | .load name => (Operand.atom (.variable name)).Written
  | .closure _ => True
  | .call _ target args => target.Listable ∧ ListedAll args
  | .computedCall _ _ operands => ListedAll operands
  | .assignment _ name right => (Operand.atom (.variable name)).Written ∧ Listed right
  | .conditional _ test yes no => Listed test ∧ Listed yes ∧ Listed no
  | .connective _ _ clauses last _ => ListedAll clauses ∧ Listed last
  | .body forms last => ListedAll forms ∧ Listed last
  | .callWithContinuation _ target => target.Listable
  | .fork _ => True
  | .display shown => Listed shown
  | .newline => True
  | .declaration => True
  | .primitive op args => op.takesOperand = false ∧ ListedAll args
  | .arithmetic op first rest => op.takesOperand = false ∧ Listed first ∧ ListedAll rest
  | .template items _ => ListedAll items

/-- Pieces whose operands can be written. -/
def ListedAll : List Piece → Prop
  | [] => True
  | p :: ps => Listed p ∧ ListedAll ps

end

/-- Code that can be written. -/
def ListableAll (code : Code) : Prop := ∀ i ∈ code, i.Listable

theorem listable_op {op : Opcode} {o : Operand} (h : o.Listable) : (Instruction.op op (some o)).Listable := by
  refine fun hfits => ⟨fun _ => rfl, fun o' ho' => ?_⟩
  cases ho'
  exact h hfits

theorem listable_plain {op : Opcode} (h : op.takesOperand = false) : (plain op).Listable := by
  refine fun _ => ⟨fun htakes => ?_, nofun⟩
  rw [h] at htakes
  cases htakes

theorem listable_onVariable {op : Opcode} {name : String} (h : (Operand.atom (.variable name)).Written) :
    (onVariable op name).Listable :=
  listable_op fun _ => h

theorem listable_toLabel {op : Opcode} {name : String} (h : ∀ c ∈ name.toList, Text.isBlank c = false) :
    (toLabel op name).Listable :=
  listable_op (Operand.listable_label h)

theorem listable_label {name : String} (h : ∀ c ∈ name.toList, Text.isBlank c = false) : (Instruction.label name).Listable :=
  fun _ => Text.line_of_not_blank h

theorem listable_pushBoolean (b : Bool) : (pushBoolean b).Listable := listable_op fun _ => trivial

namespace ListableAll

variable {c d : Code}

theorem nil : ListableAll [] := List.forall_mem_nil _

theorem cons {i : Instruction} (hi : i.Listable) (hc : ListableAll c) : ListableAll (i :: c) :=
  List.forall_mem_cons.mpr ⟨hi, hc⟩

theorem single {i : Instruction} (hi : i.Listable) : ListableAll [i] := cons hi nil

theorem append (hc : ListableAll c) (hd : ListableAll d) : ListableAll (c ++ d) := List.forall_mem_append.mpr ⟨hc, hd⟩

theorem valued {yields : Bool} (hc : ListableAll c) : ListableAll (Piece.valued yields c) := by
  cases yields with
  | true => exact hc
  | false => exact hc.append (single (listable_pushBoolean false))

theorem dropped {yields : Bool} (hc : ListableAll c) : ListableAll (Piece.dropped yields c) := by
  cases yields with
  | true => exact hc.append (single (listable_plain rfl))
  | false => exact hc

/-- Operations on variables. -/
theorem onVariables {op : Opcode} {names : List String} (h : ∀ name ∈ names, (Operand.atom (.variable name)).Written) :
    ListableAll (names.map (onVariable op)) := by
  intro i hi
  obtain ⟨name, hname, rfl⟩ := List.mem_map.mp hi
  exact listable_onVariable (h name hname)

end ListableAll

/-- The block of a computed call. -/
theorem listable_blockCode (n count : Nat) : ListableAll (blockCode n count) := by
  have hparameters : ∀ name ∈ blockParameters n count, (Operand.atom (.variable name)).Written := by
    intro name hname
    obtain ⟨i, -, rfl⟩ := List.mem_map.mp hname
    exact written_blockParameter n i
  have hstores : ListableAll ((blockParameters n count).reverse.map (onVariable .store)) :=
    .onVariables fun name hname => hparameters name (List.mem_reverse.mp hname)
  have hloads : ListableAll ((blockParameters n count).tail.map (onVariable .load)) :=
    .onVariables fun name hname => hparameters name (List.mem_of_mem_tail hname)
  have hcall : (callTo true (.atom (.variable (blockLabel n ++ ".p0")))).Listable :=
    listable_op fun _ => written_blockParameter n 0
  exact .cons (listable_label (not_blank_blockLabel n))
    ((hstores.append hloads).append (.cons hcall (.single (listable_plain rfl))))

mutual

/-- **The instructions of a listed piece can be written.** -/
theorem listable_code : (p : Piece) → p.Listed → ListableAll p.code
  | .push _, h => .single (listable_op h)
  | .load _, h => .single (listable_onVariable h)
  | .closure N, _ => .single (listable_toLabel (Operand.not_blank_label N))
  | .call _ _ args, h => (listable_eachValue args h.2 .nil).append (.single (listable_op h.1))
  | .computedCall _ n operands, h => by
    have hend : ∀ c ∈ (blockLabel n ++ "_end").toList, Text.isBlank c = false :=
      not_blank_append (not_blank_blockLabel n) (by decide)
    have hcall := Operand.listable_label (not_blank_blockLabel n)
    exact ((ListableAll.cons (listable_toLabel hend) (listable_blockCode n _)).append
      (.cons (listable_label hend) (listable_eachValue operands h .nil))).append (.single (listable_op hcall))
  | .assignment _ _ right, h => (listable_code right h.2).valued.append (.single (listable_onVariable h.1))
  | .conditional n test yes no, h => by
    have hthen : ∀ c ∈ (thenLabel n).toList, Text.isBlank c = false := not_blank_numbered "_if" n (by decide)
    have hend : ∀ c ∈ (endLabel n).toList, Text.isBlank c = false := not_blank_numbered "_endif" n (by decide)
    have htest := listable_code test h.1
    have hyes := listable_code yes h.2.1
    have hno := listable_code no h.2.2
    exact ((htest.valued.append (.cons (listable_toLabel hthen) hno.valued)).append
      (.cons (listable_toLabel hend) (.cons (listable_label hthen) hyes.valued))).append (.single (listable_label hend))
  | .connective conjunction n clauses last returns, h => by
    have hsink := not_blank_sinkLabel conjunction n
    have hend : ∀ c ∈ (sinkLabel conjunction n ++ "_end").toList, Text.isBlank c = false :=
      not_blank_append hsink (by decide)
    have hjump : ListableAll [clauseJump conjunction n] := .single (listable_toLabel hsink)
    have hlast : ListableAll (if returns then [] else [clauseJump conjunction n]) := by
      split
      · exact .nil
      · exact hjump
    exact (((listable_eachValue clauses h.1 hjump).append (listable_code last h.2).valued).append hlast).append
      (.cons (listable_pushBoolean _) (.cons (listable_toLabel hend) (.cons (listable_label hsink)
        (.cons (listable_pushBoolean _) (.single (listable_label hend))))))
  | .body forms last, h => (listable_eachForm forms h.1).append (listable_code last h.2).valued
  | .callWithContinuation n target, h => by
    have hname := written_resumeLabel n
    -- a call with a continuation captures it under the name of its label
    exact .cons (listable_onVariable hname) (.cons (listable_onVariable hname) (.cons (listable_op h)
      (.single (listable_label (not_blank_numbered "_cont" n (by decide))))))
  | .fork h, _ => .single (listable_op (Operand.listable_handle h))
  | .display shown, h => (listable_code shown h).valued.append (.single (listable_plain rfl))
  | .newline, _ => .single (listable_plain rfl)
  | .declaration, _ => .nil
  | .primitive _ args, h => (listable_eachValue args h.2 .nil).append (.single (listable_plain h.1))
  | .arithmetic _ first rest, h =>
    (listable_code first h.2.1).valued.append (listable_eachValue rest h.2.2 (.single (listable_plain h.1)))
  | .template items empty, h => by
    refine (listable_eachValue items h .nil).append (.cons (listable_op (Operand.listable_handle empty)) fun i hi => ?_)
    rw [(List.mem_replicate.mp hi).2]
    exact listable_plain rfl

theorem listable_eachValue : (ps : List Piece) → ListedAll ps → {suffix : Code} → ListableAll suffix →
    ListableAll (eachValue suffix ps)
  | [], _, _, _ => .nil
  | p :: ps, h, _, hsuffix => ((listable_code p h.1).valued.append hsuffix).append (listable_eachValue ps h.2 hsuffix)

theorem listable_eachForm : (ps : List Piece) → ListedAll ps → ListableAll (eachForm ps)
  | [], _ => .nil
  | p :: ps, h => (listable_code p h.1).dropped.append (listable_eachForm ps h.2)

end

end Piece

/-! ### Terms and their pieces -/

open Piece (Listed ListedAll)
open Term (Named NamedAll)

theorem Opcode.takesOperand_of_fixed {word : String} {op : Opcode} {count : Nat} (h : fixedOf? word = some (op, count)) :
    op.takesOperand = false := by
  unfold fixedOf? at h
  split at h <;> cases h <;> rfl

theorem Opcode.takesOperand_of_arithmetic {word : String} {op : Opcode} (h : arithmeticOf? word = some op) :
    op.takesOperand = false := by
  unfold arithmeticOf? at h
  split at h <;> cases h <;> rfl

/-- Neither neutral element is lost. -/
theorem listed_neutral {x : Float} (h : x = 0.0 ∨ x = 1.0) : (Piece.push (.atom (.number x))).Listed := by
  intro _
  rcases h with rfl | rfl
  · exact (by decide : Binary.ofFloat 0.0 ≠ .nan)
  · exact (by decide : Binary.ofFloat 1.0 ≠ .nan)

section

variable {t : Tree} {K : Table Handle Constant} {M : Handle}

/-- A lambda is pushed by its label. -/
theorem Operand.listable_lambda (N : Handle) : (Operand.label (Handle.label N)).Listable :=
  Operand.listable_label (Operand.not_blank_label N)

mutual

/-- **The pieces of named terms can be written.** -/
theorem Lowers.listed : {tail : Bool} → {x : Term} → {p : Piece} → Lowers t K M tail x p → x.Named → p.Listed
  | _, _, _, .variable _, hx => Operand.written_name hx
  | _, _, _, .keyword _, hx => fun _ => hx
  -- a literal is no variable, so that its word is read as data again
  | _, .atom a, _, .literal hdatum, hx => by
    refine Operand.listable_datum ?_ hdatum
    cases a with
    | «variable» v => cases hdatum
    | _ => exact hx
  | _, _, _, .string _, _ => Operand.listable_handle _
  | _, _, _, .lambda _, _ => trivial
  | _, _, _, .quote _, _ => Operand.listable_handle _
  | _, _, _, .template hp, hx => hp.listed hx
  | _, _, _, .call _ hargs, hx => ⟨fun _ => Operand.written_name hx.1, hargs.listed hx.2⟩
  | _, _, _, .lambdaCall _ _ hargs, hx => ⟨Operand.listable_lambda _, hargs.listed hx.2⟩
  | _, _, _, .computedCall _ hargs, hx => hargs.listed hx
  | _, _, _, .define hright, hx => ⟨Operand.written_name hx.2.1, hright.listed hx.2.2.1⟩
  | _, _, _, .assign hright, hx => ⟨Operand.written_name hx.2.1, hright.listed hx.2.2.1⟩
  | _, _, _, .conditional htest hyes hno, hx =>
    ⟨htest.listed hx.2.1, hyes.listed hx.2.2.1, hno.listed hx.2.2.2.1⟩
  | _, _, _, .conditionalShort htest hyes, hx => ⟨htest.listed hx.2.1, hyes.listed hx.2.2.1, fun _ => trivial⟩
  | _, _, _, .connectiveNone, _ => fun _ => trivial
  | _, _, _, .connective hclauses hlast _, hx => by
    have hitems := Term.namedAll_append.mp hx.2
    exact ⟨hclauses.listed hitems.1, hlast.listed hitems.2.1⟩
  | _, _, _, .sequence hforms, hx => hforms.listed hx.2
  | _, _, _, .callWithContinuation, hx => fun _ => Operand.written_name hx.2.1
  | _, _, _, .callLambdaWithContinuation _, _ => Operand.listable_lambda _
  | _, _, _, .fork _ _, _ => trivial
  | _, _, _, .display hshown, hx => hshown.listed hx.2.1
  | _, _, _, .newline, _ => trivial
  | _, _, _, .declaration _, _ => trivial
  | _, _, _, .arithmeticNone hword, _ => listed_neutral (hword.imp (·.2) (·.2))
  -- the operand that is put in front is 0 or 1
  | _, _, _, .arithmeticNeutral hop hneutral hoperand, hx => by
    refine ⟨Opcode.takesOperand_of_arithmetic hop, listed_neutral ?_, hoperand.listed hx.2.1, trivial⟩
    unfold neutralOf? at hneutral
    split at hneutral
    · exact Or.inl (Option.some.inj hneutral).symm
    · exact Or.inr (Option.some.inj hneutral).symm
    · cases hneutral
  | _, _, _, .arithmetic hop _ hfirst hrest, hx =>
    ⟨Opcode.takesOperand_of_arithmetic hop, hfirst.listed hx.2.1, hrest.listed hx.2.2⟩
  | _, _, _, .primitive hop hargs, hx => ⟨Opcode.takesOperand_of_fixed hop, hargs.listed hx.2⟩

theorem LowersAll.listed : {xs : List Term} → {ps : List Piece} → LowersAll t K M xs ps → NamedAll xs → ListedAll ps
  | _, _, .nil, _ => trivial
  | _, _, .cons hx hxs, h => ⟨hx.listed h.1, hxs.listed h.2⟩

theorem LowersRight.listed : {x : Term} → {p : Piece} → LowersRight t K M x p → x.Named → p.Listed
  | _, _, .lambda _, _ => Operand.listable_lambda _
  | _, _, .other _ hp, hx => hp.listed hx

theorem LowersForms.listed : {tail : Bool} → {xs : List Term} → {ps : List Piece} → {p : Piece} →
    LowersForms t K M tail xs ps p → NamedAll xs → ListedAll ps ∧ p.Listed
  | _, _, _, _, .empty, _ => ⟨trivial, fun _ => trivial⟩
  | _, _, _, _, .last hx, h => ⟨trivial, hx.listed h.1⟩
  | _, _, _, _, .skip _ hxs, h => hxs.listed h.2
  | _, _, _, _, .form _ hx hxs, h => ⟨⟨hx.listed h.1, (hxs.listed h.2).1⟩, (hxs.listed h.2).2⟩

theorem LowersItem.listed : {x : Term} → {p : Piece} → LowersItem t K M x p → x.Named → p.Listed
  | .atom a, _, .atom hdatum, hx => by
    refine Operand.listable_datum ?_ hdatum
    cases a with
    | «variable» v => cases hdatum
    | _ => exact hx
  | _, _, .string _, _ => Operand.listable_handle _
  | _, _, .hole hx, h => hx.listed h.1
  | _, _, .constant _ _, _ => Operand.listable_handle _
  | _, _, .list _ hitems _, h => hitems.listed h

theorem LowersItems.listed : {xs : List Term} → {ps : List Piece} → LowersItems t K M xs ps → NamedAll xs → ListedAll ps
  | _, _, .nil, _ => trivial
  | _, _, .cons hx hxs, h => ⟨hx.listed h.1, hxs.listed h.2⟩

end

end

/-! ### Blocks and programs -/

theorem Text.not_mem_intercalate {c : Char} {sep : String} {words : List String} (hsep : c ∉ sep.toList)
    (h : ∀ w ∈ words, c ∉ w.toList) : c ∉ (String.intercalate sep words).toList := by
  induction words with
  | nil => exact nofun
  | cons w words ih =>
    obtain ⟨hw, hwords⟩ := List.forall_mem_cons.mp h
    cases words with
    | nil => simpa using hw
    | cons w' words =>
      rw [String.intercalate_cons_cons, String.toList_append, String.toList_append]
      simp only [List.mem_append, not_or]
      exact ⟨⟨hw, hsep⟩, ih hwords⟩

/-- The comment in front of a block stands on a line. -/
theorem Block.listable_comment {b : Block} (h : ∀ w ∈ b.written, '\n' ∉ w.toList) :
    (Instruction.comment (" lambda " ++ Handle.label b.handle ++ " (" ++ String.intercalate " " b.written ++ ")")).Listable := by
  have hlabel : '\n' ∉ (Handle.label b.handle).toList := fun hmem => by cases Operand.not_blank_label b.handle _ hmem
  have hnames := Text.not_mem_intercalate (by decide : '\n' ∉ " ".toList) h
  refine fun _ => ⟨fun c hc => ?_, fun c hc => ?_, ?_⟩
  · cases hc
    rfl
  · rw [String.toList_append, ← List.cons_append, List.getLast?_append_of_ne_nil _ (by decide)] at hc
    cases hc
    rfl
  · simp only [String.toList_append, List.mem_cons, List.mem_append, not_or]
    exact ⟨by decide, ⟨⟨⟨by decide, hlabel⟩, by decide⟩, hnames⟩, by decide⟩

/-- **The instructions of a block can be written.** -/
theorem Lowering.LowersBlock.listable {t : Tree} {K : Table Handle Constant} {body : List Term} {b : Block}
    (hb : LowersBlock t K body b) (hparameters : ∀ x ∈ b.parameters, Term.IsName x) (hbody : NamedAll body)
    (hrenamings : ∀ key info, t.renamings.find? key = some info → key = Tree.scopedName info.owner info.written) :
    Piece.ListableAll b.code := by
  have hwritten : ∀ w ∈ b.written, '\n' ∉ w.toList := by
    rw [hb.written]
    intro w hw
    obtain ⟨v, hv, rfl⟩ := List.mem_map.mp hw
    have hline := (Operand.written_name (hparameters v hv)).1.single
    unfold Tree.writtenName
    cases hfind : t.renamings.find? v with
    | none => exact hline
    | some info =>
      rw [hrenamings v info hfind, Tree.scopedName, String.toList_append] at hline
      exact fun hmem => hline (List.mem_append_right _ hmem)
  obtain ⟨ps, last, hpiece, hforms⟩ := hb.lowered
  have hvalue : Piece.ListableAll b.body.value := by
    rw [hpiece]
    exact (Piece.listable_code (.body ps last) (hforms.listed hbody)).valued
  have hstores : Piece.ListableAll (b.parameters.reverse.map (onVariable .store)) :=
    .onVariables fun name hname => Operand.written_name (hparameters name (List.mem_reverse.mp hname))
  exact .cons (Block.listable_comment hwritten) (.cons (Piece.listable_label (Operand.not_blank_label b.handle))
    ((hstores.append hvalue).append (.single (Piece.listable_plain rfl))))

/-- **A compiled program with named terms can be written.** -/
theorem Program.Compiled.listable {t : Tree} {roots : List Term} {blocks : List Block} {p : Program}
    (hp : p.Compiled t roots blocks) (hnamed : NamedAll roots)
    (hrenamings : ∀ key info, t.renamings.find? key = some info → key = Tree.scopedName info.owner info.written) :
    ∀ i ∈ p.code.toList, i.Listable := by
  have hblocks : Piece.ListableAll (blocks.flatMap Block.code) := by
    intro i hi
    obtain ⟨b, hb, hi⟩ := List.mem_flatMap.mp hi
    obtain ⟨body, hlowers⟩ := hp.blocks b hb
    obtain ⟨parent, hnode⟩ := hlowers.node
    obtain ⟨root, hroot, body', hsub, hchildren, hplaced, -, -⟩ := hp.analysed.holds.lambda hnode
    obtain rfl := hlowers.sits.placed.unique hplaced hchildren
    have hlambda := hsub.named (Term.namedAll_iff.mp hnamed root hroot)
    exact hlowers.listable hlambda.1 hlambda.2 hrenamings i hi
  rw [hp.code]
  exact Piece.ListableAll.cons (Piece.listable_op (Operand.listable_lambda _)) (.cons (Piece.listable_plain rfl) hblocks)

/-- **What the compiler makes of a source text can be written**, given that its handles fit a machine word. -/
theorem Program.written_compile {source : String} {p : Program} (h : Program.compile source = .ok p)
    (hfits : ∀ i ∈ p.code.toList, i.Fits) : ∀ i ∈ p.code.toList, i.Written := by
  obtain ⟨u, hu, h⟩ := Except.bind_eq_ok.mp h
  obtain ⟨t, ht, h⟩ := Except.bind_eq_ok.mp h
  obtain ⟨program, hprogram, h⟩ := Except.bind_eq_ok.mp h
  cases h
  obtain ⟨roots, ha, hnamed, hrenamings⟩ := Tree.exists_named (Except.bind_eq_ok.mpr ⟨u, hu, ht⟩)
  obtain ⟨blocks, hp⟩ := ha.compiled hprogram
  exact fun i hi => hp.listable hnamed hrenamings i hi (hfits i hi)

end SchemeMachine
