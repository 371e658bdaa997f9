import Mathlib.Data.String.Basic
import SchemeMachine.Program.Json
import SchemeMachine.Proofs.Json.Document
import SchemeMachine.Proofs.Listing.Line
import SchemeMachine.Proofs.Table

/-!
# A program survives its document

A program is written as a document in one of two layouts, and read back from it. The numbers are what can be lost: those
that are not finite are written as `null`, which no number is read from, and of the others it is assumed that their texts
are read back.

* `Program.numbers` are the numbers of a program, `Program.WellFormed` says that its handles fit a machine word and that
  its tables are in order.
* `Operand.ofJson?_echo`, `Instruction.ofJson?_echo` and `Constant.ofJson?_echo` are the parts of a program.
* `Program.ofJsonText?_toJson` is the result: **a program is read back from both texts if its numbers are finite, and
  from neither if one is not**.
-/

namespace SchemeMachine

/-! ### Numbers and handles of a program -/

/-- The numbers of an operand. -/
def Operand.numbers : Operand → List Float
  | .atom (.number x) => [x]
  | _ => []

/-- The numbers of an instruction. -/
def Instruction.numbers : Instruction → List Float
  | .op _ (some operand) => operand.numbers
  | _ => []

/-- The numbers of a constant. -/
def Constant.numbers : Constant → List Float
  | .string _ => []
  | .list items => items.flatMap Operand.numbers

/-- **The numbers of a program**: those of its operands and those of its constant lists. -/
def Program.numbers (p : Program) : List Float :=
  p.code.toList.flatMap Instruction.numbers ++ p.constants.values.flatMap Constant.numbers

/-- The handles of a constant fit a machine word. -/
def Constant.Fits : Constant → Prop
  | .string _ => True
  | .list items => ∀ item ∈ items, item.Fits

/-- **A program as the machine has one**: handles fit a machine word, and the keys of tables ascend. -/
structure Program.WellFormed (p : Program) : Prop where
  code : ∀ i ∈ p.code.toList, i.Fits
  constants : ∀ e ∈ p.constants.entries, e.1 < 2 ^ 64 ∧ e.2.Fits
  constants_sorted : p.constants.Sorted
  topLevel_sorted : p.topLevel.Sorted
  enclosing_sorted : p.enclosing.Sorted
  natives_sorted : p.natives.Sorted

instance : DecidablePred Number.IsFinite := fun x =>
  match h : Binary.ofFloat x with
  | .finite negative m q => isTrue ⟨negative, m, q, h⟩
  | .infinite _ => isFalse fun ⟨_, _, _, hx⟩ => by rw [h] at hx; cases hx
  | .nan => isFalse fun ⟨_, _, _, hx⟩ => by rw [h] at hx; cases hx

/-- **Reading a list item by item** gives the list if every item is read back, and nothing if one is not. -/
theorem mapM_map_eq_ite {α β : Type} {f : α → β} {g : β → Option α} {P : α → Prop} [DecidablePred P] {l : List α}
    (h : ∀ x ∈ l, g (f x) = if P x then some x else none) :
    (l.map f).mapM g = if ∀ x ∈ l, P x then some l else none := by
  induction l with
  | nil => rfl
  | cons x l ih =>
    rw [List.map_cons, List.mapM_cons, h x List.mem_cons_self, ih fun y hy => h y (List.mem_cons_of_mem _ hy)]
    by_cases hx : P x
    · by_cases hl : ∀ y ∈ l, P y
      · rw [if_pos hx, if_pos hl, if_pos (List.forall_mem_cons.mpr ⟨hx, hl⟩)]
        rfl
      · have hall : ¬∀ y ∈ x :: l, P y := fun hy => hl fun y hmem => hy y (List.mem_cons_of_mem _ hmem)
        rw [if_neg hl, if_neg hall, if_pos hx]
        rfl
    · have hall : ¬∀ y ∈ x :: l, P y := fun hy => hx (hy x List.mem_cons_self)
      rw [if_neg hall, if_neg hx]
      rfl

theorem mapM_map_eq_some {α β : Type} {f : α → β} {g : β → Option α} {l : List α} (h : ∀ x ∈ l, g (f x) = some x) :
    (l.map f).mapM g = some l := by
  rw [mapM_map_eq_ite (P := fun _ => True) fun x hx => by rw [if_pos trivial, h x hx]]
  exact if_pos fun _ _ => trivial

namespace JsonValue

/-- The text of a number in a document is read back as the number. -/
def ReadsBack (x : Float) : Prop := (read? (floatText x)).bind float? = some x

theorem floatText_eq_null {x : Float} (hx : ¬Number.IsFinite x) : floatText x = "null" := by
  unfold floatText
  cases h : Binary.ofFloat x with
  | nan => rfl
  | infinite negative => rfl
  | finite negative m q => exact absurd ⟨negative, m, q, h⟩ hx

/-! ### Leaves and records -/

/-- **A document that can be written, with all of it meaningful and few brackets inside brackets.** -/
structure Shallow (depth : Nat) (v : JsonValue) : Prop where
  legible : Legible v
  sound : (echo v).isSound = true
  height_le : (echo v).height ≤ depth

theorem shallow_text (s : String) : Shallow 0 (text s) where
  legible := ⟨s, rfl⟩
  sound := by
    rw [text, echo, isSound, JsonString.text?_ofText]
    rfl
  height_le := le_rfl

theorem shallow_null : Shallow 0 .null := ⟨trivial, rfl, le_rfl⟩

theorem shallow_boolean (b : Bool) : Shallow 0 (.boolean b) := ⟨trivial, rfl, le_rfl⟩

@[simp] theorem text?_text (s : String) : (text s).text? = some s := JsonString.text?_ofText s

@[simp] theorem echo_text (s : String) : echo (text s) = text s := rfl

theorem read?_null : read? "null" = some .null := read?_compact (v := .null) trivial

/-- What the text of a number is read as: a number, or `null`. -/
theorem read?_floatText {x : Float} (h : Number.IsFinite x → ReadsBack x) :
    ∃ v, read? (floatText x) = some v ∧ ReadsAs (floatText x).toList v ∧ v.isSound = true ∧ v.height = 0 ∧
      v.float? = if Number.IsFinite x then some x else none := by
  by_cases hx : Number.IsFinite x
  · obtain ⟨v, hread, hfloat⟩ := Option.bind_eq_some_iff.mp (h hx)
    refine ⟨v, hread, readsAs_float hx hread, ?_, ?_, by rw [if_pos hx, hfloat]⟩
    all_goals
      unfold float? at hfloat
      split at hfloat
      · rfl
      · rfl
      · rfl
      · cases hfloat
  · rw [floatText_eq_null hx, if_neg hx]
    exact ⟨.null, read?_null, readsAs_null, rfl, rfl, rfl⟩

theorem shallow_float {x : Float} (h : Number.IsFinite x → ReadsBack x) : Shallow 0 (.number (.float x)) := by
  obtain ⟨v, hread, hreads, hsound, hheight, -⟩ := read?_floatText h
  have hecho : echo (.number (.float x)) = v := by rw [echo, numberText, hread, Option.getD_some]
  refine ⟨?_, by rw [hecho, hsound], by rw [hecho, hheight]⟩
  rw [Legible, numberText, hread, Option.getD_some]
  exact hreads

/-- **A number comes back if it is finite**, else nothing does. -/
theorem float?_echo {x : Float} (h : Number.IsFinite x → ReadsBack x) :
    (echo (.number (.float x))).float? = if Number.IsFinite x then some x else none := by
  obtain ⟨v, hread, -, -, -, hfloat⟩ := read?_floatText h
  rw [echo, numberText, hread, Option.getD_some, hfloat]

theorem read?_natural {n : Nat} (hn : n < 2 ^ 64) : read? (toString n) = some (.number (.natural n)) := by
  have hvalue := (readsAs_natural hn).read (2 * (toString n).toList.length + 1) [] (fun c hc => by cases hc)
  rw [List.append_nil] at hvalue
  unfold read?
  dsimp only
  rw [hvalue]
  rfl

theorem echo_natural {n : Nat} (hn : n < 2 ^ 64) : echo (.number (.natural n)) = .number (.natural n) := by
  rw [echo, numberText, read?_natural hn, Option.getD_some]

theorem shallow_natural {n : Nat} (hn : n < 2 ^ 64) : Shallow 0 (.number (.natural n)) := by
  refine ⟨?_, by rw [echo_natural hn]; rfl, by rw [echo_natural hn]; rfl⟩
  rw [Legible, numberText, read?_natural hn, Option.getD_some]
  exact readsAs_natural hn

theorem echo_record (ms : List (String × JsonValue)) : echo (record ms) = record (ms.map fun m => (m.1, echo m.2)) := by
  rw [record, echo, echoMembers_eq, record, List.map_map, List.map_map]
  rfl

theorem echo_array (vs : List JsonValue) : echo (.array vs) = .array (vs.map echo) := by
  rw [echo, echoItems_eq]

theorem legible_record {ms : List (String × JsonValue)} (h : ∀ m ∈ ms, Legible m.2) : Legible (record ms) := by
  refine legibleMembers_iff.mpr fun m hm => ?_
  obtain ⟨n, hn, rfl⟩ := List.mem_map.mp hm
  exact ⟨⟨n.1, rfl⟩, h n hn⟩

theorem legible_array {vs : List JsonValue} (h : ∀ v ∈ vs, Legible v) : Legible (.array vs) := legibleItems_iff.mpr h

theorem shallow_record {ms : List (String × JsonValue)} {depth : Nat} (h : ∀ m ∈ ms, Shallow depth m.2) :
    Shallow (depth + 1) (record ms) := by
  refine ⟨legible_record fun m hm => (h m hm).legible, ?_, ?_⟩
  · rw [echo_record, record, isSound]
    induction ms with
    | nil => rfl
    | cons m ms ih =>
      obtain ⟨hm, hms⟩ := List.forall_mem_cons.mp h
      rw [List.map_cons, List.map_cons, membersSound, JsonString.text?_ofText, hm.sound, ih hms]
      rfl
  · rw [echo_record, record, height]
    refine Nat.succ_le_succ ?_
    induction ms with
    | nil => exact Nat.zero_le _
    | cons m ms ih =>
      obtain ⟨hm, hms⟩ := List.forall_mem_cons.mp h
      exact max_le hm.height_le (ih hms)

@[simp] theorem members?_record (ms : List (String × JsonValue)) : members? (record ms) = some ms := by
  rw [record, members?]
  exact mapM_map_eq_some fun m _ => by rw [JsonString.text?_ofText, Option.map_some]

end JsonValue

/-! ### Operands -/

open JsonValue

theorem Operand.ofJson?_tagged (strictness : Strictness) (kind : String) (v : JsonValue) :
    Operand.ofJson? strictness (.tagged kind [("value", v)]) = Operand.ofKind? kind v := by
  unfold Operand.ofJson? JsonValue.tagged
  split
  · next heq => cases heq
  · rw [members?_record]
    simp [field?, valuesOf, word?, JsonValue.text]

theorem Operand.shallow_toJson {o : Operand} (hfits : o.Fits)
    (hnumbers : ∀ x ∈ o.numbers, Number.IsFinite x → ReadsBack x) : Shallow 1 o.toJson := by
  have htagged (kind : String) {v : JsonValue} (hv : Shallow 0 v) : Shallow 1 (.tagged kind [("value", v)]) :=
    shallow_record (List.forall_mem_cons.mpr ⟨shallow_text kind, List.forall_mem_singleton.mpr hv⟩)
  match o with
  | .atom (.number x) => exact htagged _ (shallow_float (hnumbers x List.mem_cons_self))
  | .atom (.boolean b) => exact htagged _ (shallow_boolean b)
  | .atom (.symbol s) => exact htagged _ (shallow_text s)
  | .atom (.keyword k) => exact htagged _ (shallow_text k)
  | .atom (.variable v) => exact htagged _ (shallow_text v)
  | .label name => exact htagged _ (shallow_text name)
  | .handle h => exact htagged _ (shallow_natural hfits)

/-- **An operand comes back if its number is finite.** -/
theorem Operand.ofJson?_echo (strictness : Strictness) {o : Operand} (hfits : o.Fits)
    (hnumbers : ∀ x ∈ o.numbers, Number.IsFinite x → ReadsBack x) :
    Operand.ofJson? strictness (echo o.toJson) = if ∀ x ∈ o.numbers, Number.IsFinite x then some o else none := by
  have htagged (kind : String) (v : JsonValue) :
      Operand.ofJson? strictness (echo (.tagged kind [("value", v)])) = Operand.ofKind? kind (echo v) := by
    rw [JsonValue.tagged, echo_record]
    exact Operand.ofJson?_tagged strictness kind (echo v)
  have hplain {o : Operand} (h : o.numbers = []) :
      (if ∀ x ∈ o.numbers, Number.IsFinite x then some o else none) = some o := if_pos (by simp [h])
  have hword {f : String → Operand} (s : String) : ((echo (JsonValue.text s)).text?.map f) = some (f s) := by
    rw [echo_text, text?_text, Option.map_some]
  match o with
  | .atom (.number x) =>
    rw [Operand.toJson, Atom.toJson, htagged, Operand.ofKind?, float?_echo (hnumbers x List.mem_cons_self)]
    by_cases hx : Number.IsFinite x
    · have hall : ∀ y ∈ (Operand.atom (.number x)).numbers, Number.IsFinite y := List.forall_mem_singleton.mpr hx
      rw [if_pos hx, if_pos hall, Option.map_some]
    · have hall : ¬∀ y ∈ (Operand.atom (.number x)).numbers, Number.IsFinite y := fun h => hx (h x List.mem_cons_self)
      rw [if_neg hx, if_neg hall, Option.map_none]
  | .atom (.boolean b) => exact (htagged _ _).trans (hplain rfl).symm
  | .atom (.symbol s) => exact (htagged _ _).trans ((hword s).trans (hplain rfl).symm)
  | .atom (.keyword k) => exact (htagged _ _).trans ((hword k).trans (hplain rfl).symm)
  | .atom (.variable v) => exact (htagged _ _).trans ((hword v).trans (hplain rfl).symm)
  | .label name => exact (htagged _ _).trans ((hword name).trans (hplain rfl).symm)
  | .handle h =>
    rw [Operand.toJson, htagged, echo_natural hfits, hplain rfl]
    rfl

theorem Operand.echo_toJson_ne_null (o : Operand) : echo o.toJson ≠ .null := by
  have htagged (kind : String) (v : JsonValue) : echo (.tagged kind [("value", v)]) ≠ .null := by
    rw [JsonValue.tagged, echo_record]
    exact fun h => by cases h
  match o with
  | .atom (.number _) => exact htagged _ _
  | .atom (.boolean _) => exact htagged _ _
  | .atom (.symbol _) => exact htagged _ _
  | .atom (.keyword _) => exact htagged _ _
  | .atom (.variable _) => exact htagged _ _
  | .label _ => exact htagged _ _
  | .handle _ => exact htagged _ _

/-! ### Instructions -/

theorem Instruction.shallow_toJson {i : Instruction} (hfits : i.Fits)
    (hnumbers : ∀ x ∈ i.numbers, Number.IsFinite x → ReadsBack x) : Shallow 2 i.toJson := by
  have hdeep {v : JsonValue} {depth depth' : Nat} (h : Shallow depth v) (hle : depth ≤ depth') : Shallow depth' v :=
    ⟨h.legible, h.sound, h.height_le.trans hle⟩
  have htext (s : String) : Shallow 1 (JsonValue.text s) := hdeep (shallow_text s) (Nat.zero_le 1)
  match i with
  | .comment content =>
    exact shallow_record (List.forall_mem_cons.mpr ⟨htext _, List.forall_mem_singleton.mpr (htext content)⟩)
  | .label name =>
    exact shallow_record (List.forall_mem_cons.mpr ⟨htext _, List.forall_mem_singleton.mpr (htext name)⟩)
  | .op opcode none =>
    exact shallow_record (List.forall_mem_cons.mpr ⟨htext _, List.forall_mem_cons.mpr
      ⟨htext _, List.forall_mem_singleton.mpr (hdeep shallow_null (Nat.zero_le 1))⟩⟩)
  | .op opcode (some operand) =>
    exact shallow_record (List.forall_mem_cons.mpr ⟨htext _, List.forall_mem_cons.mpr
      ⟨htext _, List.forall_mem_singleton.mpr (operand.shallow_toJson hfits hnumbers)⟩⟩)

/-- The record of an instruction, once it is known to be meaningful. -/
theorem Instruction.ofJson?_record {ms : List (String × JsonValue)} (hsound : (record ms).isSound = true)
    (hheight : (record ms).height ≤ 2) :
    Instruction.ofJson? (record ms) = (do
      match ← (← JsonValue.field? ms "kind").text? with
      | "comment" => return .comment (← (← JsonValue.field? ms "text").text?)
      | "label" => return .label (← (← JsonValue.field? ms "name").text?)
      | "op" =>
        return .op (← Opcode.ofJson? (← JsonValue.field? ms "opcode"))
          (← Operand.ofJsonOption? (JsonValue.valuesOf ms "argument"))
      | _ => none) := by
  have hall : ((record ms).isSound && decide ((record ms).height ≤ Instruction.maxHeight)) = true := by
    rw [hsound, Bool.true_and, decide_eq_true_eq]
    exact hheight.trans (by decide)
  unfold Instruction.ofJson?
  rw [if_pos hall]
  split
  · next heq => cases heq
  · rw [members?_record]
    rfl

/-- **An instruction comes back if its number is finite.** -/
theorem Instruction.ofJson?_echo {i : Instruction} (hfits : i.Fits)
    (hnumbers : ∀ x ∈ i.numbers, Number.IsFinite x → ReadsBack x) :
    Instruction.ofJson? (echo i.toJson) = if ∀ x ∈ i.numbers, Number.IsFinite x then some i else none := by
  have hshallow := i.shallow_toJson hfits hnumbers
  -- an instruction without numbers always comes back
  have hplain {i : Instruction} (h : i.numbers = []) :
      (if ∀ x ∈ i.numbers, Number.IsFinite x then some i else none) = some i := if_pos (by simp [h])
  have hopcode (o : Opcode) : Opcode.ofJson? (JsonValue.text o.mnemonic) = some o := by
    rw [Opcode.ofJson?, JsonValue.text, word?, JsonString.text?_ofText, Option.bind_some, Opcode.ofMnemonic?_mnemonic]
  have hsound := hshallow.sound
  have hheight := hshallow.height_le
  match i with
  | .comment content =>
    rw [Instruction.toJson, JsonValue.tagged, echo_record] at hsound hheight ⊢
    rw [Instruction.ofJson?_record hsound hheight, hplain rfl]
    simp [field?, valuesOf]
  | .label name =>
    rw [Instruction.toJson, JsonValue.tagged, echo_record] at hsound hheight ⊢
    rw [Instruction.ofJson?_record hsound hheight, hplain rfl]
    simp [field?, valuesOf]
  | .op opcode none =>
    rw [Instruction.toJson, JsonValue.tagged, echo_record] at hsound hheight ⊢
    rw [Instruction.ofJson?_record hsound hheight, hplain rfl]
    simp [field?, valuesOf, hopcode, echo, Operand.ofJsonOption?]
  | .op opcode (some operand) =>
    rw [Instruction.toJson, JsonValue.tagged, echo_record] at hsound hheight ⊢
    -- no operand is written as null, which stands for its absence
    have hargument : Operand.ofJsonOption? [echo operand.toJson] =
        (Operand.ofJson? .free (echo operand.toJson)).map some := by
      unfold Operand.ofJsonOption?
      split
      · next heq => cases heq
      · next heq => exact absurd (List.cons.inj heq).1 operand.echo_toJson_ne_null
      · next heq => rw [(List.cons.inj heq).1]
      · next hne => exact absurd rfl (hne _)
    have hread : Instruction.ofJson? (record (List.map (fun m => (m.1, echo m.2))
        [("kind", JsonValue.text "op"), ("opcode", JsonValue.text opcode.mnemonic),
          ("argument", ((some operand).map Operand.toJson).getD .null)])) =
        (Operand.ofJson? .free (echo operand.toJson)).map fun o => .op opcode (some o) := by
      rw [Instruction.ofJson?_record hsound hheight]
      simp [field?, valuesOf, hopcode, hargument]
      cases Operand.ofJson? .free (echo operand.toJson) <;> rfl
    rw [hread, operand.ofJson?_echo .free hfits hnumbers]
    change Option.map _ (if ∀ x ∈ operand.numbers, Number.IsFinite x then _ else _) =
      if ∀ x ∈ operand.numbers, Number.IsFinite x then _ else _
    split <;> rfl

/-! ### Constants -/

theorem Constant.legible_toJson {c : Constant} (hfits : c.Fits)
    (hnumbers : ∀ x ∈ c.numbers, Number.IsFinite x → ReadsBack x) : Legible c.toJson := by
  match c with
  | .string content => exact legible_record (List.forall_mem_singleton.mpr (shallow_text content).legible)
  | .list items =>
    refine legible_record (List.forall_mem_singleton.mpr (legible_array fun v hv => ?_))
    obtain ⟨item, hitem, rfl⟩ := List.mem_map.mp hv
    exact (item.shallow_toJson (hfits item hitem) fun x hx =>
      hnumbers x (List.mem_flatMap.mpr ⟨item, hitem, hx⟩)).legible

/-- **A constant comes back if its numbers are finite.** -/
theorem Constant.ofJson?_echo {c : Constant} (hfits : c.Fits)
    (hnumbers : ∀ x ∈ c.numbers, Number.IsFinite x → ReadsBack x) :
    Constant.ofJson? (echo c.toJson) = if ∀ x ∈ c.numbers, Number.IsFinite x then some c else none := by
  match c with
  | .string content =>
    have hread : Constant.ofJson? (record [("Str", JsonValue.text content)]) = some (.string content) := by
      simp [Constant.ofJson?, record]
    have hall : ∀ x ∈ (Constant.string content).numbers, Number.IsFinite x := fun x hx => absurd hx List.not_mem_nil
    rw [Constant.toJson, echo_record, if_pos hall]
    exact hread
  | .list items =>
    have hread (vs : List JsonValue) : Constant.ofJson? (record [("List", .array vs)]) =
        (vs.mapM (Operand.ofJson? .exact)).map .list := by
      simp [Constant.ofJson?, record, items?]
      cases vs.mapM (Operand.ofJson? .exact) <;> rfl
    have hitems := mapM_map_eq_ite (f := fun o : Operand => echo o.toJson) (l := items)
      (P := fun o : Operand => ∀ x ∈ o.numbers, Number.IsFinite x) fun o ho =>
        o.ofJson?_echo .exact (hfits o ho) fun x hx => hnumbers x (List.mem_flatMap.mpr ⟨o, ho, hx⟩)
    have hall : (∀ o ∈ items, ∀ x ∈ o.numbers, Number.IsFinite x) ↔
        ∀ x ∈ (Constant.list items).numbers, Number.IsFinite x := by
      simp only [Constant.numbers, List.mem_flatMap]
      constructor
      · rintro h x ⟨o, ho, hx⟩
        exact h o ho x hx
      · exact fun h o ho x hx => h x ⟨o, ho, hx⟩
    rw [Constant.toJson, echo_record, List.map_singleton, echo_array, List.map_map, hread]
    change Option.map _ ((items.map fun o => echo o.toJson).mapM _) = _
    rw [hitems]
    by_cases hfinite : ∀ x ∈ (Constant.list items).numbers, Number.IsFinite x
    · rw [if_pos hfinite, if_pos (hall.mpr hfinite), Option.map_some]
    · rw [if_neg hfinite, if_neg fun h => hfinite (hall.mp h), Option.map_none]

/-! ### Tables -/

/-- **A handle comes back from the key** that it is written as. -/
theorem Handle.ofKey?_ofText {h : Handle} (hfits : h < 2 ^ 64) : Handle.ofKey? (.ofText (toString h)) = some h := by
  have htext : (toString h).toList = Nat.toDigits 10 h := by rw [Nat.toString_eq_repr, Nat.toList_repr]
  have hdigits : ∀ c ∈ Nat.toDigits 10 h, c.isDigit = true := fun c hc =>
    Nat.isDigit_of_mem_toDigits (by decide) (by decide) hc
  have hescape : ∀ c ∈ (toString h).toList, JsonString.escapeChar c = [c] := fun c hc =>
    JsonString.escapeChar_of_isDigit (hdigits c (htext ▸ hc))
  have hspelling : (JsonString.ofText (toString h)).spelling = Nat.toDigits 10 h := by
    rw [JsonString.spelling_ofText hescape, htext]
  have hvalue : Number.digitsValue (Nat.toDigits 10 h) = h := Nat.ofDigitChars_ten_toDigits
  have hzero : ¬((Nat.toDigits 10 h).head? = some '0' ∧ (Nat.toDigits 10 h).length ≠ 1) := by
    rintro ⟨hhead, hlength⟩
    rcases Nat.eq_zero_or_pos h with rfl | hpos
    · exact hlength rfl
    · exact head?_toDigits_ne hpos hhead
  unfold Handle.ofKey?
  dsimp only
  rw [hspelling, if_neg hzero, Operand.handleOf?, hvalue]
  have hall : (Nat.toDigits 10 h).all Char.isDigit = true := List.all_eq_true.mpr hdigits
  have hne : (Nat.toDigits 10 h).isEmpty = false := List.isEmpty_eq_false_iff.mpr Nat.toDigits_ne_nil
  have hsmall : h < Nat.pow 2 64 := hfits
  simp [hall, hne, hsmall]

theorem Table.legible_toJsonObject (t : Table String String) : Legible t.toJsonObject := by
  refine legible_record fun m hm => ?_
  obtain ⟨e, -, rfl⟩ := List.mem_map.mp hm
  exact (shallow_text e.2).legible

/-- **A table of strings comes back.** -/
theorem Table.ofJsonObject?_echo {t : Table String String} (h : t.Sorted) :
    Table.ofJsonObject? (echo t.toJsonObject) = some t := by
  rw [Table.toJsonObject, echo_record, List.map_map, Table.ofJsonObject?, members?_record]
  have hentries := mapM_map_eq_some (f := fun e : String × String => (e.1, echo (JsonValue.text e.2)))
    (g := fun m : String × JsonValue => m.2.text?.map fun s => (m.1, s)) (l := t.entries)
    fun e _ => by rw [echo_text, text?_text, Option.map_some]
  change (((t.entries.map fun e => (e.1, echo (JsonValue.text e.2))).mapM
    fun m : String × JsonValue => m.2.text?.map fun s => (m.1, s)).bind fun entries => some (Table.ofList entries)) = _
  rw [hentries, Option.bind_some, h.ofList_entries]

theorem Program.legible_constants {p : Program} (hfits : ∀ e ∈ p.constants.entries, e.2.Fits)
    (hnumbers : ∀ e ∈ p.constants.entries, ∀ x ∈ e.2.numbers, Number.IsFinite x → ReadsBack x) :
    Legible (.record (p.constants.entries.map fun e => (toString e.1, e.2.toJson))) := by
  refine legible_record fun m hm => ?_
  obtain ⟨e, he, rfl⟩ := List.mem_map.mp hm
  exact e.2.legible_toJson (hfits e he) (hnumbers e he)

/-- **The constants come back if their numbers are finite.** -/
theorem Program.constantsOfJson?_echo {p : Program} (hfits : ∀ e ∈ p.constants.entries, e.1 < 2 ^ 64 ∧ e.2.Fits)
    (hsorted : p.constants.Sorted)
    (hnumbers : ∀ e ∈ p.constants.entries, ∀ x ∈ e.2.numbers, Number.IsFinite x → ReadsBack x) :
    Program.constantsOfJson? (echo (.record (p.constants.entries.map fun e => (toString e.1, e.2.toJson)))) =
      if ∀ e ∈ p.constants.entries, ∀ x ∈ e.2.numbers, Number.IsFinite x then some p.constants else none := by
  have hentries := mapM_map_eq_ite
    (f := fun e : Handle × Constant => (JsonString.ofText (toString e.1), echo e.2.toJson))
    (g := fun m : JsonString × JsonValue => do return (← Handle.ofKey? m.1, ← Constant.ofJson? m.2))
    (P := fun e : Handle × Constant => ∀ x ∈ e.2.numbers, Number.IsFinite x) (l := p.constants.entries)
    fun e he => by
      simp only [Handle.ofKey?_ofText (hfits e he).1, Constant.ofJson?_echo (hfits e he).2 (hnumbers e he),
        Option.bind_eq_bind, Option.bind_some]
      split <;> rfl
  have hdocument : echo (.record (p.constants.entries.map fun e => (toString e.1, e.2.toJson))) =
      .object (p.constants.entries.map fun e => (JsonString.ofText (toString e.1), echo e.2.toJson)) := by
    rw [echo_record, List.map_map, record, List.map_map]
    rfl
  rw [hdocument, Program.constantsOfJson?, Option.bind_eq_bind]
  rw [hentries]
  split
  · rw [Option.bind_some, hsorted.ofList_entries]
    rfl
  · rfl

/-- **The natives come back.** -/
theorem OrderedSet.ofMembers_keys {s : Names} (h : s.Sorted) : OrderedSet.ofMembers s.keys = s := by
  have hfold : ∀ (es : List (String × Unit)) (t : Names), OrderedSet.addAll t (es.map (·.1)) = Table.insertAll t es := by
    intro es
    induction es with
    | nil => exact fun t => rfl
    | cons e es ih => exact fun t => ih _
  exact (hfold s.entries Table.empty).trans h.ofList_entries

/-! ### Programs -/

theorem Program.legible_toJson {p : Program} (hp : p.WellFormed)
    (hnumbers : ∀ x ∈ p.numbers, Number.IsFinite x → ReadsBack x) : Legible p.toJson := by
  have hcode : ∀ v ∈ p.code.toList.map Instruction.toJson, Legible v := by
    intro v hv
    obtain ⟨i, hi, rfl⟩ := List.mem_map.mp hv
    exact (i.shallow_toJson (hp.code i hi) fun x hx =>
      hnumbers x (List.mem_append_left _ (List.mem_flatMap.mpr ⟨i, hi, hx⟩))).legible
  have hnatives : ∀ v ∈ p.natives.keys.map JsonValue.text, Legible v := by
    intro v hv
    obtain ⟨name, -, rfl⟩ := List.mem_map.mp hv
    exact (shallow_text name).legible
  have hconstants := Program.legible_constants (fun e he => (hp.constants e he).2) fun e he x hx =>
    hnumbers x (List.mem_append_right _ (List.mem_flatMap.mpr ⟨e.2, List.mem_map.mpr ⟨e, he, rfl⟩, hx⟩))
  refine legible_record ?_
  simp only [List.forall_mem_cons, List.not_mem_nil, false_implies, implies_true, and_true]
  exact ⟨legible_array hcode, hconstants, p.topLevel.legible_toJsonObject, p.enclosing.legible_toJsonObject,
    legible_array hnatives, (shallow_text _).legible⟩

theorem Program.ofJson?_record (code constants topLevel enclosing natives hash : JsonValue) :
    Program.ofJson? (record [("instructions", code), ("statics", constants), ("top_level", topLevel),
      ("enclosing", enclosing), ("natives", natives), ("source_hash", hash)]) =
      Program.ofFields? code constants topLevel enclosing natives hash := by
  unfold Program.ofJson?
  split
  · next heq => cases heq
  · rw [members?_record]
    simp [field?, valuesOf]

/-- **A program comes back if its numbers are finite.** -/
theorem Program.ofJson?_echo {p : Program} (hp : p.WellFormed)
    (hnumbers : ∀ x ∈ p.numbers, Number.IsFinite x → ReadsBack x) :
    Program.ofJson? (echo p.toJson) = if ∀ x ∈ p.numbers, Number.IsFinite x then some p else none := by
  -- each field comes back on its own, the code and the constants only if their numbers are finite
  have hinstructions : (echo (.array (p.code.toList.map Instruction.toJson))).items? Instruction.ofJson? =
      if ∀ i ∈ p.code.toList, ∀ x ∈ i.numbers, Number.IsFinite x then some p.code.toList else none := by
    rw [echo_array, List.map_map]
    exact mapM_map_eq_ite fun i hi => i.ofJson?_echo (hp.code i hi) fun x hx =>
      hnumbers x (List.mem_append_left _ (List.mem_flatMap.mpr ⟨i, hi, hx⟩))
  have hconstants := Program.constantsOfJson?_echo hp.constants hp.constants_sorted fun e he x hx =>
    hnumbers x (List.mem_append_right _ (List.mem_flatMap.mpr ⟨e.2, List.mem_map.mpr ⟨e, he, rfl⟩, hx⟩))
  have hnatives : (echo (.array (p.natives.keys.map JsonValue.text))).items? JsonValue.text? = some p.natives.keys := by
    rw [echo_array, List.map_map]
    exact mapM_map_eq_some fun name _ => by rw [Function.comp_apply, echo_text, text?_text]
  have hall : (∀ x ∈ p.numbers, Number.IsFinite x) ↔
      (∀ i ∈ p.code.toList, ∀ x ∈ i.numbers, Number.IsFinite x) ∧
        ∀ e ∈ p.constants.entries, ∀ x ∈ e.2.numbers, Number.IsFinite x := by
    simp only [Program.numbers, Table.values, List.forall_mem_append, List.forall_mem_flatMap, List.forall_mem_map]
  rw [Program.toJson, echo_record]
  simp only [List.map_cons, List.map_nil]
  rw [Program.ofJson?_record, Program.ofFields?, hinstructions, hconstants, Table.ofJsonObject?_echo hp.topLevel_sorted,
    Table.ofJsonObject?_echo hp.enclosing_sorted, hnatives, echo_text, text?_text]
  -- one number that is not finite, in the code or in a constant, and the whole is not read
  by_cases hcode : ∀ i ∈ p.code.toList, ∀ x ∈ i.numbers, Number.IsFinite x
  · by_cases hlists : ∀ e ∈ p.constants.entries, ∀ x ∈ e.2.numbers, Number.IsFinite x
    · rw [if_pos hcode, if_pos hlists, if_pos (hall.mpr ⟨hcode, hlists⟩)]
      simp only [Option.bind_eq_bind, Option.bind_some, OrderedSet.ofMembers_keys hp.natives_sorted]
      rfl
    · rw [if_pos hcode, if_neg hlists, if_neg fun h => hlists (hall.mp h).2]
      rfl
  · rw [if_neg hcode, if_neg fun h => hcode (hall.mp h).1]
    rfl

/-- **The document of a program loses nothing but numbers that are not finite.** Both texts are read back as the program
if all its numbers are finite; if one is not, it is written `null`, and neither text is read. -/
theorem Program.ofJsonText?_toJson (p : Program) (hp : p.WellFormed)
    (hnumbers : ∀ x ∈ p.numbers, Number.IsFinite x → JsonValue.ReadsBack x) :
    ((∀ x ∈ p.numbers, Number.IsFinite x) →
      Program.ofJsonText? p.toJson.pretty = some p ∧ Program.ofJsonText? p.toJson.compact = some p) ∧
    ((∃ x ∈ p.numbers, ¬Number.IsFinite x) →
      Program.ofJsonText? p.toJson.pretty = none ∧ Program.ofJsonText? p.toJson.compact = none) ∧
    ∀ x ∈ p.numbers, ¬Number.IsFinite x → JsonValue.floatText x = "null" := by
  have hlegible := p.legible_toJson hp hnumbers
  -- both layouts of a document are read as the same value
  have hpretty : Program.ofJsonText? p.toJson.pretty = Program.ofJson? (echo p.toJson) := by
    rw [Program.ofJsonText?, read?_pretty hlegible, Option.bind_some]
  have hcompact : Program.ofJsonText? p.toJson.compact = Program.ofJson? (echo p.toJson) := by
    rw [Program.ofJsonText?, read?_compact hlegible, Option.bind_some]
  rw [hpretty, hcompact, Program.ofJson?_echo hp hnumbers]
  refine ⟨fun hall => ?_, fun ⟨x, hx, hinfinite⟩ => ?_, fun x _ hx => floatText_eq_null hx⟩
  · rw [if_pos hall]
    exact ⟨rfl, rfl⟩
  · rw [if_neg fun hall => hinfinite (hall x hx)]
    exact ⟨rfl, rfl⟩

/-- A program with a fraction in its code, and a string with escapes and a number of choice among its constants. -/
def Program.oneFraction (x : Float) : Program where
  code := #[.comment " \"é\n\u0001", .label "&0", .op .push (some (.atom (.number 0.1))), .op .push (some (.handle 2)),
    .op .add none]
  constants := ⟨[(0, .string "tab\t\\\r"), (2, .list [.atom (.number x), .handle 0, .atom (.symbol "s")])]⟩
  topLevel := ⟨[("&0.x", "x"), ("&0.y", "λ")]⟩
  enclosing := ⟨[("&1", "&0")]⟩
  natives := ⟨[("Math", ()), ("String", ())]⟩
  sourceHash := "sha256:"

theorem Program.wellFormed_oneFraction (x : Float) : (Program.oneFraction x).WellFormed where
  code := by simp [Program.oneFraction, Instruction.Fits, Operand.Fits]
  constants := by simp [Program.oneFraction, Constant.Fits, Operand.Fits]
  constants_sorted := (by decide : [0, 2].Pairwise (· < ·))
  topLevel_sorted := (by decide : ["&0.x", "&0.y"].Pairwise (· < ·))
  enclosing_sorted := (by decide : ["&1"].Pairwise (· < ·))
  natives_sorted := (by decide : ["Math", "String"].Pairwise (· < ·))

theorem Program.ofJsonText?_oneFraction :
    (Program.ofJsonText? (Program.oneFraction (-1e300)).toJson.pretty = some (Program.oneFraction (-1e300)) ∧
      Program.ofJsonText? (Program.oneFraction (-1e300)).toJson.compact = some (Program.oneFraction (-1e300))) ∧
    Program.ofJsonText? (Program.oneFraction (1.0 / 0.0)).toJson.pretty = none ∧
      Program.ofJsonText? (Program.oneFraction (1.0 / 0.0)).toJson.compact = none := by
  have hfraction : Number.IsFinite 0.1 ∧ JsonValue.ReadsBack 0.1 := by
    unfold JsonValue.ReadsBack
    decide +kernel
  have hlarge : Number.IsFinite (-1e300) ∧ JsonValue.ReadsBack (-1e300) := by
    unfold JsonValue.ReadsBack
    decide +kernel
  have hinfinite : ¬Number.IsFinite (1.0 / 0.0) := by decide
  refine ⟨(Program.ofJsonText?_toJson _ (Program.wellFormed_oneFraction _) ?_).1 ?_,
    (Program.ofJsonText?_toJson _ (Program.wellFormed_oneFraction _) ?_).2.1 ⟨1.0 / 0.0, ?_, hinfinite⟩⟩
  · exact List.forall_mem_cons.mpr ⟨fun _ => hfraction.2, List.forall_mem_singleton.mpr fun _ => hlarge.2⟩
  · exact List.forall_mem_cons.mpr ⟨hfraction.1, List.forall_mem_singleton.mpr hlarge.1⟩
  · exact List.forall_mem_cons.mpr ⟨fun _ => hfraction.2, List.forall_mem_singleton.mpr fun h => absurd h hinfinite⟩
  · exact List.mem_cons_of_mem _ List.mem_cons_self

end SchemeMachine
