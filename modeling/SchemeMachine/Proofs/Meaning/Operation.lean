import SchemeMachine.Proofs.Meaning.Environment

/-!
# Primitives

What a primitive makes of operands is what the evaluator makes of the values they represent.

* `Meaning.Represents.display` and `Meaning.Represents.equal`: lists are shown and compared as the trees they are.
* `Meaning.Operates` says that a primitive keeps up with an evaluation, and `Meaning.operates` that all do.
* `Meaning.Tracks.operation` and `Meaning.Tracks.output` are the instructions.
-/

namespace SchemeMachine

open Expression Lowering

/-- A list unfolds item by item. -/
theorem Heap.Unfolds.items {H : Heap} {h : Handle} {vs : List Value} {e : Datum} (he : H.Unfolds (.handle h) e)
    (ho : H.get? h = some (.list vs)) : ∃ es, e = .list h es ∧ List.Forall₂ H.Unfolds vs es := by
  cases he with
  | atom hv => cases hv
  | list ho' hlength hitems =>
    cases ho.symm.trans ho'
    obtain ⟨-, vs', hvs', hes⟩ := Heap.unfolds_list_iff.mp (.list ho' hlength hitems)
    cases ho.symm.trans hvs'
    exact ⟨_, rfl, hes⟩
  | _ ho' => cases ho.symm.trans ho'

namespace Meaning

variable {B : Build} {w w' : World} {S : Store} {d d' : Denoted} {v v' : Value} {h : Handle}

/-! ### Text -/

theorem texts?_eq_some {ds : List Denoted} {parts : List String} :
    Denoted.texts? ds = some parts ↔ List.Forall₂ (fun d text => d.text? = some text) ds parts := by
  induction ds generalizing parts with
  | nil => simp [Denoted.texts?, eq_comm]
  | cons d ds ih =>
    simp only [Denoted.texts?, Option.bind_eq_bind, Option.bind_eq_some_iff, List.forall₂_cons_left_iff, ih,
      Option.pure_def, Option.some.injEq]
    exact ⟨fun ⟨text, htext, rest, hrest, heq⟩ => ⟨text, rest, htext, hrest, heq.symm⟩,
      fun ⟨text, rest, htext, hrest, heq⟩ => ⟨text, htext, rest, hrest, heq.symm⟩⟩

/-- The tree of a value is shown as what the value represents. -/
theorem Represents.text_eq (hv : Represents B w d v) {e : Datum} (he : w.heap.Unfolds v e) {text : String}
    (htext : d.text? = some text) : e.text = text := by
  induction hv generalizing e text with
  | number hxy =>
    obtain rfl := he.unique (.atom rfl)
    rw [Denoted.text?, Option.some.injEq] at htext
    rw [Datum.text, Value.text, ← htext, hxy.display]
  | boolean | symbol | primitive =>
    obtain rfl := he.unique (.atom rfl)
    cases htext
    rw [Datum.text, Value.text]
  | string ho =>
    obtain rfl := he.unique (.string ho)
    cases htext
    rw [Datum.text]
  | procedure => cases htext
  | @list identity h ds vs _ ho hlength _ ih =>
    obtain ⟨parts, hparts, rfl⟩ := Option.map_eq_some_iff.mp htext
    obtain ⟨es, rfl, hes⟩ := he.items ho
    obtain ⟨hcount, hunfolds⟩ := List.forall₂_iff_get.mp hes
    obtain ⟨hcount', hshown⟩ := List.forall₂_iff_get.mp (texts?_eq_some.mp hparts)
    have hmap : es.map Datum.text = parts := by
      refine List.ext_getElem (by rw [List.length_map]; omega) fun i hi hi' => ?_
      rw [List.length_map] at hi
      rw [List.getElem_map]
      refine ih i _ _ ?_ ?_ (hunfolds i (by omega) hi) (hshown i (by omega) hi') <;> simp
    rw [Datum.text, hmap]

/-- **What is shown of a value** is the text of what it represents. -/
theorem Represents.display (hv : Represents B w d v) (hm : Mirrors B w S) {text : String}
    (htext : d.text? = some text) : w.heap.display v = text := by
  obtain ⟨e, he⟩ := Heap.exists_unfolds hm.founded v
  exact (he.display (he.depth_le hm.founded)).trans (hv.text_eq he htext)

/-! ### Equality -/

/-- What is said of two lists, item by item up to the first difference, is said of their trees. -/
theorem equalAll?_iff {P : Denoted → Datum → Prop} {ds ds' : List Denoted} {es es' : List Datum}
    (hds : List.Forall₂ (fun d e => ∀ d' e' answer, P d' e' → d.equal? d' = some answer → (e.Same e' ↔ answer = true))
      ds es) (hds' : List.Forall₂ P ds' es') (hlength : ds.length = ds'.length) {answer : Bool}
    (h : Denoted.equalAll? ds ds' = some answer) : List.Forall₂ Datum.Same es es' ↔ answer = true := by
  induction hds generalizing ds' es' answer with
  | nil =>
    cases hds' with
    | nil =>
      cases h
      exact ⟨fun _ => rfl, fun _ => .nil⟩
    | cons => cases hlength
  | @cons d e ds es hd _ ih =>
    cases hds' with
    | nil => cases hlength
    | @cons d' e' ds' es' hd' hrest =>
      rw [Denoted.equalAll?] at h
      rw [List.forall₂_cons]
      cases hitem : d.equal? d' with
      | none =>
        rw [hitem] at h
        cases h
      | some first =>
        rw [hitem] at h
        rw [hd d' e' first hd' hitem]
        cases first with
        | true => rw [ih hrest (Nat.succ.inj hlength) h, eq_self, true_and]
        | false =>
          cases h
          simp

/-- Trees with items are the same if they are one object, or their items are the same. -/
theorem same_list_iff {g h : Handle} {es es' : List Datum} :
    (Datum.list g es).Same (.list h es') ↔ g = h ∨ List.Forall₂ Datum.Same es es' := by
  constructor
  · intro hsame
    cases hsame with
    | shared => exact Or.inl rfl
    | list _ _ hlength hitems =>
      refine Or.inr (List.forall₂_iff_get.mpr ⟨hlength, fun i hi hi' => hitems i _ _ ?_ ?_⟩) <;> simp
  · rintro (rfl | hitems)
    · exact .shared _ _ _
    · obtain ⟨hlength, hget⟩ := List.forall₂_iff_get.mp hitems
      refine .list _ _ hlength fun i d e hd he => ?_
      obtain ⟨hi, rfl⟩ := List.getElem?_eq_some_iff.mp hd
      obtain ⟨hi', rfl⟩ := List.getElem?_eq_some_iff.mp he
      exact hget i hi hi'

/-- Lists are the same if they are one object. -/
theorem Locates.eq_iff (hm : Mirrors B w S) {i j : Identity} {g h : Handle} (hg : Locates B w i g)
    (hh : Locates B w j h) : i = j ↔ g = h := by
  cases i with
  | constant a =>
    obtain ⟨rfl, hconstant⟩ := hg
    cases j with
    | constant b =>
      obtain ⟨rfl, -⟩ := hh
      exact ⟨fun heq => Identity.constant.inj heq, fun heq => heq ▸ rfl⟩
    | made n =>
      -- a list that was made is at no place of a constant
      refine ⟨nofun, fun heq => ?_⟩
      subst heq
      rw [hm.lists_made _ (List.mem_of_getElem? hh)] at hconstant
      cases hconstant
  | made m =>
    cases j with
    | constant b =>
      obtain ⟨rfl, hconstant⟩ := hh
      refine ⟨nofun, fun heq => ?_⟩
      subst heq
      rw [hm.lists_made _ (List.mem_of_getElem? hg)] at hconstant
      cases hconstant
    | made n =>
      refine ⟨fun heq => ?_, fun heq => ?_⟩
      · cases heq
        exact Option.some.inj (hg.symm.trans hh)
      · subst heq
        rw [hm.list_unique _ _ _ hg hh]

/-- **Lists are equal** if they are one object, or have equal items. -/
theorem same_list (hm : Mirrors B w S) {i j : Identity} {g h : Handle} {ds ds' : List Denoted} {es es' : List Datum}
    (hg : Locates B w i g) (hh : Locates B w j h) {P : Denoted → Datum → Prop}
    (hds : List.Forall₂ (fun d e => ∀ d' e' answer, P d' e' → d.equal? d' = some answer → (e.Same e' ↔ answer = true))
      ds es) (hds' : List.Forall₂ P ds' es') {answer : Bool}
    (heq : (Denoted.list i ds).equal? (.list j ds') = some answer) :
    (Datum.list g es).Same (.list h es') ↔ answer = true := by
  rw [same_list_iff, ← hg.eq_iff hm hh]
  rw [Denoted.equal?] at heq
  split at heq
  · next hij =>
    cases heq
    exact iff_of_true (Or.inl hij) rfl
  next hij =>
  rw [or_iff_right hij]
  split at heq
  · next hlength => exact equalAll?_iff hds hds' hlength heq
  · next hlength =>
    cases heq
    refine iff_of_false (fun hitems => hlength ?_) Bool.false_ne_true
    rw [hds.length_eq, hitems.length_eq, hds'.length_eq]

/-- What is no object is compared as it is. -/
theorem Represents.same_of_atom (hv : Represents B w d v) (hv' : Represents B w d' v') {answer : Bool}
    (h : d.equal? d' = some answer) (hatom : v.handle? = none ∨ v'.handle? = none) : v.same v' = answer := by
  cases hv with
  | number hxy =>
    cases hv' with
    | number hxy' =>
      cases h
      exact (hxy.beq hxy').symm
    | _ =>
      cases h
      rfl
  | boolean | symbol | primitive =>
    cases hv' with
    | boolean | symbol | primitive =>
      cases h
      simp [Value.same]
    | _ =>
      cases h
      rfl
  | _ =>
    cases hv' with
    | string | list | procedure => rcases hatom with hatom | hatom <;> cases hatom
    | _ =>
      cases h
      rfl

/-- Objects of different kinds have different trees. -/
theorem same_iff_of_kinds {g h : Handle} {o o' : Object} {e e' : Datum} (he : w.heap.Unfolds (.handle g) e)
    (he' : w.heap.Unfolds (.handle h) e') (ho : w.heap.get? g = some o) (ho' : w.heap.get? h = some o')
    (hkinds : o.typeName ≠ o'.typeName) : e.Same e' ↔ false = true := by
  have hgh : g ≠ h := by
    rintro rfl
    exact hkinds (congrArg Object.typeName (Option.some.inj (ho.symm.trans ho')))
  obtain ⟨fuel, hfuel⟩ := Datum.exists_eq_succ_of_depth_le (le_refl e.depth)
  rw [← he.equal_iff he' hfuel.le, Heap.equalFrom, if_neg hgh, ho, ho']
  cases o <;> cases o' <;> first
    | exact absurd rfl hkinds
    | exact Iff.rfl

/-- The trees of two values are the same if what they represent is equal. -/
theorem Represents.same_iff (hm : Mirrors B w S) (hv : Represents B w d v) (hv' : Represents B w d' v') {e e' : Datum}
    (he : w.heap.Unfolds v e) (he' : w.heap.Unfolds v' e') {answer : Bool} (h : d.equal? d' = some answer) :
    e.Same e' ↔ answer = true := by
  have hatoms : ∀ {d d' v v' e e' answer}, Represents B w d v → Represents B w d' v' → w.heap.Unfolds v e →
      w.heap.Unfolds v' e' → d.equal? d' = some answer → v.handle? = none ∨ v'.handle? = none →
      (e.Same e' ↔ answer = true) := by
    intro d d' v v' e e' answer hv hv' he he' h hatom
    rw [← he.equal_iff he' (le_refl _), Heap.equalFrom_eq_same hatom, hv.same_of_atom hv' h hatom]
  by_cases hatom : v.handle? = none ∨ v'.handle? = none
  · exact hatoms hv hv' he he' h hatom
  -- two objects: the induction is on the first one, and goes through the items of a list
  rw [not_or] at hatom
  induction hv generalizing d' v' e e' answer with
  | string ho =>
    cases hv' with
    | string ho' =>
      obtain rfl := he.unique (.string ho)
      obtain rfl := he'.unique (.string ho')
      cases h
      rw [decide_eq_true_iff]
      exact ⟨fun hsame => by cases hsame; rfl, fun heq => heq ▸ .string _ _ _⟩
    | list _ ho' =>
      cases h
      exact same_iff_of_kinds he he' ho ho' (by simp [Object.typeName])
    | procedure hc' =>
      cases h
      exact same_iff_of_kinds he he' ho (Heap.closure?_eq_some.mp hc') (by simp [Object.typeName])
    | _ => exact (hatom.2 rfl).elim
  | procedure hc =>
    have ho := Heap.closure?_eq_some.mp hc
    cases hv' with
    | string ho' =>
      cases h
      exact same_iff_of_kinds he he' ho ho' (by simp [Object.typeName])
    | list _ ho' =>
      cases h
      exact same_iff_of_kinds he he' ho ho' (by simp [Object.typeName])
    | procedure => cases h
    | _ => exact (hatom.2 rfl).elim
  | @list identity g ds vs hat ho hlength hitems ih =>
    cases hv' with
    | string ho' =>
      cases h
      exact same_iff_of_kinds he he' ho ho' (by simp [Object.typeName])
    | procedure hc' =>
      cases h
      exact same_iff_of_kinds he he' ho (Heap.closure?_eq_some.mp hc') (by simp [Object.typeName])
    | @list identity' g' ds' vs' hat' ho' hlength' hitems' =>
      obtain ⟨es, rfl, hes⟩ := he.items ho
      obtain ⟨es', rfl, hes'⟩ := he'.items ho'
      obtain ⟨hcount, hunfolds⟩ := List.forall₂_iff_get.mp hes
      obtain ⟨hcount', hunfolds'⟩ := List.forall₂_iff_get.mp hes'
      refine same_list hm hat hat' (P := fun d e => ∃ v, Represents B w d v ∧ w.heap.Unfolds v e)
        (List.forall₂_iff_get.mpr ⟨by omega, fun i hi hi' => ?_⟩)
        (List.forall₂_iff_get.mpr ⟨by omega, fun i hi hi' => ?_⟩) h
      · rintro d' e' answer ⟨v', hv', he'⟩ h
        have hd : ds[i]? = some (ds.get ⟨i, hi⟩) := by simp
        have hv : vs[i]? = some (vs.get ⟨i, by omega⟩) := by simp
        by_cases hatom : (vs.get ⟨i, by omega⟩).handle? = none ∨ v'.handle? = none
        · exact hatoms (hitems i _ _ hd hv) hv' (hunfolds i (by omega) hi') he' h hatom
        · exact ih i _ _ hd hv hv' (hunfolds i (by omega) hi') he' h (not_or.mp hatom)
      · refine ⟨vs'[i], hitems' i _ _ ?_ ?_, hunfolds' i (by omega) hi'⟩ <;> simp
    | _ => exact (hatom.2 rfl).elim
  | _ => exact (hatom.1 rfl).elim

/-- **Values are compared** as what they represent is. -/
theorem Represents.equal (hm : Mirrors B w S) (hv : Represents B w d v) (hv' : Represents B w d' v') {answer : Bool}
    (h : d.equal? d' = some answer) : w.heap.equal v v' = answer := by
  obtain ⟨e, he⟩ := Heap.exists_unfolds hm.founded v
  obtain ⟨e', he'⟩ := Heap.exists_unfolds hm.founded v'
  rw [Bool.eq_iff_iff, Heap.equal, he.equal_iff he' (he.depth_le hm.founded), hv.same_iff hm hv' he he' h]

/-! ### Carrying out primitives -/

section

variable {op : Opcode} {vs : List Value} {e : Eval Denoted} {word : String} {x y x' y' : Float}
  {f : Float → Float → Eval Denoted}

/-- **A primitive keeps up with an evaluation**, on operands that are on top of the stack. Output leaves nothing there. -/
def Operates (B : Build) (w : World) (h : Handle) (op : Opcode) (vs : List Value) (S : Store) (e : Eval Denoted) : Prop :=
  match e.run S with
  | (.ok d, S') => ∃ w' v written, w.Grows w' ∧ Mirrors B w' S' ∧ Represents B w' d v ∧
      S'.output = S.output ++ written ∧ (op.answers = false → v = .boolean false) ∧
      ∀ rest m, w.Has B (some h) m → m.stack = vs.reverse ++ rest → (Machine.operate op).run m =
        (.ok written, { m with heap := w'.heap, stack := if op.answers then v :: rest else rest })
  | (.error (.failed failure), S') => S' = S ∧ ∀ rest m, w.Has B (some h) m → m.stack = vs.reverse ++ rest →
      ∃ fault m', (Machine.operate op).run m = (.error fault, m') ∧ failure.Describes fault
  | (.error _, _) => True

/-- A primitive that answers without a new object. -/
theorem Operates.answer (hm : Mirrors B w S) (he : e.run S = (.ok d, S)) (hv : Represents B w d v)
    (hop : op.answers = true) (hrun : ∀ rest m, w.Has B (some h) m → m.stack = vs.reverse ++ rest →
      (Machine.operate op).run m = (.ok "", { m with stack := v :: rest })) : Operates B w h op vs S e := by
  unfold Operates
  rw [he]
  refine ⟨w, v, "", .refl w, hm, hv, String.append_empty.symm, by rw [hop]; nofun, fun rest m hmachine hstack => ?_⟩
  rw [hrun rest m hmachine hstack, hop, ← hmachine.heap]
  rfl

/-- A primitive that fails. -/
theorem Operates.fail {failure : Failure} (he : e.run S = (.error (.failed failure), S))
    (hrun : ∀ rest m, w.Has B (some h) m → m.stack = vs.reverse ++ rest →
      ∃ fault m', (Machine.operate op).run m = (.error fault, m') ∧ failure.Describes fault) :
    Operates B w h op vs S e := by
  unfold Operates
  rw [he]
  exact ⟨rfl, hrun⟩

theorem Operates.unspecified (he : e.run S = (.error .unspecified, S)) : Operates B w h op vs S e := by
  unfold Operates
  rw [he]
  trivial

/-- The operation of a word on two numbers that agree with those of the evaluation. -/
theorem calculates (hf : calculation? word = some f) (hop : Opcode.ofPrimitive? word = some op) (hx : Number.Agree x x')
    (hy : Number.Agree y y') (S : Store) :
    (∃ d v, (f x y).run S = (.ok d, S) ∧ Machine.numeric op x' y' = .ok v ∧ Represents B w d v) ∨
      ∃ failure fault, (f x y).run S = (.error (.failed failure), S) ∧ Machine.numeric op x' y' = .error fault ∧
        failure.Describes fault := by
  have hdivisor : y.abs < Machine.smallestDivisor ↔ y'.abs < Machine.smallestDivisor := by rw [hy.abs]
  unfold calculation? at hf
  split at hf
  case h_10 => cases hf
  all_goals
    cases hf
    simp only [Opcode.ofPrimitive?, Option.some.injEq] at hop
    subst hop
    dsimp only
  -- the operations first: on numbers that agree, the divisors are zero together
  · exact Or.inl ⟨_, _, rfl, rfl, .number (hx.add hy)⟩
  · exact Or.inl ⟨_, _, rfl, rfl, .number (hx.sub hy)⟩
  · exact Or.inl ⟨_, _, rfl, rfl, .number (hx.mul hy)⟩
  · by_cases hzero : y.abs < Machine.smallestDivisor
    · rw [if_pos hzero, Machine.numeric, if_pos (hdivisor.mp hzero)]
      exact Or.inr ⟨_, _, rfl, rfl, rfl⟩
    · rw [if_neg hzero, Machine.numeric, if_neg fun h => hzero (hdivisor.mpr h), ← hy.eq_of_divisor hzero]
      exact Or.inl ⟨_, _, rfl, rfl, .number (hx.div hzero)⟩
  · by_cases hzero : y.abs < Machine.smallestDivisor
    · rw [if_pos hzero, Machine.numeric, if_pos (hdivisor.mp hzero)]
      exact Or.inr ⟨_, _, rfl, rfl, rfl⟩
    · rw [if_neg hzero, Machine.numeric, if_neg fun h => hzero (hdivisor.mpr h), ← hy.eq_of_divisor hzero]
      exact Or.inl ⟨_, _, rfl, rfl, .number (hx.remainder y)⟩
  -- the comparisons
  · exact Or.inl ⟨_, _, rfl, rfl, decide_eq_decide.mpr (hx.lt hy) ▸ .boolean _⟩
  · exact Or.inl ⟨_, _, rfl, rfl, decide_eq_decide.mpr (hy.lt hx) ▸ .boolean _⟩
  · exact Or.inl ⟨_, _, rfl, rfl, decide_eq_decide.mpr (hx.le hy) ▸ .boolean _⟩
  · exact Or.inl ⟨_, _, rfl, rfl, decide_eq_decide.mpr (hy.le hx) ▸ .boolean _⟩

/-- An arithmetic word stands for an operation on numbers. -/
theorem operate_of_calculation (hf : calculation? word = some f) (hop : Opcode.ofPrimitive? word = some op) :
    op.answers = true ∧ op.operandCount? = some 2 ∧
      Machine.operate op = (Machine.operateNumeric op >>= fun _ => pure "") ∧
      ∀ a b, operate word [a, b] = numeric word a b := by
  unfold calculation? at hf
  split at hf
  case h_10 => cases hf
  all_goals
    simp only [Opcode.ofPrimitive?, Option.some.injEq] at hop
    subst hop
    exact ⟨rfl, rfl, rfl, fun _ _ => rfl⟩

theorem numeric_run (hf : calculation? word = some f) (a b : Denoted) (S : Store) :
    (numeric word a b).run S =
      match a, b with
      | .number x, .number y => (f x y).run S
      | _, _ => (.error (.failed .type), S) := by
  unfold numeric
  rw [hf]
  cases a <;> cases b <;> rfl

/-- What represents no number is none. -/
theorem Represents.numberOf (hv : Represents B w d v) (hd : ∀ x, d ≠ .number x) (op : Opcode) :
    ∃ text, Machine.numberOf op v = .error (.typeError text) := by
  cases hv with
  | number => exact absurd rfl (hd _)
  | _ => exact ⟨_, rfl⟩

theorem run_operateNumeric {m : Machine} {u v : Value} {rest : List Value} (hstack : m.stack = v :: u :: rest) :
    (Machine.operateNumeric op >>= fun _ => pure "" : Machine.Move String).run m =
      match (do Machine.numeric op (← Machine.numberOf op u) (← Machine.numberOf op v) : Except Fault Value) with
      | .ok a => (.ok "", { m with stack := a :: rest })
      | .error fault => (.error fault, { m with stack := rest }) := by
  unfold Machine.operateNumeric
  rw [bind_assoc, Machine.run_bind_ok (Machine.run_pop_cons hstack), bind_assoc,
    Machine.run_bind_ok (Machine.run_pop_cons rfl)]
  dsimp only
  generalize (do Machine.numeric op (← Machine.numberOf op u) (← Machine.numberOf op v) : Except Fault Value) = result
  cases result <;> rfl

/-- **Arithmetic and comparison.** -/
theorem Operates.numeric (hm : Mirrors B w S) {a b : Denoted} {u v : Value} (hf : calculation? word = some f)
    (hop : Opcode.ofPrimitive? word = some op) (ha : Represents B w a u) (hb : Represents B w b v) :
    Operates B w h op [u, v] S (numeric word a b) := by
  obtain ⟨hanswers, -, hoperate, -⟩ := operate_of_calculation hf hop
  -- two numbers are calculated with; anything else is a type error on both sides
  by_cases hnumbers : ∃ x y, a = .number x ∧ b = .number y
  · obtain ⟨x, y, rfl, rfl⟩ := hnumbers
    cases ha with
    | @number _ x' hx =>
      cases hb with
      | @number _ y' hy =>
        have hresult : (do Machine.numeric op (← Machine.numberOf op (.number x')) (← Machine.numberOf op (.number y')) :
            Except Fault Value) = Machine.numeric op x' y' := rfl
        rcases calculates hf hop hx hy S with ⟨d, r, he, hnumeric, hr⟩ | ⟨failure, fault, he, hnumeric, hfault⟩
        · refine .answer hm ((numeric_run hf _ _ S).trans he) hr hanswers fun rest m _ hstack => ?_
          rw [hoperate, run_operateNumeric hstack, hresult, hnumeric]
          rfl
        · refine .fail ((numeric_run hf _ _ S).trans he) fun rest m _ hstack => ?_
          rw [hoperate, run_operateNumeric hstack, hresult, hnumeric]
          exact ⟨_, _, rfl, hfault⟩
  · have he : (Meaning.numeric word a b).run S = (.error (.failed .type), S) := by
      rw [numeric_run hf]
      split
      · exact absurd ⟨_, _, rfl, rfl⟩ hnumbers
      · rfl
    -- the machine looks at the left operand first, too
    obtain ⟨text, htext⟩ : ∃ text, (do Machine.numeric op (← Machine.numberOf op u) (← Machine.numberOf op v) :
        Except Fault Value) = .error (.typeError text) := by
      by_cases hx : ∃ x, a = .number x
      · obtain ⟨x, rfl⟩ := hx
        obtain ⟨text, htext⟩ := hb.numberOf (fun y hy => hnumbers ⟨x, y, rfl, hy⟩) op
        cases ha with
        | number => exact ⟨text, by rw [htext]; rfl⟩
      · obtain ⟨text, htext⟩ := ha.numberOf (fun x heq => hx ⟨x, heq⟩) op
        exact ⟨text, by rw [htext]; rfl⟩
    refine .fail he fun rest m _ hstack => ?_
    rw [hoperate, run_operateNumeric hstack, htext]
    exact ⟨_, _, rfl, trivial⟩

/-! ### Lists -/

/-- A list has items, anything else fails. -/
theorem Represents.run_listItems (hv : Represents B w d v) (h : Handle) (op : Opcode) :
    (∃ identity ds vs, d = .list identity ds ∧ List.Forall₂ (Represents B w) ds vs ∧
      ∀ m, w.Has B (some h) m → (Machine.listItems op v).run m = (.ok vs, m)) ∨
      (∀ identity ds, d ≠ .list identity ds) ∧ ∃ text, ∀ m, w.Has B (some h) m →
        (Machine.listItems op v).run m = (.error (.typeError text), m) := by
  have hobject : ∀ {j : Handle} {o : Object}, w.heap.get? j = some o → (∀ items, o ≠ .list items) →
      ∃ text, ∀ m, w.Has B (some h) m → (Machine.listItems op (.handle j)).run m = (.error (.typeError text), m) := by
    intro j o ho hne
    refine ⟨op.mnemonic ++ " expects a list, got " ++ (Value.handle j).typeName, fun m hmachine => ?_⟩
    unfold Machine.listItems
    dsimp only [Value.handle?]
    rw [Machine.run_get_bind, hmachine.heap, ho]
    cases o with
    | list items => exact absurd rfl (hne items)
    | _ => rfl
  cases id hv with
  | list =>
    obtain ⟨j, vs, heq, -, ho, hitems⟩ := hv.exists_items
    cases heq
    refine Or.inl ⟨_, _, vs, rfl, hitems, fun m hmachine => ?_⟩
    unfold Machine.listItems
    dsimp only [Value.handle?]
    rw [Machine.run_get_bind, hmachine.heap, ho]
    rfl
  | string ho => exact Or.inr ⟨nofun, hobject ho nofun⟩
  | procedure hc => exact Or.inr ⟨nofun, hobject (Heap.closure?_eq_some.mp hc) nofun⟩
  | _ => exact Or.inr ⟨nofun, _, fun _ _ => rfl⟩

/-- A primitive that is given something of a wrong kind. -/
theorem Operates.type_error (he : e.run S = (.error (.failed .type), S))
    (hrun : ∀ rest m, w.Has B (some h) m → m.stack = vs.reverse ++ rest →
      ∃ text m', (Machine.operate op).run m = (.error (.typeError text), m')) : Operates B w h op vs S e :=
  .fail he fun rest m hmachine hstack =>
    let ⟨_, _, hfails⟩ := hrun rest m hmachine hstack
    ⟨_, _, hfails, trivial⟩

theorem run_allocate_push (o : Object) (m : Machine) :
    (do Machine.push (.handle (← Machine.allocate o)); return "" : Machine.Move String).run m =
      (.ok "", { m with
        heap := (m.heap.allocate o m.current).2, stack := .handle m.heap.nextSlot :: m.stack }) := by
  rw [Machine.run_bind_ok (Machine.run_allocate o m)]
  rfl

/-- A primitive that makes a list. -/
theorem Operates.newList (hm : Mirrors B w S) {ds : List Denoted} {items : List Value}
    (he : e.run S = (newList ds).run S) (hitems : List.Forall₂ (Represents B w) ds items) (hop : op.answers = true)
    (hrun : ∀ rest m, w.Has B (some h) m → m.stack = vs.reverse ++ rest → (Machine.operate op).run m =
      (.ok "", { m with
        heap := (w.heap.allocate (.list items) (some h)).2, stack := .handle w.heap.nextSlot :: rest })) :
    Operates B w h op vs S e := by
  obtain ⟨w', hheap, hw, hm', hv⟩ := hm.newList hitems (some h)
  unfold Operates
  rw [he]
  refine ⟨w', _, "", hw, hm', hv, String.append_empty.symm, by rw [hop]; nofun, fun rest m hmachine hstack => ?_⟩
  rw [hrun rest m hmachine hstack, hheap, hop]
  rfl

theorem Operates.car (hm : Mirrors B w S) (hv : Represents B w d v) :
    Operates B w h .car [v] S (operate "car" [d]) := by
  rcases hv.run_listItems h .car with ⟨identity, ds, vs, rfl, hitems, hrun⟩ | ⟨hne, text, hrun⟩
  · cases hitems with
    | nil =>
      refine .type_error rfl fun rest m hmachine hstack => ?_
      unfold Machine.operate
      rw [Machine.run_bind_ok (Machine.run_pop_cons hstack), Machine.run_bind_ok (hrun _ (hmachine.withStack _))]
      exact ⟨_, _, rfl⟩
    | cons hfirst =>
      refine .answer hm rfl hfirst rfl fun rest m hmachine hstack => ?_
      unfold Machine.operate
      rw [Machine.run_bind_ok (Machine.run_pop_cons hstack), Machine.run_bind_ok (hrun _ (hmachine.withStack _))]
      rfl
  · have he : (operate "car" [d]).run S = (.error (.failed .type), S) := by
      cases d with
      | list identity ds => exact absurd rfl (hne identity ds)
      | _ => rfl
    refine .type_error he fun rest m hmachine hstack => ?_
    unfold Machine.operate
    rw [Machine.run_bind_ok (Machine.run_pop_cons hstack), Machine.run_bind_error (hrun _ (hmachine.withStack _))]
    exact ⟨_, _, rfl⟩

theorem Operates.cdr (hm : Mirrors B w S) (hv : Represents B w d v) :
    Operates B w h .cdr [v] S (operate "cdr" [d]) := by
  rcases hv.run_listItems h .cdr with ⟨identity, ds, vs, rfl, hitems, hrun⟩ | ⟨hne, text, hrun⟩
  · cases hitems with
    | nil =>
      refine .type_error rfl fun rest m hmachine hstack => ?_
      unfold Machine.operate
      rw [Machine.run_bind_ok (Machine.run_pop_cons hstack), Machine.run_bind_ok (hrun _ (hmachine.withStack _))]
      exact ⟨_, _, rfl⟩
    | cons _ hrest =>
      refine .newList hm rfl hrest rfl fun rest m hmachine hstack => ?_
      unfold Machine.operate
      rw [Machine.run_bind_ok (Machine.run_pop_cons hstack), Machine.run_bind_ok (hrun _ (hmachine.withStack _))]
      dsimp only
      rw [run_allocate_push, hmachine.heap, hmachine.current]
      rfl
  · have he : (operate "cdr" [d]).run S = (.error (.failed .type), S) := by
      cases d with
      | list identity ds => exact absurd rfl (hne identity ds)
      | _ => rfl
    refine .type_error he fun rest m hmachine hstack => ?_
    unfold Machine.operate
    rw [Machine.run_bind_ok (Machine.run_pop_cons hstack), Machine.run_bind_error (hrun _ (hmachine.withStack _))]
    exact ⟨_, _, rfl⟩

theorem Operates.cons (hm : Mirrors B w S) (hv : Represents B w d v) (hv' : Represents B w d' v') :
    Operates B w h .cons [v, v'] S (operate "cons" [d, d']) := by
  rcases hv'.run_listItems h .cons with ⟨identity, ds, vs, rfl, hitems, hrun⟩ | ⟨hne, text, hrun⟩
  · refine .newList hm rfl (.cons hv hitems) rfl fun rest m hmachine hstack => ?_
    unfold Machine.operate
    rw [Machine.run_bind_ok (Machine.run_pop_cons hstack), Machine.run_bind_ok (Machine.run_pop_cons rfl),
      Machine.run_bind_ok (hrun _ ((hmachine.withStack _).withStack _))]
    dsimp only
    rw [run_allocate_push, hmachine.heap, hmachine.current]
    rfl
  · have he : (operate "cons" [d, d']).run S = (.error (.failed .type), S) := by
      cases d' with
      | list identity ds => exact absurd rfl (hne identity ds)
      | _ => rfl
    refine .type_error he fun rest m hmachine hstack => ?_
    unfold Machine.operate
    rw [Machine.run_bind_ok (Machine.run_pop_cons hstack), Machine.run_bind_ok (Machine.run_pop_cons rfl),
      Machine.run_bind_error (hrun _ ((hmachine.withStack _).withStack _))]
    exact ⟨_, _, rfl⟩

/-! ### Truth, equality and output -/

/-- What counts as true does. -/
theorem Represents.isTruthy (hv : Represents B w d v) : v.isTruthy = d.isTruthy := by
  cases hv <;> rfl

theorem Operates.not (hm : Mirrors B w S) (hv : Represents B w d v) :
    Operates B w h .not [v] S (operate "not" [d]) := by
  refine .answer hm rfl (.boolean _) rfl fun rest m hmachine hstack => ?_
  unfold Machine.operate
  rw [Machine.run_bind_ok (Machine.run_pop_cons hstack), hv.isTruthy]
  rfl

theorem Operates.equal (hm : Mirrors B w S) (hv : Represents B w d v) (hv' : Represents B w d' v') :
    Operates B w h .eqn [v, v'] S (operate "=" [d, d']) := by
  cases hanswer : d.equal? d' with
  | none =>
    refine .unspecified ?_
    rw [operate, hanswer]
    rfl
  | some answer =>
    refine .answer (d := .boolean answer) hm ?_ (.boolean _) rfl fun rest m hmachine hstack => ?_
    · rw [operate, hanswer]
      rfl
    · unfold Machine.operate
      rw [Machine.run_bind_ok (Machine.run_pop_cons hstack), Machine.run_bind_ok (Machine.run_pop_cons rfl),
        Machine.run_get_bind, hmachine.heap, hv.equal hm hv' hanswer]
      rfl

/-- What is written is all that changes. -/
theorem Mirrors.output (hm : Mirrors B w S) (output : String) : Mirrors B w { S with output } := { hm with }

/-- A primitive that writes. -/
theorem Operates.write (hm : Mirrors B w S) {text : String}
    (he : e.run S = (.ok (.boolean false), { S with output := S.output ++ text })) (hop : op.answers = false)
    (hrun : ∀ rest m, w.Has B (some h) m → m.stack = vs.reverse ++ rest →
      (Machine.operate op).run m = (.ok text, { m with stack := rest })) : Operates B w h op vs S e := by
  unfold Operates
  rw [he]
  refine ⟨w, _, text, .refl w, hm.output _, .boolean false, rfl, fun _ => rfl, fun rest m hmachine hstack => ?_⟩
  rw [hrun rest m hmachine hstack, hop, ← hmachine.heap]
  rfl

theorem Operates.display (hm : Mirrors B w S) (hv : Represents B w d v) :
    Operates B w h .display [v] S (operate "display" [d]) := by
  rw [operate]
  cases htext : d.text? with
  | none => exact .unspecified rfl
  | some text =>
    refine .write hm rfl rfl fun rest m hmachine hstack => ?_
    unfold Machine.operate
    rw [Machine.run_bind_ok (Machine.run_pop_cons hstack), Machine.run_get_bind, hmachine.heap, hv.display hm htext]
    rfl

theorem Operates.newline (hm : Mirrors B w S) : Operates B w h .newline [] S (operate "newline" []) :=
  .write hm rfl rfl fun rest m _ hstack => by
    obtain rfl : m.stack = rest := hstack
    rfl

/-! ### All primitives -/

/-- How many operands a primitive takes, of those that programs of the core name. -/
theorem operate_of_length (hop : Opcode.ofPrimitive? word = some op) {ds : List Denoted}
    (hlength : op.operandCount? ≠ some ds.length) : operate word ds = throw .unspecified := by
  unfold Opcode.ofPrimitive? at hop
  split at hop <;> cases hop
  all_goals
    rcases ds with _ | ⟨a, _ | ⟨b, _ | ⟨c, ds⟩⟩⟩ <;> first
      | exact absurd rfl hlength
      | rfl
      | simp [operate, numeric, calculation?]

/-- **A primitive keeps up with the evaluator.** -/
theorem operates (hm : Mirrors B w S) (hword : word ∈ arithmeticWords ++ operationWords)
    (hop : Opcode.ofPrimitive? word = some op) {ds : List Denoted} (hds : List.Forall₂ (Represents B w) ds vs) :
    Operates B w h op vs S (operate word ds) := by
  -- a wrong number of operands leaves the evaluation open
  by_cases hlength : op.operandCount? = some ds.length
  swap
  · rw [operate_of_length hop hlength]
    exact .unspecified rfl
  have htwo : ds.length = 2 → (∀ a b u v, Represents B w a u → Represents B w b v →
      Operates B w h op [u, v] S (operate word [a, b])) → Operates B w h op vs S (operate word ds) := by
    intro hlength hpair
    obtain ⟨a, b, rfl⟩ := List.length_eq_two.mp hlength
    obtain ⟨u, _, ha, hrest, rfl⟩ := List.forall₂_cons_left_iff.mp hds
    obtain ⟨v, _, hb, hnil, rfl⟩ := List.forall₂_cons_left_iff.mp hrest
    obtain rfl := List.forall₂_nil_left_iff.mp hnil
    exact hpair a b u v ha hb
  have hone : ds.length = 1 → (∀ a u, Represents B w a u → Operates B w h op [u] S (operate word [a])) →
      Operates B w h op vs S (operate word ds) := by
    intro hlength hsingle
    obtain ⟨a, rfl⟩ := List.length_eq_one_iff.mp hlength
    obtain ⟨u, _, ha, hnil, rfl⟩ := List.forall₂_cons_left_iff.mp hds
    obtain rfl := List.forall₂_nil_left_iff.mp hnil
    exact hsingle a u ha
  -- arithmetic and comparison are one case, every other word is one of its own
  cases hf : calculation? word with
  | some f =>
    obtain ⟨-, hcount, -, hnumeric⟩ := operate_of_calculation hf hop
    refine htwo (Option.some.inj (hlength.symm.trans hcount)) fun a b u v ha hb => ?_
    rw [hnumeric]
    exact .numeric hm hf hop ha hb
  | none =>
    have hrest : word ∈ ["=", "not", "car", "cdr", "cons", "display", "newline"] := by
      simp only [arithmeticWords, operationWords, List.cons_append, List.nil_append, List.mem_cons, List.not_mem_nil,
        or_false] at hword ⊢
      rcases hword with rfl | rfl | rfl | rfl | rfl | rfl | rfl | rfl | rfl | rfl | rfl | rfl | rfl | rfl | rfl | rfl <;>
        first
          | (simp; done)
          | cases hf
    simp only [List.mem_cons, List.not_mem_nil, or_false] at hrest
    rcases hrest with rfl | rfl | rfl | rfl | rfl | rfl | rfl <;> cases hop <;>
      replace hlength := (Option.some.inj hlength).symm
    · exact htwo hlength fun _ _ _ _ ha hb => .equal hm ha hb
    · exact hone hlength fun _ _ ha => .not hm ha
    · exact hone hlength fun _ _ ha => .car hm ha
    · exact hone hlength fun _ _ ha => .cdr hm ha
    · exact htwo hlength fun _ _ _ _ ha hb => .cons hm ha hb
    · exact hone hlength fun _ _ ha => .display hm ha
    · obtain rfl := List.length_eq_zero_iff.mp hlength
      obtain rfl := List.forall₂_nil_left_iff.mp hds
      exact .newline hm

/-! ### Instructions -/

variable {pc : Nat} {stack : List Value} {frames : List Frame}

namespace Tracks

/-- **A primitive is carried out** on the operands on top of the stack. -/
theorem primitive {k : Nat} (ho : Operates B w h op vs S e) (hop : op.operandCount? = some k)
    (hi : B.image.program.code[pc]? = some (plain op)) :
    Tracks B.image ⟨pc, vs.reverse ++ stack, frames, some h, w.heap⟩ S e fun d S' r => ∃ w' v,
      w.Grows w' ∧ Mirrors B w' S' ∧ Represents B w' d v ∧ (op.answers = false → v = .boolean false) ∧
        r = ⟨pc + 1, if op.answers then v :: stack else stack, frames, some h, w'.heap⟩ := by
  unfold Operates at ho
  unfold Tracks
  rcases he : e.run S with ⟨(stop | d), S'⟩
  · rw [he] at ho
    cases stop with
    | failed failure =>
      obtain ⟨rfl, hrun⟩ := ho
      refine ⟨_, .refl _ _, _, hi, fun host b => ?_⟩
      obtain ⟨fault, m, hrun, hfault⟩ := hrun stack _ (World.has_machine b) rfl
      rw [Machine.dispatch_plain host hop]
      exact ⟨fault, m, Machine.run_bind_error hrun, hfault⟩
    | _ => trivial
  · rw [he] at ho
    obtain ⟨w', v, written, hw, hm, hv, houtput, hfalse, hrun⟩ := ho
    refine ⟨_, houtput ▸ .single ⟨_, hi, fun host b => ?_⟩, w', v, hw, hm, hv, hfalse, rfl⟩
    rw [Machine.dispatch_plain host hop]
    exact Machine.run_bind_ok (hrun stack _ (World.has_machine b) rfl)

end Tracks

end

end Meaning

end SchemeMachine
