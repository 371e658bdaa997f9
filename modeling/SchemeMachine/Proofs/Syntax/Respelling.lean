import SchemeMachine.Proofs.Syntax.Reading
import SchemeMachine.Proofs.Syntax.Resolution

/-!
# Respelled terms

What a respelled term defines, and what happens to a term that is respelled twice: first to a text, and then by the
analysis of that text. The second time the names mean what they meant at first, unless a name is respelled to one that
a lambda around it binds.

* `Term.defined_respell`: the definitions of a respelled term are respelled.
* `Term.Binders` says what names the lambdas inside a term bind, `Term.Outside` what holds of the names
  that none of them binds.
* `Term.respell_respell` is the result for a term that is respelled twice.
* `Term.respell_copy`: names do not depend on the handles of a term, nor on its numbers and strings.
-/

namespace SchemeMachine.Term

variable {inner : Handle → String → String} {outer : String → String} {chain : Chain}

/-- A name as it is, whichever lambda binds it. -/
def asWritten (_ : Handle) (w : String) : String := w

/-! ### Definitions -/

theorem definition_of_ne {quotation : Quotation} {word : String} {rest : List Term} (h : word ≠ "define") :
    definition quotation (.atom (.keyword word) :: rest) = [] := by
  refine List.eq_nil_iff_forall_not_mem.mpr fun w hw => ?_
  obtain ⟨-, _, heq⟩ := mem_definition.mp hw
  cases heq
  exact h rfl

theorem definition_respellAll (quotation : Quotation) (items : List Term) :
    definition quotation (respellAll inner outer chain items) =
      (definition quotation items).map (chain.spell inner outer) := by
  cases quotation with
  | code =>
    match items with
    | [] | .string .. :: _ | .lambda .. :: _ | .application .. :: _ => rfl
    | .atom (.number _) :: _ | .atom (.boolean _) :: _ | .atom (.symbol _) :: _ | .atom (.variable _) :: _ => rfl
    | .atom (.keyword word) :: rest =>
      by_cases hword : word = "define"
      · subst hword
        match rest with
        | [] | .string .. :: _ | .lambda .. :: _ | .application .. :: _ => rfl
        | .atom a :: _ => cases a <;> rfl
      · rw [definition_of_ne hword, List.map_nil]
        exact definition_of_ne hword
  | _ => rfl

mutual

/-- **What a respelled term defines** is what the term defines, respelled. -/
theorem defined_respell : (x : Term) →
    (x.respell inner outer chain).defined = x.defined.map (chain.spell inner outer)
  | .atom a => by cases a <;> rfl
  | .string _ _ => rfl
  | .lambda _ _ _ => rfl
  | .application _ quotation items => by
    rw [respell, defined, defined, definition_respellAll, definedAll_respellAll items, List.map_append]

theorem definedAll_respellAll : (xs : List Term) →
    definedAll (respellAll inner outer chain xs) = (definedAll xs).map (chain.spell inner outer)
  | [] => rfl
  | x :: xs => by
    rw [respellAll, definedAll, definedAll, defined_respell x, definedAll_respellAll xs, List.map_append]

end

/-- What a lambda defines keeps its name when it is respelled as written. -/
theorem enter_respellAll (h : Handle) (parameters : List String) (body : List Term) :
    chain.enter h parameters (respellAll asWritten outer (chain.enter h parameters body) body) =
      chain.enter h parameters body := by
  have hnames : definedAll (respellAll asWritten outer (chain.enter h parameters body) body) = definedAll body := by
    rw [definedAll_respellAll]
    refine (List.map_congr_left fun w hw => ?_).trans (List.map_id _)
    simp [Chain.spell, Chain.enter, Chain.binder?, hw, asWritten]
  rw [Chain.enter, hnames]
  rfl

/-! ### Names that no lambda binds -/

mutual

/-- **What holds of every name that no lambda inside a term binds**, with the lambdas around it. -/
def Outside (P : Chain → String → Prop) (chain : Chain) : Term → Prop
  | .atom a => ∀ w, a = .variable w → chain.binder? w = none → P chain w
  | .string _ _ => True
  | .lambda h parameters body => OutsideAll P (chain.enter h parameters body) body
  | .application _ _ items => OutsideAll P chain items

/-- What holds of every name that no lambda inside several terms binds. -/
def OutsideAll (P : Chain → String → Prop) (chain : Chain) : List Term → Prop
  | [] => True
  | x :: xs => Outside P chain x ∧ OutsideAll P chain xs

end

/-- **No name is captured**: what a name that no lambda around it binds is respelled to is not bound by one either. -/
def Uncaptured (f : String → String) (chain : Chain) (w : String) : Prop := chain.binder? (f w) = none

mutual

/-- **A term that is respelled twice**: a name that a lambda binds is found again, any other is respelled by both. -/
theorem respell_respell {f g : String → String} : (x : Term) → {chain : Chain} → x.Outside (Uncaptured f) chain →
    (x.respell asWritten f chain).respell inner g chain = x.respell inner (g ∘ f) chain
  | .atom a, chain, h => by
    cases a with
    | «variable» w =>
      simp only [respell, Chain.spell, asWritten]
      cases hbinder : chain.binder? w with
      | some N => simp only [hbinder]
      | none =>
        have hnone : chain.binder? (f w) = none := h w rfl hbinder
        simp only [hnone, Function.comp_apply]
    | _ => rfl
  | .string _ _, _, _ => rfl
  | .lambda k parameters body, chain, h => by
    rw [respell, respell, respell]
    have hparameters : parameters.map (asWritten k) = parameters := List.map_id _
    rw [hparameters, enter_respellAll, respellAll_respellAll body h]
  | .application _ _ items, chain, h => by
    rw [respell, respell, respell, respellAll_respellAll items h]

theorem respellAll_respellAll {f g : String → String} : (xs : List Term) → {chain : Chain} →
    OutsideAll (Uncaptured f) chain xs →
    respellAll inner g chain (respellAll asWritten f chain xs) = respellAll inner (g ∘ f) chain xs
  | [], _, _ => rfl
  | x :: xs, _, h => by
    rw [respellAll, respellAll, respellAll, respell_respell x h.1, respellAll_respellAll xs h.2]

end

/-! ### What lambdas bind -/

mutual

/-- **What holds of every name that a lambda inside a term binds.** -/
def Binders (P : String → Prop) : Term → Prop
  | .atom _ => True
  | .string _ _ => True
  | .lambda _ parameters body => (∀ w ∈ parameters ++ definedAll body, P w) ∧ BindersAll P body
  | .application _ _ items => BindersAll P items

/-- What holds of every name that a lambda inside several terms binds. -/
def BindersAll (P : String → Prop) : List Term → Prop
  | [] => True
  | x :: xs => Binders P x ∧ BindersAll P xs

end

mutual

/-- A name is not captured if it stays as it is, or becomes one that no lambda binds. -/
theorem uncaptured_of_binders {P : String → Prop} {f : String → String} (hf : ∀ w, f w = w ∨ ¬ P (f w)) :
    (x : Term) → {chain : Chain} → (∀ frame ∈ chain, ∀ w ∈ frame.2, P w) → x.Binders P →
      x.Outside (Uncaptured f) chain
  | .atom a, chain, hchain, _ => by
    intro w _ hw
    rcases hf w with heq | hnot
    · rwa [Uncaptured, heq]
    · have hnone : ∀ chain : Chain, (∀ frame ∈ chain, ∀ w ∈ frame.2, P w) → chain.binder? (f w) = none := by
        intro chain hchain
        induction chain with
        | nil => rfl
        | cons frame outer ih =>
          rw [Chain.binder?, if_neg fun hmem => hnot (hchain frame List.mem_cons_self _ hmem)]
          exact ih fun frame' hframe => hchain frame' (List.mem_cons_of_mem frame hframe)
      exact hnone chain hchain
  | .string _ _, _, _, _ => trivial
  | .lambda h parameters body, chain, hchain, hbinders => by
    refine uncapturedAll_of_binders hf body (fun frame hframe => ?_) hbinders.2
    rcases List.mem_cons.mp hframe with rfl | hframe
    · exact hbinders.1
    · exact hchain frame hframe
  | .application _ _ items, _, hchain, hbinders => uncapturedAll_of_binders hf items hchain hbinders

theorem uncapturedAll_of_binders {P : String → Prop} {f : String → String} (hf : ∀ w, f w = w ∨ ¬ P (f w)) :
    (xs : List Term) → {chain : Chain} → (∀ frame ∈ chain, ∀ w ∈ frame.2, P w) → BindersAll P xs →
      OutsideAll (Uncaptured f) chain xs
  | [], _, _, _ => trivial
  | x :: xs, _, hchain, hbinders =>
    ⟨uncaptured_of_binders hf x hchain hbinders.1, uncapturedAll_of_binders hf xs hchain hbinders.2⟩

end

/-! ### What names do not depend on -/

/-- A chain under other handles. -/
def Chain.carry (f : Handle → Handle) (chain : Chain) : Chain := chain.map fun frame => (f frame.1, frame.2)

theorem Chain.binder?_carry (f : Handle → Handle) (chain : Chain) (w : String) :
    (chain.carry f).binder? w = (chain.binder? w).map f := by
  induction chain with
  | nil => rfl
  | cons frame outer ih =>
    rw [Chain.carry, List.map_cons, Chain.binder?, Chain.binder?]
    split
    · rfl
    · exact ih

theorem Chain.spell_carry (f : Handle → Handle) (chain : Chain) (w : String) :
    (chain.carry f).spell asWritten outer w = chain.spell asWritten outer w := by
  rw [Chain.spell, Chain.spell, Chain.binder?_carry]
  cases chain.binder? w <;> rfl

/-- A definition can be told without the handles, numbers and strings around it. -/
theorem definition_copy (f : Handle → Handle) (quotation : Quotation) (items : List Term) :
    definition quotation (carryAll f (rereadAll items)) = definition quotation items := by
  cases quotation with
  | code =>
    match items with
    | [] | .string .. :: _ | .lambda .. :: _ | .application .. :: _ => rfl
    | .atom (.number _) :: _ | .atom (.boolean _) :: _ | .atom (.symbol _) :: _ | .atom (.variable _) :: _ => rfl
    | .atom (.keyword word) :: rest =>
      by_cases hword : word = "define"
      · subst hword
        match rest with
        | [] | .string .. :: _ | .lambda .. :: _ | .application .. :: _ => rfl
        | .atom a :: _ => cases a <;> rfl
      · rw [definition_of_ne hword]
        exact definition_of_ne hword
  | _ => rfl

mutual

theorem defined_copy (f : Handle → Handle) : (x : Term) → (x.reread.carry f).defined = x.defined
  | .atom a => by cases a <;> rfl
  | .string _ _ => rfl
  | .lambda _ _ _ => rfl
  | .application _ quotation items => by
    rw [reread, carry, defined, defined, definition_copy, definedAll_copy f items]

theorem definedAll_copy (f : Handle → Handle) : (xs : List Term) → definedAll (carryAll f (rereadAll xs)) = definedAll xs
  | [] => rfl
  | x :: xs => by rw [rereadAll, carryAll, definedAll, definedAll, defined_copy f x, definedAll_copy f xs]

end

/-- The chain inside a copy of a lambda. -/
theorem Chain.carry_enter (f : Handle → Handle) (h : Handle) (parameters : List String) (body : List Term) :
    (chain.enter h parameters body).carry f =
      (chain.carry f).enter (f h) parameters (carryAll f (rereadAll body)) := by
  rw [Chain.enter, Chain.enter, definedAll_copy]
  rfl

mutual

/-- **A copy of a respelled term is a respelled copy.** -/
theorem respell_copy (f : Handle → Handle) : (x : Term) → (chain : Chain) →
    (x.respell asWritten outer chain).reread.carry f = (x.reread.carry f).respell asWritten outer (chain.carry f)
  | .atom a, chain => by
    cases a with
    | «variable» w => simp only [respell, reread, carry, Chain.spell_carry]
    | _ => rfl
  | .string _ _, _ => rfl
  | .lambda h parameters body, chain => by
    rw [respell, reread, carry, respellAll_copy f body, reread, carry, respell, Chain.carry_enter]
    rfl
  | .application _ _ items, chain => by
    rw [respell, reread, carry, respellAll_copy f items, reread, carry, respell]

theorem respellAll_copy (f : Handle → Handle) : (xs : List Term) → (chain : Chain) →
    carryAll f (rereadAll (respellAll asWritten outer chain xs)) =
      respellAll asWritten outer (chain.carry f) (carryAll f (rereadAll xs))
  | [], _ => rfl
  | x :: xs, chain => by
    rw [respellAll, rereadAll, carryAll, respell_copy f x, respellAll_copy f xs, rereadAll, carryAll, respellAll]

end

mutual

/-- The lambdas inside a copy bind the same names. -/
theorem Binders.copy {P : String → Prop} (f : Handle → Handle) : (x : Term) → x.Binders P → (x.reread.carry f).Binders P
  | .atom a, _ => by cases a <;> trivial
  | .string _ _, _ => trivial
  | .lambda _ parameters body, h => by
    refine ⟨?_, BindersAll.copy f body h.2⟩
    rw [definedAll_copy]
    exact h.1
  | .application _ _ items, h => BindersAll.copy f items h

theorem BindersAll.copy {P : String → Prop} (f : Handle → Handle) :
    (xs : List Term) → BindersAll P xs → BindersAll P (carryAll f (rereadAll xs))
  | [], _ => trivial
  | x :: xs, h => ⟨Binders.copy f x h.1, BindersAll.copy f xs h.2⟩

end

/-! ### Spellings that agree -/

mutual

/-- Only the lambdas of a term and those around it matter to how bound names are spelled. -/
theorem respell_congr {inner inner' : Handle → String → String} : (x : Term) → {chain : Chain} →
    (∀ h, h ∈ chain.map Prod.fst ∨ h ∈ x.handles → ∀ w, inner h w = inner' h w) →
    x.respell inner outer chain = x.respell inner' outer chain
  | .atom a, chain, h => by
    cases a with
    | «variable» w =>
      simp only [respell, Chain.spell]
      cases hbinder : chain.binder? w with
      | some N => simp only [h N (Or.inl (Chain.mem_of_binder? hbinder)) w]
      | none => rfl
    | _ => rfl
  | .string _ _, _, _ => rfl
  | .lambda k parameters body, chain, h => by
    have hself : ∀ w, inner k w = inner' k w := h k (Or.inr (by simp [handles]))
    rw [respell, respell, List.map_congr_left fun w _ => hself w, respellAll_congr body fun j hj => ?_]
    rcases hj with hj | hj
    · rcases List.mem_cons.mp hj with rfl | hj
      · exact hself
      · exact h j (Or.inl hj)
    · exact h j (Or.inr (by simp [handles, hj]))
  | .application k _ items, chain, h => by
    rw [respell, respell, respellAll_congr items fun j hj => h j (hj.imp_right fun hj => by simp [handles, hj])]

theorem respellAll_congr {inner inner' : Handle → String → String} : (xs : List Term) → {chain : Chain} →
    (∀ h, h ∈ chain.map Prod.fst ∨ h ∈ handlesAll xs → ∀ w, inner h w = inner' h w) →
    respellAll inner outer chain xs = respellAll inner' outer chain xs
  | [], _, _ => rfl
  | x :: xs, _, h => by
    rw [respellAll, respellAll, respell_congr x fun j hj => h j (hj.imp_right fun hj => by simp [handlesAll, hj]),
      respellAll_congr xs fun j hj => h j (hj.imp_right fun hj => by simp [handlesAll, hj])]

end

mutual

/-- Only the names that no lambda binds matter to how free names are spelled. -/
theorem respell_congr_outer {outer' : String → String} : (x : Term) → {chain : Chain} →
    x.Outside (fun _ w => outer w = outer' w) chain → x.respell inner outer chain = x.respell inner outer' chain
  | .atom a, chain, h => by
    cases a with
    | «variable» w =>
      simp only [respell, Chain.spell]
      cases hbinder : chain.binder? w with
      | some N => rfl
      | none => simp only [h w rfl hbinder]
    | _ => rfl
  | .string _ _, _, _ => rfl
  | .lambda _ _ body, _, h => by rw [respell, respell, respellAll_congr_outer body h]
  | .application _ _ items, _, h => by rw [respell, respell, respellAll_congr_outer items h]

theorem respellAll_congr_outer {outer' : String → String} : (xs : List Term) → {chain : Chain} →
    OutsideAll (fun _ w => outer w = outer' w) chain xs →
    respellAll inner outer chain xs = respellAll inner outer' chain xs
  | [], _, _ => rfl
  | x :: xs, _, h => by
    rw [respellAll, respellAll, respell_congr_outer x h.1, respellAll_congr_outer xs h.2]

end

mutual

theorem respell_self : (x : Term) → {chain : Chain} → {M : Handle} → x.Each (fun _ w => outer w = w) M →
    x.respell asWritten outer chain = x
  | .atom a, chain, _, h => by
    cases a with
    | «variable» w =>
      simp only [respell, Chain.spell]
      cases chain.binder? w with
      | some N => rfl
      | none => simp only [h w rfl]
    | _ => rfl
  | .string _ _, _, _, _ => rfl
  | .lambda k parameters body, _, _, h => by
    have hparameters : parameters.map (asWritten k) = parameters := List.map_id _
    rw [respell, hparameters, respellAll_self body h.2]
  | .application _ _ items, _, _, h => by rw [respell, respellAll_self items h]

/-- Terms whose names stay as they are. -/
theorem respellAll_self : (xs : List Term) → {chain : Chain} → {M : Handle} → EachAll (fun _ w => outer w = w) M xs →
    respellAll asWritten outer chain xs = xs
  | [], _, _, _ => rfl
  | x :: xs, _, _, h => by rw [respellAll, respell_self x h.1, respellAll_self xs h.2]

end

mutual

theorem Outside.imp {P Q : Chain → String → Prop} (hPQ : ∀ chain w, P chain w → Q chain w) : (x : Term) →
    {chain : Chain} → x.Outside P chain → x.Outside Q chain
  | .atom _, _, h => fun w hw hbinder => hPQ _ w (h w hw hbinder)
  | .string _ _, _, _ => trivial
  | .lambda _ _ body, _, h => OutsideAll.imp hPQ body h
  | .application _ _ items, _, h => OutsideAll.imp hPQ items h

theorem OutsideAll.imp {P Q : Chain → String → Prop} (hPQ : ∀ chain w, P chain w → Q chain w) : (xs : List Term) →
    {chain : Chain} → OutsideAll P chain xs → OutsideAll Q chain xs
  | [], _, _ => trivial
  | x :: xs, _, h => ⟨Outside.imp hPQ x h.1, OutsideAll.imp hPQ xs h.2⟩

end

mutual

/-- The names that no lambda inside a copy binds are those of the term. -/
theorem Outside.copy {P : String → Prop} (f : Handle → Handle) : (x : Term) → {chain : Chain} →
    x.Outside (fun _ w => P w) chain → (x.reread.carry f).Outside (fun _ w => P w) (chain.carry f)
  | .atom a, chain, h => by
    cases a with
    | «variable» w =>
      intro v hv hbinder
      cases hv
      rw [Chain.binder?_carry, Option.map_eq_none_iff] at hbinder
      exact h w rfl hbinder
    | _ => exact nofun
  | .string _ _, _, _ => trivial
  | .lambda k parameters body, chain, h => by
    have hbody := OutsideAll.copy f body h
    rwa [Chain.carry_enter] at hbody
  | .application _ _ items, _, h => OutsideAll.copy f items h

theorem OutsideAll.copy {P : String → Prop} (f : Handle → Handle) : (xs : List Term) → {chain : Chain} →
    OutsideAll (fun _ w => P w) chain xs → OutsideAll (fun _ w => P w) (chain.carry f) (carryAll f (rereadAll xs))
  | [], _, _ => trivial
  | x :: xs, _, h => ⟨Outside.copy f x h.1, OutsideAll.copy f xs h.2⟩

end

end SchemeMachine.Term
