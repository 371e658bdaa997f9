import SchemeMachine.Proofs.Sound

/-!
# Changes of a sound heap

Placing objects, binding names and collecting garbage keep a heap sound.

* `Heap.Sound.eq_of_label`: of the activations in a lineage no two run the same code, as code stands in larger
  code. So a name, which one piece of code owns, has one binder in a lineage.
* `Heap.Sound.allocate` and `Heap.Sound.allocateClosure` place objects.
* `Heap.Sound.bind` and `Heap.Sound.assign` change bindings.
* `Heap.Sound.collect` frees what no root leads to.
-/

namespace SchemeMachine

variable {p : Program} {L : Layout p} {strict : Prop} {A A' : Handle → Prop} {H H' : Heap} {start : Option Handle}
  {l : Ancestry} {h : Handle} {c : Closure}

/-! ### Lineages in a sound heap -/

namespace Heap.Sound

/-- A constant is a value for programs. -/
theorem settled_of_constant (hs : H.Sound L strict A) (hh : p.constants.contains h) :
    (Value.handle h).Settled A H := by
  obtain ⟨s, hslot, hconstant⟩ := hs.constants h hh
  refine ⟨by simp [get?, hslot], fun hact => ?_⟩
  obtain ⟨c, hc⟩ := hs.acts h hact
  have hmutable := hs.changeable h c hc
  simp [isMutable, hslot, hconstant] at hmutable

theorem mutableClosure? (hs : H.Sound L strict A) (hc : H.closure? h = some c) : H.mutableClosure? h = some c := by
  rw [Heap.mutableClosure?, if_pos (hs.changeable h c hc), hc]

theorem exists_lineage (hs : H.Sound L strict A) (hc : H.closure? h = some c) : ∃ l, H.Lineage (some h) ((h, c) :: l) := by
  obtain ⟨l, hl⟩ := (hs.closure hc).lineage
  exact ⟨l, .cons hc hl⟩

/-- What is no activation hangs below an activation. -/
theorem nested (hs : H.Sound L strict A) (hc : H.closure? h = some c) (hnot : ¬A h) :
    ∃ g c', c.parent = some g ∧ H.closure? g = some c' ∧ A g ∧ L.inside c.label c'.label := by
  cases (hs.closure hc).placed with
  | top hact => exact absurd hact hnot
  | nested hparent hc' hact hin => exact ⟨_, _, hparent, hc', hact, hin⟩
  | called _ _ hact => exact absurd hact hnot

/-- **Code further out is larger**, and strictly so from one activation to the next. -/
theorem pairwise_rank (hs : H.Sound L strict A) (hl : H.Lineage start l) :
    l.Pairwise fun e e' => L.rank e.2.label ≤ L.rank e'.2.label ∧
      (A e.1 → A e'.1 → L.rank e.2.label < L.rank e'.2.label) := by
  induction hl with
  | nil => exact .nil
  | @cons h c l hc hl ih =>
    refine List.pairwise_cons.mpr ⟨?_, ih⟩
    -- below an activation of the code around, all that is further out is larger
    have hnested : ∀ {g : Handle} {c' : Closure} {o : String} {l' : Ancestry}, H.Lineage (some g) l' →
        H.closure? g = some c' → L.inside o c'.label → (l'.Pairwise fun e e' => L.rank e.2.label ≤ L.rank e'.2.label) →
        ∀ e ∈ l', L.rank o < L.rank e.2.label := by
      intro g c' o l' hl' hc' hin hle e he
      obtain ⟨rest, rfl, -⟩ := hl'.exists_eq_cons hc'
      rcases List.mem_cons.mp he with rfl | he
      · exact L.rank_lt _ _ hin
      · exact Nat.lt_of_lt_of_le (L.rank_lt _ _ hin) ((List.pairwise_cons.mp hle).1 e he)
    have hle := ih.imp fun h => h.1
    intro e he
    cases (hs.closure hc).placed with
    | top _ hparent =>
      rw [hparent] at hl
      cases hl
      cases he
    | nested hparent hc' _ hin =>
      have hlt := hnested (hparent ▸ hl) hc' hin hle e he
      exact ⟨Nat.le_of_lt hlt, fun _ _ => hlt⟩
    | @called g c' hparent hc' _ hnot hlabel =>
      obtain ⟨rest, rfl, hrest⟩ := (hparent ▸ hl : H.Lineage (some g) l).exists_eq_cons hc'
      rcases List.mem_cons.mp he with rfl | he
      · exact ⟨Nat.le_of_eq (congrArg L.rank hlabel.symm), fun _ hact => absurd hact hnot⟩
      · obtain ⟨g', c'', hparent', hc'', -, hin⟩ := hs.nested hc' hnot
        have hlt := hnested (hparent' ▸ hrest) hc'' (hlabel ▸ hin) (List.pairwise_cons.mp hle).2 e he
        exact ⟨Nat.le_of_lt hlt, fun _ _ => hlt⟩

/-- **Of the activations in a lineage no two run the same code.** -/
theorem eq_of_label (hs : H.Sound L strict A) (hl : H.Lineage start l) {e e' : Handle × Closure} (he : e ∈ l)
    (he' : e' ∈ l) (hact : A e.1) (hact' : A e'.1) (hlabel : e.2.label = e'.2.label) : e = e' := by
  have hpairs : l.Pairwise fun e e' => A e.1 → A e'.1 → e.2.label = e'.2.label → e = e' :=
    (hs.pairwise_rank hl).imp fun hrank hact hact' hlabel =>
      absurd (congrArg L.rank hlabel) (Nat.ne_of_lt (hrank.2 hact hact'))
  have hsymm : Std.Symm fun e e' : Handle × Closure => A e.1 → A e'.1 → e.2.label = e'.2.label → e = e' :=
    ⟨fun _ _ h hact hact' hlabel => (h hact' hact hlabel.symm).symm⟩
  exact hpairs.forall_of_forall (fun _ _ _ _ _ => rfl) he he' hact hact' hlabel

/-- Who binds a name is an activation of the code that owns it. -/
theorem owns_of_bound (hs : H.Sound L strict A) (hc : H.closure? h = some c) {name : String} {v : Value}
    (hv : c.bound.find? name = some v) : A h ∧ L.owns c.label name := by
  refine ⟨?_, ((hs.closure hc).owned name v hv).1⟩
  by_contra hnot
  rw [((hs.closure hc).still hnot).1] at hv
  cases hv

/-- **A name has one binder in a lineage**: the activation of the code that owns it. -/
theorem binder_unique (hs : H.Sound L strict A) (hl : H.Lineage start l) {e : Handle × Closure} (he : e ∈ l)
    (hact : A e.1) {name : String} (howns : L.owns e.2.label name) {e' : Handle × Closure}
    (hb : l.binder? name = some e') : e' = e := by
  have he' := Ancestry.mem_of_binder? hb
  obtain ⟨w, hw⟩ := Ancestry.bound_of_binder? hb
  obtain ⟨hact', howns'⟩ := hs.owns_of_bound (hl.closure?_of_mem he') hw
  exact hs.eq_of_label hl he' he hact' hact (L.owns_unique _ _ _ howns' howns)

/-- From an activation outward, the nearest closure with a label is an activation. -/
theorem act_of_labelled? (hs : H.Sound L strict A) (hl : H.Lineage (some h) l) (hc : H.closure? h = some c)
    {o : String} (hstart : A h ∨ c.label ≠ o) {e : Handle × Closure} (he : l.labelled? o = some e) : A e.1 := by
  generalize hsome : some h = start at hl
  induction hl generalizing h c with
  | nil => cases hsome
  | @cons h' c' l hc' hl ih =>
    cases hsome
    obtain rfl : c = c' := Option.some.inj (hc.symm.trans hc')
    by_cases hlabel : c.label = o
    · rw [Ancestry.labelled?, List.find?_cons_of_pos (by simpa using hlabel)] at he
      cases he
      exact hstart.resolve_right fun hne => hne hlabel
    · rw [Ancestry.labelled?, List.find?_cons_of_neg (by simpa using hlabel)] at he
      cases (hs.closure hc).placed with
      | top _ hparent =>
        rw [hparent] at hl
        cases hl
        cases he
      | nested hparent hg hact _ => exact ih hg (Or.inl hact) he hparent.symm
      | called hparent hg _ _ hsame => exact ih hg (Or.inr fun heq => hlabel (hsame.symm.trans heq)) he hparent.symm

end Heap.Sound

/-! ### Placing objects -/

namespace Heap

theorem get?_allocate (ht : H.Tidy) (o : Object) (r : Option Handle) (j : Handle) :
    (H.allocate o r).2.get? j = if j = H.nextSlot then some o else H.get? j := by
  simp only [get?, slot?_allocate ht]
  split <;> rfl

theorem Tidy.get?_nextSlot (ht : H.Tidy) : H.get? H.nextSlot = none := by
  simp [get?, ht.slot?_nextSlot]

/-- Objects keep their places when another one is placed. -/
theorem Tidy.get?_allocate_of_some (ht : H.Tidy) (o : Object) (r : Option Handle) {o' : Object}
    (ho : H.get? h = some o') : (H.allocate o r).2.get? h = some o' := by
  rw [get?_allocate ht, if_neg, ho]
  rintro rfl
  rw [ht.get?_nextSlot] at ho
  cases ho

end Heap

/-- **A sound object stays sound** as long as the closures stay as they are. -/
theorem Object.Sound.keep {o : Object} (ho : o.Sound L strict A H h) (hg : Heap.Grows A H A' H')
    (hkeep : ∀ j c, H.closure? j = some c → H'.closure? j = some c)
    (hclosure : ∀ c, o = .closure c → H.closure? h = some c) : o.Sound L strict A' H' h := by
  cases o with
  | string content => trivial
  | list items => exact fun v hv => hg.settled (ho v hv)
  | continuation k => exact hg.continuation ho
  | closure c =>
    have hc := hclosure c rfl
    obtain ⟨l, hl⟩ := ho.lineage
    have hl' : H'.Lineage c.parent l := hl.keep fun e he => hkeep _ _ (hl.closure?_of_mem he)
    refine ⟨ho.entry, hg.placed hc rfl rfl ho.placed, ⟨l, hl'⟩, ho.sorted, fun hnot => ?_, fun name v hv => ?_,
      fun l' name v hlineage hv => ?_⟩
    · exact ho.still fun hact => hnot ((hg.act hc).mpr hact)
    · exact ⟨(ho.owned name v hv).1, hg.held (ho.owned name v hv).2⟩
    · obtain rfl := hlineage.unique hl'
      obtain ⟨e, w, hb, hw, hsame, hheld⟩ := ho.copies _ name v hl hv
      exact ⟨e, w, hb, hw, hsame, hg.held hheld⟩

/-- **A closure about to be placed**: it has copied what its parent sees. `B` says whether it is an activation. -/
inductive Closure.Fresh (L : Layout p) (A : Handle → Prop) (H : Heap) (B : Prop) (c : Closure) : Prop
  | top (hact : B) (hparent : c.parent = none) (hfree : c.free = {})
  | below {g : Handle} {c' : Closure} (hparent : c.parent = some g) (hc : H.closure? g = some c')
      (hfree : c.free = c'.environment)
      (hplace : A g ∧ L.inside c.label c'.label ∨ B ∧ ¬A g ∧ c'.label = c.label)

namespace Heap.Sound

variable {o : Object} {r : Option Handle}

theorem not_act_nextSlot (hs : H.Sound L strict A) : ¬A H.nextSlot := by
  intro hact
  obtain ⟨c, hc⟩ := hs.acts _ hact
  have hget := Heap.closure?_eq_some.mp hc
  rw [hs.tidy.get?_nextSlot] at hget
  cases hget

theorem grows_allocate (hs : H.Sound L strict A) (o : Object) (r : Option Handle)
    (hA : ∀ j, j ≠ H.nextSlot → (A' j ↔ A j)) : Grows A H A' (H.allocate o r).2 := by
  refine ⟨fun j o' ho' => ⟨o', hs.tidy.get?_allocate_of_some o r ho', .same o'⟩, fun j o' ho' => hA j ?_⟩
  rintro rfl
  rw [hs.tidy.get?_nextSlot] at ho'
  cases ho'

/-- Placing an object keeps a heap sound if the object is sound where it is. -/
theorem allocateWith (hs : H.Sound L strict A) (hA : ∀ j, j ≠ H.nextSlot → (A' j ↔ A j))
    (hact : A' H.nextSlot → ∃ c, o = .closure c) (hnew : o.Sound L strict A' (H.allocate o r).2 H.nextSlot) :
    (H.allocate o r).2.Sound L strict A' := by
  have hg := hs.grows_allocate o r hA
  -- what was a closure is one still; the new object is the only other one
  have hkeep : ∀ j c, H.closure? j = some c → (H.allocate o r).2.closure? j = some c := fun j c hc =>
    Heap.closure?_eq_some.mpr (hs.tidy.get?_allocate_of_some o r (Heap.closure?_eq_some.mp hc))
  refine ⟨hs.tidy.allocate o r, fun j hj => ?_, fun j c hc => ?_, fun j o' ho' => ?_, fun j hj => ?_⟩
  · by_cases hnext : j = H.nextSlot
    · subst hnext
      obtain ⟨c, rfl⟩ := hact hj
      exact ⟨c, Heap.closure?_eq_some.mpr (by rw [get?_allocate hs.tidy, if_pos rfl])⟩
    · obtain ⟨c, hc⟩ := hs.acts j ((hA j hnext).mp hj)
      exact ⟨c, hkeep j c hc⟩
  · by_cases hnext : j = H.nextSlot
    · simp [isMutable, slot?_allocate hs.tidy, hnext]
    · have hold : H.closure? j = some c := by
        rw [← hc]
        exact closure?_congr (by rw [get?_allocate hs.tidy, if_neg hnext])
      simpa [isMutable, slot?_allocate hs.tidy, hnext] using hs.changeable j c hold
  · rw [get?_allocate hs.tidy] at ho'
    split at ho'
    · next hnext =>
      cases ho'
      exact hnext ▸ hnew
    · refine (hs.objects j o' ho').keep hg hkeep fun c hc => ?_
      subst hc
      exact Heap.closure?_eq_some.mpr ho'
  · exact (hs.constants j hj).allocate hs.tidy o r

/-- **Place a string, a list or a continuation.** -/
theorem allocate (hs : H.Sound L strict A) (hnot : ∀ c, o ≠ .closure c) (ho : o.Sound L strict A H H.nextSlot)
    (r : Option Handle) : (H.allocate o r).2.Sound L strict A ∧ Grows A H A (H.allocate o r).2 ∧
      (Value.handle H.nextSlot).Settled A (H.allocate o r).2 := by
  have hg : Grows A H A (H.allocate o r).2 := hs.grows_allocate o r fun _ _ => Iff.rfl
  refine ⟨hs.allocateWith (fun _ _ => Iff.rfl) (fun hact => absurd hact hs.not_act_nextSlot) ?_, hg, ?_,
    hs.not_act_nextSlot⟩
  · exact ho.keep hg (fun j c hc => Heap.closure?_eq_some.mpr
      (hs.tidy.get?_allocate_of_some o r (Heap.closure?_eq_some.mp hc))) fun c hc => absurd hc (hnot c)
  · simp [get?_allocate hs.tidy]

/-- What a closure sees by itself, the closures from it outward bind, unless it is dirty there. -/
theorem environment (hs : H.Sound L strict A) (hc : H.closure? h = some c) {l : Ancestry}
    (hl : H.Lineage (some h) l) {name : String} {v : Value} (hv : c.environment.find? name = some v) :
    ∃ e w, l.binder? name = some e ∧ e.2.bound.find? name = some w ∧
      (v = w ∨ v.same w = true ∨ e.2.isDirty name = true) ∧ v.Held L A H e.2.label := by
  obtain ⟨rest, rfl, hrest⟩ := hl.exists_eq_cons hc
  rw [Closure.environment, Table.find?_union _ (hs.closure hc).sorted] at hv
  cases hbound : c.bound.find? name with
  | some w =>
    rw [hbound, Option.some_or] at hv
    cases hv
    refine ⟨(h, c), v, ?_, hbound, Or.inl rfl, ((hs.closure hc).owned name v hbound).2⟩
    exact Ancestry.binder?_cons_of_bound (Table.contains_iff.mpr ⟨v, hbound⟩)
  | none =>
    rw [hbound, Option.none_or] at hv
    rw [Ancestry.binder?_cons_of_not_bound (by simp [Table.contains, hbound])]
    exact (hs.closure hc).copies rest name v hrest hv

/-- **Place a closure**, which becomes an activation if `B` says so. -/
theorem allocateClosure (hs : H.Sound L strict A) {B : Prop}
    (hentry : ∃ line n, L.lines[c.address]? = some line ∧ line.instruction = .label c.label ∧
      line.spot = ⟨c.label, n, none⟩)
    (hbound : c.bound = {}) (hstill : ¬B → (p.enclosing.find? c.label).isSome) (hfresh : c.Fresh L A H B)
    (r : Option Handle) :
    (H.allocate (.closure c) r).2.Sound L strict (fun j => A j ∨ B ∧ j = H.nextSlot) ∧
      Grows A H (fun j => A j ∨ B ∧ j = H.nextSlot) (H.allocate (.closure c) r).2 ∧
      (H.allocate (.closure c) r).2.closure? H.nextSlot = some c := by
  -- for all other handles nothing changes about activations
  have hA : ∀ j, j ≠ H.nextSlot → (A j ∨ B ∧ j = H.nextSlot ↔ A j) := by
    intro j hj
    simp [hj]
  have hg := hs.grows_allocate (.closure c) r hA
  have hkeep : ∀ j c', H.closure? j = some c' → (H.allocate (.closure c) r).2.closure? j = some c' := fun j c' hc' =>
    Heap.closure?_eq_some.mpr (hs.tidy.get?_allocate_of_some _ r (Heap.closure?_eq_some.mp hc'))
  -- closures from before keep their lineages
  have hlineage : ∀ {g c'}, H.closure? g = some c' → ∃ l, H.Lineage (some g) l ∧
      (H.allocate (.closure c) r).2.Lineage (some g) l := by
    intro g c' hc'
    obtain ⟨l, hl⟩ := hs.exists_lineage hc'
    exact ⟨_, hl, hl.keep fun e he => hkeep _ _ (hl.closure?_of_mem he)⟩
  refine ⟨hs.allocateWith hA (fun _ => ⟨c, rfl⟩) ?_, hg, ?_⟩
  · refine ⟨hentry, ?_, ?_, hbound ▸ Table.sorted_empty, fun hnot => ?_, fun name v hv => ?_, fun l name v hl hv => ?_⟩
    · cases hfresh with
      | top hact hparent => exact .top (Or.inr ⟨hact, rfl⟩) hparent
      | below hparent hc' _ hplace =>
        rcases hplace with ⟨hact, hin⟩ | ⟨hB, hnot, hlabel⟩
        · exact .nested hparent (hkeep _ _ hc') (Or.inl hact) hin
        · exact .called hparent (hkeep _ _ hc') (Or.inr ⟨hB, rfl⟩) (fun hact => hnot ((hg.act hc').mp hact)) hlabel
    · cases hfresh with
      | top _ hparent => exact ⟨[], hparent ▸ .nil⟩
      | below hparent hc' =>
        obtain ⟨l, -, hl'⟩ := hlineage hc'
        exact ⟨l, hparent ▸ hl'⟩
    · exact ⟨hbound, hstill fun hB => hnot (Or.inr ⟨hB, rfl⟩)⟩
    · rw [hbound] at hv
      cases hv
    · cases hfresh with
      | top _ _ hfree =>
        rw [hfree] at hv
        cases hv
      | below hparent hc' hfree =>
        obtain ⟨l', hl', hnew⟩ := hlineage hc'
        obtain rfl := (hparent ▸ hl).unique hnew
        obtain ⟨e, w, hb, hw, hsame, hheld⟩ := hs.environment hc' hl' (hfree ▸ hv)
        exact ⟨e, w, hb, hw, hsame, hg.held hheld⟩
  · exact Heap.closure?_eq_some.mpr (by rw [get?_allocate hs.tidy, if_pos rfl])

end Heap.Sound

/-! ### Changing closures -/

/-- An object with its closure changed. -/
def Object.mapClosure (f : Closure → Closure) : Object → Object
  | .closure c => .closure (f c)
  | other => other

/-- **A heap with its closures changed**, each by a function of its handle. -/
structure Heap.Changes (H H' : Heap) (f : Handle → Closure → Closure) : Prop where
  slots : ∀ j, H'.slot? j = (H.slot? j).map fun s => { s with object := s.object.mapClosure (f j) }
  tidy : H'.Tidy

namespace Heap.Changes

variable {f : Handle → Closure → Closure}

theorem get? (hf : H.Changes H' f) (j : Handle) : H'.get? j = (H.get? j).map (Object.mapClosure (f j)) := by
  rw [Heap.get?, hf.slots, Heap.get?, Option.map_map, Option.map_map]
  rfl

theorem closure? (hf : H.Changes H' f) (hc : H.closure? h = some c) : H'.closure? h = some (f h c) := by
  rw [Heap.closure?_eq_some, hf.get?, Heap.closure?_eq_some.mp hc]
  rfl

/-- Every closure comes from one. -/
theorem exists_closure? (hf : H.Changes H' f) {c' : Closure} (hc : H'.closure? h = some c') :
    ∃ c, H.closure? h = some c ∧ c' = f h c := by
  rw [Heap.closure?_eq_some, hf.get?] at hc
  obtain ⟨o, ho, hmap⟩ := Option.map_eq_some_iff.mp hc
  cases o with
  | closure c =>
    cases hmap
    exact ⟨c, Heap.closure?_eq_some.mpr ho, rfl⟩
  | _ => cases hmap

/-- Change one closure. -/
theorem put (ht : H.Tidy) (hm : H.isMutable h) (hc : H.closure? h = some c) (g : Closure → Closure) :
    H.Changes (H.put h (.closure (g c))) fun j c => if j = h then g c else c := by
  refine ⟨fun j => ?_, ht.put h _⟩
  obtain ⟨s, hs, hobject⟩ := Heap.get?_eq_some.mp (Heap.closure?_eq_some.mp hc)
  rw [Heap.slot?_put]
  by_cases hj : j = h
  · subst hj
    have hconstant : s.isConstant = false := by simpa [Heap.isMutable, hs] using hm
    simp [hs, hconstant, hobject, Object.mapClosure]
  · rw [if_neg hj]
    cases hslot : H.slot? j with
    | none => rfl
    | some t =>
      obtain ⟨o, constant, referrer⟩ := t
      cases o <;> simp [Object.mapClosure, hj]

/-- Changes that do the same to every closure that is there. -/
theorem congr {g : Handle → Closure → Closure} (hf : H.Changes H' f)
    (hfg : ∀ j c, H.closure? j = some c → f j c = g j c) : H.Changes H' g := by
  refine ⟨fun j => ?_, hf.tidy⟩
  rw [hf.slots]
  cases hslot : H.slot? j with
  | none => rfl
  | some t =>
    obtain ⟨o, constant, referrer⟩ := t
    cases o with
    | closure c =>
      have hc : H.closure? j = some c := Heap.closure?_eq_some.mpr (Heap.get?_eq_some.mpr ⟨_, hslot, rfl⟩)
      simp [Object.mapClosure, hfg j c hc]
    | _ => rfl

/-- One change after the other. -/
theorem trans {H'' : Heap} {g : Handle → Closure → Closure} (hf : H.Changes H' f) (hg : H'.Changes H'' g) :
    H.Changes H'' fun j c => g j (f j c) := by
  refine ⟨fun j => ?_, hg.tidy⟩
  rw [hg.slots, hf.slots, Option.map_map]
  cases H.slot? j with
  | none => rfl
  | some t =>
    obtain ⟨o, constant, referrer⟩ := t
    cases o <;> rfl

end Heap.Changes

/-- A closure before and after a change: its code and its parent stay. -/
structure Closure.Alters (c c' : Closure) : Prop where
  label : c'.label = c.label
  address : c'.address = c.address
  parent : c'.parent = c.parent

/-- **Changes keep a heap sound** that respect who binds what, and leave no copy out of date unnoticed. -/
theorem Heap.Sound.change {f : Handle → Closure → Closure} (hs : H.Sound L strict A) (hf : H.Changes H' f)
    (halters : ∀ j c, H.closure? j = some c → c.Alters (f j c))
    (hsorted : ∀ j c, H.closure? j = some c → (f j c).bound.Sorted)
    (hstill : ∀ j c, H.closure? j = some c → ¬A j → (f j c).bound = {})
    (howned : ∀ j c name v, H.closure? j = some c → (f j c).bound.find? name = some v →
      L.owns c.label name ∧ v.Held L A H c.label)
    (hcopies : ∀ j c l name v, H.closure? j = some c → H.Lineage c.parent l → (f j c).free.find? name = some v →
      ∃ e w, Ancestry.binder? (l.map fun e => (e.1, f e.1 e.2)) name = some e ∧ e.2.bound.find? name = some w ∧
        (v = w ∨ v.same w = true ∨ e.2.isDirty name = true) ∧ v.Held L A H e.2.label) :
    H'.Sound L strict A ∧ Grows A H A H' := by
  -- the objects stay what they are, up to the bindings of closures
  have hg : Grows A H A H' := by
    refine ⟨fun j o ho => ⟨o.mapClosure (f j), by rw [hf.get?, ho]; rfl, ?_⟩, fun _ _ _ => Iff.rfl⟩
    cases o with
    | closure c =>
      have ha := halters j c (Heap.closure?_eq_some.mpr ho)
      exact .closure ha.label ha.address ha.parent
    | _ => exact .same _
  have hparent : ∀ j c, H.closure? j = some c → H'.closure? j = some (f j c) ∧ (f j c).parent = c.parent :=
    fun j c hc => ⟨hf.closure? hc, (halters j c hc).parent⟩
  refine ⟨⟨hf.tidy, fun j hj => ?_, fun j c' hc' => ?_, fun j o' ho' => ?_, fun j hj => ?_⟩, hg⟩
  · obtain ⟨c, hc⟩ := hs.acts j hj
    exact ⟨_, hf.closure? hc⟩
  · obtain ⟨c, hc, -⟩ := hf.exists_closure? hc'
    have hm := hs.changeable j c hc
    rw [isMutable, hf.slots] at *
    cases hslot : H.slot? j with
    | none => simp [hslot] at hm
    | some s => simpa [hslot] using hm
  · rw [hf.get?] at ho'
    obtain ⟨o, ho, rfl⟩ := Option.map_eq_some_iff.mp ho'
    have hsound := hs.objects j o ho
    cases o with
    | string content => trivial
    | list items => exact fun v hv => hg.settled (hsound v hv)
    | continuation k => exact hg.continuation hsound
    | closure c =>
      have hc := Heap.closure?_eq_some.mpr ho
      have ha := halters j c hc
      obtain ⟨l, hl⟩ := hsound.lineage
      -- lineages go along parents, which stay
      have hl' := hl.map hparent
      refine ⟨?_, hg.placed hc ha.label ha.parent hsound.placed, ⟨_, ha.parent ▸ hl'⟩, hsorted j c hc, fun hnot => ?_,
        fun name v hv => ?_, fun l'' name v hlineage hv => ?_⟩
      · rw [ha.label, ha.address]
        exact hsound.entry
      · rw [ha.label]
        exact ⟨hstill j c hc hnot, (hsound.still hnot).2⟩
      · rw [ha.label]
        exact ⟨(howned j c name v hc hv).1, hg.held (howned j c name v hc hv).2⟩
      · obtain rfl := (ha.parent ▸ hlineage).unique hl'
        obtain ⟨e, w, hb, hw, hsame, hheld⟩ := hcopies j c l name v hc hl hv
        exact ⟨e, w, hb, hw, hsame, hg.held hheld⟩
  · obtain ⟨s, hslot, hconstant⟩ := hs.constants j hj
    exact ⟨{ s with object := s.object.mapClosure (f j) }, by rw [hf.slots, hslot]; rfl, hconstant⟩

/-! ### Bindings -/

namespace Closure

theorem isDirty_add {c : Closure} {x name : String} (h : c.isDirty name = true) :
    Table.contains (c.dirty.add x) name = true :=
  (Table.contains_insert _ _ _ _).mpr (Or.inr h)

theorem alters_bind (c : Closure) (name : String) (v : Value) : c.Alters (c.bind name v) := ⟨rfl, rfl, rfl⟩

theorem alters_setBound (c : Closure) (name : String) (v : Value) : c.Alters (c.setBound name v) := ⟨rfl, rfl, rfl⟩

theorem alters_setFree (c : Closure) (name : String) (v : Value) : c.Alters (c.setFree name v) := ⟨rfl, rfl, rfl⟩

/-- What was dirty stays so. -/
theorem isDirty_bind {c : Closure} {x name : String} {v : Value} (h : c.isDirty name = true) :
    (c.bind x v).isDirty name = true := by
  unfold isDirty bind
  cases c.bound.find? x with
  | none => exact h
  | some old =>
    dsimp only
    split
    · exact isDirty_add h
    · exact h

/-- A name that is bound anew is dirty, unless it has the value that it had. -/
theorem same_or_isDirty_bind {c : Closure} {name : String} {v w : Value} (hw : c.bound.find? name = some w) :
    v.same w = true ∨ (c.bind name v).isDirty name = true := by
  cases hsame : v.same w with
  | true => exact Or.inl rfl
  | false =>
    refine Or.inr ?_
    simp [isDirty, bind, hw, hsame, OrderedSet.add, Table.contains]

end Closure

/-- **Bind a name** in an activation of the code that owns it. -/
theorem Heap.Sound.bind (hs : H.Sound L strict A) (hact : A h) (hc : H.closure? h = some c) {x : String} {v : Value}
    (howns : L.owns c.label x) (hv : v.Held L A H c.label) :
    (H.put h (.closure (c.bind x v))).Sound L strict A ∧ Grows A H A (H.put h (.closure (c.bind x v))) := by
  have hf := Changes.put hs.tidy (hs.changeable h c hc) hc fun c => c.bind x v
  refine hs.change hf (fun j c' hc' => ?_) (fun j c' hc' => ?_) (fun j c' hc' hnot => ?_)
    (fun j c' name w hc' hw => ?_) fun j c' l name w hc' hl hw => ?_
  · split
    · exact c'.alters_bind x v
    · exact ⟨rfl, rfl, rfl⟩
  · split
    · exact (hs.closure hc').sorted.insert x v
    · exact (hs.closure hc').sorted
  · rw [if_neg fun hj : j = h => hnot (hj ▸ hact)]
    exact ((hs.closure hc').still hnot).1
  · split at hw
    · next hj =>
      subst hj
      cases hc.symm.trans hc'
      rw [Closure.bound_bind, Table.find?_insert] at hw
      split at hw
      · next hname =>
        cases hw
        exact ⟨hname ▸ howns, hv⟩
      · exact (hs.closure hc).owned name w hw
    · exact (hs.closure hc').owned name w hw
  · have hfree : c'.free.find? name = some w := by
      split at hw <;> exact hw
    obtain ⟨e, u, hb, hu, hsame, hheld⟩ := (hs.closure hc').copies l name w hl hfree
    -- who binds a name that somebody further in has copied is its only binder
    have hbinds : ∀ e' ∈ l, Table.contains (if e'.1 = h then e'.2.bind x v else e'.2).bound name =
        e'.2.bound.contains name := by
      intro e' he'
      split
      · next hj =>
        obtain rfl : c = e'.2 := Option.some.inj (hc.symm.trans (hj ▸ hl.closure?_of_mem he'))
        by_cases hname : name = x
        · subst hname
          obtain rfl := hs.binder_unique hl he' (hj ▸ hact) howns hb
          simp [Table.contains, hu]
        · simp [Table.contains, Table.find?_insert_of_ne _ hname]
      · rfl
    rw [Ancestry.binder?_map (f := fun j c => if j = h then c.bind x v else c) hbinds, hb, Option.map_some]
    refine ⟨(e.1, if e.1 = h then e.2.bind x v else e.2), ?_⟩
    dsimp only
    split
    · by_cases hname : name = x
      · subst hname
        refine ⟨v, rfl, by simp, ?_, hheld⟩
        rcases Closure.same_or_isDirty_bind (v := v) hu with hvu | hdirty
        · rcases hsame with rfl | hsame | hdirty
          · exact Or.inr (Or.inl (Value.same_symm hvu))
          · exact Or.inr (Or.inl (Value.same_trans hsame (Value.same_symm hvu)))
          · exact Or.inr (Or.inr (Closure.isDirty_bind hdirty))
        · exact Or.inr (Or.inr hdirty)
      · refine ⟨u, rfl, by simpa [Table.find?_insert_of_ne _ hname] using hu, ?_, hheld⟩
        exact hsame.imp_right fun h => h.imp_right Closure.isDirty_bind
    · exact ⟨u, rfl, hu, hsame, hheld⟩

/-- What an assignment does to a closure: the binder gets the value, and so does the copy of the current closure. -/
def Closure.assigned (current binder : Handle) (x : String) (v : Value) (j : Handle) (c : Closure) : Closure :=
  if j = binder then c.setBound x v
  else if j = current ∧ c.free.contains x then c.setFree x v
  else c

section Assigned

variable {current binder j : Handle} {x name : String} {v : Value}

theorem Closure.alters_assigned : c.Alters (c.assigned current binder x v j) := by
  unfold Closure.assigned
  split
  · exact c.alters_setBound x v
  · split
    · exact c.alters_setFree x v
    · exact ⟨rfl, rfl, rfl⟩

theorem Closure.bound_assigned :
    (c.assigned current binder x v j).bound = if j = binder then c.bound.insert x v else c.bound := by
  unfold Closure.assigned
  split
  · rfl
  · split <;> rfl

theorem Closure.isDirty_assigned (h : c.isDirty name = true) : (c.assigned current binder x v j).isDirty name = true := by
  unfold Closure.assigned
  split
  · exact Closure.isDirty_add h
  · split
    · exact Closure.isDirty_add h
    · exact h

/-- Only the current closure gets another copy, of the value assigned. -/
theorem Closure.free_assigned {w : Value} (h : (c.assigned current binder x v j).free.find? name = some w) :
    c.free.find? name = some w ∨ name = x ∧ w = v ∧ j = current ∧ j ≠ binder := by
  unfold Closure.assigned at h
  split at h
  · exact Or.inl h
  · next hbinder =>
    split at h
    · next hcurrent =>
      rw [Closure.setFree, Table.find?_insert] at h
      split at h
      · next hname =>
        cases h
        exact Or.inr ⟨hname, rfl, hcurrent.1, hbinder⟩
      · exact Or.inl h
    · exact Or.inl h

end Assigned

/-- **Assign to a name** that the lineage of the current closure binds. -/
theorem Heap.Sound.assign (hs : H.Sound L strict A) (hl : H.Lineage (some h) l) {x : String} {e : Handle × Closure}
    (hb : l.binder? x = some e) {v : Value} (hv : v.Settled A H) (hf : H.Changes H' (Closure.assigned h e.1 x v ·)) :
    H'.Sound L strict A ∧ Grows A H A H' := by
  have he := hl.closure?_of_mem (Ancestry.mem_of_binder? hb)
  obtain ⟨u, hu⟩ := Ancestry.bound_of_binder? hb
  obtain ⟨hact, howns⟩ := hs.owns_of_bound he hu
  -- assigning changes what a name denotes, not which names are bound
  have hbinds : ∀ {j c'} (name : String), H.closure? j = some c' →
      (Closure.assigned h e.1 x v j c').bound.contains name = c'.bound.contains name := by
    intro j c' name hc'
    rw [Closure.bound_assigned]
    split
    · next hj =>
      subst hj
      cases he.symm.trans hc'
      by_cases hname : name = x
      · simp [Table.contains, hname, hu]
      · simp [Table.contains, Table.find?_insert_of_ne _ hname]
    · rfl
  refine hs.change hf (fun j c' _ => Closure.alters_assigned) (fun j c' hc' => ?_) (fun j c' hc' hnot => ?_)
    (fun j c' name w hc' hw => ?_) fun j c' l' name w hc' hl' hw => ?_
  · rw [Closure.bound_assigned]
    split
    · exact (hs.closure hc').sorted.insert x v
    · exact (hs.closure hc').sorted
  · rw [Closure.bound_assigned, if_neg fun hj : j = e.1 => hnot (hj ▸ hact)]
    exact ((hs.closure hc').still hnot).1
  · rw [Closure.bound_assigned] at hw
    split at hw
    · next hj =>
      subst hj
      cases he.symm.trans hc'
      rw [Table.find?_insert] at hw
      split at hw
      · next hname =>
        cases hw
        exact ⟨hname ▸ howns, Or.inl hv⟩
      · exact (hs.closure he).owned name w hw
    · exact (hs.closure hc').owned name w hw
  · rw [Ancestry.binder?_map fun e' he' => hbinds name (hl'.closure?_of_mem he')]
    -- a copy was there before, or is the one that is left in the current closure
    rcases Closure.free_assigned hw with hfree | ⟨rfl, rfl, rfl, hne⟩
    · obtain ⟨e', u', hb', hu', hsame, hheld⟩ := (hs.closure hc').copies l' name w hl' hfree
      rw [hb', Option.map_some]
      have hlabel : (Closure.assigned h e.1 x v e'.1 e'.2).label = e'.2.label := Closure.alters_assigned.label
      by_cases hassigned : e'.1 = e.1 ∧ name = x
      · obtain ⟨hhandle, rfl⟩ := hassigned
        refine ⟨_, v, rfl, ?_, Or.inr (Or.inr ?_), hlabel ▸ hheld⟩
        · rw [Closure.bound_assigned, if_pos hhandle, Table.find?_insert_self]
        · simp [Closure.assigned, hhandle]
      · refine ⟨_, u', rfl, ?_, ?_, hlabel ▸ hheld⟩
        · rw [Closure.bound_assigned]
          split
          · next hhandle => rw [Table.find?_insert_of_ne _ fun hname => hassigned ⟨hhandle, hname⟩, hu']
          · exact hu'
        · exact hsame.imp_right fun h => h.imp_right Closure.isDirty_assigned
    · -- the current closure has another binder, which its parents lead to
      obtain ⟨rest, rfl, hrest⟩ := hl.exists_eq_cons hc'
      obtain rfl := hl'.unique hrest
      have hout : Ancestry.binder? l' name = some e := by
        by_cases hbound : c'.bound.contains name = true
        · rw [Ancestry.binder?_cons_of_bound hbound] at hb
          cases hb
          exact absurd rfl hne
        · rwa [Ancestry.binder?_cons_of_not_bound hbound] at hb
      rw [hout, Option.map_some]
      refine ⟨_, w, rfl, ?_, Or.inl rfl, Or.inl hv⟩
      rw [Closure.bound_assigned, if_pos rfl, Table.find?_insert_self]

end SchemeMachine
