import SchemeMachine.Proofs.Sound.Heap

/-!
# Collections keep machines sound

A collection keeps what the registers lead to. Everything that is said of an object is about objects that it
refers to, so what is left of a sound heap is sound.

* `Heap.Prunes` is a heap with some objects gone, where all that is left refers to what is left.
* `Heap.Sound.prune` and `Machine.Ready.collectIfDue` are the results.
-/

namespace SchemeMachine

/-- **A heap of which the objects in `K` are left**, which refer to each other only. -/
structure Heap.Prunes (H H' : Heap) (K : Handle → Prop) : Prop where
  kept : ∀ j, K j → H'.slot? j = H.slot? j
  gone : ∀ j, ¬K j → H'.slot? j = none
  closed : ∀ j o k, K j → H.get? j = some o → k ∈ o.references → (H.get? k).isSome → K k
  constants : ∀ j, H.IsConstant j → K j
  tidy : H'.Tidy

variable {p : Program} {L : Layout p} {strict : Prop} {A : Handle → Prop} {H H' : Heap} {K : Handle → Prop}

namespace Heap.Prunes

theorem get? (hp : H.Prunes H' K) {j : Handle} (hj : K j) : H'.get? j = H.get? j :=
  get?_congr (hp.kept j hj)

theorem kept_of_get? (hp : H.Prunes H' K) {j : Handle} {o : Object} (ho : H'.get? j = some o) : K j := by
  by_contra hj
  simp [Heap.get?, hp.gone j hj] at ho

theorem closure? (hp : H.Prunes H' K) {j : Handle} (hj : K j) : H'.closure? j = H.closure? j :=
  closure?_congr (hp.get? hj)

theorem settled (hp : H.Prunes H' K) {v : Value} (hv : v.Settled A H)
    (hk : ∀ h, v.handle? = some h → (H.get? h).isSome → K h) : v.Settled (fun j => A j ∧ K j) H' := by
  cases v with
  | handle h => exact ⟨by rw [hp.get? (hk h rfl hv.1)]; exact hv.1, fun hact => hv.2 hact.1⟩
  | label N => exact hv
  | _ => trivial

theorem runs (hp : H.Prunes H' K) {current : Option Handle} {owner : Option String} (hr : Runs A H current owner)
    (hk : ∀ h, current = some h → (H.get? h).isSome → K h) : Runs (fun j => A j ∧ K j) H' current owner := by
  cases hr with
  | start => exact .start
  | code hact hc =>
    have hkept := hk _ rfl (by simp [closure?_eq_some.mp hc])
    exact .code ⟨hact, hkept⟩ ((hp.closure? hkept).trans hc)

theorem stacked (hp : H.Prunes H' K) {owner : Option String} {fs : List Frame} {b : Nat}
    (hs : Stacked L A H owner fs b) (hk : ∀ h, h ∈ fs.filterMap (·.closure) → (H.get? h).isSome → K h) :
    Stacked L (fun j => A j ∧ K j) H' owner fs b := by
  induction hs with
  | start => exact .start
  | @frame o below f fs line d b hline hspot hruns _ ih =>
    refine .frame hline hspot (hp.runs hruns fun h hh => hk h ?_) (ih fun h hh => hk h ?_)
    · exact List.mem_filterMap.mpr ⟨f, List.mem_cons_self, hh⟩
    · obtain ⟨g, hg, hclosure⟩ := List.mem_filterMap.mp hh
      exact List.mem_filterMap.mpr ⟨g, List.mem_cons_of_mem _ hg, hclosure⟩

/-- The lineage of what is left is left. -/
theorem lineage (hp : H.Prunes H' K) {start : Option Handle} {l : Ancestry} (hl : H.Lineage start l)
    (hk : ∀ h, start = some h → K h) : H'.Lineage start l := by
  induction hl with
  | nil => exact .nil
  | @cons h c l hc hl ih =>
    refine .cons ((hp.closure? (hk h rfl)).trans hc) (ih fun g hg => ?_)
    have hsome : (H.get? g).isSome := by
      rw [hg] at hl
      cases hl with
      | cons hc' _ => simp [closure?_eq_some.mp hc']
    exact hp.closed h _ g (hk h rfl) (closure?_eq_some.mp hc) (by simp [Object.references, hg]) hsome

theorem closure (hp : H.Prunes H' K) {h : Handle} {c : Closure} (hs : c.Sound L A H h) (hc : H.closure? h = some c)
    (hk : K h) : c.Sound L (fun j => A j ∧ K j) H' h := by
  -- what a kept closure refers to is kept
  have hreference : ∀ g, g ∈ (Object.closure c).references → (H.get? g).isSome → K g := fun g hg =>
    hp.closed h _ g hk (closure?_eq_some.mp hc) hg
  have hparent : ∀ {g c'}, c.parent = some g → H.closure? g = some c' → K g := fun hg hc' =>
    hreference _ (by simp [Object.references, hg]) (by simp [closure?_eq_some.mp hc'])
  have hheld : ∀ {t : Table String Value} {name : String} {v : Value} {o : String}, t = c.bound ∨ t = c.free →
      t.find? name = some v → v.Held L A H o → v.Held L (fun j => A j ∧ K j) H' o := by
    intro t name v o ht hv
    refine Or.imp_left fun hsettled => hp.settled hsettled fun g hg => hreference g ?_
    have hmem : v ∈ c.values := by
      have hentry := List.mem_map_of_mem (f := Prod.snd) (Table.mem_entries_of_find? hv)
      rcases ht with rfl | rfl
      · exact List.mem_append_left _ hentry
      · exact List.mem_append_right _ hentry
    exact List.mem_append_right _ (List.mem_filterMap.mpr ⟨v, hmem, hg⟩)
  obtain ⟨l, hl⟩ := hs.lineage
  have hl' : H'.Lineage c.parent l := hp.lineage hl fun g hg => by
    rw [hg] at hl
    cases hl with
    | cons hc' _ => exact hparent hg hc'
  refine ⟨hs.entry, ?_, ⟨l, hl'⟩, hs.sorted, fun hnot => hs.still fun hact => hnot ⟨hact, hk⟩, fun name v hv => ?_,
    fun l' name v hlineage hv => ?_⟩
  · -- the parent is kept, so that the closure is placed as before
    cases hs.placed with
    | top hact hnone => exact .top ⟨hact, hk⟩ hnone
    | nested hg hc' hact hin =>
      have hkept := hparent hg hc'
      exact .nested hg ((hp.closure? hkept).trans hc') ⟨hact, hkept⟩ hin
    | called hg hc' hact hnot hlabel =>
      have hkept := hparent hg hc'
      exact .called hg ((hp.closure? hkept).trans hc') ⟨hact, hk⟩ (fun hact' => hnot hact'.1) hlabel
  · exact ⟨(hs.owned name v hv).1, hheld (Or.inl rfl) hv (hs.owned name v hv).2⟩
  · obtain rfl := hlineage.unique hl'
    obtain ⟨e, w, hb, hw, hsame, hv'⟩ := hs.copies _ name v hl hv
    exact ⟨e, w, hb, hw, hsame, hheld (Or.inr rfl) hv hv'⟩

end Heap.Prunes

/-- **What is left of a sound heap is sound.** -/
theorem Heap.Sound.prune (hs : H.Sound L strict A) (hp : H.Prunes H' K) :
    H'.Sound L strict fun j => A j ∧ K j := by
  -- what is there afterwards has been kept as it was
  have hold : ∀ {j o}, H'.get? j = some o → K j ∧ H.get? j = some o := by
    intro j o ho
    have hk := hp.kept_of_get? ho
    exact ⟨hk, (hp.get? hk).symm.trans ho⟩
  refine ⟨hp.tidy, fun j hj => ?_, fun j c hc => ?_, fun j o ho => ?_, fun j hj => ?_⟩
  · obtain ⟨c, hc⟩ := hs.acts j hj.1
    exact ⟨c, (hp.closure? hj.2).trans hc⟩
  · obtain ⟨hk, ho⟩ := hold (closure?_eq_some.mp hc)
    rw [isMutable, hp.kept j hk]
    exact hs.changeable j c (closure?_eq_some.mpr ho)
  · obtain ⟨hk, ho⟩ := hold ho
    have hsound := hs.objects j o ho
    cases o with
    | string content => trivial
    | list items =>
      refine fun v hv => hp.settled (hsound v hv) fun g hg => hp.closed j _ g hk ho ?_
      exact List.mem_filterMap.mpr ⟨v, hv, hg⟩
    | closure c => exact hp.closure hsound (closure?_eq_some.mpr ho) hk
    | continuation k =>
      obtain ⟨o, d, b, hat, hruns, hstacked, hstack, hlength⟩ := hsound
      refine ⟨o, d, b, hat, hp.runs hruns fun g hg => hp.closed j _ g hk ho ?_,
        hp.stacked hstacked fun g hg => hp.closed j _ g hk ho ?_,
        fun v hv => hp.settled (hstack v hv) fun g hg => hp.closed j _ g hk ho ?_, hlength⟩
      · simp [Object.references, hg]
      · exact List.mem_append_right _ hg
      · exact List.mem_append_left _ (List.mem_append_right _ (List.mem_filterMap.mpr ⟨v, hv, hg⟩))
  · obtain ⟨s, hslot, hconstant⟩ := hs.constants j hj
    exact ⟨s, (hp.kept j (hp.constants j ⟨s, hslot, hconstant⟩)).trans hslot, hconstant⟩

/-- A collection leaves what it has marked. -/
theorem Heap.prunes_collect (ht : H.Tidy) (roots : List Handle) :
    H.Prunes (H.collect roots).2 (Marked (H.reachable roots)) where
  kept j hj := slot?_collect_of_marked hj
  gone j hj := by
    rw [slot?_collect]
    cases hslot : H.slot? j with
    | none => rw [ite_self]
    | some s =>
      rw [if_pos]
      refine mem_garbage.mpr ⟨s, hslot, ?_, hj⟩
      by_contra hconstant
      exact hj (marked_of_isConstant hslot (by simpa using hconstant))
  closed j o k hj ho hk hsome := by
    refine reachable_closed H roots j hj k ?_ ?_
    · simp [referencesOf, ho, hk]
    · simpa [get?] using hsome
  constants j := fun ⟨_, hslot, hconstant⟩ => marked_of_isConstant hslot hconstant
  tidy := ht.collect roots

namespace Machine

variable {m : Machine}

/-- **A collection keeps a machine ready.** -/
theorem Ready.collectGarbage (hr : m.Ready L strict A) : ∃ B, m.collectGarbage.2.Ready L strict B := by
  have hp := Heap.prunes_collect hr.sound.heap.tidy m.roots
  -- what the registers hold has a mark
  have hroot : ∀ h ∈ m.roots, (m.heap.get? h).isSome → Heap.Marked (m.heap.reachable m.roots) h := by
    intro h hh hsome
    exact Heap.reachable_root hh (by simpa [Heap.get?] using hsome)
  have hcurrent : ∀ {owner}, Runs A m.heap m.current owner →
      Runs (fun j => A j ∧ Heap.Marked (m.heap.reachable m.roots) j) (m.heap.collect m.roots).2 m.current owner :=
    fun hruns => hp.runs hruns fun h hh => hroot h (by simp [roots, hh])
  have hframes : ∀ {owner b}, Stacked L A m.heap owner m.frames b →
      Stacked L (fun j => A j ∧ Heap.Marked (m.heap.reachable m.roots) j) (m.heap.collect m.roots).2 owner m.frames b :=
    fun hstacked => hp.stacked hstacked fun h hh =>
      hroot h (List.mem_append_left _ (List.mem_append_right _ hh))
  have hvalue : ∀ v ∈ m.stack, v.Settled A m.heap →
      v.Settled (fun j => A j ∧ Heap.Marked (m.heap.reachable m.roots) j) (m.heap.collect m.roots).2 := by
    refine fun v hv hsettled => hp.settled hsettled fun h hh => hroot h ?_
    exact List.mem_append_left _ (List.mem_append_left _ (List.mem_filterMap.mpr ⟨v, hv, hh⟩))
  have hoperands : ∀ {pending}, Operands A m.heap pending m.stack →
      Operands (fun j => A j ∧ Heap.Marked (m.heap.reachable m.roots) j) (m.heap.collect m.roots).2 pending m.stack := by
    intro pending ho
    revert hvalue ho
    generalize m.stack = stack
    intro hvalue ho
    cases pending with
    | none => exact fun v hv => hvalue v hv (ho v hv)
    | some N =>
      cases stack with
      | nil => exact ho
      | cons v vs => exact ⟨ho.1, fun w hw => hvalue w (List.mem_cons_of_mem _ hw) (ho.2 w hw)⟩
  -- the activations that are left are those with a mark
  refine ⟨fun j => A j ∧ Heap.Marked (m.heap.reachable m.roots) j, ⟨hr.sound.program, hr.sound.labels, ?_, ?_⟩, ?_⟩
  · exact hr.sound.heap.prune hp
  · obtain ⟨owner, hruns⟩ := hr.sound.current
    exact ⟨owner, hcurrent hruns⟩
  · have hkeeps := hr.keeps
    have hstands : ∀ s, m.Stands L strict A s →
        m.collectGarbage.2.Stands L strict (fun j => A j ∧ Heap.Marked (m.heap.reachable m.roots) j) s := by
      rintro s ⟨hline, hruns, ⟨b, hstacked, hlength⟩, ho⟩
      exact ⟨hline, hcurrent hruns, ⟨b, hframes hstacked, hlength⟩, hoperands ho⟩
    have hstate : m.collectGarbage.2.state = m.state := rfl
    unfold Keeps at hkeeps ⊢
    rw [hstate]
    cases hm : m.state with
    | running =>
      rw [hm] at hkeeps
      obtain ⟨s, hs⟩ := hkeeps
      exact ⟨s, hstands s hs⟩
    | suspended =>
      rw [hm] at hkeeps
      exact hkeeps
    | sleeping =>
      rw [hm] at hkeeps
      obtain ⟨o, b, hstacked, ho, hlength⟩ := hkeeps
      exact ⟨o, b, hframes hstacked, hoperands ho, hlength⟩
    | stopped =>
      rw [hm] at hkeeps
      exact hkeeps
    | failed => trivial

theorem Ready.collectIfDue (hr : m.Ready L strict A) (settings : Settings) :
    ∃ B, (m.collectIfDue settings).Ready L strict B := by
  unfold Machine.collectIfDue
  cases settings.gcThreshold with
  | none => exact ⟨A, hr⟩
  | some threshold =>
    dsimp only
    split
    · obtain ⟨B, hr⟩ := hr.collectGarbage
      exact ⟨B, hr.congr ⟨rfl, rfl, rfl, rfl, rfl, rfl, rfl⟩⟩
    · exact ⟨A, hr⟩

end Machine

end SchemeMachine
