import Mathlib.Data.Multiset.AddSub
import Mathlib.Logic.Relation
import SchemeMachine.Proofs.Heap

/-!
# Marking

A collection keeps what can be reached. Marking finds it with a collection of pending handles, over objects that may refer to
each other in circles and to slots in which nothing is.

* `Object.Mentions` and `Heap.Reached` say what can be reached, without marks.
* `Heap.Visit` is one turn of marking. Which of the pending handles is taken is left open: it does not matter.
* `Heap.Marking` is the invariant of the turns. Marks and pending handles are reached, and what a marked object refers to is
  marked or pending.
* `Heap.acc_visit`: there is no end of turns without an end. `Heap.visits_mark`: what the heap does is a run to such an end.
* `Heap.marked_reachable_iff` is the result.
-/

namespace SchemeMachine

/-! ### References -/

/-- **What an object refers to**: a list to its items, a closure to the one it was made in and to the values bound in it or
copied into it, and a continuation to its closure, to its operands, and to the closures of the calls under way. -/
inductive Object.Mentions : Object → Handle → Prop
  | item {items : List Value} {h : Handle} (hmem : .handle h ∈ items) : Mentions (.list items) h
  | parent {c : Closure} {h : Handle} (hparent : c.parent = some h) : Mentions (.closure c) h
  | bound {c : Closure} {name : String} {h : Handle} (hmem : (name, .handle h) ∈ c.bound.entries) : Mentions (.closure c) h
  | free {c : Closure} {name : String} {h : Handle} (hmem : (name, .handle h) ∈ c.free.entries) : Mentions (.closure c) h
  | current {k : Continuation} {h : Handle} (hclosure : k.closure = some h) : Mentions (.continuation k) h
  | operand {k : Continuation} {h : Handle} (hmem : .handle h ∈ k.stack) : Mentions (.continuation k) h
  | frame {k : Continuation} {frame : Frame} {h : Handle} (hmem : frame ∈ k.frames) (hclosure : frame.closure = some h) :
      Mentions (.continuation k) h

theorem Value.mem_filterMap_handle? {vs : List Value} {h : Handle} : h ∈ vs.filterMap Value.handle? ↔ .handle h ∈ vs := by
  rw [List.mem_filterMap]
  constructor
  · rintro ⟨v, hv, hh⟩
    cases v <;> cases hh
    exact hv
  · exact fun hh => ⟨_, hh, rfl⟩

theorem Table.mem_values {κ β : Type} {t : Table κ β} {v : β} : v ∈ t.values ↔ ∃ k, (k, v) ∈ t.entries := by
  simp [Table.values]

/-- The references of an object are what it refers to. -/
theorem Object.mem_references {o : Object} {h : Handle} : h ∈ o.references ↔ o.Mentions h := by
  cases o with
  | string content => exact ⟨nofun, nofun⟩
  | list items =>
    rw [references, Value.mem_filterMap_handle?]
    exact ⟨.item, fun | .item hmem => hmem⟩
  | closure c =>
    simp only [references, List.mem_append, Option.mem_toList, Closure.values, Value.mem_filterMap_handle?,
      Table.mem_values]
    constructor
    · rintro (hparent | ⟨name, hmem⟩ | ⟨name, hmem⟩)
      · exact .parent hparent
      · exact .bound hmem
      · exact .free hmem
    · intro hm
      cases hm with
      | parent hparent => exact .inl hparent
      | bound hmem => exact .inr (.inl ⟨_, hmem⟩)
      | free hmem => exact .inr (.inr ⟨_, hmem⟩)
  | continuation k =>
    rw [references, List.mem_append, List.mem_append, Option.mem_toList, Value.mem_filterMap_handle?, List.mem_filterMap]
    constructor
    · rintro ((hclosure | hmem) | ⟨frame, hmem, hclosure⟩)
      · exact .current hclosure
      · exact .operand hmem
      · exact .frame hmem hclosure
    · intro hm
      cases hm with
      | current hclosure => exact .inl (.inl hclosure)
      | operand hmem => exact .inl (.inr hmem)
      | frame hmem hclosure => exact .inr ⟨_, hmem, hclosure⟩

namespace Heap

/-- **What can be reached** from the roots and the constants, through objects that are there. -/
inductive Reached (heap : Heap) (roots : List Handle) : Handle → Prop
  | root {h : Handle} (hroot : h ∈ roots) : Reached heap roots h
  | constant {h : Handle} (hconstant : heap.IsConstant h) : Reached heap roots h
  | reference {j h : Handle} {o : Object} (hj : Reached heap roots j) (ho : heap.get? j = some o) (hh : o.Mentions h) :
      Reached heap roots h

theorem mem_referencesOf {heap : Heap} {j h : Handle} :
    h ∈ heap.referencesOf j ↔ ∃ o, heap.get? j = some o ∧ o.Mentions h := by
  unfold referencesOf
  cases heap.get? j with
  | none => simp
  | some o => simp [Object.mem_references]

theorem mem_constantHandles {heap : Heap} {h : Handle} : h ∈ heap.constantHandles ↔ heap.IsConstant h := by
  simp only [constantHandles, List.mem_filter, List.mem_range, Option.any_eq_true, IsConstant]
  refine ⟨fun hh => hh.2, fun hh => ⟨?_, hh⟩⟩
  obtain ⟨s, hs, -⟩ := hh
  exact lt_size_of_slot? hs

/-! ### Turns -/

/-- Where marking has got to: the marks, and the handles that are pending. -/
abbrev Progress := Array Bool × Multiset Handle

/-- **One turn of marking**: some pending handle is taken. If nothing is in its slot, or a mark is set already, that is all;
otherwise the mark is set, and what the object refers to is pending too. -/
inductive Visit (heap : Heap) : Progress → Progress → Prop
  | skip {marked : Array Bool} {h : Handle} {pending : Multiset Handle} (hh : heap.isUnmarked marked h = false) :
      Visit heap (marked, h ::ₘ pending) (marked, pending)
  | mark {marked : Array Bool} {h : Handle} {pending : Multiset Handle} (hh : heap.isUnmarked marked h = true) :
      Visit heap (marked, h ::ₘ pending) (marked.setIfInBounds h true, heap.referencesOf h + pending)

/-- Some turns, one after the other. -/
def Visits (heap : Heap) : Progress → Progress → Prop := Relation.ReflTransGen heap.Visit

/-- Before the first turn, nothing is marked; the roots and the constants are pending. -/
def unvisited (heap : Heap) (roots : List Handle) : Progress :=
  (Array.replicate heap.slots.size false, ↑(roots ++ heap.constantHandles))

section Turns

variable {heap : Heap} {roots : List Handle} {marked : Array Bool} {pending : Multiset Handle} {s s' : Progress}

/-- There is a mark for each slot. -/
theorem Visit.size (h : heap.Visit s s') : s'.1.size = s.1.size := by
  cases h with
  | skip => rfl
  | mark => exact Array.size_setIfInBounds

theorem lt_size_of_isUnmarked {h : Handle} (hh : heap.isUnmarked marked h = true) : h < heap.slots.size := by
  obtain ⟨s, hs⟩ := Option.isSome_iff_exists.mp (isUnmarked_iff.mp hh).1
  exact lt_size_of_slot? hs

/-- **Marking comes to an end**, whatever is taken first. A turn that sets a mark leaves fewer slots without one, and any other
turn fewer pending handles. -/
theorem acc_visit (hsize : marked.size = heap.slots.size) : Acc (fun b a => heap.Visit a b) (marked, pending) := by
  -- first on the slots without a mark, and as long as these are as many on the handles that are pending
  generalize hn : (heap.unmarked marked).card = n
  induction n using Nat.strong_induction_on generalizing marked pending with
  | _ n ihmarks =>
    induction pending using Multiset.strongInductionOn with
    | _ pending ihpending =>
      refine ⟨_, ?_⟩
      intro s hvisit
      generalize hstart : (marked, pending) = start at hvisit
      cases hvisit with
      | skip hh =>
        cases hstart
        exact ihpending _ (Multiset.lt_cons_self _ _)
      | mark hh =>
        cases hstart
        have hlt := hsize ▸ lt_size_of_isUnmarked hh
        have hless := Finset.card_lt_card (unmarked_set_ssubset hlt (mem_unmarked.mpr (isUnmarked_iff.mp hh)))
        exact ihmarks _ (hn ▸ hless) (Array.size_setIfInBounds.trans hsize) rfl

/-! ### The invariant -/

/-- **The invariant of marking.** -/
structure Marking (heap : Heap) (roots : List Handle) (s : Progress) : Prop where
  size : s.1.size = heap.slots.size
  /-- Only what can be reached is marked. -/
  sound : ∀ h, Marked s.1 h → (heap.slot? h).isSome ∧ heap.Reached roots h
  /-- Only what can be reached is pending. -/
  pending : ∀ h ∈ s.2, heap.Reached roots h
  /-- No root and no constant is forgotten. -/
  begun : ∀ h, h ∈ roots ∨ heap.IsConstant h → (heap.slot? h).isSome → Marked s.1 h ∨ h ∈ s.2
  /-- No reference is forgotten. -/
  closed : ∀ h, Marked s.1 h → ∀ j ∈ heap.referencesOf h, (heap.slot? j).isSome → Marked s.1 j ∨ j ∈ s.2

theorem marking_unvisited (heap : Heap) (roots : List Handle) : heap.Marking roots (heap.unvisited roots) where
  size := Array.size_replicate
  sound := fun h hm => absurd hm (not_marked_replicate _ h)
  pending := by
    intro h hh
    rcases List.mem_append.mp (Multiset.mem_coe.mp hh) with hroot | hconstant
    · exact .root hroot
    · exact .constant (mem_constantHandles.mp hconstant)
  begun := by
    rintro h (hroot | hconstant) _
    · exact .inr (Multiset.mem_coe.mpr (List.mem_append_left _ hroot))
    · exact .inr (Multiset.mem_coe.mpr (List.mem_append_right _ (mem_constantHandles.mpr hconstant)))
  closed := fun h hm => absurd hm (not_marked_replicate _ h)

/-- **Each turn keeps the invariant.** -/
theorem Marking.visit (hs : heap.Marking roots s) (h : heap.Visit s s') : heap.Marking roots s' := by
  cases h with
  | @skip marked h pending hh =>
    -- what is dropped is marked already, if anything is there
    have hdropped : ∀ j, (heap.slot? j).isSome → j ∈ h ::ₘ pending → Marked marked j ∨ j ∈ pending := by
      intro j hj hmem
      rcases Multiset.mem_cons.mp hmem with rfl | hmem
      · by_contra hneither
        rw [not_or] at hneither
        rw [isUnmarked_iff.mpr ⟨hj, hneither.1⟩] at hh
        cases hh
      · exact .inr hmem
    exact
      { size := hs.size
        sound := hs.sound
        pending := fun j hj => hs.pending j (Multiset.mem_cons_of_mem hj)
        begun := fun j hj hslot => (hs.begun j hj hslot).elim .inl (hdropped j hslot)
        closed := fun j hj i hi hslot => (hs.closed j hj i hi hslot).elim .inl (hdropped i hslot) }
  | @mark marked h pending hh =>
    have hlt : h < marked.size := hs.size ▸ lt_size_of_isUnmarked hh
    have hreached : heap.Reached roots h := hs.pending h (Multiset.mem_cons_self h pending)
    -- what was marked or pending is so still
    have hkept : ∀ j, Marked marked j ∨ j ∈ h ::ₘ pending →
        Marked (marked.setIfInBounds h true) j ∨ j ∈ (heap.referencesOf h : Multiset Handle) + pending := by
      intro j hj
      rw [marked_set hlt, Multiset.mem_add]
      rcases hj with hj | hj
      · exact .inl (.inr hj)
      · rcases Multiset.mem_cons.mp hj with rfl | hj
        · exact .inl (.inl rfl)
        · exact .inr (.inr hj)
    refine ⟨Array.size_setIfInBounds.trans hs.size, ?_, ?_, ?_, ?_⟩
    · intro j hj
      rcases (marked_set hlt).mp hj with rfl | hj
      · exact ⟨(isUnmarked_iff.mp hh).1, hreached⟩
      · exact hs.sound j hj
    · intro j hj
      rcases Multiset.mem_add.mp hj with hj | hj
      · obtain ⟨o, ho, hmention⟩ := mem_referencesOf.mp (Multiset.mem_coe.mp hj)
        exact .reference hreached ho hmention
      · exact hs.pending j (Multiset.mem_cons_of_mem hj)
    · exact fun j hj hslot => hkept j (hs.begun j hj hslot)
    · intro j hj i hi hslot
      rcases (marked_set hlt).mp hj with rfl | hj
      · exact .inr (Multiset.mem_add.mpr (.inl (Multiset.mem_coe.mpr hi)))
      · exact hkept i (hs.closed j hj i hi hslot)

/-- So do all turns together. -/
theorem Marking.visits (hs : heap.Marking roots s) (h : heap.Visits s s') : heap.Marking roots s' := by
  induction h with
  | refl => exact hs
  | tail _ hlast ih => exact ih.visit hlast

/-- **When nothing is pending any more**, just what can be reached is marked. -/
theorem Marking.marked_iff (hs : heap.Marking roots (marked, 0)) {h : Handle} :
    Marked marked h ↔ (heap.slot? h).isSome ∧ heap.Reached roots h := by
  constructor
  · exact hs.sound h
  · rintro ⟨hslot, hreached⟩
    -- along the way on which it is reached, nothing can be pending
    induction hreached with
    | root hroot => exact (hs.begun _ (.inl hroot) hslot).resolve_right (Multiset.notMem_zero _)
    | constant hconstant => exact (hs.begun _ (.inr hconstant) hslot).resolve_right (Multiset.notMem_zero _)
    | @reference j h o _ ho hmention ih =>
      obtain ⟨s, hj, -⟩ := get?_eq_some.mp ho
      have hmarked := ih (Option.isSome_iff_exists.mpr ⟨s, hj⟩)
      have href : h ∈ heap.referencesOf j := mem_referencesOf.mpr ⟨o, ho, hmention⟩
      exact (hs.closed j hmarked h href hslot).resolve_right (Multiset.notMem_zero _)

/-! ### What the heap does -/

/-- Handles that are not in use, or marked already, are dropped one after the other. -/
theorem visits_skip {skipped rest : List Handle} (h : ∀ j ∈ skipped, heap.isUnmarked marked j = false) :
    heap.Visits (marked, ↑(skipped ++ rest)) (marked, ↑rest) := by
  induction skipped with
  | nil => exact .refl
  | cons j skipped ih =>
    have hfirst : heap.Visit (marked, j ::ₘ ↑(skipped ++ rest)) (marked, ↑(skipped ++ rest)) :=
      .skip (h j List.mem_cons_self)
    exact .head hfirst (ih fun i hi => h i (List.mem_cons_of_mem j hi))

/-- Where nothing is left to mark, all pending handles are dropped. -/
theorem visits_skip_all {pending : List Handle} (h : ∀ j ∈ pending, heap.isUnmarked marked j = false) :
    heap.Visits (marked, ↑pending) (marked, 0) := by
  rw [← List.append_nil pending]
  exact visits_skip h

/-- **The heap marks in turns**, the pending handles in their order, and with as many rounds as there are slots without a mark
it goes on until nothing is pending. -/
theorem visits_mark (fuel : Nat) {marked : Array Bool} (pending : List Handle) (hsize : marked.size = heap.slots.size)
    (hfuel : (heap.unmarked marked).card ≤ fuel) : heap.Visits (marked, ↑pending) (heap.mark fuel marked pending, 0) := by
  induction fuel generalizing marked pending with
  | zero =>
    -- no slot is without a mark
    refine visits_skip_all fun j _ => ?_
    rw [Bool.eq_false_iff]
    intro hj
    have hpos := Finset.card_pos.mpr ⟨j, mem_unmarked.mpr (isUnmarked_iff.mp hj)⟩
    omega
  | succ fuel ih =>
    rw [mark]
    -- one round drops the handles in front that need no mark, and marks the next one
    have hsplit := List.takeWhile_append_dropWhile (p := fun h => !heap.isUnmarked marked h) (l := pending)
    have htaken : ∀ j ∈ pending.takeWhile fun h => !heap.isUnmarked marked h, heap.isUnmarked marked j = false := by
      intro j hj
      simpa using List.mem_takeWhile_imp hj
    cases hd : pending.dropWhile fun h => !heap.isUnmarked marked h with
    | nil =>
      rw [hd, List.append_nil] at hsplit
      rw [hsplit] at htaken
      exact visits_skip_all htaken
    | cons h rest =>
      have hh : heap.isUnmarked marked h = true := by
        have hhead := List.head?_dropWhile_not (fun h => !heap.isUnmarked marked h) pending
        simpa [hd] using hhead
      have hlt := hsize ▸ lt_size_of_isUnmarked hh
      have hless := Finset.card_lt_card (unmarked_set_ssubset hlt (mem_unmarked.mpr (isUnmarked_iff.mp hh)))
      have hfirst : heap.Visit (marked, h ::ₘ ↑rest)
          (marked.setIfInBounds h true, ↑(heap.referencesOf h) + ↑rest) := .mark hh
      rw [← hsplit, hd]
      refine Relation.ReflTransGen.trans (visits_skip htaken) (.head hfirst ?_)
      rw [Multiset.coe_add]
      exact ih _ (Array.size_setIfInBounds.trans hsize) (Nat.le_of_lt_succ (Nat.lt_of_lt_of_le hless hfuel))

theorem card_unmarked_le : (heap.unmarked marked).card ≤ heap.slots.size := by
  calc (heap.unmarked marked).card ≤ (Finset.range heap.slots.size).card := Finset.card_le_card (Finset.filter_subset _ _)
    _ = heap.slots.size := Finset.card_range _

/-- The marks that a collection goes by are those at the end of such a run. -/
theorem visits_reachable (heap : Heap) (roots : List Handle) :
    heap.Visits (heap.unvisited roots) (heap.reachable roots, 0) :=
  visits_mark _ _ Array.size_replicate card_unmarked_le

/-- **Marking finds just what can be reached.** -/
theorem marked_reachable_iff {h : Handle} :
    Marked (heap.reachable roots) h ↔ (heap.slot? h).isSome ∧ heap.Reached roots h :=
  ((marking_unvisited heap roots).visits (visits_reachable heap roots)).marked_iff

/-- **It does not matter which of the pending handles is taken**: every run that comes to its end has set the same marks. -/
theorem eq_reachable_of_visits (h : heap.Visits (heap.unvisited roots) (marked, 0)) : marked = heap.reachable roots := by
  have hs := (marking_unvisited heap roots).visits h
  have hs' := (marking_unvisited heap roots).visits (visits_reachable heap roots)
  refine Array.ext (hs.size.trans hs'.size.symm) fun i hi hi' => ?_
  have hsame : Marked marked i ↔ Marked (heap.reachable roots) i := hs.marked_iff.trans hs'.marked_iff.symm
  rw [Marked, Marked, Array.getD_eq_getD_getElem?, Array.getD_eq_getD_getElem?, Array.getElem?_eq_getElem hi,
    Array.getElem?_eq_getElem hi'] at hsame
  exact Bool.eq_iff_iff.mpr hsame

end Turns

end Heap

end SchemeMachine
