import SchemeMachine.Proofs.Heap.Marking

/-!
# A heap over time

From the constants of a program on, objects are placed and overwritten, and what cannot be reached is freed. Whatever the
order, the heap stays in good order: a slot is offered for use only if nothing is in it, and only once, and the objects made at
run time are counted.

* `Heap.Kempt` is that order; every operation keeps it.
* `Heap.Attained` are the heaps that come about.
* `Heap.Collects` says what a collection does: it ends, it keeps what can be reached as it is and frees the rest, it counts what
  it frees, and there is nothing left for it to do.
* `Heap.Attained.upkeep` is the result.
-/

namespace SchemeMachine.Heap

/-! ### The counter -/

/-- The handles of the objects made at run time. -/
def dynamicHandles (heap : Heap) : Finset Handle :=
  (Finset.range heap.slots.size).filter fun h => (heap.slot? h).any fun s => !s.isConstant

theorem mem_dynamicHandles {heap : Heap} {h : Handle} :
    h ∈ heap.dynamicHandles ↔ ∃ s, heap.slot? h = some s ∧ s.isConstant = false := by
  simp only [dynamicHandles, Finset.mem_filter, Finset.mem_range, Option.any_eq_true, Bool.not_eq_true']
  exact ⟨fun hh => hh.2, fun ⟨s, hs, hc⟩ => ⟨lt_size_of_slot? hs, s, hs, hc⟩⟩

/-- **A heap in good order**: the slots offered for use are unused, and the objects made at run time are counted. -/
structure Kempt (heap : Heap) : Prop where
  tidy : heap.Tidy
  counted : heap.dynamic = heap.dynamicHandles.card

section Operations

variable {heap : Heap}

/-- The heap of a program begins with constants alone. -/
theorem kempt_ofConstants (constants : Table Handle Constant) : (ofConstants constants).Kempt := by
  refine ⟨tidy_ofConstants constants, ?_⟩
  -- placing constants adds nothing else
  have hplaced : ∀ (entries : List (Handle × Constant)) (heap : Heap),
      heap.dynamic = 0 → (∀ h s, heap.slot? h = some s → s.isConstant = true) →
      (entries.foldl (fun heap e => heap.placeConstant e.1 e.2) heap).dynamic = 0 ∧
        ∀ h s, (entries.foldl (fun heap e => heap.placeConstant e.1 e.2) heap).slot? h = some s →
          s.isConstant = true := by
    intro entries
    induction entries with
    | nil => exact fun heap hzero hconstant => ⟨hzero, hconstant⟩
    | cons e entries ih =>
      intro heap hzero hconstant
      refine ih _ hzero fun h s hs => ?_
      rw [slot?_placeConstant] at hs
      split at hs
      · cases hs
        rfl
      · exact hconstant h s hs
  obtain ⟨hzero, hconstant⟩ := hplaced constants.entries {} rfl fun h s hs => by simp [slot?] at hs
  have hnone : (ofConstants constants).dynamicHandles = ∅ := by
    refine Finset.eq_empty_of_forall_notMem fun h hh => ?_
    obtain ⟨s, hs, hfalse⟩ := mem_dynamicHandles.mp hh
    rw [hconstant h s hs] at hfalse
    cases hfalse
  rw [hnone]
  exact hzero

theorem allocate_dynamic (heap : Heap) (o : Object) (r : Option Handle) :
    (heap.allocate o r).2.dynamic = heap.dynamic + 1 := by
  unfold allocate
  split <;> rfl

theorem dynamicHandles_allocate (ht : heap.Tidy) (o : Object) (r : Option Handle) :
    (heap.allocate o r).2.dynamicHandles = insert heap.nextSlot heap.dynamicHandles := by
  ext j
  rw [Finset.mem_insert, mem_dynamicHandles, mem_dynamicHandles, slot?_allocate ht]
  by_cases hj : j = heap.nextSlot
  · simp [hj]
  · simp [hj]

theorem Kempt.allocate (hk : heap.Kempt) (o : Object) (r : Option Handle) : (heap.allocate o r).2.Kempt := by
  refine ⟨hk.tidy.allocate o r, ?_⟩
  -- the slot was unused, so the object in it had not been counted
  have hnew : heap.nextSlot ∉ heap.dynamicHandles := by
    intro hmem
    obtain ⟨s, hs, -⟩ := mem_dynamicHandles.mp hmem
    rw [hk.tidy.slot?_nextSlot] at hs
    cases hs
  rw [allocate_dynamic, dynamicHandles_allocate hk.tidy, Finset.card_insert_of_notMem hnew, hk.counted]

theorem put_dynamic (heap : Heap) (h : Handle) (o : Object) : (heap.put h o).dynamic = heap.dynamic := by
  unfold put
  split
  · split <;> rfl
  · rfl

theorem dynamicHandles_put (heap : Heap) (h : Handle) (o : Object) :
    (heap.put h o).dynamicHandles = heap.dynamicHandles := by
  ext j
  rw [mem_dynamicHandles, mem_dynamicHandles, slot?_put]
  split
  · next heq =>
    subst heq
    cases hs : heap.slot? j with
    | none => simp
    | some s =>
      -- only the object of the slot is another
      cases hc : s.isConstant <;> simp [hc]
  · rfl

theorem Kempt.put (hk : heap.Kempt) (h : Handle) (o : Object) : (heap.put h o).Kempt := by
  refine ⟨hk.tidy.put h o, ?_⟩
  rw [put_dynamic, dynamicHandles_put, hk.counted]

/-! ### What is kept and what is freed -/

variable {roots : List Handle} {h : Handle}

/-- **What is freed** are the objects made at run time that cannot be reached. -/
theorem mem_garbage_reachable :
    h ∈ heap.garbage (heap.reachable roots) ↔ h ∈ heap.dynamicHandles ∧ ¬heap.Reached roots h := by
  rw [mem_garbage, mem_dynamicHandles]
  constructor
  · rintro ⟨s, hs, hc, hm⟩
    exact ⟨⟨s, hs, hc⟩, fun hreached => hm (marked_reachable_iff.mpr ⟨Option.isSome_iff_exists.mpr ⟨s, hs⟩, hreached⟩)⟩
  · rintro ⟨⟨s, hs, hc⟩, hreached⟩
    exact ⟨s, hs, hc, fun hm => hreached (marked_reachable_iff.mp hm).2⟩

theorem nodup_garbage (heap : Heap) (marked : Array Bool) : (heap.garbage marked).Nodup :=
  List.nodup_range.filter _

/-- What can be reached stays as it is. -/
theorem slot?_collect_of_reached (hh : heap.Reached roots h) : (heap.collect roots).2.slot? h = heap.slot? h := by
  rw [slot?_collect, if_neg fun hg => (mem_garbage_reachable.mp hg).2 hh]

/-- What cannot be reached is gone. -/
theorem slot?_collect_of_not_reached (hh : ¬heap.Reached roots h) : (heap.collect roots).2.slot? h = none := by
  rw [slot?_collect]
  split
  · rfl
  · next hg =>
    cases hs : heap.slot? h with
    | none => rfl
    | some s =>
      -- a constant could be reached, and so could any object that is no garbage
      cases hc : s.isConstant with
      | true => exact absurd (.constant ⟨s, hs, hc⟩) hh
      | false => exact absurd (mem_garbage_reachable.mpr ⟨mem_dynamicHandles.mpr ⟨s, hs, hc⟩, hh⟩) hg

theorem dynamicHandles_collect (heap : Heap) (roots : List Handle) :
    (heap.collect roots).2.dynamicHandles = heap.dynamicHandles \ (heap.garbage (heap.reachable roots)).toFinset := by
  ext j
  rw [Finset.mem_sdiff, List.mem_toFinset, mem_dynamicHandles, mem_dynamicHandles, slot?_collect]
  by_cases hj : j ∈ heap.garbage (heap.reachable roots) <;> simp [hj]

/-- **The counter goes down by what is freed**, and not below zero. -/
theorem Kempt.dynamic_collect (hk : heap.Kempt) (roots : List Handle) :
    (heap.collect roots).2.dynamic + (heap.collect roots).1 = heap.dynamic ∧
      (heap.collect roots).2.dynamic = (heap.collect roots).2.dynamicHandles.card := by
  -- all that is freed has been counted, so nothing is taken away that is not there
  have hsub : (heap.garbage (heap.reachable roots)).toFinset ⊆ heap.dynamicHandles := fun j hj =>
    (mem_garbage_reachable.mp (List.mem_toFinset.mp hj)).1
  have hcard := List.toFinset_card_of_nodup (nodup_garbage heap (heap.reachable roots))
  have hle := Finset.card_le_card hsub
  rw [dynamicHandles_collect, Finset.card_sdiff_of_subset hsub, hcard, ← hk.counted]
  rw [hcard, ← hk.counted] at hle
  exact ⟨Nat.sub_add_cancel hle, rfl⟩

theorem Kempt.collect (hk : heap.Kempt) (roots : List Handle) : (heap.collect roots).2.Kempt :=
  ⟨hk.tidy.collect roots, (hk.dynamic_collect roots).2⟩

/-- What can be reached can be reached after a collection, through the same objects. -/
theorem Reached.collect (hh : heap.Reached roots h) : (heap.collect roots).2.Reached roots h := by
  induction hh with
  | root hroot => exact .root hroot
  | constant hconstant =>
    obtain ⟨s, hs, hc⟩ := hconstant
    exact .constant ⟨s, (slot?_collect_of_reached (.constant ⟨s, hs, hc⟩)).trans hs, hc⟩
  | reference hj ho hmention ih =>
    exact .reference ih ((get?_congr (slot?_collect_of_reached hj)).trans ho) hmention

/-- **A second collection finds nothing to free.** -/
theorem collect_again (heap : Heap) (roots : List Handle) : ((heap.collect roots).2.collect roots).1 = 0 := by
  refine List.length_eq_zero_iff.mpr (List.eq_nil_iff_forall_not_mem.mpr fun j hj => ?_)
  obtain ⟨hdynamic, hreached⟩ := mem_garbage_reachable.mp hj
  obtain ⟨s, hs, -⟩ := mem_dynamicHandles.mp hdynamic
  -- what was out of reach is gone, and what was in reach still is
  by_cases hbefore : heap.Reached roots j
  · exact hreached hbefore.collect
  · rw [slot?_collect_of_not_reached hbefore] at hs
    cases hs

end Operations

/-! ### Marks in the slots

The marks are kept beside the slots while a collection goes on, and nothing of them is left behind. They could as well be a
status that each slot has: sweeping then puts it back. -/

/-- The status of an object: it is marked only while a collection goes on. -/
inductive Status where
  | live
  | marked
deriving Repr, DecidableEq

/-- A slot with its status once these marks have been set. -/
def stamped (heap : Heap) (marked : Array Bool) (h : Handle) : Option (Slot × Status) :=
  (heap.slot? h).map fun s => (s, if marked.getD h false then .marked else .live)

/-- **What sweeping makes of a slot**: a marked object is live again, and one without a mark is freed if it is no constant. -/
def swept : Option (Slot × Status) → Option (Slot × Status)
  | some (s, .marked) => some (s, .live)
  | some (s, .live) => if s.isConstant then some (s, .live) else none
  | none => none

/-- Sweeping the slots with their status leaves what a collection leaves, all of it live. -/
theorem swept_stamped (heap : Heap) (roots : List Handle) (h : Handle) :
    swept (heap.stamped (heap.reachable roots) h) = ((heap.collect roots).2.slot? h).map (·, .live) := by
  rw [stamped]
  cases hs : heap.slot? h with
  | none =>
    have hnone : (heap.collect roots).2.slot? h = none := by
      rw [slot?_collect, hs, ite_self]
    rw [hnone]
    rfl
  | some s =>
    -- marked, it is live again; without a mark it is no constant, as constants are marked
    by_cases hm : (heap.reachable roots).getD h false = true
    · rw [slot?_collect_of_marked hm, hs]
      simp [swept, hm]
    · have hc : s.isConstant = false := Bool.eq_false_iff.mpr fun hc => hm (marked_of_isConstant hs hc)
      have hgarbage : h ∈ heap.garbage (heap.reachable roots) := mem_garbage.mpr ⟨s, hs, hc, hm⟩
      rw [slot?_collect, if_pos hgarbage]
      simp [swept, hm, hc]

/-! ### Heaps that come about -/

/-- **The heaps that come about** from the constants of a program, by placing objects, overwriting them and collecting. -/
inductive Attained : Heap → Prop
  | start (constants : Table Handle Constant) : Attained (ofConstants constants)
  | allocate {heap : Heap} (h : Attained heap) (o : Object) (r : Option Handle) : Attained (heap.allocate o r).2
  | put {heap : Heap} (h : Attained heap) (k : Handle) (o : Object) : Attained (heap.put k o)
  | collect {heap : Heap} (h : Attained heap) (roots : List Handle) : Attained (heap.collect roots).2

/-- They are all in good order, by induction on how they came about. -/
theorem Attained.kempt {heap : Heap} (h : heap.Attained) : heap.Kempt := by
  induction h with
  | start constants => exact kempt_ofConstants constants
  | allocate _ o r ih => exact ih.allocate o r
  | put _ k o ih => exact ih.put k o
  | collect _ roots ih => exact ih.collect roots

/-- **What a collection does.** -/
structure Collects (heap : Heap) (roots : List Handle) : Prop where
  /-- Marking ends, in whatever order the pending handles are taken. -/
  ends : Acc (fun b a => heap.Visit a b) (heap.unvisited roots)
  /-- The marks are the same in any order. -/
  marks : ∀ marked, heap.Visits (heap.unvisited roots) (marked, 0) ↔ marked = heap.reachable roots
  /-- What can be reached stays as it is. -/
  keeps : ∀ h, heap.Reached roots h → (heap.collect roots).2.slot? h = heap.slot? h
  /-- What cannot be reached is freed. -/
  frees : ∀ h, ¬heap.Reached roots h → (heap.collect roots).2.slot? h = none
  /-- With the marks in the slots, no mark is left. -/
  unmarks : ∀ h, swept (heap.stamped (heap.reachable roots) h) = ((heap.collect roots).2.slot? h).map (·, .live)
  /-- The answer counts what has been freed. -/
  counts : ∃ freed : Finset Handle,
    (∀ h, h ∈ freed ↔ (heap.slot? h).isSome ∧ (heap.collect roots).2.slot? h = none) ∧
      (heap.collect roots).1 = freed.card
  /-- The counter goes down by as much, and not below zero. -/
  counter : (heap.collect roots).2.dynamic + (heap.collect roots).1 = heap.dynamic
  /-- A second collection frees nothing. -/
  again : ((heap.collect roots).2.collect roots).1 = 0

theorem Kempt.collects {heap : Heap} (hk : heap.Kempt) (roots : List Handle) : heap.Collects roots where
  ends := acc_visit Array.size_replicate
  marks := fun marked => ⟨eq_reachable_of_visits, fun heq => heq ▸ visits_reachable heap roots⟩
  keeps := fun _ => slot?_collect_of_reached
  frees := fun _ => slot?_collect_of_not_reached
  unmarks := swept_stamped heap roots
  counts := by
    -- what is freed are the unmarked objects of the run, each once
    refine ⟨(heap.garbage (heap.reachable roots)).toFinset, fun h => ?_,
      (List.toFinset_card_of_nodup (nodup_garbage heap _)).symm⟩
    rw [List.mem_toFinset, slot?_collect]
    constructor
    · intro hg
      obtain ⟨s, hs, -⟩ := mem_garbage.mp hg
      exact ⟨Option.isSome_iff_exists.mpr ⟨s, hs⟩, if_pos hg⟩
    · rintro ⟨hsome, hnone⟩
      by_contra hg
      rw [if_neg hg] at hnone
      rw [hnone] at hsome
      cases hsome
  counter := (hk.dynamic_collect roots).1
  again := collect_again heap roots

/-- **Every heap that comes about is kept up.** The slots offered for use are unused and offered once; the counter tells how many
objects of the run are there. A new object goes into a slot that was unused, and no other slot changes. And a collection frees
just what cannot be reached, whatever the roots are. -/
theorem Attained.upkeep {heap : Heap} (h : heap.Attained) :
    (heap.free.Nodup ∧ ∀ j ∈ heap.free, j < heap.slots.size ∧ heap.slot? j = none) ∧
    heap.dynamic = heap.dynamicHandles.card ∧
    (∀ o r, heap.slot? (heap.allocate o r).1 = none ∧
      (heap.allocate o r).2.slot? (heap.allocate o r).1 = some ⟨o, false, r⟩ ∧
      ∀ j, j ≠ (heap.allocate o r).1 → (heap.allocate o r).2.slot? j = heap.slot? j) ∧
    ∀ roots, heap.Collects roots := by
  have hk := h.kempt
  refine ⟨⟨hk.tidy.nodup, fun j hj => ⟨hk.tidy.lt_size j hj, hk.tidy.unused j hj⟩⟩, hk.counted, ?_, hk.collects⟩
  intro o r
  rw [allocate_fst]
  refine ⟨hk.tidy.slot?_nextSlot, ?_, fun j hj => ?_⟩
  · rw [slot?_allocate hk.tidy, if_pos rfl]
  · rw [slot?_allocate hk.tidy, if_neg hj]

/-- A string that is a constant, two closures made in each other, of which the first has a value that is not there, and a list
with the constant in it. -/
def ring : Heap :=
  let constants : Table Handle Constant := Table.ofList [(2, .string "a")]
  let first := (ofConstants constants).allocate (.closure ⟨"f", 0, none, {}, {}, {}⟩) none
  let second := first.2.allocate (.closure ⟨"g", 0, some 3, {}, {}, {}⟩) (some 3)
  let closed := second.2.put 3 (.closure ⟨"f", 0, some 4, Table.ofList [("x", .handle 9)], {}, {}⟩)
  (closed.allocate (.list [.handle 2, .handle 4]) none).2

/-- **A circle is freed** once nothing leads to it, and not before. -/
theorem upkeep_ring : ring.Attained ∧ ring.Collects [] ∧ (ring.collect []).1 = 3 ∧ ring.Collects [5] ∧
    (ring.collect [5]).1 = 0 ∧ ring.dynamic = ring.dynamicHandles.card := by
  have hattained : ring.Attained := .allocate (.put (.allocate (.allocate (.start _) _ _) _ _) _ _) _ _
  obtain ⟨-, hcounted, -, hcollects⟩ := Attained.upkeep hattained
  exact ⟨hattained, hcollects [], by decide, hcollects [5], by decide, hcounted⟩

end SchemeMachine.Heap
