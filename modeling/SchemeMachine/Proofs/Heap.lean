import Mathlib.Data.Finset.Card
import Mathlib.Data.List.Nodup
import Mathlib.Data.List.TakeWhile
import Mathlib.Tactic.Common
import SchemeMachine.Heap
import SchemeMachine.Proofs.Table

/-!
# The heap, slot by slot

What each operation on a heap does to the slot of a handle.

* `Heap.Tidy` says that the slots offered for use are unused; every operation keeps it.
* `Heap.slot?_allocate` and `Heap.slot?_put` say what a slot holds after an object has been placed or
  overwritten.
* `Heap.Closed` says of a set of marks that it holds all that its members refer to. Marking gives a closed
  set that has the roots and the constants (`Heap.reachable_closed`, `Heap.reachable_root`), so
  collecting leaves the slots of such a set alone (`Heap.slot?_collect`).
-/

namespace SchemeMachine.Heap

/-! ### Slots -/

theorem slot?_eq_some {heap : Heap} {h : Handle} {s : Slot} :
    heap.slot? h = some s ↔ heap.slots[h]? = some (some s) := by
  simp [slot?, Option.join_eq_some_iff]

theorem lt_size_of_slot? {heap : Heap} {h : Handle} {s : Slot} (hs : heap.slot? h = some s) :
    h < heap.slots.size := by
  rw [slot?_eq_some] at hs
  exact (Array.getElem?_eq_some_iff.mp hs).1

theorem get?_eq_some {heap : Heap} {h : Handle} {o : Object} :
    heap.get? h = some o ↔ ∃ s, heap.slot? h = some s ∧ s.object = o := by
  simp [get?, Option.map_eq_some_iff]

theorem closure?_eq_some {heap : Heap} {h : Handle} {c : Closure} :
    heap.closure? h = some c ↔ heap.get? h = some (.closure c) := by
  unfold closure?
  split
  · next c' hc => rw [hc]; simp
  · next hne =>
    constructor
    · intro h'; cases h'
    · intro h'; exact absurd h' (hne c)

/-- What two heaps say of a handle agrees once the slots agree. -/
theorem get?_congr {heap heap' : Heap} {h k : Handle} (hs : heap.slot? h = heap'.slot? k) :
    heap.get? h = heap'.get? k := by
  unfold get?; rw [hs]

theorem closure?_congr {heap heap' : Heap} {h k : Handle} (hs : heap.get? h = heap'.get? k) :
    heap.closure? h = heap'.closure? k := by
  unfold closure?; rw [hs]

/-! ### Tidy heaps -/

/-- **The slots offered for use are there, unused, and offered once.** -/
structure Tidy (heap : Heap) : Prop where
  nodup : heap.free.Nodup
  lt_size : ∀ h ∈ heap.free, h < heap.slots.size
  unused : ∀ h ∈ heap.free, heap.slot? h = none

/-- The slot that the next object goes into. -/
def nextSlot (heap : Heap) : Handle := heap.free.headD heap.slots.size

@[simp] theorem allocate_fst (heap : Heap) (o : Object) (r : Option Handle) :
    (heap.allocate o r).1 = heap.nextSlot := by
  unfold allocate nextSlot
  split <;> simp_all

theorem Tidy.slot?_nextSlot {heap : Heap} (ht : heap.Tidy) : heap.slot? heap.nextSlot = none := by
  unfold nextSlot
  cases hf : heap.free with
  | nil => simp [slot?]
  | cons h free => exact ht.unused h (by simp [hf])

/-- **Placing an object changes one slot**, which was unused. -/
theorem slot?_allocate {heap : Heap} (ht : heap.Tidy) (o : Object) (r : Option Handle) (j : Handle) :
    (heap.allocate o r).2.slot? j =
      if j = heap.nextSlot then some ⟨o, false, r⟩ else heap.slot? j := by
  unfold allocate nextSlot
  cases hf : heap.free with
  | nil =>
    simp only [slot?, List.headD_nil]
    by_cases hj : j = heap.slots.size
    · subst hj; simp
    · simp [Array.getElem?_push, hj]
  | cons h free =>
    have hlt : h < heap.slots.size := ht.lt_size h (by simp [hf])
    simp only [slot?, List.headD_cons]
    rw [Array.getElem?_setIfInBounds]
    by_cases hj : j = h
    · subst hj; simp [hlt]
    · simp [hj, Ne.symm hj]

theorem size_le_allocate (heap : Heap) (o : Object) (r : Option Handle) :
    heap.slots.size ≤ (heap.allocate o r).2.slots.size := by
  unfold allocate
  split <;> simp

theorem Tidy.allocate {heap : Heap} (ht : heap.Tidy) (o : Object) (r : Option Handle) :
    (heap.allocate o r).2.Tidy := by
  have hfree : ∀ h ∈ (heap.allocate o r).2.free, h ∈ heap.free ∧ h ≠ heap.nextSlot := by
    intro h hh
    unfold Heap.allocate at hh
    unfold nextSlot
    cases hf : heap.free with
    | nil => simp [hf] at hh
    | cons a free =>
      have hnd : a ∉ free := (List.nodup_cons.mp (hf ▸ ht.nodup)).1
      simp only [hf] at hh
      exact ⟨List.mem_cons_of_mem _ hh, fun he => hnd (by simpa [he] using hh)⟩
  refine ⟨?_, fun h hh => ?_, fun h hh => ?_⟩
  · unfold Heap.allocate
    cases hf : heap.free with
    | nil => simp
    | cons a free => exact (List.nodup_cons.mp (hf ▸ ht.nodup)).2
  · exact Nat.lt_of_lt_of_le (ht.lt_size h (hfree h hh).1) (size_le_allocate heap o r)
  · rw [slot?_allocate ht, if_neg (hfree h hh).2]
    exact ht.unused h (hfree h hh).1

/-! ### Overwriting -/

/-- **Overwriting changes the object of one slot**, and only if that is no constant. -/
theorem slot?_put (heap : Heap) (h : Handle) (o : Object) (j : Handle) :
    (heap.put h o).slot? j =
      if j = h then (heap.slot? h).map fun s => if s.isConstant then s else { s with object := o }
      else heap.slot? j := by
  unfold put
  cases hs : heap.slot? h with
  | none =>
    by_cases hj : j = h
    · subst hj; simp [hs]
    · simp [hj]
  | some s =>
    have hlt := lt_size_of_slot? hs
    by_cases hc : s.isConstant
    · by_cases hj : j = h
      · subst hj; simp [hs, hc]
      · simp [hc, hj]
    · simp only [hc, Bool.false_eq_true, if_false, slot?, Option.map_some]
      rw [Array.getElem?_setIfInBounds]
      by_cases hj : j = h
      · subst hj; simp [hlt]
      · simp [hj, Ne.symm hj]

@[simp] theorem put_free (heap : Heap) (h : Handle) (o : Object) : (heap.put h o).free = heap.free := by
  unfold put; split
  · split <;> rfl
  · rfl

@[simp] theorem put_size (heap : Heap) (h : Handle) (o : Object) :
    (heap.put h o).slots.size = heap.slots.size := by
  unfold put; split
  · split <;> simp
  · rfl

theorem Tidy.put {heap : Heap} (ht : heap.Tidy) (h : Handle) (o : Object) : (heap.put h o).Tidy := by
  refine ⟨by simpa using ht.nodup, fun j hj => ?_, fun j hj => ?_⟩
  · simpa using ht.lt_size j (by simpa using hj)
  · rw [put_free] at hj
    have hnone := ht.unused j hj
    rw [slot?_put]
    by_cases hjh : j = h
    · subst hjh; simp [hnone]
    · rw [if_neg hjh, hnone]

/-! ### Constants -/

/-- The slot of a handle holds a constant. -/
def IsConstant (heap : Heap) (h : Handle) : Prop := ∃ s, heap.slot? h = some s ∧ s.isConstant = true

theorem IsConstant.allocate {heap : Heap} {h : Handle} (hc : heap.IsConstant h) (ht : heap.Tidy)
    (o : Object) (r : Option Handle) : (heap.allocate o r).2.IsConstant h := by
  obtain ⟨s, hs, hconst⟩ := hc
  refine ⟨s, ?_, hconst⟩
  rw [slot?_allocate ht, if_neg, hs]
  rintro rfl
  rw [ht.slot?_nextSlot] at hs
  cases hs

theorem IsConstant.put {heap : Heap} {h : Handle} (hc : heap.IsConstant h) (j : Handle) (o : Object) :
    (heap.put j o).IsConstant h := by
  obtain ⟨s, hs, hconst⟩ := hc
  refine ⟨s, ?_, hconst⟩
  rw [slot?_put]
  split
  · next heq => subst heq; simp [hs, hconst]
  · exact hs

theorem slot?_placeConstant (heap : Heap) (h : Handle) (c : Constant) (j : Handle) :
    (heap.placeConstant h c).slot? j =
      if j = h then some ⟨Object.ofConstant c, true, none⟩ else heap.slot? j := by
  unfold placeConstant slot?
  simp only [Array.getElem?_setIfInBounds, Array.size_append, Array.size_replicate]
  by_cases hj : j = h
  · subst hj
    have room : ∀ a b : Nat, a < b + (a + 1 - b) := by omega
    have hlt : j < heap.slots.size + (j + 1 - heap.slots.size) := room j _
    simp [hlt]
  · rw [if_neg (Ne.symm hj), if_neg hj, Array.getElem?_append]
    split
    · rfl
    · next hlt =>
      rw [Array.getElem?_replicate, Array.getElem?_eq_none (Nat.le_of_not_lt hlt)]
      split <;> rfl

/-- Constants placed one after the other, under different handles. -/
theorem slot?_foldl_placeConstant (entries : List (Handle × Constant)) (heap : Heap)
    (hn : (entries.map Prod.fst).Nodup) (j : Handle) :
    (entries.foldl (fun heap e => heap.placeConstant e.1 e.2) heap).slot? j =
      match Table.lookupEntry j entries with
      | some c => some ⟨Object.ofConstant c, true, none⟩
      | none => heap.slot? j := by
  induction entries generalizing heap with
  | nil => rfl
  | cons e entries ih =>
    obtain ⟨h, c⟩ := e
    obtain ⟨hnot, hn⟩ := List.nodup_cons.mp hn
    rw [List.foldl_cons, ih _ hn, slot?_placeConstant]
    by_cases hj : j = h
    · subst hj
      have hnone : Table.lookupEntry j entries = none := by
        cases hl : Table.lookupEntry j entries with
        | none => rfl
        | some c' =>
          exact absurd (List.mem_map.mpr ⟨(j, c'), Table.mem_entries_of_find? (t := ⟨entries⟩) hl, rfl⟩) hnot
      simp [Table.lookupEntry, hnone]
    · simp [Table.lookupEntry, hj]

/-- **The heap of a program holds its constants** and nothing else. -/
theorem slot?_ofConstants {constants : Table Handle Constant} (hn : constants.keys.Nodup) (j : Handle) :
    (ofConstants constants).slot? j =
      (constants.find? j).map fun c => ⟨Object.ofConstant c, true, none⟩ := by
  unfold ofConstants
  rw [slot?_foldl_placeConstant _ _ hn]
  unfold Table.find?
  cases Table.lookupEntry j constants.entries with
  | some c => rfl
  | none => simp [slot?]

theorem tidy_ofConstants (constants : Table Handle Constant) : (ofConstants constants).Tidy := by
  have hfree : (ofConstants constants).free = [] := by
    unfold ofConstants
    generalize hheap : ({} : Heap) = heap
    have : heap.free = [] := by rw [← hheap]
    clear hheap
    induction constants.entries generalizing heap with
    | nil => exact this
    | cons e entries ih => exact ih _ this
  constructor <;> simp [hfree]

/-! ### Marking -/

/-- Whether a handle is marked. -/
def Marked (marked : Array Bool) (h : Handle) : Prop := marked.getD h false = true

/-- **A closed set of marks** holds every object in use that a marked object refers to. -/
def Closed (heap : Heap) (marked : Array Bool) : Prop :=
  ∀ h, Marked marked h → ∀ j ∈ heap.referencesOf h, (heap.slot? j).isSome → Marked marked j

/-- The handles in use that are not marked. -/
def unmarked (heap : Heap) (marked : Array Bool) : Finset Handle :=
  (Finset.range heap.slots.size).filter fun h => heap.isUnmarked marked h

theorem isUnmarked_iff {heap : Heap} {marked : Array Bool} {h : Handle} :
    heap.isUnmarked marked h = true ↔ (heap.slot? h).isSome ∧ ¬ Marked marked h := by
  simp [isUnmarked, Marked]

theorem mem_unmarked {heap : Heap} {marked : Array Bool} {h : Handle} :
    h ∈ heap.unmarked marked ↔ (heap.slot? h).isSome ∧ ¬ Marked marked h := by
  simp only [unmarked, Finset.mem_filter, Finset.mem_range, isUnmarked_iff]
  constructor
  · exact fun hh => hh.2
  · intro hh
    obtain ⟨s, hs⟩ := Option.isSome_iff_exists.mp hh.1
    exact ⟨lt_size_of_slot? hs, hh⟩

theorem marked_set {marked : Array Bool} {h j : Handle} (hlt : h < marked.size) :
    Marked (marked.setIfInBounds h true) j ↔ j = h ∨ Marked marked j := by
  unfold Marked
  rw [Array.getD_eq_getD_getElem?, Array.getElem?_setIfInBounds]
  by_cases hj : h = j
  · subst hj; simp [hlt]
  · simp [hj, Ne.symm hj, Array.getD_eq_getD_getElem?]

theorem unmarked_set_ssubset {heap : Heap} {marked : Array Bool} {h : Handle}
    (hlt : h < marked.size) (hh : h ∈ heap.unmarked marked) :
    heap.unmarked (marked.setIfInBounds h true) ⊂ heap.unmarked marked := by
  rw [Finset.ssubset_iff_of_subset]
  · exact ⟨h, hh, by simp [mem_unmarked, marked_set hlt]⟩
  · intro j hj
    rw [mem_unmarked, marked_set hlt] at hj
    exact mem_unmarked.mpr ⟨hj.1, fun hm => hj.2 (Or.inr hm)⟩

/-- What a list of pending handles begins with and is not skipped is the first one to mark. -/
theorem dropWhile_marked (heap : Heap) (marked : Array Bool) (pending : List Handle) :
    (∀ h ∈ pending, (heap.slot? h).isSome → Marked marked h ∨
      h ∈ pending.dropWhile fun h => !heap.isUnmarked marked h) := by
  intro h hh hs
  by_cases hm : Marked marked h
  · exact Or.inl hm
  · refine Or.inr ?_
    have hsplit := List.takeWhile_append_dropWhile
      (p := fun h => !heap.isUnmarked marked h) (l := pending)
    rw [← hsplit, List.mem_append] at hh
    refine hh.resolve_left fun htake => ?_
    have hskip := List.mem_takeWhile_imp htake
    rw [Bool.not_eq_true', Bool.eq_false_iff] at hskip
    exact hskip (isUnmarked_iff.mpr ⟨hs, hm⟩)

/-- **Marking is complete.** With a round for every unmarked slot, and every reference of a marked object
marked or pending, marking ends with a closed set that has the old marks and the pending handles. -/
theorem mark_complete (heap : Heap) :
    ∀ (fuel : Nat) (marked : Array Bool) (pending : List Handle),
      marked.size = heap.slots.size → (heap.unmarked marked).card ≤ fuel →
      (∀ h, Marked marked h → ∀ j ∈ heap.referencesOf h, (heap.slot? j).isSome →
        Marked marked j ∨ j ∈ pending) →
      (∀ h, Marked marked h → Marked (heap.mark fuel marked pending) h) ∧
      (∀ h ∈ pending, (heap.slot? h).isSome → Marked (heap.mark fuel marked pending) h) ∧
      heap.Closed (heap.mark fuel marked pending) := by
  intro fuel
  induction fuel with
  | zero =>
    -- nothing in use is unmarked, so every set of references is marked
    intro marked pending _ hcard _
    have hall : ∀ h, (heap.slot? h).isSome → Marked marked h := by
      intro h hs
      by_contra hm
      have := Finset.card_pos.mpr ⟨h, mem_unmarked.mpr ⟨hs, hm⟩⟩
      omega
    exact ⟨fun _ hm => hm, fun h _ hs => hall h hs, fun _ _ j _ hs => hall j hs⟩
  | succ fuel ih =>
    intro marked pending hsize hcard hinv
    have hdrop := heap.dropWhile_marked marked pending
    cases hd : pending.dropWhile fun h => !heap.isUnmarked marked h with
    | nil =>
      rw [hd] at hdrop
      have hpend : ∀ h ∈ pending, (heap.slot? h).isSome → Marked marked h :=
        fun h hh hs => (hdrop h hh hs).resolve_right (by simp)
      have hmark : heap.mark (fuel + 1) marked pending = marked := by
        rw [mark, hd]
      rw [hmark]
      exact ⟨fun _ hm => hm, hpend, fun h hm j hj hs =>
        (hinv h hm j hj hs).elim id fun hp => hpend j hp hs⟩
    | cons h rest =>
      rw [hd] at hdrop
      have hun : heap.isUnmarked marked h = true := by
        have := List.head?_dropWhile_not (fun h => !heap.isUnmarked marked h) pending
        simpa [hd] using this
      obtain ⟨hslot, hnot⟩ := isUnmarked_iff.mp hun
      have hlt : h < marked.size := by
        obtain ⟨s, hs⟩ := Option.isSome_iff_exists.mp hslot
        exact hsize ▸ lt_size_of_slot? hs
      have hmark : heap.mark (fuel + 1) marked pending =
          heap.mark fuel (marked.setIfInBounds h true) (heap.referencesOf h ++ rest) := by
        rw [mark, hd]
      have hless := Finset.card_lt_card
        (unmarked_set_ssubset hlt (mem_unmarked.mpr ⟨hslot, hnot⟩))
      -- the references of `h` are pending now, and nothing that was pending is lost
      obtain ⟨hold, hpend, hclosed⟩ := ih (marked.setIfInBounds h true) (heap.referencesOf h ++ rest)
        (by simpa using hsize) (by omega) (by
          intro a ha j hj hs
          rw [marked_set hlt] at ha ⊢
          rcases ha with rfl | ha
          · exact Or.inr (List.mem_append_left _ hj)
          · rcases hinv a ha j hj hs with hm | hp
            · exact Or.inl (Or.inr hm)
            · rcases hdrop j hp hs with hm | hp
              · exact Or.inl (Or.inr hm)
              · rcases List.mem_cons.mp hp with rfl | hp
                · exact Or.inl (Or.inl rfl)
                · exact Or.inr (List.mem_append_right _ hp))
      rw [hmark]
      have hself : Marked (heap.mark fuel (marked.setIfInBounds h true)
          (heap.referencesOf h ++ rest)) h := hold h ((marked_set hlt).mpr (Or.inl rfl))
      refine ⟨fun a ha => hold a ((marked_set hlt).mpr (Or.inr ha)), fun a ha hs => ?_, hclosed⟩
      rcases hdrop a ha hs with hm | hp
      · exact hold a ((marked_set hlt).mpr (Or.inr hm))
      · rcases List.mem_cons.mp hp with rfl | hp
        · exact hself
        · exact hpend a (List.mem_append_right _ hp) hs

/-! ### Collection -/

theorem not_marked_replicate (n : Nat) (h : Handle) : ¬ Marked (Array.replicate n false) h := by
  unfold Marked
  rw [Array.getD_eq_getD_getElem?, Array.getElem?_replicate]
  split <;> simp

theorem reachable_complete (heap : Heap) (roots : List Handle) :
    (∀ h ∈ roots ++ heap.constantHandles, (heap.slot? h).isSome → Marked (heap.reachable roots) h) ∧
    heap.Closed (heap.reachable roots) := by
  have hcard : (heap.unmarked (Array.replicate heap.slots.size false)).card ≤ heap.slots.size := by
    calc (heap.unmarked _).card ≤ (Finset.range heap.slots.size).card :=
          Finset.card_le_card (Finset.filter_subset _ _)
      _ = heap.slots.size := Finset.card_range _
  have := mark_complete heap heap.slots.size (Array.replicate heap.slots.size false)
    (roots ++ heap.constantHandles) (by simp) hcard
    (fun h hm => absurd hm (not_marked_replicate _ h))
  exact ⟨this.2.1, this.2.2⟩

/-- **Whatever the roots refer to is marked.** -/
theorem reachable_root {heap : Heap} {roots : List Handle} {h : Handle} (hh : h ∈ roots)
    (hs : (heap.slot? h).isSome) : Marked (heap.reachable roots) h :=
  (reachable_complete heap roots).1 h (List.mem_append_left _ hh) hs

/-- Whatever a marked object refers to is marked. -/
theorem reachable_closed (heap : Heap) (roots : List Handle) : heap.Closed (heap.reachable roots) :=
  (reachable_complete heap roots).2

theorem mem_garbage {heap : Heap} {marked : Array Bool} {h : Handle} :
    h ∈ heap.garbage marked ↔
      ∃ s, heap.slot? h = some s ∧ s.isConstant = false ∧ ¬ Marked marked h := by
  simp only [garbage, List.mem_filter, List.mem_range, Option.any_eq_true, Bool.and_eq_true,
    Bool.not_eq_true', Marked, Bool.not_eq_true]
  constructor
  · rintro ⟨_, s, hs⟩; exact ⟨s, hs⟩
  · rintro ⟨s, hs⟩; exact ⟨lt_size_of_slot? hs.1, s, hs⟩

/-- A list of slots set free one after the other. -/
theorem getElem?_foldl_free (slots : Array (Option Slot)) (garbage : List Handle) (j : Handle) :
    (garbage.foldl (fun slots h => slots.setIfInBounds h none) slots)[j]? =
      if j ∈ garbage ∧ j < slots.size then some none else slots[j]? := by
  induction garbage generalizing slots with
  | nil => simp
  | cons h rest ih =>
    rw [List.foldl_cons, ih, Array.getElem?_setIfInBounds, Array.size_setIfInBounds]
    by_cases hj : h = j
    · subst hj
      by_cases hlt : h < slots.size <;> simp [hlt]
    · simp [hj, Ne.symm hj]

/-- **Collecting empties the slots of the garbage** and leaves all others alone. -/
theorem slot?_collect (heap : Heap) (roots : List Handle) (j : Handle) :
    (heap.collect roots).2.slot? j =
      if j ∈ heap.garbage (heap.reachable roots) then none else heap.slot? j := by
  unfold collect sweep slot?
  simp only
  rw [getElem?_foldl_free]
  by_cases hg : j ∈ heap.garbage (heap.reachable roots)
  · obtain ⟨s, hs, -⟩ := mem_garbage.mp hg
    simp [hg, lt_size_of_slot? hs]
  · simp [hg]

/-- What is marked stays. -/
theorem slot?_collect_of_marked {heap : Heap} {roots : List Handle} {j : Handle}
    (hm : Marked (heap.reachable roots) j) : (heap.collect roots).2.slot? j = heap.slot? j := by
  rw [slot?_collect, if_neg]
  intro hg
  obtain ⟨_, _, _, hnot⟩ := mem_garbage.mp hg
  exact hnot hm

/-- Constants stay. -/
theorem marked_of_isConstant {heap : Heap} {roots : List Handle} {j : Handle} {s : Slot}
    (hs : heap.slot? j = some s) (hc : s.isConstant = true) : Marked (heap.reachable roots) j := by
  refine (reachable_complete heap roots).1 j (List.mem_append_right _ ?_) (by simp [hs])
  simp [constantHandles, hs, hc, lt_size_of_slot? hs]

theorem collect_size (heap : Heap) (roots : List Handle) :
    (heap.collect roots).2.slots.size = heap.slots.size := by
  unfold collect sweep
  simp only
  generalize heap.garbage (heap.reachable roots) = garbage
  generalize heap.slots = slots
  induction garbage generalizing slots with
  | nil => rfl
  | cons h rest ih => rw [List.foldl_cons, ih, Array.size_setIfInBounds]

theorem Tidy.collect {heap : Heap} (ht : heap.Tidy) (roots : List Handle) :
    (heap.collect roots).2.Tidy := by
  have hmem : ∀ h, h ∈ (heap.collect roots).2.free ↔
      h ∈ heap.garbage (heap.reachable roots) ∨ h ∈ heap.free := by
    intro h; simp [Heap.collect, sweep]
  refine ⟨?_, fun h hh => ?_, fun h hh => ?_⟩
  · -- a slot in use is not offered yet, so no slot is offered twice
    have hg : (heap.garbage (heap.reachable roots)).Nodup := List.nodup_range.filter _
    refine List.Nodup.append (List.nodup_reverse.mpr hg) ht.nodup ?_
    intro h hh hf
    obtain ⟨s, hs, -⟩ := mem_garbage.mp (List.mem_reverse.mp hh)
    simp [ht.unused h hf] at hs
  · rw [collect_size]
    rcases (hmem h).mp hh with hg | hf
    · obtain ⟨s, hs, -⟩ := mem_garbage.mp hg
      exact lt_size_of_slot? hs
    · exact ht.lt_size h hf
  · rw [slot?_collect]
    rcases (hmem h).mp hh with hg | hf
    · rw [if_pos hg]
    · rw [ht.unused h hf, ite_self]

end SchemeMachine.Heap
