import Mathlib.Data.List.Count
import Mathlib.Data.List.Nodup
import Mathlib.Data.List.Perm.Subperm
import SchemeMachine.Module

/-!
# The order of modules

Modules are taken in turn, each once all that it imports has been taken. An order that comes out therefore lists every
module once, after all modules that it imports.

* `Module.Closed` says that a list of modules has what each of them imports in front of it.
* `Module.Progress` is the invariant of the loop, `Module.Progress.discharge` keeps it for one import that is counted as
  done, `Module.Progress.take` for one module that is taken.
* `Module.order_perm` and `Module.order_idxOf_lt` are the results.
-/

namespace SchemeMachine.Module

variable {modules : Array Module} {left : Array Nat} {taken ready : List Nat}

/-- The modules that a module imports, once for every alias. -/
def importsOf (modules : Array Module) (i : Nat) : List Nat := ((modules[i]?).map (·.imports.values)).getD []

/-- How many imports of a module are open, given the modules that have been taken. -/
def openImports (modules : Array Module) (taken : List Nat) (i : Nat) : Nat :=
  (importsOf modules i).countP fun target => target ∉ taken

/-- **What each module of a list imports stands in front of it.** -/
def Closed (modules : Array Module) (ids : List Nat) : Prop :=
  ∀ before i after, ids = before ++ i :: after → ∀ target ∈ importsOf modules i, target ∈ before

theorem Closed.append {ids : List Nat} {i : Nat} (h : Closed modules ids)
    (hi : ∀ target ∈ importsOf modules i, target ∈ ids) : Closed modules (ids ++ [i]) := by
  intro before j after heq target htarget
  rcases List.append_eq_append_iff.mp heq with ⟨others, rfl, hothers⟩ | ⟨others, rfl, hothers⟩
  · cases others with
    | nil =>
      cases hothers
      simpa using hi target htarget
    | cons k others =>
      simp at hothers
  · cases others with
    | nil =>
      cases hothers
      simpa using hi target htarget
    | cons k others =>
      obtain ⟨rfl, rfl⟩ := List.cons.inj hothers
      exact h before j others rfl target htarget

theorem Closed.of_append {ids others : List Nat} (h : Closed modules (ids ++ others)) : Closed modules ids := by
  rintro before i after rfl
  exact h before i (after ++ others) (by simp)

/-- **The state of the loop**: `taken` have been taken, `ready` can be, and `left` counts what is open, apart from the
imports of `pending`, which are about to be counted as done. -/
structure Progress (modules : Array Module) (taken : List Nat) (pending : List Nat) (left : Array Nat)
    (ready : List Nat) : Prop where
  size : left.size = modules.size
  nodup : (taken ++ ready).Nodup
  known : ∀ i ∈ taken ++ ready, i < modules.size
  closed : Closed modules (taken ++ ready)
  counts : ∀ i, i < modules.size → left.getD i 0 = openImports modules taken i + pending.count i
  settled : ∀ i, i < modules.size → (left.getD i 0 = 0 ↔ i ∈ taken ++ ready)

theorem getD_setIfInBounds {xs : Array Nat} {i j v : Nat} (hi : i < xs.size) :
    (xs.setIfInBounds i v).getD j 0 = if j = i then v else xs.getD j 0 := by
  simp only [Array.getD_eq_getD_getElem?, Array.getElem?_setIfInBounds]
  by_cases hj : i = j
  · subst hj
    simp [hi]
  · simp [hj, Ne.symm hj]

/-- **One import is counted as done.** A module whose last open import it was becomes ready. -/
theorem Progress.discharge {d : Nat} {pending : List Nat} (h : Progress modules taken (d :: pending) left ready)
    (hd : d < modules.size) :
    Progress modules taken pending (Module.discharge (left, ready) d).1 (Module.discharge (left, ready) d).2 := by
  have hcount := h.counts d hd
  rw [List.count_cons_self] at hcount
  have hnew : d ∉ taken ++ ready := fun hmem => by
    have := (h.settled d hd).mpr hmem
    omega
  have hget : ∀ j, (left.setIfInBounds d (left.getD d 0 - 1)).getD j 0 =
      if j = d then left.getD d 0 - 1 else left.getD j 0 :=
    fun j => getD_setIfInBounds (h.size ▸ hd)
  have hcounts : ∀ i, i < modules.size →
      (left.setIfInBounds d (left.getD d 0 - 1)).getD i 0 = openImports modules taken i + pending.count i := by
    intro i hi
    rw [hget]
    split
    · next heq =>
      subst heq
      omega
    · next hne =>
      rw [h.counts i hi, List.count_cons_of_ne (Ne.symm hne)]
  simp only [Module.discharge]
  split
  · next hzero =>
    -- the imports of `d` have all been taken
    have hopen : ∀ target ∈ importsOf modules d, target ∈ taken ++ ready := by
      have hnone : openImports modules taken d = 0 := by omega
      intro target htarget
      have hmem := List.countP_eq_zero.mp hnone target htarget
      simp only [decide_not, Bool.not_eq_true', decide_eq_false_iff_not, Decidable.not_not] at hmem
      exact List.mem_append_left _ hmem
    refine ⟨by simpa using h.size, ?_, ?_, ?_, hcounts, fun i hi => ?_⟩
    · rw [← List.append_assoc]
      exact List.nodup_append.mpr ⟨h.nodup, List.nodup_singleton d, fun a ha b hb => by
        rw [List.mem_singleton.mp hb]
        rintro rfl
        exact hnew ha⟩
    · intro i hi
      rw [← List.append_assoc, List.mem_append, List.mem_singleton] at hi
      exact hi.elim (h.known i) fun heq => heq ▸ hd
    · rw [← List.append_assoc]
      exact h.closed.append hopen
    · rw [hget, ← List.append_assoc, List.mem_append, List.mem_singleton, ← h.settled i hi]
      split
      · next heq => exact iff_of_true hzero (Or.inr heq)
      · next hne => simp [hne]
  · next hpositive =>
    refine ⟨by simpa using h.size, h.nodup, h.known, h.closed, hcounts, fun i hi => ?_⟩
    rw [hget]
    split
    · next heq =>
      subst heq
      exact iff_of_false hpositive hnew
    · exact h.settled i hi

theorem Progress.dischargeAll {pending : List Nat} (h : Progress modules taken pending left ready)
    (hpending : ∀ d ∈ pending, d < modules.size) :
    Progress modules taken [] (pending.foldl Module.discharge (left, ready)).1
      (pending.foldl Module.discharge (left, ready)).2 := by
  induction pending generalizing left ready with
  | nil => exact h
  | cons d pending ih =>
    rw [List.foldl_cons]
    exact ih (h.discharge (hpending d List.mem_cons_self)) fun e he => hpending e (List.mem_cons_of_mem d he)

theorem lt_of_mem_dependentsOf {target d : Nat} (h : d ∈ dependentsOf modules target) : d < modules.size := by
  obtain ⟨i, hi, hd⟩ := List.mem_flatMap.mp h
  split at hd
  · obtain ⟨-, -, rfl⟩ := List.mem_map.mp hd
    exact List.mem_range.mp hi
  · cases hd

/-- What a module adds to those that depend on another: itself, as often as it imports that. -/
theorem count_importing {target i : Nat} (hi : i < modules.size) (j : Nat) :
    (match modules[j]? with
      | some m => (m.imports.values.filter (· = target)).map fun _ => j
      | none => []).count i = if j = i then (importsOf modules i).count target else 0 := by
  by_cases hj : j = i
  · subst hj
    rw [if_pos rfl, importsOf, Array.getElem?_eq_getElem hi]
    simp only [Option.map_some, Option.getD_some, List.map_const', List.count_replicate_self]
    rw [List.count_eq_countP, List.countP_eq_length_filter]
    rfl
  · rw [if_neg hj]
    split
    · exact List.count_eq_zero.mpr fun hmem => by
        obtain ⟨-, -, rfl⟩ := List.mem_map.mp hmem
        exact hj rfl
    · rfl

/-- A number that each of some lists repeats only if it is its own is counted once. -/
theorem count_flatMap {f : Nat → List Nat} {i k : Nat} (hf : ∀ j, (f j).count i = if j = i then k else 0)
    {ids : List Nat} (hids : ids.Nodup) : (ids.flatMap f).count i = if i ∈ ids then k else 0 := by
  induction ids with
  | nil => rfl
  | cons j ids ih =>
    obtain ⟨hj, hids⟩ := List.nodup_cons.mp hids
    rw [List.flatMap_cons, List.count_append, hf, ih hids]
    by_cases heq : j = i
    · subst heq
      simp [hj]
    · simp [heq, Ne.symm heq]

/-- A module depends on another as often as it imports it. -/
theorem count_dependentsOf {target i : Nat} (hi : i < modules.size) :
    (dependentsOf modules target).count i = (importsOf modules i).count target := by
  -- each module is looked at once
  exact (count_flatMap (count_importing hi) List.nodup_range).trans (if_pos (List.mem_range.mpr hi))

/-- Taking a module closes the imports of it. -/
theorem openImports_append {id i : Nat} (hid : id ∉ taken) :
    openImports modules taken i = openImports modules (taken ++ [id]) i + (importsOf modules i).count id := by
  unfold openImports
  induction importsOf modules i with
  | nil => rfl
  | cons target targets ih =>
    rw [List.countP_cons, List.countP_cons, List.count_cons, ih]
    by_cases heq : target = id
    · subst heq
      simp [hid]
      omega
    · by_cases hmem : target ∈ taken
      · simp [heq, hmem]
      · simp [heq, hmem]
        omega

/-- A module leaves the list; the imports of it are about to be counted as done. -/
theorem Progress.pop {id : Nat} (h : Progress modules taken [] left (id :: ready)) :
    Progress modules (taken ++ [id]) (dependentsOf modules id) left ready := by
  have hsplit : taken ++ id :: ready = taken ++ [id] ++ ready := by simp
  have hid : id ∉ taken := fun hmem =>
    (List.nodup_append.mp h.nodup).2.2 id hmem id List.mem_cons_self rfl
  refine ⟨h.size, hsplit ▸ h.nodup, hsplit ▸ h.known, hsplit ▸ h.closed, fun i hi => ?_, fun i hi => hsplit ▸ h.settled i hi⟩
  rw [h.counts i hi, List.count_nil, Nat.add_zero, openImports_append hid, count_dependentsOf hi]

/-- **One module is taken.** -/
theorem Progress.take {id : Nat} (h : Progress modules taken [] left (id :: ready)) :
    Progress modules (taken ++ [id]) [] ((dependentsOf modules id).foldl Module.discharge (left, ready)).1
      ((dependentsOf modules id).foldl Module.discharge (left, ready)).2 :=
  h.pop.dischargeAll fun _ hd => lt_of_mem_dependentsOf hd

/-- **What the loop takes** is in order, with what was taken before. -/
theorem Progress.orderFrom (h : Progress modules taken [] left ready) (fuel : Nat) :
    (taken ++ orderFrom modules fuel left ready).Nodup ∧
      (∀ i ∈ taken ++ Module.orderFrom modules fuel left ready, i < modules.size) ∧
      Closed modules (taken ++ Module.orderFrom modules fuel left ready) := by
  induction fuel generalizing taken left ready with
  | zero =>
    rw [Module.orderFrom, List.append_nil]
    exact ⟨(List.nodup_append.mp h.nodup).1, fun i hi => h.known i (List.mem_append_left _ hi), h.closed.of_append⟩
  | succ fuel ih =>
    cases ready with
    | nil =>
      rw [Module.orderFrom]
      · exact ⟨h.nodup, h.known, h.closed⟩
      · exact nofun
    | cons id ready =>
      have hrest := ih h.take
      rw [List.append_assoc, List.singleton_append] at hrest
      exact hrest

/-- At first nothing has been taken, and the modules without imports are ready. -/
theorem progress_start (modules : Array Module) :
    Progress modules [] [] (modules.map fun m => m.imports.size)
      ((List.range modules.size).filter fun i => (modules.map fun m => m.imports.size).getD i 0 = 0) := by
  have hleft : ∀ i, i < modules.size → (modules.map fun m => m.imports.size).getD i 0 = (importsOf modules i).length := by
    intro i hi
    simp [Array.getD_eq_getD_getElem?, importsOf, hi, Table.size, Table.values]
  have hready : ∀ {i}, i ∈ (List.range modules.size).filter
      (fun i => (modules.map fun m => m.imports.size).getD i 0 = 0) → importsOf modules i = [] := by
    intro i hmem
    obtain ⟨hi, hzero⟩ := List.mem_filter.mp hmem
    rw [decide_eq_true_iff, hleft i (List.mem_range.mp hi)] at hzero
    exact List.length_eq_zero_iff.mp hzero
  refine ⟨Array.size_map, List.nodup_range.filter _, fun i hi => ?_, fun before i after heq target htarget => ?_,
    fun i hi => ?_, fun i hi => ?_⟩
  · exact List.mem_range.mp (List.mem_of_mem_filter hi)
  · have hmem : i ∈ before ++ i :: after := by simp
    rw [← heq, List.nil_append] at hmem
    rw [hready hmem] at htarget
    cases htarget
  · rw [hleft i hi]
    simp [openImports]
  · rw [List.nil_append, List.mem_filter, List.mem_range, decide_eq_true_iff]
    exact ⟨fun h => ⟨hi, h⟩, fun h => h.2⟩

/-- An order that comes out is what the loop takes, and it is complete. -/
theorem order_eq_ok {sorted : List Nat} (h : order modules = .ok sorted) :
    sorted.Perm (List.range modules.size) ∧ Closed modules sorted := by
  obtain ⟨hnodup, hknown, hclosed⟩ := (progress_start modules).orderFrom modules.size
  simp only [List.nil_append] at hnodup hknown hclosed
  unfold order at h
  dsimp only at h
  split at h
  · cases h
  · next hlength =>
    cases h
    refine ⟨(List.subperm_of_subset hnodup fun i hi => List.mem_range.mpr (hknown i hi)).perm_of_length_le ?_, hclosed⟩
    rw [List.length_range]
    exact Nat.le_of_not_lt hlength

/-- **Every module is linked once.** -/
theorem order_perm {sorted : List Nat} (h : order modules = .ok sorted) : sorted.Perm (List.range modules.size) :=
  (order_eq_ok h).1

/-- **A module is linked after all that it imports.** -/
theorem order_idxOf_lt {sorted : List Nat} (h : order modules = .ok sorted) {i target : Nat} (hi : i < modules.size)
    (htarget : target ∈ importsOf modules i) : sorted.idxOf target < sorted.idxOf i := by
  obtain ⟨hperm, hclosed⟩ := order_eq_ok h
  have hmem : i ∈ sorted := hperm.mem_iff.mpr (List.mem_range.mpr hi)
  obtain ⟨before, after, rfl⟩ := List.append_of_mem hmem
  have hnodup : (before ++ i :: after).Nodup := hperm.nodup_iff.mpr List.nodup_range
  have hbefore := hclosed before i after rfl target htarget
  have hnot : i ∉ before := fun hmem => (List.nodup_append.mp hnodup).2.2 i hmem i List.mem_cons_self rfl
  rw [List.idxOf_append_of_mem hbefore, List.idxOf_append_of_notMem hnot, List.idxOf_cons_self, Nat.add_zero]
  exact List.idxOf_lt_length_of_mem hbefore

end SchemeMachine.Module
