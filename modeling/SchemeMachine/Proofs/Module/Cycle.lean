import Mathlib.Data.Fintype.Card
import Mathlib.Data.Set.Finite.Lattice
import Mathlib.Data.String.Basic
import Mathlib.Logic.Relation
import Mathlib.Order.WellFounded
import SchemeMachine.Proofs.Module.Order

/-!
# Modules that cannot be ordered

The order of modules fails exactly if modules import each other in a circle, and what it then names are the modules from
which such a circle can be reached.

* `Module.LeadsToCycle` says that steps of a relation lead into a circle. In a finite set in which there is always
  another step they do (`Module.leadsToCycle_of_finite`); in a list that has the imports of each module in front of it they
  do not (`Module.Closed.not_leadsToCycle`).
* `Module.mem_waiting_iff`: what the loop leaves over are the modules that lead into a circle.
* `Module.orderFrom?` is the loop with counters that may not go below zero, and `Module.Progress.orderFrom?_eq` says that
  they never do.
-/

namespace SchemeMachine.Module

variable {modules : Array Module} {left : Array Nat} {taken ready : List Nat}

/-! ### Circles -/

/-- **Steps lead into a circle.** -/
def LeadsToCycle {α : Type} (r : α → α → Prop) (a : α) : Prop :=
  ∃ b, Relation.ReflTransGen r a b ∧ Relation.TransGen r b b

/-- In a finite set in which every member has a step to another one, steps lead into a circle. -/
theorem leadsToCycle_of_finite {α : Type} {r : α → α → Prop} {s : Set α} (hs : s.Finite)
    (hstep : ∀ a ∈ s, ∃ b ∈ s, r a b) {a : α} (ha : a ∈ s) : LeadsToCycle r a := by
  by_contra hno
  -- without a circle the members that can be reached are well-founded, and a least one has no step
  let Reached : Type := { b : s // Relation.ReflTransGen r a b.1 }
  let Later : Reached → Reached → Prop := fun x y => Relation.TransGen r y.1.1 x.1.1
  have : Finite s := hs
  have : Finite Reached := inferInstanceAs (Finite { b : s // Relation.ReflTransGen r a b.1 })
  have : IsTrans Reached Later := ⟨fun x y z hxy hyz => hyz.trans hxy⟩
  have : Std.Irrefl Later := ⟨fun x hx => hno ⟨x.1.1, x.2, hx⟩⟩
  have hwf : WellFounded Later := Finite.wellFounded_of_trans_of_irrefl Later
  obtain ⟨least, -, hleast⟩ := hwf.has_min Set.univ ⟨⟨⟨a, ha⟩, .refl⟩, trivial⟩
  obtain ⟨next, hnext, hr⟩ := hstep least.1.1 least.1.2
  exact hleast ⟨⟨next, hnext⟩, least.2.tail hr⟩ trivial (.single hr)

/-- A module imports another. -/
def Imports (modules : Array Module) (i j : Nat) : Prop := j ∈ importsOf modules i

theorem Closed.idxOf_lt {ids : List Nat} (h : Closed modules ids) (hnodup : ids.Nodup) {i j : Nat} (hi : i ∈ ids)
    (hj : Imports modules i j) : j ∈ ids ∧ ids.idxOf j < ids.idxOf i := by
  obtain ⟨before, after, rfl⟩ := List.append_of_mem hi
  have hbefore := h before i after rfl j hj
  have hnot : i ∉ before := fun hmem => (List.nodup_append.mp hnodup).2.2 i hmem i List.mem_cons_self rfl
  refine ⟨List.mem_append_left _ hbefore, ?_⟩
  rw [List.idxOf_append_of_mem hbefore, List.idxOf_append_of_notMem hnot, List.idxOf_cons_self, Nat.add_zero]
  exact List.idxOf_lt_length_of_mem hbefore

/-- **What is in order does not lead into a circle**: along imports the place in the list goes down. -/
theorem Closed.not_leadsToCycle {ids : List Nat} (h : Closed modules ids) (hnodup : ids.Nodup) {i : Nat} (hi : i ∈ ids) :
    ¬LeadsToCycle (Imports modules) i := by
  rintro ⟨k, hreach, hcycle⟩
  have hk : k ∈ ids := by
    clear hcycle
    induction hreach with
    | refl => exact hi
    | tail _ hstep ih => exact (h.idxOf_lt hnodup ih hstep).1
  have hdown : ∀ {j}, Relation.TransGen (Imports modules) k j → j ∈ ids ∧ ids.idxOf j < ids.idxOf k := by
    intro j hj
    induction hj with
    | single hstep => exact h.idxOf_lt hnodup hk hstep
    | tail _ hstep ih =>
      obtain ⟨hmem, hlt⟩ := h.idxOf_lt hnodup ih.1 hstep
      exact ⟨hmem, hlt.trans ih.2⟩
  exact absurd (hdown hcycle).2 (Nat.lt_irrefl _)

/-! ### What is left over -/

/-- **The loop leaves only what has an import left over.** -/
theorem Progress.stuck (h : Progress modules taken [] left ready) {fuel : Nat} (hfuel : taken.length + fuel = modules.size)
    {i : Nat} (hi : i < modules.size) (hnot : i ∉ taken ++ Module.orderFrom modules fuel left ready) :
    ∃ target ∈ importsOf modules i, target ∉ taken ++ Module.orderFrom modules fuel left ready := by
  induction fuel generalizing taken left ready with
  | zero =>
    -- as many as there are have been taken
    have hnodup := (List.nodup_append.mp h.nodup).1
    have hsubset : ∀ j ∈ taken, j ∈ List.range modules.size := fun j hj =>
      List.mem_range.mpr (h.known j (List.mem_append_left _ hj))
    have hperm := (List.subperm_of_subset hnodup hsubset).perm_of_length_le (by rw [List.length_range]; omega)
    exact absurd (List.mem_append_left _ (hperm.mem_iff.mpr (List.mem_range.mpr hi))) hnot
  | succ fuel ih =>
    cases ready with
    | nil =>
      rw [Module.orderFrom] at hnot ⊢
      · rw [List.append_nil] at hnot ⊢
        have hopen : 0 < openImports modules taken i := by
          have hleft := (h.settled i hi).not.mpr (by rwa [List.append_nil])
          have hcounts := h.counts i hi
          rw [List.count_nil] at hcounts
          omega
        obtain ⟨target, htarget, hfree⟩ := List.countP_pos_iff.mp hopen
        exact ⟨target, htarget, of_decide_eq_true hfree⟩
      · simp
      · simp
    | cons id ready =>
      have hrest := ih h.take (by rw [List.length_append, List.length_singleton]; omega)
      rw [List.append_assoc, List.singleton_append] at hrest
      exact hrest hnot

/-- What the loop takes of all modules. -/
def taking (modules : Array Module) : List Nat :=
  orderFrom modules modules.size (modules.map fun m => m.imports.size)
    ((List.range modules.size).filter fun i => (modules.map fun m => m.imports.size).getD i 0 = 0)

/-- **What the loop takes are the modules that do not lead into a circle.** -/
theorem mem_taking_iff (hknown : ∀ i, i < modules.size → ∀ j ∈ importsOf modules i, j < modules.size) {i : Nat}
    (hi : i < modules.size) : i ∈ taking modules ↔ ¬LeadsToCycle (Imports modules) i := by
  have hstart := progress_start modules
  obtain ⟨hnodup, -, hclosed⟩ := hstart.orderFrom modules.size
  constructor
  · exact hclosed.not_leadsToCycle hnodup
  · intro hno
    by_contra hleft
    have hfinite : { j | j < modules.size ∧ j ∉ taking modules }.Finite :=
      (Set.finite_lt_nat modules.size).subset fun j hj => hj.1
    refine hno (leadsToCycle_of_finite hfinite ?_ ⟨hi, hleft⟩)
    rintro j ⟨hj, hnot⟩
    obtain ⟨target, htarget, hfree⟩ := hstart.stuck (Nat.zero_add _) hj hnot
    exact ⟨target, ⟨hknown j hj target htarget, hfree⟩, htarget⟩

theorem taking_nodup (modules : Array Module) : (taking modules).Nodup :=
  ((progress_start modules).orderFrom modules.size).1

theorem lt_of_mem_taking {i : Nat} (h : i ∈ taking modules) : i < modules.size :=
  ((progress_start modules).orderFrom modules.size).2.1 i h

/-- Either all modules are taken, or one is left over. -/
theorem length_taking_lt_iff : (taking modules).length < modules.size ↔ ∃ i, i < modules.size ∧ i ∉ taking modules := by
  have hsubset : ∀ j ∈ taking modules, j ∈ List.range modules.size := fun j hj => List.mem_range.mpr (lt_of_mem_taking hj)
  have hsubperm := List.subperm_of_subset (taking_nodup modules) hsubset
  constructor
  · intro hlt
    by_contra hall
    have hle := (List.subperm_of_subset List.nodup_range fun i hi => by
      by_contra hnot
      exact hall ⟨i, List.mem_range.mp hi, hnot⟩ : (List.range modules.size).Subperm (taking modules)).length_le
    rw [List.length_range] at hle
    omega
  · rintro ⟨i, hi, hnot⟩
    by_contra hge
    have hperm := hsubperm.perm_of_length_le (by rw [List.length_range]; omega)
    exact hnot (hperm.mem_iff.mpr (List.mem_range.mpr hi))

/-- **Modules that lead into no circle can be ordered.** -/
theorem order_of_acyclic (hknown : ∀ i, i < modules.size → ∀ j ∈ importsOf modules i, j < modules.size)
    (h : ∀ i, i < modules.size → ¬LeadsToCycle (Imports modules) i) : order modules = .ok (taking modules) := by
  refine if_neg fun hlt => ?_
  obtain ⟨i, hi, hnot⟩ := length_taking_lt_iff.mp hlt
  exact hnot ((mem_taking_iff hknown hi).mpr (h i hi))

/-- **Modules one of which leads into a circle cannot**, and those that do are named. -/
theorem order_of_cyclic (hknown : ∀ i, i < modules.size → ∀ j ∈ importsOf modules i, j < modules.size)
    (hdistinct : ∀ (i j : Nat) (m m' : Module), modules[i]? = some m → modules[j]? = some m' → m.name = m'.name → i = j)
    (h : ∃ i, i < modules.size ∧ LeadsToCycle (Imports modules) i) :
    ∃ names, order modules = .error (.circular names) ∧ names.Pairwise (· ≤ ·) ∧ names.Nodup ∧
      ∀ name, name ∈ names ↔
        ∃ (i : Nat) (m : Module), modules[i]? = some m ∧ m.name = name ∧ LeadsToCycle (Imports modules) i := by
  have hlt : (taking modules).length < modules.size := by
    obtain ⟨i, hi, hcycle⟩ := h
    exact length_taking_lt_iff.mpr ⟨i, hi, fun hmem => (mem_taking_iff hknown hi).mp hmem hcycle⟩
  -- those that are never taken are those that lead to a cycle
  set waiting := (List.range modules.size).filter fun i => !(taking modules).contains i with hwaiting
  have hmem : ∀ i, i ∈ waiting ↔ i < modules.size ∧ LeadsToCycle (Imports modules) i := by
    intro i
    rw [hwaiting, List.mem_filter, List.mem_range, Bool.not_eq_true', List.contains_eq_mem, decide_eq_false_iff_not]
    exact and_congr_right fun hi => by rw [mem_taking_iff hknown hi, not_not]
  refine ⟨_, if_pos hlt, ?_, ?_, fun name => ?_⟩
  · refine (List.pairwise_mergeSort ?_ ?_ _).imp fun hle => of_decide_eq_true hle
    · simpa using fun a b c => le_trans
    · simpa using le_total
  · rw [(List.mergeSort_perm _ _).nodup_iff]
    refine (List.nodup_range.filter _).filterMap fun i j name hi hj => ?_
    obtain ⟨m, hm, hname⟩ := Option.map_eq_some_iff.mp hi
    obtain ⟨m', hm', hname'⟩ := Option.map_eq_some_iff.mp hj
    exact hdistinct i j m m' hm hm' (hname.trans hname'.symm)
  · rw [List.mem_mergeSort, List.mem_filterMap]
    constructor
    · rintro ⟨i, hi, hname⟩
      obtain ⟨m, hm, hname⟩ := Option.map_eq_some_iff.mp hname
      exact ⟨i, m, hm, hname, ((hmem i).mp hi).2⟩
    · rintro ⟨i, m, hm, hname, hcycle⟩
      exact ⟨i, (hmem i).mpr ⟨(Array.getElem?_eq_some_iff.mp hm).1, hcycle⟩, by rw [hm, Option.map_some, hname]⟩

/-! ### Counters -/

/-- Count one import of a module as done, if there is one to be counted. -/
def discharge? (state : Array Nat × List Nat) (dependent : Nat) : Option (Array Nat × List Nat) :=
  if state.1.getD dependent 0 = 0 then none else some (discharge state dependent)

/-- **The loop with counters that may not go below zero.** -/
def orderFrom? (modules : Array Module) : (fuel : Nat) → (left : Array Nat) → (ready : List Nat) → Option (List Nat)
  | 0, _, _ => some []
  | _, _, [] => some []
  | fuel + 1, left, id :: ready => do
    let (left, ready) ← (dependentsOf modules id).foldlM discharge? (left, ready)
    return id :: (← orderFrom? modules fuel left ready)

/-- What is about to be counted as done has not been counted yet. -/
theorem Progress.foldlM_discharge? {pending : List Nat} (h : Progress modules taken pending left ready)
    (hpending : ∀ d ∈ pending, d < modules.size) :
    pending.foldlM discharge? (left, ready) = some (pending.foldl Module.discharge (left, ready)) := by
  induction pending generalizing left ready with
  | nil => rfl
  | cons d pending ih =>
    have hd := hpending d List.mem_cons_self
    have hpositive : left.getD d 0 ≠ 0 := by
      rw [h.counts d hd, List.count_cons_self]
      omega
    rw [List.foldlM_cons, discharge?, if_neg hpositive, Option.bind_eq_bind, Option.bind_some, List.foldl_cons]
    exact ih (h.discharge hd) fun e he => hpending e (List.mem_cons_of_mem d he)

/-- **No counter goes below zero.** -/
theorem Progress.orderFrom?_eq (h : Progress modules taken [] left ready) (fuel : Nat) :
    orderFrom? modules fuel left ready = some (Module.orderFrom modules fuel left ready) := by
  induction fuel generalizing taken left ready with
  | zero => rfl
  | succ fuel ih =>
    cases ready with
    | nil => rfl
    | cons id ready =>
      have hcounted := h.pop.foldlM_discharge? fun _ hd => lt_of_mem_dependentsOf hd
      have hrest := ih h.take
      rw [orderFrom?, hcounted, Option.bind_eq_bind, Option.bind_some, Module.orderFrom]
      dsimp only
      rw [hrest]
      rfl

end SchemeMachine.Module
