import Mathlib
import SchemeMachine.Machine.Environment
import SchemeMachine.Proofs.Heap
import SchemeMachine.Proofs.Table

/-!
# Lineages

The closures from a handle outward. A search through the parents of a closure is a search through this list; the
bound on the number of closures that are looked at never matters, as no closure occurs twice.

* `Heap.Lineage` says that the parents of a closure come to an end, and lists them.
* `Heap.Lineage.binder?_eq` and `Heap.Lineage.activationFrom_eq` are the two searches.
* `Value.same_symm` and `Value.same_trans`: values that a program cannot tell apart by comparison.
-/

namespace SchemeMachine

/-! ### Values that compare as equal -/

open Float.Model in
/-- Numbers compare as equal if they are the same or both zero, and no NaN is. -/
theorem unpacked_beq {a b : UnpackedFloat} :
    a.beq b = true ↔ a ≠ .notANumber ∧ (a = b ∨ ∃ s s', a = .zero s ∧ b = .zero s') := by
  rcases a with s | _ | s | ⟨s, m, e, hm⟩ <;> rcases b with s' | _ | s' | ⟨s', m', e', hm'⟩ <;>
    (try cases s) <;> (try cases s') <;> simp [UnpackedFloat.beq, UnpackedFloat.compare, and_comm]
  all_goals decide

theorem float_beq {x y : Float} : (x == y) = true ↔ x.toModel.unpack.beq y.toModel.unpack = true := Iff.rfl

namespace Value

theorem same_number {x : Float} {w : Value} :
    (Value.number x).same w = true ↔ ∃ y, w = .number y ∧ (x == y) = true := by
  cases w <;> simp [same]

theorem same_of_number?_eq_none {v w : Value} (h : v.number? = none) : v.same w = true ↔ v = w := by
  cases v <;> cases w <;> simp_all [same, number?]

theorem same_symm {v w : Value} (h : v.same w = true) : w.same v = true := by
  cases v with
  | number x =>
    obtain ⟨y, rfl, hxy⟩ := same_number.mp h
    refine same_number.mpr ⟨x, rfl, ?_⟩
    obtain ⟨hnan, heq⟩ := unpacked_beq.mp (float_beq.mp hxy)
    rcases heq with heq | ⟨s, s', hs, hs'⟩
    · exact float_beq.mpr (unpacked_beq.mpr ⟨heq ▸ hnan, Or.inl heq.symm⟩)
    · exact float_beq.mpr (unpacked_beq.mpr ⟨by simp [hs'], Or.inr ⟨s', s, hs', hs⟩⟩)
  | _ =>
    obtain rfl := (same_of_number?_eq_none rfl).mp h
    exact h

theorem same_trans {u v w : Value} (h : u.same v = true) (h' : v.same w = true) : u.same w = true := by
  cases u with
  | number x =>
    obtain ⟨y, rfl, hxy⟩ := same_number.mp h
    obtain ⟨z, rfl, hyz⟩ := same_number.mp h'
    refine same_number.mpr ⟨z, rfl, ?_⟩
    obtain ⟨hnan, heq⟩ := unpacked_beq.mp (float_beq.mp hxy)
    obtain ⟨-, heq'⟩ := unpacked_beq.mp (float_beq.mp hyz)
    refine float_beq.mpr (unpacked_beq.mpr ⟨hnan, ?_⟩)
    rcases heq with heq | ⟨s, s', hs, hs'⟩
    · rwa [heq]
    · rcases heq' with heq' | ⟨r, r', hr, hr'⟩
      · exact Or.inr ⟨s, s', hs, heq' ▸ hs'⟩
      · exact Or.inr ⟨s, r', hs, hr'⟩
  | _ =>
    obtain rfl := (same_of_number?_eq_none rfl).mp h
    exact h'

end Value

/-! ### Lineages -/

/-- Closures with their handles, from the inside outward. -/
abbrev Ancestry := List (Handle × Closure)

namespace Ancestry

/-- **The nearest closure that binds a name.** -/
def binder? (l : Ancestry) (name : String) : Option (Handle × Closure) := l.find? fun e => e.2.bound.contains name

/-- The nearest closure with a label. -/
def labelled? (l : Ancestry) (label : String) : Option (Handle × Closure) := l.find? fun e => e.2.label = label

theorem binder?_cons_of_bound {e : Handle × Closure} {l : Ancestry} {name : String} (h : e.2.bound.contains name) :
    binder? (e :: l) name = some e :=
  List.find?_cons_of_pos h

theorem binder?_cons_of_not_bound {e : Handle × Closure} {l : Ancestry} {name : String}
    (h : ¬e.2.bound.contains name) : binder? (e :: l) name = binder? l name :=
  List.find?_cons_of_neg h

theorem mem_of_binder? {l : Ancestry} {name : String} {e : Handle × Closure} (h : l.binder? name = some e) : e ∈ l :=
  List.mem_of_find?_eq_some h

theorem bound_of_binder? {l : Ancestry} {name : String} {e : Handle × Closure} (h : l.binder? name = some e) :
    ∃ w, e.2.bound.find? name = some w := by
  have hbound := List.find?_some h
  exact Table.contains_iff.mp hbound

/-- Some closure binds a name, or none does. -/
theorem binder?_eq_none {l : Ancestry} {name : String} :
    l.binder? name = none ↔ ∀ e ∈ l, e.2.bound.find? name = none := by
  simp [binder?, List.find?_eq_none, Table.contains]

/-- Changes that leave what binds a name leave who binds it. -/
theorem binder?_map {l : Ancestry} {name : String} {f : Handle → Closure → Closure}
    (h : ∀ e ∈ l, (f e.1 e.2).bound.contains name = e.2.bound.contains name) :
    binder? (l.map fun e => (e.1, f e.1 e.2)) name = (l.binder? name).map fun e => (e.1, f e.1 e.2) := by
  induction l with
  | nil => rfl
  | cons e l ih =>
    have htail := ih fun e he => h e (List.mem_cons_of_mem _ he)
    have hhead := h e List.mem_cons_self
    rw [List.map_cons]
    by_cases hb : e.2.bound.contains name = true
    · rw [binder?_cons_of_bound hb, binder?_cons_of_bound (hhead.trans hb), Option.map_some]
    · rw [binder?_cons_of_not_bound hb, binder?_cons_of_not_bound (hhead ▸ hb), htail]

end Ancestry

/-- **The closures from a handle outward**: the parents come to an end. -/
inductive Heap.Lineage (heap : Heap) : Option Handle → Ancestry → Prop
  | nil : Lineage heap none []
  | cons {h : Handle} {c : Closure} {l : Ancestry} (hc : heap.closure? h = some c) (hl : Lineage heap c.parent l) :
      Lineage heap (some h) ((h, c) :: l)

namespace Heap.Lineage

variable {heap heap' : Heap} {start : Option Handle} {l l' : Ancestry} {h : Handle} {c : Closure}

theorem unique (hl : heap.Lineage start l) (hl' : heap.Lineage start l') : l = l' := by
  induction hl generalizing l' with
  | nil =>
    cases hl'
    rfl
  | cons hc _ ih =>
    cases hl' with
    | cons hc' hl' =>
      cases hc.symm.trans hc'
      rw [ih hl']

/-- The lineage of a closure starts with the closure. -/
theorem exists_eq_cons (hl : heap.Lineage (some h) l) (hc : heap.closure? h = some c) :
    ∃ rest, l = (h, c) :: rest ∧ heap.Lineage c.parent rest := by
  cases hl with
  | cons hc' hl =>
    cases hc.symm.trans hc'
    exact ⟨_, rfl, hl⟩

theorem closure?_of_mem (hl : heap.Lineage start l) {e : Handle × Closure} (he : e ∈ l) :
    heap.closure? e.1 = some e.2 := by
  induction hl with
  | nil => cases he
  | cons hc _ ih =>
    rcases List.mem_cons.mp he with rfl | he
    · exact hc
    · exact ih he

/-- Who is in a lineage has a lineage, which is not longer. -/
theorem of_mem (hl : heap.Lineage start l) {e : Handle × Closure} (he : e ∈ l) :
    ∃ before after, l = before ++ e :: after ∧ heap.Lineage (some e.1) (e :: after) := by
  induction hl with
  | nil => cases he
  | @cons h c l hc hl ih =>
    rcases List.mem_cons.mp he with rfl | he
    · exact ⟨[], l, rfl, .cons hc hl⟩
    · obtain ⟨before, after, rfl, hafter⟩ := ih he
      exact ⟨(h, c) :: before, after, rfl, hafter⟩

/-- **No closure is its own ancestor.** -/
theorem nodup (hl : heap.Lineage start l) : (l.map Prod.fst).Nodup := by
  induction hl with
  | nil => exact List.nodup_nil
  | @cons h c l hc hl ih =>
    refine List.nodup_cons.mpr ⟨fun hmem => ?_, ih⟩
    obtain ⟨e, he, rfl⟩ := List.mem_map.mp hmem
    obtain ⟨before, after, rfl, hafter⟩ := hl.of_mem he
    have heq := congrArg List.length ((Lineage.cons hc hl).unique hafter)
    simp only [List.length_cons, List.length_append] at heq
    omega

/-- A lineage is not longer than the heap. -/
theorem length_le (hl : heap.Lineage start l) : l.length ≤ heap.slots.size := by
  have hlt : ∀ h ∈ l.map Prod.fst, h < heap.slots.size := by
    intro h hmem
    obtain ⟨e, he, rfl⟩ := List.mem_map.mp hmem
    have hc := hl.closure?_of_mem he
    obtain ⟨s, hs, -⟩ := Heap.get?_eq_some.mp (Heap.closure?_eq_some.mp hc)
    exact Heap.lt_size_of_slot? hs
  have hcard : (l.map Prod.fst).toFinset.card ≤ (Finset.range heap.slots.size).card := by
    refine Finset.card_le_card fun h hmem => ?_
    exact Finset.mem_range.mpr (hlt h (List.mem_toFinset.mp hmem))
  rwa [List.toFinset_card_of_nodup hl.nodup, List.length_map, Finset.card_range] at hcard

/-- Changes that leave the parents leave the lineage. -/
theorem map (hl : heap.Lineage start l) {f : Handle → Closure → Closure}
    (hf : ∀ h c, heap.closure? h = some c → heap'.closure? h = some (f h c) ∧ (f h c).parent = c.parent) :
    heap'.Lineage start (l.map fun e => (e.1, f e.1 e.2)) := by
  induction hl with
  | nil => exact .nil
  | cons hc _ ih =>
    obtain ⟨hc', hparent⟩ := hf _ _ hc
    exact .cons hc' (hparent ▸ ih)

/-- Where the closures of a lineage stay as they are, so does the lineage. -/
theorem keep (hl : heap.Lineage start l) (hf : ∀ e ∈ l, heap'.closure? e.1 = some e.2) : heap'.Lineage start l := by
  induction hl with
  | nil => exact .nil
  | cons hc _ ih =>
    exact .cons (hf _ List.mem_cons_self) (ih fun e he => hf e (List.mem_cons_of_mem _ he))

/-! ### Searches -/

theorem binderFrom_eq (hl : heap.Lineage start l) (name : String) (fuel : Nat) (hfuel : l.length ≤ fuel) :
    Machine.binderFrom heap name fuel start = (l.binder? name).map Prod.fst := by
  induction hl generalizing fuel with
  | nil => cases fuel <;> rfl
  | @cons h c l hc hl ih =>
    obtain ⟨fuel, rfl⟩ := Nat.exists_eq_add_one_of_ne_zero (Nat.ne_of_gt (Nat.lt_of_lt_of_le (Nat.succ_pos _) hfuel))
    rw [Machine.binderFrom, hc]
    dsimp only
    by_cases hb : c.bound.contains name = true
    · rw [if_pos hb, Ancestry.binder?_cons_of_bound hb, Option.map_some]
    · rw [if_neg hb, Ancestry.binder?_cons_of_not_bound hb]
      exact ih fuel (Nat.le_of_succ_le_succ hfuel)

/-- **The search for a binder** finds the nearest one of the lineage. -/
theorem binder?_eq (hl : heap.Lineage start l) (name : String) :
    Machine.binder? heap start name = (l.binder? name).map Prod.fst :=
  hl.binderFrom_eq name _ (Nat.le_succ_of_le hl.length_le)

/-- **The search for a label** finds the nearest closure of the lineage that has it. -/
theorem activationFrom_eq (hl : heap.Lineage start l) (label : String) (fuel : Nat) (hfuel : l.length ≤ fuel) :
    Machine.activationFrom heap label fuel start = .ok ((l.labelled? label).map Prod.fst) := by
  induction hl generalizing fuel with
  | nil => cases fuel <;> rfl
  | @cons h c l hc hl ih =>
    obtain ⟨fuel, rfl⟩ := Nat.exists_eq_add_one_of_ne_zero (Nat.ne_of_gt (Nat.lt_of_lt_of_le (Nat.succ_pos _) hfuel))
    rw [Machine.activationFrom, hc]
    dsimp only
    by_cases hb : c.label = label
    · rw [if_pos hb, Ancestry.labelled?, List.find?_cons_of_pos (by simpa using hb), Option.map_some]
    · rw [if_neg hb, Ancestry.labelled?, List.find?_cons_of_neg (by simpa using hb)]
      exact ih fuel (Nat.le_of_succ_le_succ hfuel)

/-- What closures further out bind to a name. -/
theorem outerBinding?_eq (hl : heap.Lineage c.parent l) (name : String) :
    Machine.outerBinding? heap c name =
      (l.binder? name).bind fun e => (e.2.bound.find? name).map fun v => (v, e.2.isDirty name) := by
  rw [Machine.outerBinding?, hl.binder?_eq]
  cases hb : l.binder? name with
  | none => rfl
  | some e => simp [hl.closure?_of_mem (Ancestry.mem_of_binder? hb)]

end Heap.Lineage

end SchemeMachine
