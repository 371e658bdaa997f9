import Mathlib.Data.List.Nodup
import Mathlib.Order.Basic
import Mathlib.Order.Defs.LinearOrder
import Mathlib.Order.Lattice
import SchemeMachine.Table

/-!
# The contents of a table

A table made by insertions has its keys in strictly ascending order (`Table.Sorted`), so that its entries
are exactly its bindings.

* `Table.Sorted.insert` and `Table.sorted_ofList`: insertions keep the order.
* `Table.Sorted.find?_eq_some`: what a sorted table binds is what it lists.
* `Table.find?_union`: the second of two tables takes precedence in their union.
* `Table.mem_of_find?_insertAll`: what is bound after several insertions was given in one of them, or was there.
* `Table.find?_ofList_of_nodup`: a list of pairs with different keys gives a table of these pairs.
* `Table.Sorted.ext`: sorted tables are the same if they bind the same.
* `Table.ofList_append` and `OrderedSet.ofMembers_append`: what two lists give is the union of what each gives.
* `Table.Sorted.ofList_entries`: the entries of a sorted table give the table back.
* `Table.keys_insert_perm` and `Table.Sorted.keys_erase_perm` count keys.
-/

namespace SchemeMachine.Table

universe u v

variable {κ : Type u} {α : Type v}

section Lookup

variable [DecidableEq κ]

theorem contains_iff {t : Table κ α} {k : κ} : t.contains k = true ↔ ∃ v, t.find? k = some v := by
  simp [contains, Option.isSome_iff_exists]

theorem mem_entries_of_find? {t : Table κ α} {k : κ} {v : α} (h : t.find? k = some v) :
    (k, v) ∈ t.entries := by
  obtain ⟨es⟩ := t
  simp only [find?] at h
  induction es with
  | nil => simp [lookupEntry] at h
  | cons e es ih =>
    obtain ⟨k', v'⟩ := e
    by_cases hk : k = k'
    · subst hk
      simp only [lookupEntry, if_true, Option.some.injEq] at h
      simp [h]
    · simp only [lookupEntry, if_neg hk] at h
      exact List.mem_cons_of_mem _ (ih h)

theorem contains_iff_mem_keys {t : Table κ α} {k : κ} : t.contains k = true ↔ k ∈ t.keys := by
  rw [contains_iff]
  constructor
  · rintro ⟨v, hv⟩
    exact List.mem_map.mpr ⟨(k, v), mem_entries_of_find? hv, rfl⟩
  · obtain ⟨es⟩ := t
    simp only [keys, find?]
    induction es with
    | nil => simp
    | cons e es ih =>
      obtain ⟨k', v'⟩ := e
      intro hk
      by_cases heq : k = k'
      · exact ⟨v', by simp [lookupEntry, heq]⟩
      · obtain ⟨v, hv⟩ := ih ((List.mem_cons.mp hk).resolve_left heq)
        exact ⟨v, by simpa [lookupEntry, heq] using hv⟩

/-- With different keys, every entry is a binding. -/
theorem find?_of_mem_entries {t : Table κ α} (hn : t.keys.Nodup) {k : κ} {v : α}
    (h : (k, v) ∈ t.entries) : t.find? k = some v := by
  obtain ⟨es⟩ := t
  simp only [keys, find?] at hn ⊢
  induction es with
  | nil => cases h
  | cons e es ih =>
    obtain ⟨k', v'⟩ := e
    obtain ⟨hnot, hn⟩ := List.nodup_cons.mp hn
    rcases List.mem_cons.mp h with heq | hmem
    · obtain ⟨rfl, rfl⟩ := Prod.mk.inj heq
      simp [lookupEntry]
    · have hne : k ≠ k' := by
        rintro rfl
        exact hnot (List.mem_map.mpr ⟨(k, v), hmem, rfl⟩)
      simpa [lookupEntry, hne] using ih hn hmem

end Lookup

section Insert

variable [DecidableEq κ] [LT κ] [DecidableLT κ]

theorem contains_insert (t : Table κ α) (j k : κ) (v : α) :
    (t.insert k v).contains j = true ↔ j = k ∨ t.contains j = true := by
  rw [contains_iff, contains_iff, find?_insert]
  by_cases h : j = k
  · simp [h]
  · simp [h]

/-- After several insertions a key has the last value given for it, or else what it had. -/
theorem find?_insertAll_of_not_mem (t : Table κ α) (pairs : List (κ × α)) {k : κ}
    (h : k ∉ pairs.map Prod.fst) : (t.insertAll pairs).find? k = t.find? k := by
  induction pairs generalizing t with
  | nil => rfl
  | cons e pairs ih =>
    rw [List.map_cons, List.mem_cons, not_or] at h
    rw [insertAll, List.foldl_cons]
    exact (ih (t.insert e.1 e.2) h.2).trans (find?_insert_of_ne t h.1 e.2)

theorem find?_insertAll_of_mem (t : Table κ α) {pairs : List (κ × α)}
    (hn : (pairs.map Prod.fst).Nodup) {k : κ} {v : α} (h : (k, v) ∈ pairs) :
    (t.insertAll pairs).find? k = some v := by
  induction pairs generalizing t with
  | nil => cases h
  | cons e pairs ih =>
    obtain ⟨hnot, hn⟩ := List.nodup_cons.mp hn
    rw [insertAll, List.foldl_cons]
    rcases List.mem_cons.mp h with rfl | h
    · exact (find?_insertAll_of_not_mem _ pairs hnot).trans (find?_insert_self t k v)
    · exact ih (t.insert e.1 e.2) hn h

/-- What several insertions leave under a key is one of the values given for it, or what was there. -/
theorem mem_of_find?_insertAll {t : Table κ α} {pairs : List (κ × α)} {k : κ} {v : α}
    (h : (t.insertAll pairs).find? k = some v) : (k, v) ∈ pairs ∨ t.find? k = some v := by
  induction pairs generalizing t with
  | nil => exact Or.inr h
  | cons e pairs ih =>
    rw [insertAll, List.foldl_cons] at h
    rcases ih h with hmem | hfind
    · exact Or.inl (List.mem_cons_of_mem e hmem)
    · rw [find?_insert] at hfind
      split at hfind
      · next hk =>
        cases hfind
        exact Or.inl (hk ▸ List.mem_cons_self)
      · exact Or.inr hfind

/-- A key that is given is bound. -/
theorem exists_find?_insertAll (t : Table κ α) {pairs : List (κ × α)} {k : κ} (h : k ∈ pairs.map Prod.fst) :
    ∃ v, (t.insertAll pairs).find? k = some v := by
  induction pairs generalizing t with
  | nil => cases h
  | cons e pairs ih =>
    rw [insertAll, List.foldl_cons]
    by_cases hk : k ∈ pairs.map Prod.fst
    · exact ih (t.insert e.1 e.2) hk
    · rw [List.map_cons, List.mem_cons] at h
      obtain rfl := h.resolve_right hk
      exact ⟨e.2, (find?_insertAll_of_not_mem _ pairs hk).trans (find?_insert_self t _ _)⟩

theorem find?_ofList_of_nodup {pairs : List (κ × α)} (hn : (pairs.map Prod.fst).Nodup) {k : κ} {v : α} :
    (ofList pairs).find? k = some v ↔ (k, v) ∈ pairs := by
  constructor
  · intro h
    by_cases hk : k ∈ pairs.map Prod.fst
    · obtain ⟨⟨k', v'⟩, hmem, rfl⟩ := List.mem_map.mp hk
      rw [ofList, find?_insertAll_of_mem _ hn hmem] at h
      exact Option.some.inj h ▸ hmem
    · rw [ofList, find?_insertAll_of_not_mem _ _ hk] at h
      cases h
  · exact find?_insertAll_of_mem _ hn

end Insert

/-! ### Sorted tables -/

section Sorted

variable [LinearOrder κ]

/-- The keys stand in strictly ascending order. -/
def Sorted (t : Table κ α) : Prop := t.keys.Pairwise (· < ·)

theorem sorted_empty : (empty : Table κ α).Sorted := List.Pairwise.nil

theorem Sorted.nodup {t : Table κ α} (h : t.Sorted) : t.keys.Nodup := h.imp fun hlt => ne_of_lt hlt

theorem Sorted.find?_eq_some {t : Table κ α} (h : t.Sorted) {k : κ} {v : α} :
    t.find? k = some v ↔ (k, v) ∈ t.entries :=
  ⟨mem_entries_of_find?, find?_of_mem_entries h.nodup⟩

/-- **Insertions keep the order of the keys.** -/
theorem Sorted.insert {t : Table κ α} (h : t.Sorted) (k : κ) (v : α) : (t.insert k v).Sorted := by
  obtain ⟨es⟩ := t
  simp only [Sorted, keys, Table.insert] at h ⊢
  induction es with
  | nil => simp [insertEntry]
  | cons e es ih =>
    obtain ⟨k', v'⟩ := e
    obtain ⟨hhead, htail⟩ := List.pairwise_cons.mp h
    by_cases hk : k = k'
    · subst hk
      simpa [insertEntry] using h
    · by_cases hlt : k < k'
      · simp only [insertEntry, hk, hlt, if_false, if_true]
        refine List.pairwise_cons.mpr ⟨fun j hj => ?_, h⟩
        rcases List.mem_cons.mp hj with rfl | hj
        · exact hlt
        · exact lt_trans hlt (hhead j hj)
      · simp only [insertEntry, hk, hlt, if_false]
        refine List.pairwise_cons.mpr ⟨fun j hj => ?_, ih htail⟩
        have hmem : (⟨insertEntry k v es⟩ : Table κ α).contains j = true :=
          contains_iff_mem_keys.mpr hj
        rcases (contains_insert ⟨es⟩ j k v).mp hmem with rfl | hold
        · exact lt_of_le_of_ne (not_lt.mp hlt) (Ne.symm hk)
        · exact hhead j (contains_iff_mem_keys.mp hold)

theorem Sorted.insertAll {t : Table κ α} (h : t.Sorted) (pairs : List (κ × α)) :
    (t.insertAll pairs).Sorted := by
  induction pairs generalizing t with
  | nil => exact h
  | cons e pairs ih => exact ih (h.insert e.1 e.2)

/-- **A union** has the bindings of the second table, and those of the first for all other keys. -/
theorem find?_union (s : Table κ α) {t : Table κ α} (ht : t.Sorted) (k : κ) :
    (s.union t).find? k = (t.find? k).or (s.find? k) := by
  cases hk : t.find? k with
  | some v => exact find?_insertAll_of_mem s ht.nodup (mem_entries_of_find? hk)
  | none =>
    refine find?_insertAll_of_not_mem s t.entries fun hmem => ?_
    obtain ⟨v, hv⟩ := contains_iff.mp (contains_iff_mem_keys.mpr hmem)
    rw [hk] at hv
    cases hv

theorem sorted_ofList (pairs : List (κ × α)) : (ofList pairs).Sorted := sorted_empty.insertAll pairs

/-- A key above all others is bound at the end. -/
theorem insertEntry_of_forall_lt {k : κ} {es : List (κ × α)} (h : ∀ e ∈ es, e.1 < k) (v : α) :
    insertEntry k v es = es ++ [(k, v)] := by
  induction es with
  | nil => rfl
  | cons e es ih =>
    obtain ⟨k', v'⟩ := e
    obtain ⟨hhead, htail⟩ := List.forall_mem_cons.mp h
    rw [insertEntry, if_neg (ne_of_gt hhead), if_neg (not_lt_of_gt hhead), ih htail, List.cons_append]

/-- **The entries of a sorted table give the table back.** -/
theorem Sorted.ofList_entries {t : Table κ α} (h : t.Sorted) : ofList t.entries = t := by
  -- the entries that are still to be inserted are above those that are there
  have hinsert : ∀ es acc : List (κ × α), (acc ++ es).Pairwise (fun a b => a.1 < b.1) →
      (⟨acc⟩ : Table κ α).insertAll es = ⟨acc ++ es⟩ := by
    intro es
    induction es with
    | nil =>
      intro acc _
      rw [List.append_nil]
      rfl
    | cons e es ih =>
      intro acc hacc
      have hlast : (⟨acc⟩ : Table κ α).insert e.1 e.2 = ⟨acc ++ [e]⟩ :=
        congrArg Table.mk (insertEntry_of_forall_lt (fun a ha =>
          (List.pairwise_append.mp hacc).2.2 a ha e List.mem_cons_self) e.2)
      have happend : acc ++ e :: es = acc ++ [e] ++ es := by rw [List.append_assoc, List.singleton_append]
      rw [happend] at hacc ⊢
      rw [← ih (acc ++ [e]) hacc, ← hlast]
      rfl
  exact hinsert t.entries [] (List.pairwise_map.mp h)

/-- An insertion adds its key, if that is new. -/
theorem keys_insert_perm {t : Table κ α} {k : κ} (hk : k ∉ t.keys) (v : α) :
    (t.insert k v).keys.Perm (k :: t.keys) := by
  obtain ⟨es⟩ := t
  simp only [keys, Table.insert] at hk ⊢
  induction es with
  | nil => simp [insertEntry]
  | cons e es ih =>
    obtain ⟨k', v'⟩ := e
    rw [List.map_cons, List.mem_cons, not_or] at hk
    by_cases hlt : k < k'
    · simp [insertEntry, hk.1, hlt]
    · simp only [insertEntry, hk.1, hlt, if_false, List.map_cons]
      exact ((ih hk.2).cons k').trans (List.Perm.swap k k' _)

theorem keys_erase (t : Table κ α) (k : κ) : (t.erase k).keys = t.keys.filter (· ≠ k) := by
  rw [keys, keys, erase, List.filter_map]
  rfl

/-- Erasing takes one key away. -/
theorem Sorted.keys_erase_perm {t : Table κ α} (h : t.Sorted) {k : κ} (hk : k ∈ t.keys) :
    t.keys.Perm (k :: (t.erase k).keys) := by
  have herase : (t.erase k).keys = t.keys.erase k := by
    rw [keys_erase, h.nodup.erase_eq_filter]
    exact List.filter_congr fun j _ => by by_cases hj : j = k <;> simp [hj]
  rw [herase]
  exact List.perm_cons_erase hk

theorem Sorted.erase {t : Table κ α} (h : t.Sorted) (k : κ) : (t.erase k).Sorted := by
  rw [Sorted, keys_erase]
  exact h.filter _

/-- What is left after erasing was there before. -/
theorem Sorted.find?_of_erase {t : Table κ α} (h : t.Sorted) {j k : κ} {v : α} (hj : (t.erase k).find? j = some v) :
    t.find? j = some v :=
  h.find?_eq_some.mpr (List.mem_of_mem_filter (mem_entries_of_find? hj))

/-- **Tables in order are the same if they bind the same.** -/
theorem Sorted.ext {s t : Table κ α} (hs : s.Sorted) (ht : t.Sorted) (h : ∀ k, s.find? k = t.find? k) : s = t := by
  have hpairs : ∀ {t : Table κ α}, t.Sorted → t.entries.Pairwise fun a b => a.1 < b.1 :=
    fun ht => List.pairwise_map.mp ht
  have hnodup : ∀ {t : Table κ α}, t.Sorted → t.entries.Nodup := by
    intro t ht
    refine (hpairs ht).imp fun hlt heq => ?_
    subst heq
    exact lt_irrefl _ hlt
  have hperm : s.entries.Perm t.entries := by
    refine (List.perm_ext_iff_of_nodup (hnodup hs) (hnodup ht)).mpr fun ⟨k, v⟩ => ?_
    rw [← hs.find?_eq_some, ← ht.find?_eq_some, h]
  have hentries : s.entries = t.entries :=
    hperm.eq_of_pairwise (fun a b _ _ hab hba => absurd hba (lt_asymm hab)) (hpairs hs) (hpairs ht)
  cases s
  cases t
  exact congrArg Table.mk hentries

/-- After several insertions a key has what these give it, or else what it had. -/
theorem find?_insertAll (t : Table κ α) (pairs : List (κ × α)) (k : κ) :
    (t.insertAll pairs).find? k = ((ofList pairs).find? k).or (t.find? k) := by
  induction pairs generalizing t with
  | nil => rfl
  | cons e pairs ih =>
    have hfirst : (t.insertAll (e :: pairs)).find? k =
        ((ofList pairs).find? k).or ((t.insert e.1 e.2).find? k) := ih (t.insert e.1 e.2)
    have hempty : (ofList (e :: pairs)).find? k =
        ((ofList pairs).find? k).or (((empty : Table κ α).insert e.1 e.2).find? k) := ih (empty.insert e.1 e.2)
    rw [hfirst, hempty, find?_insert, find?_insert, Option.or_assoc]
    split <;> rfl

/-- **The table of two lists of pairs** is the union of their tables. -/
theorem ofList_append (pairs others : List (κ × α)) :
    ofList (pairs ++ others) = (ofList pairs).union (ofList others) := by
  refine (sorted_ofList _).ext ((sorted_ofList pairs).insertAll _) fun k => ?_
  rw [find?_union _ (sorted_ofList others), ← find?_insertAll]
  simp only [ofList, insertAll, List.foldl_append]

end Sorted

end SchemeMachine.Table

namespace SchemeMachine.OrderedSet

universe u

variable {κ : Type u} [LinearOrder κ]

/-- A set is the table of its members, whose values tell nothing. -/
theorem ofMembers_eq (ks : List κ) : ofMembers ks = Table.ofList (ks.map fun k => (k, ())) := by
  rw [ofMembers, addAll, Table.ofList, Table.insertAll, List.foldl_map]
  rfl

/-- **The set of the members of two lists** is the union of their sets. -/
theorem ofMembers_append (ks others : List κ) :
    ofMembers (ks ++ others) = Table.union (ofMembers ks) (ofMembers others) := by
  rw [ofMembers_eq, ofMembers_eq, ofMembers_eq, List.map_append, Table.ofList_append]

end SchemeMachine.OrderedSet
