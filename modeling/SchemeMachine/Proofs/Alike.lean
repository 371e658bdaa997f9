import Mathlib.Data.List.Forall2
import Mathlib.Data.List.Nodup
import Mathlib.Data.Option.Basic
import SchemeMachine.Heap

/-!
# Data that differ in their handles

Two heaps can hold the same objects in different slots. A `Pairing` names the objects that correspond, by
their handles in the two heaps, the youngest first; two things are *alike* under it if they are equal up to
corresponding handles.

* `Value.Alike`, `Table.Alike`, `Closure.Alike` and `Object.Alike` compare data; each is kept by the
  operations of its type.
* `Object.Rooted` compares only the references of an object that never change.
-/

namespace SchemeMachine

/-- The objects of two heaps that correspond, by their handles, the youngest first. -/
abbrev Pairing := List (Handle × Handle)

/-- No object corresponds to two. -/
structure Pairing.OneToOne (ps : Pairing) : Prop where
  left : (ps.map Prod.fst).Nodup
  right : (ps.map Prod.snd).Nodup

/-- Corresponding handles are equal on one side if they are on the other. -/
theorem Pairing.OneToOne.eq_iff {ps : Pairing} (h1 : ps.OneToOne) {h h' k k' : Handle}
    (hk : (h, k) ∈ ps) (hk' : (h', k') ∈ ps) : h = h' ↔ k = k' := by
  constructor
  · rintro rfl
    exact congrArg Prod.snd (List.inj_on_of_nodup_map h1.left hk hk' rfl)
  · rintro rfl
    exact congrArg Prod.fst (List.inj_on_of_nodup_map h1.right hk hk' rfl)

/-! ### Alike data -/

/-- **Values that are alike**: corresponding handles, or the same plain value. -/
inductive Value.Alike (ps : Pairing) : Value → Value → Prop
  | handle {h k : Handle} (hm : (h, k) ∈ ps) : Alike ps (.handle h) (.handle k)
  | plain {v : Value} (hv : v.handle? = none) : Alike ps v v

namespace Value

variable {ps qs : Pairing} {v v' w w' : Value}

theorem Alike.mono (h : v.Alike ps w) (hsub : ps ⊆ qs) : v.Alike qs w := by
  cases h with
  | handle hm => exact .handle (hsub hm)
  | plain hv => exact .plain hv

theorem Alike.isTruthy (h : v.Alike ps w) : v.isTruthy = w.isTruthy := by
  cases h with
  | handle hm => rfl
  | plain hv => rfl

theorem Alike.typeName (h : v.Alike ps w) : v.typeName = w.typeName := by
  cases h with
  | handle hm => rfl
  | plain hv => rfl

theorem Alike.number? (h : v.Alike ps w) : v.number? = w.number? := by
  cases h with
  | handle hm => rfl
  | plain hv => rfl

/-- Alike values compare alike. -/
theorem Alike.same (h1 : ps.OneToOne) (hv : v.Alike ps v') (hw : w.Alike ps w') :
    v.same w = v'.same w' := by
  cases hv with
  | handle hm =>
    cases hw with
    | handle hm' => simp [Value.same, h1.eq_iff hm hm']
    | plain hw => cases w <;> simp_all [Value.same, Value.handle?]
  | plain hv =>
    cases hw with
    | handle hm' => cases v <;> simp_all [Value.same, Value.handle?]
    | plain hw => rfl

end Value

/-- Tables that bind the same keys to values that are alike. -/
def Table.Alike (ps : Pairing) (t u : Table String Value) : Prop :=
  List.Forall₂ (fun e f => e.1 = f.1 ∧ Value.Alike ps e.2 f.2) t.entries u.entries

namespace Table

variable {ps qs : Pairing} {t t' u u' : Table String Value}

theorem Alike.mono (h : t.Alike ps u) (hsub : ps ⊆ qs) : t.Alike qs u :=
  List.Forall₂.imp (fun _ _ he => ⟨he.1, he.2.mono hsub⟩) h

theorem Alike.find? (h : t.Alike ps u) (name : String) :
    Option.Rel (Value.Alike ps) (t.find? name) (u.find? name) := by
  obtain ⟨es⟩ := t
  obtain ⟨fs⟩ := u
  simp only [Table.Alike] at h
  unfold Table.find?
  induction h with
  | nil => exact .none
  | @cons e f es fs he _ ih =>
    obtain ⟨a, v⟩ := e
    obtain ⟨b, w⟩ := f
    obtain ⟨rfl, hv⟩ : a = b ∧ Value.Alike ps v w := he
    by_cases hn : name = a
    · simpa [lookupEntry, hn] using Option.Rel.some hv
    · simpa [lookupEntry, hn] using ih

theorem Alike.contains (h : t.Alike ps u) (name : String) : t.contains name = u.contains name := by
  have hfind := h.find? name
  unfold Table.contains
  generalize t.find? name = x at hfind ⊢
  generalize u.find? name = y at hfind ⊢
  cases hfind with
  | some _ => rfl
  | none => rfl

theorem Alike.insert (h : t.Alike ps u) (name : String) {v w : Value} (hv : v.Alike ps w) :
    (t.insert name v).Alike ps (u.insert name w) := by
  obtain ⟨es⟩ := t
  obtain ⟨fs⟩ := u
  simp only [Table.Alike, Table.insert] at h ⊢
  induction h with
  | nil => exact .cons ⟨rfl, hv⟩ .nil
  | @cons e f es fs he hrest ih =>
    obtain ⟨a, x⟩ := e
    obtain ⟨b, y⟩ := f
    obtain ⟨rfl, hx⟩ : a = b ∧ Value.Alike ps x y := he
    by_cases hn : name = a
    · simp only [insertEntry, hn, if_true]
      exact .cons ⟨rfl, hv⟩ hrest
    · by_cases hlt : name < a
      · simp only [insertEntry, hn, hlt, if_true, if_false]
        exact .cons ⟨rfl, hv⟩ (.cons ⟨rfl, hx⟩ hrest)
      · simp only [insertEntry, hn, hlt, if_false]
        exact .cons ⟨rfl, hx⟩ ih

theorem Alike.union (h : t.Alike ps u) (h' : t'.Alike ps u') :
    (t.union t').Alike ps (u.union u') := by
  obtain ⟨es⟩ := t'
  obtain ⟨fs⟩ := u'
  simp only [Table.Alike] at h'
  simp only [Table.union, Table.insertAll]
  induction h' generalizing t u with
  | nil => exact h
  | @cons e f es fs he _ ih =>
    obtain ⟨a, x⟩ := e
    obtain ⟨b, y⟩ := f
    obtain ⟨rfl, hx⟩ : a = b ∧ Value.Alike ps x y := he
    exact ih (h.insert a hx)

end Table

/-- Frames that return to the same place, with closures that correspond. -/
structure Frame.Alike (ps : Pairing) (f g : Frame) : Prop where
  closure : Option.Rel (fun h k => (h, k) ∈ ps) f.closure g.closure
  returnAddress : f.returnAddress = g.returnAddress

/-- Handles that may be missing correspond more easily in a larger pairing. -/
theorem Pairing.rel_mono {ps qs : Pairing} (hsub : ps ⊆ qs) {o o' : Option Handle}
    (h : Option.Rel (fun h k => (h, k) ∈ ps) o o') : Option.Rel (fun h k => (h, k) ∈ qs) o o' := by
  cases h with
  | some hm => exact .some (hsub hm)
  | none => exact .none

/-- Continuations that are alike. -/
structure Continuation.Alike (ps : Pairing) (k l : Continuation) : Prop where
  closure : Option.Rel (fun h k => (h, k) ∈ ps) k.closure l.closure
  stack : List.Forall₂ (Value.Alike ps) k.stack l.stack
  frames : List.Forall₂ (Frame.Alike ps) k.frames l.frames
  resume : k.resume = l.resume

/-- **Closures that are alike**: the same code and dirty names, bindings and parents that are alike. -/
structure Closure.Alike (ps : Pairing) (c d : Closure) : Prop where
  label : c.label = d.label
  address : c.address = d.address
  parent : Option.Rel (fun h k => (h, k) ∈ ps) c.parent d.parent
  bound : c.bound.Alike ps d.bound
  free : c.free.Alike ps d.free
  dirty : c.dirty = d.dirty

namespace Closure

variable {ps qs : Pairing} {c d : Closure} {v w : Value}

theorem Alike.environment (h : c.Alike ps d) : c.environment.Alike ps d.environment :=
  h.free.union h.bound

theorem Alike.bind (h1 : ps.OneToOne) (h : c.Alike ps d) (name : String) (hv : v.Alike ps w) :
    (c.bind name v).Alike ps (d.bind name w) := by
  refine ⟨h.label, h.address, h.parent, h.bound.insert name hv, h.free, ?_⟩
  have hfind := h.bound.find? name
  simp only [Closure.bind, h.dirty]
  generalize c.bound.find? name = x at hfind ⊢
  generalize d.bound.find? name = y at hfind ⊢
  cases hfind with
  | some ho => simp only [hv.same h1 ho]
  | none => rfl

theorem Alike.setBound (h : c.Alike ps d) (name : String) (hv : v.Alike ps w) :
    (c.setBound name v).Alike ps (d.setBound name w) :=
  ⟨h.label, h.address, h.parent, h.bound.insert name hv, h.free, by simp [Closure.setBound, h.dirty]⟩

theorem Alike.setFree (h : c.Alike ps d) (name : String) (hv : v.Alike ps w) :
    (c.setFree name v).Alike ps (d.setFree name w) :=
  ⟨h.label, h.address, h.parent, h.bound, h.free.insert name hv, by simp [Closure.setFree, h.dirty]⟩

theorem Alike.mono (h : c.Alike ps d) (hsub : ps ⊆ qs) : c.Alike qs d :=
  ⟨h.label, h.address, Pairing.rel_mono hsub h.parent, h.bound.mono hsub, h.free.mono hsub, h.dirty⟩

end Closure

/-- **Objects that are alike.** -/
inductive Object.Alike (ps : Pairing) : Object → Object → Prop
  | string (content : String) : Alike ps (.string content) (.string content)
  | list {l m : List Value} (h : List.Forall₂ (Value.Alike ps) l m) : Alike ps (.list l) (.list m)
  | closure {c d : Closure} (h : c.Alike ps d) : Alike ps (.closure c) (.closure d)
  | continuation {k l : Continuation} (h : k.Alike ps l) : Alike ps (.continuation k) (.continuation l)

theorem Frame.Alike.mono {ps qs : Pairing} {f g : Frame} (h : f.Alike ps g) (hsub : ps ⊆ qs) :
    f.Alike qs g :=
  ⟨Pairing.rel_mono hsub h.closure, h.returnAddress⟩

theorem Continuation.Alike.mono {ps qs : Pairing} {k l : Continuation} (h : k.Alike ps l)
    (hsub : ps ⊆ qs) : k.Alike qs l :=
  ⟨Pairing.rel_mono hsub h.closure, h.stack.imp fun _ _ hv => hv.mono hsub,
    h.frames.imp fun _ _ hf => hf.mono hsub, h.resume⟩

theorem Object.Alike.mono {ps qs : Pairing} {o p : Object} (h : o.Alike ps p) (hsub : ps ⊆ qs) :
    o.Alike qs p := by
  cases h with
  | string content => exact .string content
  | list h => exact .list (h.imp fun _ _ hv => hv.mono hsub)
  | closure h => exact .closure (h.mono hsub)
  | continuation h => exact .continuation (h.mono hsub)

/-- The references of an object that never change — the items of a list, the parent of a closure — are
among the pairs given. -/
def Object.Rooted (ps : Pairing) : Object → Object → Prop
  | .list l, .list m => List.Forall₂ (Value.Alike ps) l m
  | .closure c, .closure d => Option.Rel (fun h k => (h, k) ∈ ps) c.parent d.parent
  | _, _ => True

theorem Object.Alike.rooted {ps : Pairing} {o p : Object} (h : o.Alike ps p) : o.Rooted ps p := by
  cases h with
  | string content => trivial
  | list h => exact h
  | closure h => exact h.parent
  | continuation h => trivial

/-! ### Giving up pairs

What is alike under some pairs is alike under fewer, as long as the pairs that it uses are kept. -/

section Filter

variable {ps : Pairing} {keep : Handle × Handle → Bool}

private theorem rel_filter {o o' : Option Handle} (h : Option.Rel (fun h k => (h, k) ∈ ps) o o')
    (hk : ∀ a b, (a, b) ∈ ps → o = some a → o' = some b → keep (a, b)) :
    Option.Rel (fun h k => (h, k) ∈ ps.filter keep) o o' := by
  cases h with
  | some hm => exact .some (List.mem_filter.mpr ⟨hm, hk _ _ hm rfl rfl⟩)
  | none => exact .none

private theorem Value.Alike.filter {v w : Value} (h : v.Alike ps w)
    (hk : ∀ a b, (a, b) ∈ ps → v.handle? = some a → w.handle? = some b → keep (a, b)) :
    v.Alike (ps.filter keep) w := by
  cases h with
  | handle hm => exact .handle (List.mem_filter.mpr ⟨hm, hk _ _ hm rfl rfl⟩)
  | plain hv => exact .plain hv

theorem Value.forall₂_filter {l m : List Value} (h : List.Forall₂ (Value.Alike ps) l m)
    (hk : ∀ a b, (a, b) ∈ ps → a ∈ l.filterMap Value.handle? → b ∈ m.filterMap Value.handle? →
      keep (a, b)) : List.Forall₂ (Value.Alike (ps.filter keep)) l m := by
  induction h with
  | nil => exact .nil
  | @cons v w l m hv _ ih =>
    refine .cons (hv.filter fun a b hab ha hb => hk a b hab ?_ ?_) (ih fun a b hab ha hb => hk a b hab ?_ ?_)
    · exact List.mem_filterMap.mpr ⟨v, List.mem_cons_self, ha⟩
    · exact List.mem_filterMap.mpr ⟨w, List.mem_cons_self, hb⟩
    · obtain ⟨x, hx, hxa⟩ := List.mem_filterMap.mp ha
      exact List.mem_filterMap.mpr ⟨x, List.mem_cons_of_mem _ hx, hxa⟩
    · obtain ⟨x, hx, hxb⟩ := List.mem_filterMap.mp hb
      exact List.mem_filterMap.mpr ⟨x, List.mem_cons_of_mem _ hx, hxb⟩

theorem Frame.forall₂_filter {l m : List Frame} (h : List.Forall₂ (Frame.Alike ps) l m)
    (hk : ∀ a b, (a, b) ∈ ps → a ∈ l.filterMap (·.closure) → b ∈ m.filterMap (·.closure) →
      keep (a, b)) : List.Forall₂ (Frame.Alike (ps.filter keep)) l m := by
  induction h with
  | nil => exact .nil
  | @cons f g l m hf _ ih =>
    refine .cons ⟨rel_filter hf.closure fun a b hab ha hb => hk a b hab ?_ ?_, hf.returnAddress⟩
      (ih fun a b hab ha hb => hk a b hab ?_ ?_)
    · exact List.mem_filterMap.mpr ⟨f, List.mem_cons_self, ha⟩
    · exact List.mem_filterMap.mpr ⟨g, List.mem_cons_self, hb⟩
    · obtain ⟨x, hx, hxa⟩ := List.mem_filterMap.mp ha
      exact List.mem_filterMap.mpr ⟨x, List.mem_cons_of_mem _ hx, hxa⟩
    · obtain ⟨x, hx, hxb⟩ := List.mem_filterMap.mp hb
      exact List.mem_filterMap.mpr ⟨x, List.mem_cons_of_mem _ hx, hxb⟩

private theorem Table.Alike.filter {t u : Table String Value} (h : t.Alike ps u)
    (hk : ∀ a b, (a, b) ∈ ps → a ∈ t.values.filterMap Value.handle? →
      b ∈ u.values.filterMap Value.handle? → keep (a, b)) : t.Alike (ps.filter keep) u := by
  obtain ⟨es⟩ := t
  obtain ⟨fs⟩ := u
  simp only [Table.Alike, Table.values] at h hk ⊢
  induction h with
  | nil => exact .nil
  | @cons e f es fs he _ ih =>
    refine .cons ⟨he.1, he.2.filter fun a b hab ha hb => hk a b hab ?_ ?_⟩
      (ih fun a b hab ha hb => hk a b hab ?_ ?_)
    · exact List.mem_filterMap.mpr ⟨e.2, List.mem_cons_self, ha⟩
    · exact List.mem_filterMap.mpr ⟨f.2, List.mem_cons_self, hb⟩
    · obtain ⟨x, hx, hxa⟩ := List.mem_filterMap.mp ha
      exact List.mem_filterMap.mpr ⟨x, List.mem_cons_of_mem _ hx, hxa⟩
    · obtain ⟨x, hx, hxb⟩ := List.mem_filterMap.mp hb
      exact List.mem_filterMap.mpr ⟨x, List.mem_cons_of_mem _ hx, hxb⟩

/-- **An object is alike under the pairs that it refers to.** -/
theorem Object.Alike.filter {o o' : Object} (h : o.Alike ps o')
    (hk : ∀ a b, (a, b) ∈ ps → a ∈ o.references → b ∈ o'.references → keep (a, b)) :
    o.Alike (ps.filter keep) o' := by
  cases h with
  | string content => exact .string content
  | list h => exact .list (Value.forall₂_filter h hk)
  | closure h =>
    simp only [Object.references, Closure.values, List.filterMap_append, List.mem_append] at hk
    refine .closure ⟨h.label, h.address, rel_filter h.parent fun a b hab ha hb => ?_,
      h.bound.filter fun a b hab ha hb => ?_, h.free.filter fun a b hab ha hb => ?_, h.dirty⟩
    · exact hk a b hab (Or.inl (by simp [ha])) (Or.inl (by simp [hb]))
    · exact hk a b hab (Or.inr (Or.inl ha)) (Or.inr (Or.inl hb))
    · exact hk a b hab (Or.inr (Or.inr ha)) (Or.inr (Or.inr hb))
  | continuation h =>
    simp only [Object.references, List.mem_append] at hk
    refine .continuation ⟨rel_filter h.closure fun a b hab ha hb => ?_,
      Value.forall₂_filter h.stack fun a b hab ha hb => ?_,
      Frame.forall₂_filter h.frames fun a b hab ha hb => ?_, h.resume⟩
    · exact hk a b hab (Or.inl (Or.inl (by simp [ha]))) (Or.inl (Or.inl (by simp [hb])))
    · exact hk a b hab (Or.inl (Or.inr ha)) (Or.inl (Or.inr hb))
    · exact hk a b hab (Or.inr ha) (Or.inr hb)

theorem Object.Rooted.filter {o o' : Object} (h : o.Rooted ps o')
    (hk : ∀ a b, (a, b) ∈ ps → a ∈ o.references → b ∈ o'.references → keep (a, b)) :
    o.Rooted (ps.filter keep) o' := by
  match o, o', h with
  | .list l, .list m, h => exact Value.forall₂_filter h hk
  | .closure c, .closure d, h =>
    refine rel_filter h fun a b hab ha hb => hk a b hab ?_ ?_
    · exact List.mem_append_left _ (by simp [ha])
    · exact List.mem_append_left _ (by simp [hb])
  | .string _, _, _ => trivial
  | .continuation _, _, _ => trivial
  | .list _, .string _, _ => trivial
  | .list _, .closure _, _ => trivial
  | .list _, .continuation _, _ => trivial
  | .closure _, .string _, _ => trivial
  | .closure _, .list _, _ => trivial
  | .closure _, .continuation _, _ => trivial

end Filter

end SchemeMachine
