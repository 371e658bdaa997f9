import Mathlib.Data.Fintype.Card
import SchemeMachine.Machine.Environment
import SchemeMachine.Proofs.Alike
import SchemeMachine.Proofs.Heap

/-!
# Heaps that hold the same objects

`Heap.Alike` says of two heaps that the objects of a pairing correspond: each pair holds objects that are
alike.

* A list refers to older objects only, and so does a closure to its parent (`Heap.Layered`). So the depth of
  a list and the length of a chain of parents are bounded by the length of the pairing, and with that by
  the number of slots: the functions that follow references with a fuel never run out of it.
* `Heap.Alike.display`, `Heap.Alike.equal`, `Heap.Alike.source?`, `Heap.Alike.binder?` and
  `Heap.Alike.activationFrom` say that alike heaps give alike answers.
* `Heap.Alike.allocate`, `Heap.Alike.put` and `Heap.Alike.restrict` say how heaps stay alike.
-/

namespace SchemeMachine.Heap

/-- Each pair of objects is rooted in the pairs that are older. -/
def Layered (H G : Heap) : Pairing → Prop
  | [] => True
  | (h, k) :: older =>
    (∀ o o', H.get? h = some o → G.get? k = some o' → o.Rooted older o') ∧ Layered H G older

/-- **Heaps that hold the same objects**, those that the pairing names. -/
structure Alike (ps : Pairing) (H G : Heap) : Prop where
  /-- The slots of a pair are in use and hold objects that are alike. -/
  matched : ∀ h k, (h, k) ∈ ps → ∃ s s', H.slot? h = some s ∧ G.slot? k = some s' ∧
    s.isConstant = s'.isConstant ∧ s.object.Alike ps s'.object
  layered : Layered H G ps
  oneToOne : ps.OneToOne
  tidyLeft : H.Tidy
  tidyRight : G.Tidy

variable {ps qs : Pairing} {H G H' G' : Heap}

theorem Layered.suffix (hl : Layered H G ps) (hs : qs <:+ ps) : Layered H G qs := by
  obtain ⟨newer, rfl⟩ := hs
  induction newer with
  | nil => exact hl
  | cons p newer ih => exact ih hl.2

/-- A pair is rooted in what lies behind it. -/
theorem Layered.split (hl : Layered H G ps) {h k : Handle} (hm : (h, k) ∈ ps) :
    ∃ older, (h, k) :: older <:+ ps ∧
      ∀ o o', H.get? h = some o → G.get? k = some o' → o.Rooted older o' := by
  obtain ⟨newer, older, rfl⟩ := List.append_of_mem hm
  have hs : (h, k) :: older <:+ newer ++ (h, k) :: older := List.suffix_append _ _
  exact ⟨older, hs, (hl.suffix hs).1⟩

/-- Layers only look at the objects of their pairs. -/
theorem Layered.congr (hl : Layered H G ps)
    (h' : ∀ h k, (h, k) ∈ ps → ∀ o o', H'.get? h = some o → G'.get? k = some o' →
      ∃ p p', H.get? h = some p ∧ G.get? k = some p' ∧ ∀ older, p.Rooted older p' → o.Rooted older o') :
    Layered H' G' ps := by
  induction ps with
  | nil => trivial
  | cons q older ih =>
    obtain ⟨h, k⟩ := q
    refine ⟨fun o o' ho ho' => ?_, ih hl.2 fun a b hm => h' a b (List.mem_cons_of_mem _ hm)⟩
    obtain ⟨p, p', hp, hp', himp⟩ := h' h k List.mem_cons_self o o' ho ho'
    exact himp older (hl.1 p p' hp hp')

namespace Alike

theorem get? (ha : Alike ps H G) {h k : Handle} (hm : (h, k) ∈ ps) :
    ∃ o o', H.get? h = some o ∧ G.get? k = some o' ∧ o.Alike ps o' := by
  obtain ⟨s, s', hs, hs', -, ho⟩ := ha.matched h k hm
  exact ⟨s.object, s'.object, by simp [Heap.get?, hs], by simp [Heap.get?, hs'], ho⟩

/-- **There are no more pairs than slots**, in either heap. -/
theorem length_le (ha : Alike ps H G) : ps.length ≤ H.slots.size ∧ ps.length ≤ G.slots.size := by
  have bound : ∀ (l : List Handle) (n : Nat), l.Nodup → (∀ x ∈ l, x < n) → l.length ≤ n := by
    intro l n hnd hlt
    have := List.Nodup.length_le_card (α := Fin n) (l := l.pmap (fun x hx => ⟨x, hx⟩) hlt)
      (hnd.pmap fun _ _ _ _ he => congrArg Fin.val he)
    simpa using this
  constructor
  · have := bound (ps.map Prod.fst) H.slots.size ha.oneToOne.left (by
      intro x hx
      obtain ⟨⟨h, k⟩, hm, rfl⟩ := List.mem_map.mp hx
      obtain ⟨s, -, hs, -⟩ := ha.matched h k hm
      exact lt_size_of_slot? hs)
    simpa using this
  · have := bound (ps.map Prod.snd) G.slots.size ha.oneToOne.right (by
      intro x hx
      obtain ⟨⟨h, k⟩, hm, rfl⟩ := List.mem_map.mp hx
      obtain ⟨-, s', -, hs', -⟩ := ha.matched h k hm
      exact lt_size_of_slot? hs')
    simpa using this

/-! ### Objects of a kind -/

theorem closure? (ha : Alike ps H G) {h k : Handle} (hm : (h, k) ∈ ps) :
    Option.Rel (Closure.Alike ps) (H.closure? h) (G.closure? k) := by
  obtain ⟨o, o', ho, ho', hoo⟩ := ha.get? hm
  unfold Heap.closure?
  rw [ho, ho']
  cases hoo with
  | closure hc => exact .some hc
  | _ => exact .none

theorem string? (ha : Alike ps H G) {h k : Handle} (hm : (h, k) ∈ ps) :
    H.string? h = G.string? k := by
  obtain ⟨o, o', ho, ho', hoo⟩ := ha.get? hm
  unfold Heap.string?
  rw [ho, ho']
  cases hoo <;> rfl

/-- A closure that corresponds to one that may be changed may be changed itself. -/
theorem mutableClosure? (ha : Alike ps H G) {h k : Handle} (hm : (h, k) ∈ ps) :
    Option.Rel (Closure.Alike ps) (H.mutableClosure? h) (G.mutableClosure? k) := by
  have hc := ha.closure? hm
  obtain ⟨s, s', hs, hs', hconst, -⟩ := ha.matched h k hm
  unfold Heap.mutableClosure? Heap.isMutable
  rw [hs, hs', Option.any_some, Option.any_some, hconst]
  split
  · exact hc
  · exact .none

/-- Closures stand under their parents in the pairing. -/
theorem parent_older (ha : Alike ps H G) (hs : qs <:+ ps) {h k : Handle} (hm : (h, k) ∈ qs)
    {c d : Closure} (hc : H.closure? h = some c) (hd : G.closure? k = some d) :
    ∃ older, older <:+ qs ∧ older.length < qs.length ∧
      Option.Rel (fun h k => (h, k) ∈ older) c.parent d.parent := by
  obtain ⟨older, hsuf, hroot⟩ := (ha.layered.suffix hs).split hm
  refine ⟨older, (List.suffix_cons _ _).trans hsuf, ?_, ?_⟩
  · have := hsuf.length_le
    simp only [List.length_cons] at this
    omega
  · exact hroot _ _ (closure?_eq_some.mp hc) (closure?_eq_some.mp hd)

/-! ### Texts

The induction is on the number of pairs in which a value has its meaning; the items of a list have theirs
in fewer. -/

/-- A list of a pair has items that are alike under older pairs. -/
theorem list_older (ha : Alike ps H G) (hs : qs <:+ ps) {h k : Handle} (hm : (h, k) ∈ qs)
    {l m : List Value} (hl : H.get? h = some (.list l)) (hm' : G.get? k = some (.list m)) :
    ∃ older, older <:+ ps ∧ older.length < qs.length ∧ List.Forall₂ (Value.Alike older) l m := by
  obtain ⟨older, hsuf, hroot⟩ := (ha.layered.suffix hs).split hm
  refine ⟨older, ((List.suffix_cons _ _).trans hsuf).trans hs, ?_, hroot _ _ hl hm'⟩
  have := hsuf.length_le
  simp only [List.length_cons] at this
  omega

/-- Functions that agree on alike values agree on lists of them. -/
theorem map_eq_of_forall₂ {α : Type} {f g : Value → α} {l m : List Value}
    (h : List.Forall₂ (Value.Alike qs) l m) (hfg : ∀ v w, v.Alike qs w → f v = g w) :
    l.map f = m.map g := by
  induction h with
  | nil => rfl
  | cons hv _ ih => rw [List.map_cons, List.map_cons, hfg _ _ hv, ih]

theorem displayFrom (ha : Alike ps H G) (n : Nat) :
    ∀ qs, qs <:+ ps → qs.length ≤ n → ∀ v w, v.Alike qs w → ∀ f g, n < f → n < g →
      H.displayFrom f v = G.displayFrom g w := by
  induction n with
  | zero =>
    intro qs _ hlen v w hv f g hf hg
    obtain ⟨f, rfl⟩ := Nat.exists_eq_succ_of_ne_zero (by omega : f ≠ 0)
    obtain ⟨g, rfl⟩ := Nat.exists_eq_succ_of_ne_zero (by omega : g ≠ 0)
    cases hv with
    | handle hm => simp [List.eq_nil_of_length_eq_zero (by omega : qs.length = 0)] at hm
    | plain hv => cases v <;> simp_all [Heap.displayFrom, Value.handle?]
  | succ n ih =>
    intro qs hs hlen v w hv f g hf hg
    obtain ⟨f, rfl⟩ := Nat.exists_eq_succ_of_ne_zero (by omega : f ≠ 0)
    obtain ⟨g, rfl⟩ := Nat.exists_eq_succ_of_ne_zero (by omega : g ≠ 0)
    cases hv with
    | plain hv => cases v <;> simp_all [Heap.displayFrom, Value.handle?]
    | handle hm =>
      obtain ⟨o, o', ho, ho', hoo⟩ := ha.get? (hs.subset hm)
      simp only [Heap.displayFrom, ho, ho']
      cases hoo with
      | string content => rfl
      | list hlm =>
        -- the items of a list are paired earlier than the list
        obtain ⟨older, hsuf, hlt, hitems⟩ := ha.list_older hs hm ho ho'
        dsimp only
        rw [map_eq_of_forall₂ hitems fun v w hv =>
          ih older hsuf (by omega) v w hv f g (by omega) (by omega)]
      | closure hc => dsimp only; rw [hc.label]
      | continuation hk => rfl

/-- **Alike values are shown alike.** -/
theorem display (ha : Alike ps H G) {v w : Value} (hv : v.Alike ps w) :
    H.display v = G.display w := by
  have := ha.length_le
  exact ha.displayFrom ps.length ps List.suffix_rfl le_rfl v w hv _ _ (by omega) (by omega)

theorem mapM_eq_of_forall₂ {α : Type} {f g : Value → Option α} {l m : List Value}
    (h : List.Forall₂ (Value.Alike qs) l m) (hfg : ∀ v w, v.Alike qs w → f v = g w) :
    l.mapM f = m.mapM g := by
  induction h with
  | nil => rfl
  | cons hv _ ih => rw [List.mapM_cons, List.mapM_cons, hfg _ _ hv, ih]

theorem sourceFrom? (ha : Alike ps H G) (n : Nat) :
    ∀ qs, qs <:+ ps → qs.length ≤ n → ∀ v w, v.Alike qs w → ∀ f g, n < f → n < g →
      H.sourceFrom? f v = G.sourceFrom? g w := by
  induction n with
  | zero =>
    intro qs _ hlen v w hv f g hf hg
    obtain ⟨f, rfl⟩ := Nat.exists_eq_succ_of_ne_zero (by omega : f ≠ 0)
    obtain ⟨g, rfl⟩ := Nat.exists_eq_succ_of_ne_zero (by omega : g ≠ 0)
    cases hv with
    | handle hm => simp [List.eq_nil_of_length_eq_zero (by omega : qs.length = 0)] at hm
    | plain hv => cases v <;> simp_all [Heap.sourceFrom?, Value.handle?]
  | succ n ih =>
    intro qs hs hlen v w hv f g hf hg
    obtain ⟨f, rfl⟩ := Nat.exists_eq_succ_of_ne_zero (by omega : f ≠ 0)
    obtain ⟨g, rfl⟩ := Nat.exists_eq_succ_of_ne_zero (by omega : g ≠ 0)
    cases hv with
    | plain hv => cases v <;> simp_all [Heap.sourceFrom?, Value.handle?]
    | handle hm =>
      obtain ⟨o, o', ho, ho', hoo⟩ := ha.get? (hs.subset hm)
      simp only [Heap.sourceFrom?, ho, ho']
      cases hoo with
      | string content => rfl
      | list hlm =>
        -- the items of a list are paired earlier than the list
        obtain ⟨older, hsuf, hlt, hitems⟩ := ha.list_older hs hm ho ho'
        dsimp only
        rw [mapM_eq_of_forall₂ hitems fun v w hv =>
          ih older hsuf (by omega) v w hv f g (by omega) (by omega)]
      | closure hc => rfl
      | continuation hk => rfl

/-- **Alike values have the same source text.** -/
theorem source? (ha : Alike ps H G) {v w : Value} (hv : v.Alike ps w) :
    H.source? v = G.source? w := by
  have := ha.length_le
  exact ha.sourceFrom? ps.length ps List.suffix_rfl le_rfl v w hv _ _ (by omega) (by omega)

/-! ### Equality -/

theorem all_zip_eq {f g : Value → Value → Bool} {l l' m m' : List Value}
    (hl : List.Forall₂ (Value.Alike qs) l l') (hm : List.Forall₂ (Value.Alike ps) m m')
    (hfg : ∀ v v' w w', v.Alike qs v' → w.Alike ps w' → f v w = g v' w') :
    ((l.zip m).all fun p => f p.1 p.2) = (l'.zip m').all fun p => g p.1 p.2 := by
  induction hl generalizing m m' with
  | nil => rfl
  | cons hv _ ih =>
    cases hm with
    | nil => rfl
    | cons hw hrest =>
      rw [List.zip_cons_cons, List.zip_cons_cons, List.all_cons, List.all_cons,
        hfg _ _ _ _ hv hw, ih hrest]

theorem equalFrom (ha : Alike ps H G) (n : Nat) :
    ∀ qs, qs <:+ ps → qs.length ≤ n → ∀ v v' w w', v.Alike qs v' → w.Alike ps w' →
      ∀ f g, n < f → n < g → H.equalFrom f v w = G.equalFrom g v' w' := by
  -- a value without a handle is compared as it stands
  have plain : ∀ (heap : Heap) (f : Nat) (v w : Value), v.handle? = none ∨ w.handle? = none →
      heap.equalFrom (f + 1) v w = v.same w := by
    intro heap f v w hvw
    cases v <;> cases w <;> simp_all [Heap.equalFrom, Value.handle?]
  have mixed : ∀ {v v' w w' : Value}, v.Alike ps v' → w.Alike ps w' →
      v.handle? = none ∨ w.handle? = none →
      ∀ f g, H.equalFrom (f + 1) v w = G.equalFrom (g + 1) v' w' := by
    intro v v' w w' hv hw hplain f g
    have hplain' : v'.handle? = none ∨ w'.handle? = none := by
      cases hv <;> cases hw <;> simp_all [Value.handle?]
    rw [plain H f v w hplain, plain G g v' w' hplain', hv.same ha.oneToOne hw]
  -- on how many pairs of handles are older than the two values
  induction n with
  | zero =>
    intro qs hs hlen v v' w w' hv hw f g hf hg
    obtain ⟨f, rfl⟩ := Nat.exists_eq_succ_of_ne_zero (by omega : f ≠ 0)
    obtain ⟨g, rfl⟩ := Nat.exists_eq_succ_of_ne_zero (by omega : g ≠ 0)
    cases hv with
    | handle hm => simp [List.eq_nil_of_length_eq_zero (by omega : qs.length = 0)] at hm
    | plain hv => exact mixed (.plain hv) hw (Or.inl hv) f g
  | succ n ih =>
    intro qs hs hlen v v' w w' hv hw f g hf hg
    obtain ⟨f, rfl⟩ := Nat.exists_eq_succ_of_ne_zero (by omega : f ≠ 0)
    obtain ⟨g, rfl⟩ := Nat.exists_eq_succ_of_ne_zero (by omega : g ≠ 0)
    cases hv with
    | plain hv => exact mixed (.plain hv) hw (Or.inl hv) f g
    | handle hm =>
      cases hw with
      | plain hw => exact mixed (.handle (hs.subset hm)) (.plain hw) (Or.inr hw) f g
      | handle hm' =>
        obtain ⟨o, o', ho, ho', hoo⟩ := ha.get? (hs.subset hm)
        obtain ⟨p, p', hp, hp', hpp⟩ := ha.get? hm'
        simp only [Heap.equalFrom, ho, ho', hp, hp', ha.oneToOne.eq_iff (hs.subset hm) hm']
        split
        · rfl
        · cases hoo with
          | string content => cases hpp <;> rfl
          | closure hc => cases hpp <;> rfl
          | continuation hk => cases hpp <;> rfl
          | list hlm =>
            cases hpp with
            | list hlm' =>
              -- what a list holds is older than the list
              obtain ⟨older, hsuf, hlt, hitems⟩ := ha.list_older hs hm ho ho'
              simp only [hlm.length_eq, hlm'.length_eq]
              rw [all_zip_eq hitems hlm' fun v v' w w' hv hw =>
                ih older hsuf (by omega) v v' w w' hv hw f g (by omega) (by omega)]
            | _ => rfl

/-- **Alike values are equal alike.** -/
theorem equal (ha : Alike ps H G) {v v' w w' : Value} (hv : v.Alike ps v') (hw : w.Alike ps w') :
    H.equal v w = G.equal v' w' := by
  have := ha.length_le
  exact ha.equalFrom ps.length ps List.suffix_rfl le_rfl v v' w w' hv hw _ _ (by omega) (by omega)

/-! ### Chains of parents -/

theorem binderFrom (ha : Alike ps H G) (name : String) (n : Nat) :
    ∀ qs, qs <:+ ps → qs.length ≤ n → ∀ a b, Option.Rel (fun h k => (h, k) ∈ qs) a b →
      ∀ f g, n < f → n < g → Option.Rel (fun h k => (h, k) ∈ ps)
        (Machine.binderFrom H name f a) (Machine.binderFrom G name g b) := by
  induction n with
  | zero =>
    intro qs hs hlen a b hab f g hf hg
    obtain ⟨f, rfl⟩ := Nat.exists_eq_succ_of_ne_zero (by omega : f ≠ 0)
    obtain ⟨g, rfl⟩ := Nat.exists_eq_succ_of_ne_zero (by omega : g ≠ 0)
    cases hab with
    | none => exact .none
    | some hm => simp [List.eq_nil_of_length_eq_zero (by omega : qs.length = 0)] at hm
  | succ n ih =>
    intro qs hs hlen a b hab f g hf hg
    obtain ⟨f, rfl⟩ := Nat.exists_eq_succ_of_ne_zero (by omega : f ≠ 0)
    obtain ⟨g, rfl⟩ := Nat.exists_eq_succ_of_ne_zero (by omega : g ≠ 0)
    cases hab with
    | none => exact .none
    | @some h k hm =>
      have hcd := ha.closure? (hs.subset hm)
      simp only [Machine.binderFrom]
      -- the two handles are of closures together, or of none together
      cases hc : H.closure? h with
      | none =>
        rw [hc] at hcd
        cases hd : G.closure? k with
        | none => exact .none
        | some d => rw [hd] at hcd; cases hcd
      | some c =>
        rw [hc] at hcd
        cases hd : G.closure? k with
        | none => rw [hd] at hcd; cases hcd
        | some d =>
          rw [hd] at hcd
          cases hcd with
          | some hcd =>
            dsimp only
            rw [hcd.bound.contains name]
            split
            · exact .some (hs.subset hm)
            · obtain ⟨older, hsuf, hlt, hparent⟩ := ha.parent_older hs hm hc hd
              exact ih older (hsuf.trans hs) (by omega) _ _ hparent f g (by omega) (by omega)

/-- **Names have corresponding binders.** -/
theorem binder? (ha : Alike ps H G) (name : String) {a b : Option Handle}
    (hab : Option.Rel (fun h k => (h, k) ∈ ps) a b) :
    Option.Rel (fun h k => (h, k) ∈ ps) (Machine.binder? H a name) (Machine.binder? G b name) := by
  have := ha.length_le
  exact ha.binderFrom name ps.length ps List.suffix_rfl le_rfl a b hab _ _ (by omega) (by omega)

theorem activationFrom (ha : Alike ps H G) (label : String) (n : Nat) :
    ∀ qs, qs <:+ ps → qs.length ≤ n → ∀ a b, Option.Rel (fun h k => (h, k) ∈ qs) a b →
      ∀ f g, n < f → n < g →
      (∃ x y, Machine.activationFrom H label f a = .ok x ∧ Machine.activationFrom G label g b = .ok y ∧
        Option.Rel (fun h k => (h, k) ∈ ps) x y) ∨
      (∃ h k, Machine.activationFrom H label f a = .error (.invalidHandle h) ∧
        Machine.activationFrom G label g b = .error (.invalidHandle k)) := by
  induction n with
  | zero =>
    intro qs hs hlen a b hab f g hf hg
    obtain ⟨f, rfl⟩ := Nat.exists_eq_succ_of_ne_zero (by omega : f ≠ 0)
    obtain ⟨g, rfl⟩ := Nat.exists_eq_succ_of_ne_zero (by omega : g ≠ 0)
    cases hab with
    | none => exact Or.inl ⟨none, none, rfl, rfl, .none⟩
    | some hm => simp [List.eq_nil_of_length_eq_zero (by omega : qs.length = 0)] at hm
  | succ n ih =>
    intro qs hs hlen a b hab f g hf hg
    obtain ⟨f, rfl⟩ := Nat.exists_eq_succ_of_ne_zero (by omega : f ≠ 0)
    obtain ⟨g, rfl⟩ := Nat.exists_eq_succ_of_ne_zero (by omega : g ≠ 0)
    cases hab with
    | none => exact Or.inl ⟨none, none, rfl, rfl, .none⟩
    | @some h k hm =>
      have hcd := ha.closure? (hs.subset hm)
      simp only [Machine.activationFrom]
      -- the two handles are of closures together, or of none together
      cases hc : H.closure? h with
      | none =>
        rw [hc] at hcd
        cases hd : G.closure? k with
        | none => exact Or.inr ⟨h, k, rfl, rfl⟩
        | some d => rw [hd] at hcd; cases hcd
      | some c =>
        rw [hc] at hcd
        cases hd : G.closure? k with
        | none => rw [hd] at hcd; cases hcd
        | some d =>
          rw [hd] at hcd
          cases hcd with
          | some hcd =>
            dsimp only
            rw [hcd.label]
            split
            · exact Or.inl ⟨_, _, rfl, rfl, .some (hs.subset hm)⟩
            · obtain ⟨older, hsuf, hlt, hparent⟩ := ha.parent_older hs hm hc hd
              exact ih older (hsuf.trans hs) (by omega) _ _ hparent f g (by omega) (by omega)

/-! ### How heaps stay alike -/

/-- **Objects that are alike can be placed in both heaps**, and then correspond. -/
theorem allocate (ha : Alike ps H G) {o o' : Object} (ho : o.Alike ps o') (r r' : Option Handle) :
    Alike ((H.nextSlot, G.nextSlot) :: ps) (H.allocate o r).2 (G.allocate o' r').2 := by
  have hsub : ps ⊆ (H.nextSlot, G.nextSlot) :: ps := List.subset_cons_self _ _
  have hnew : ∀ h k, (h, k) ∈ ps → h ≠ H.nextSlot ∧ k ≠ G.nextSlot := by
    intro h k hm
    obtain ⟨s, s', hs, hs', -⟩ := ha.matched h k hm
    constructor
    · rintro rfl; rw [ha.tidyLeft.slot?_nextSlot] at hs; cases hs
    · rintro rfl; rw [ha.tidyRight.slot?_nextSlot] at hs'; cases hs'
  have hleft : ∀ h k, (h, k) ∈ ps → (H.allocate o r).2.slot? h = H.slot? h :=
    fun h k hm => by rw [slot?_allocate ha.tidyLeft, if_neg (hnew h k hm).1]
  have hright : ∀ h k, (h, k) ∈ ps → (G.allocate o' r').2.slot? k = G.slot? k :=
    fun h k hm => by rw [slot?_allocate ha.tidyRight, if_neg (hnew h k hm).2]
  refine ⟨fun h k hm => ?_, ⟨fun p p' hp hp' => ?_, ?_⟩, ⟨?_, ?_⟩, ha.tidyLeft.allocate o r,
    ha.tidyRight.allocate o' r'⟩
  · rcases List.mem_cons.mp hm with heq | hm
    · obtain ⟨rfl, rfl⟩ := Prod.mk.inj heq
      exact ⟨⟨o, false, r⟩, ⟨o', false, r'⟩, by rw [slot?_allocate ha.tidyLeft, if_pos rfl],
        by rw [slot?_allocate ha.tidyRight, if_pos rfl], rfl, ho.mono hsub⟩
    · obtain ⟨s, s', hs, hs', hconst, hss⟩ := ha.matched h k hm
      exact ⟨s, s', by rw [hleft h k hm, hs], by rw [hright h k hm, hs'], hconst, hss.mono hsub⟩
  · -- the new objects are rooted in all that was there
    simp only [Heap.get?, slot?_allocate ha.tidyLeft, slot?_allocate ha.tidyRight, if_true,
      Option.map_some, Option.some.injEq] at hp hp'
    subst hp hp'
    exact ho.rooted
  · refine ha.layered.congr fun h k hm p p' hp hp' => ?_
    rw [get?_congr (hleft h k hm)] at hp
    rw [get?_congr (hright h k hm)] at hp'
    exact ⟨p, p', hp, hp', fun _ h => h⟩
  · refine List.nodup_cons.mpr ⟨fun hmem => ?_, ha.oneToOne.left⟩
    obtain ⟨⟨h, k⟩, hm, heq⟩ := List.mem_map.mp hmem
    exact (hnew h k hm).1 heq
  · refine List.nodup_cons.mpr ⟨fun hmem => ?_, ha.oneToOne.right⟩
    obtain ⟨⟨h, k⟩, hm, heq⟩ := List.mem_map.mp hmem
    exact (hnew h k hm).2 heq

theorem get?_put_of_ne {heap : Heap} {h j : Handle} {o : Object} (hne : j ≠ h) :
    (heap.put h o).get? j = heap.get? j :=
  get?_congr (by rw [slot?_put, if_neg hne])

/-- **Corresponding closures can be changed alike**, as long as they keep their parents. -/
theorem put (ha : Alike ps H G) {h k : Handle} (hm : (h, k) ∈ ps) {c c' d d' : Closure}
    (hc : H.closure? h = some c) (hd : G.closure? k = some d) (hcd : c'.Alike ps d')
    (hcp : c'.parent = c.parent) (hdp : d'.parent = d.parent) :
    Alike ps (H.put h (.closure c')) (G.put k (.closure d')) := by
  obtain ⟨s₀, s₀', hs₀, hs₀', hconst₀, hss₀⟩ := ha.matched h k hm
  have hco : s₀.object = .closure c := by
    have := closure?_eq_some.mp hc
    simpa [Heap.get?, hs₀] using this
  have hdo : s₀'.object = .closure d := by
    have := closure?_eq_some.mp hd
    simpa [Heap.get?, hs₀'] using this
  refine ⟨fun a b hab => ?_, ?_, ha.oneToOne, ha.tidyLeft.put h _, ha.tidyRight.put k _⟩
  · rw [slot?_put, slot?_put]
    -- the pair itself, or another one, which is not touched
    by_cases heq : a = h
    · obtain rfl := heq
      obtain rfl : b = k := (ha.oneToOne.eq_iff hab hm).mp rfl
      simp only [if_true, hs₀, hs₀', Option.map_some, Option.some.injEq, ← hconst₀]
      refine ⟨_, _, rfl, rfl, ?_⟩
      split
      · exact ⟨hconst₀, hss₀⟩
      · exact ⟨rfl, .closure hcd⟩
    · have hne : b ≠ k := fun hb => heq ((ha.oneToOne.eq_iff hab hm).mpr hb)
      rw [if_neg heq, if_neg hne]
      exact ha.matched a b hab
  · refine ha.layered.congr fun a b hab p p' hp hp' => ?_
    by_cases heq : a = h
    · obtain rfl := heq
      obtain rfl : b = k := (ha.oneToOne.eq_iff hab hm).mp rfl
      refine ⟨.closure c, .closure d, closure?_eq_some.mp hc, closure?_eq_some.mp hd,
        fun older hroot => ?_⟩
      simp only [Heap.get?, slot?_put, if_true, hs₀, hs₀', Option.map_some, Option.some.injEq,
        ← hconst₀] at hp hp'
      split at hp
      · rw [hco] at hp; rw [if_pos ‹_›, hdo] at hp'; subst hp hp'; exact hroot
      · rw [if_neg ‹_›] at hp'
        subst hp hp'
        simpa only [Object.Rooted, hcp, hdp] using hroot
    · have hne : b ≠ k := fun hb => heq ((ha.oneToOne.eq_iff hab hm).mpr hb)
      rw [get?_put_of_ne heq] at hp
      rw [get?_put_of_ne hne] at hp'
      exact ⟨p, p', hp, hp', fun _ h => h⟩

/-- **Pairs can be given up.** If the pairs kept have the slots that they had, and all that their objects
refer to is kept, heaps stay alike under the pairs kept. -/
theorem restrict (ha : Alike ps H G) (keep : Handle × Handle → Bool)
    (hH : ∀ h k, (h, k) ∈ ps → keep (h, k) → H'.slot? h = H.slot? h)
    (hG : ∀ h k, (h, k) ∈ ps → keep (h, k) → G'.slot? k = G.slot? k)
    (hrefs : ∀ h k, (h, k) ∈ ps → keep (h, k) → ∀ a b, (a, b) ∈ ps → a ∈ H.referencesOf h →
      b ∈ G.referencesOf k → keep (a, b))
    (htH : H'.Tidy) (htG : G'.Tidy) : Alike (ps.filter keep) H' G' := by
  -- what a kept object refers to is kept, and is older still
  have hlayer : ∀ qs, qs <:+ ps → Layered H G qs → Layered H' G' (qs.filter keep) := by
    intro qs
    induction qs with
    | nil => intro _ _; trivial
    | cons q older ih =>
      obtain ⟨h, k⟩ := q
      intro hs hl
      have hm : (h, k) ∈ ps := hs.subset List.mem_cons_self
      have hrest := ih ((List.suffix_cons _ _).trans hs) hl.2
      by_cases hk : keep (h, k)
      · rw [List.filter_cons_of_pos hk]
        refine ⟨fun o o' ho ho' => ?_, hrest⟩
        rw [get?_congr (hH h k hm hk)] at ho
        rw [get?_congr (hG h k hm hk)] at ho'
        refine Object.Rooted.filter (hl.1 o o' ho ho') fun a b hab ha' hb' => ?_
        exact hrefs h k hm hk a b (hs.subset (List.mem_cons_of_mem _ hab))
          (by simpa [Heap.referencesOf, ho] using ha') (by simpa [Heap.referencesOf, ho'] using hb')
      · rw [List.filter_cons_of_neg hk]
        exact hrest
  refine ⟨fun h k hm => ?_, hlayer ps List.suffix_rfl ha.layered, ⟨?_, ?_⟩, htH, htG⟩
  · obtain ⟨hm, hk⟩ := List.mem_filter.mp hm
    obtain ⟨s, s', hs, hs', hconst, hss⟩ := ha.matched h k hm
    refine ⟨s, s', by rw [hH h k hm hk, hs], by rw [hG h k hm hk, hs'], hconst, ?_⟩
    refine hss.filter fun a b hab ha' hb' => hrefs h k hm hk a b hab ?_ ?_
    · simpa [Heap.referencesOf, Heap.get?, hs] using ha'
    · simpa [Heap.referencesOf, Heap.get?, hs'] using hb'
  · exact ha.oneToOne.left.sublist (List.Sublist.map _ List.filter_sublist)
  · exact ha.oneToOne.right.sublist (List.Sublist.map _ List.filter_sublist)

end Alike

end SchemeMachine.Heap
