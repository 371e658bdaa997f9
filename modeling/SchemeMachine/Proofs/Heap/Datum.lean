import Mathlib.Data.Finset.Card
import Mathlib.Data.Finset.Range
import Mathlib.Logic.Relation
import SchemeMachine.Proofs.Lineage

/-!
# Lists as trees

A list on the heap holds values, and some of these are handles of further lists. As long as no list holds itself at any
depth, every value unfolds into one finite tree, and what is said of a value by following handles is said of its tree.

* `Heap.Listed` is the relation between a list and what it holds.
* `Datum` is a tree, `Heap.Unfolds` says of which value, `Heap.existsUnique_unfolds` that there is just one.
* `Heap.Unfolds.depth_le`: no branch is longer than there are slots, as no list comes twice on it.
* `Datum.text`, `Datum.source?` and `Datum.Same` are read off the tree; `Heap.displayFrom`, `Heap.sourceFrom?` and
  `Heap.equalFrom` agree with them as soon as they go deep enough, so `Heap.equal` compares trees.
-/

namespace SchemeMachine

/-- The first handle is an item of the list at the second. -/
def Heap.Listed (H : Heap) (j h : Handle) : Prop := ∃ items, H.get? h = some (.list items) ∧ .handle j ∈ items

/-- **A value with all lists below it unfolded.** -/
inductive Datum where
  | atom (value : Value)
  | string (handle : Handle) (content : String)
  | list (handle : Handle) (items : List Datum)
  | procedure (handle : Handle) (label : String)
  | continuation (handle : Handle)
  | missing (handle : Handle)
deriving Inhabited

namespace Datum

/-- How many lists stand above one another, and what they hold at last. -/
def depth : Datum → Nat
  | .list _ items => (items.map depth).foldr max 0 + 1
  | _ => 1

/-- What a program shows of a tree. -/
def text : Datum → String
  | .atom v => v.text
  | .string _ s => s
  | .list _ items => "(" ++ String.intercalate " " (items.map text) ++ ")"
  | .procedure _ label => "#<procedure @" ++ label ++ ">"
  | .continuation _ => "#<continuation>"
  | .missing h => "#<invalid " ++ Handle.label h ++ ">"

/-- An atom as source text. -/
def atomSource? : Value → Option String
  | .number x => some (Number.display x)
  | .boolean b => some (if b then "#t" else "#f")
  | .symbol s => some s
  | .keyword k => some k
  | _ => none

/-- A tree as source text; `none` if it holds something that has no source. -/
def source? : Datum → Option String
  | .atom v => atomSource? v
  | .string _ s => some (Text.quote s)
  | .list _ items =>
    (items.mapM source?).map fun parts => "(" ++ String.intercalate " " parts ++ ")"
  | _ => none

/-- **Trees that compare as equal**: they have one shape, equal strings and leaves, and the same objects where there are
procedures and continuations. One and the same list equals itself, whatever it holds. -/
inductive Same : Datum → Datum → Prop
  | atom {v w : Value} (h : v.same w = true) : Same (.atom v) (.atom w)
  | string (g h : Handle) (s : String) : Same (.string g s) (.string h s)
  | shared (h : Handle) (ds es : List Datum) : Same (.list h ds) (.list h es)
  | list (g h : Handle) {ds es : List Datum} (hlength : ds.length = es.length)
      (hitems : ∀ (i : Nat) (d e : Datum), ds[i]? = some d → es[i]? = some e → Same d e) : Same (.list g ds) (.list h es)
  | procedure (h : Handle) (N M : String) : Same (.procedure h N) (.procedure h M)
  | continuation (h : Handle) : Same (.continuation h) (.continuation h)
  | missing (h : Handle) : Same (.missing h) (.missing h)

theorem source?_list (h : Handle) (items : List Datum) :
    (Datum.list h items).source? =
      (items.mapM source?).map fun parts => "(" ++ String.intercalate " " parts ++ ")" := by
  rw [source?]

theorem exists_eq_succ_of_depth_le {d : Datum} {n : Nat} (h : d.depth ≤ n) : ∃ k, n = k + 1 := by
  refine Nat.exists_eq_succ_of_ne_zero (Nat.ne_of_gt (Nat.lt_of_lt_of_le ?_ h))
  cases d <;> simp [depth]

/-- A list is as deep as its deepest item, and one more. -/
theorem depth_list_le {h : Handle} {items : List Datum} {n : Nat} :
    (Datum.list h items).depth ≤ n + 1 ↔ ∀ d ∈ items, d.depth ≤ n := by
  rw [depth, Nat.add_le_add_iff_right]
  induction items with
  | nil => simp
  | cons d items ih => simp [ih]

theorem Same.symm {d e : Datum} (h : d.Same e) : e.Same d := by
  induction h with
  | atom h => exact .atom (Value.same_symm h)
  | string g h s => exact .string h g s
  | shared h ds es => exact .shared h es ds
  | list g h hlength _ ih => exact .list h g hlength.symm fun i d e hd he => ih i e d he hd
  | procedure h N M => exact .procedure h M N
  | continuation h => exact .continuation h
  | missing h => exact .missing h

end Datum

namespace Heap

variable {H : Heap}

/-! ### Unfolding -/

/-- **A value unfolds into a tree**: lists item by item, everything else into a leaf. -/
inductive Unfolds (H : Heap) : Value → Datum → Prop
  | atom {v : Value} (hv : v.handle? = none) : Unfolds H v (.atom v)
  | string {h : Handle} {s : String} (ho : H.get? h = some (.string s)) : Unfolds H (.handle h) (.string h s)
  | list {h : Handle} {vs : List Value} {ds : List Datum} (ho : H.get? h = some (.list vs))
      (hlength : vs.length = ds.length)
      (hitems : ∀ (i : Nat) (v : Value) (d : Datum), vs[i]? = some v → ds[i]? = some d → Unfolds H v d) : Unfolds H (.handle h) (.list h ds)
  | procedure {h : Handle} {c : Closure} (ho : H.get? h = some (.closure c)) :
      Unfolds H (.handle h) (.procedure h c.label)
  | continuation {h : Handle} {k : Continuation} (ho : H.get? h = some (.continuation k)) :
      Unfolds H (.handle h) (.continuation h)
  | missing {h : Handle} (ho : H.get? h = none) : Unfolds H (.handle h) (.missing h)

/-- Two lists of one length have an item each at a place where one of them has. -/
theorem exists_getElem?_of_length_eq {α β : Type} {xs : List α} {ys : List β} (h : xs.length = ys.length) {i : Nat}
    {x : α} (hx : xs[i]? = some x) : ∃ y, ys[i]? = some y := by
  obtain ⟨hi, -⟩ := List.getElem?_eq_some_iff.mp hx
  exact ⟨_, List.getElem?_eq_getElem (h ▸ hi)⟩

/-- **What a list unfolds into**, items and trees side by side. -/
theorem unfolds_list_iff {v : Value} {h : Handle} {ds : List Datum} :
    H.Unfolds v (.list h ds) ↔
      v = .handle h ∧ ∃ vs, H.get? h = some (.list vs) ∧ List.Forall₂ H.Unfolds vs ds := by
  constructor
  · intro hd
    cases hd with
    | list ho hlength hitems =>
      refine ⟨rfl, _, ho, List.forall₂_iff_get.mpr ⟨hlength, fun i hi hi' => hitems i _ _ ?_ ?_⟩⟩ <;> simp
  · rintro ⟨rfl, vs, ho, hitems⟩
    obtain ⟨hlength, hget⟩ := List.forall₂_iff_get.mp hitems
    refine .list ho hlength fun i v d hv hd => ?_
    obtain ⟨hi, rfl⟩ := List.getElem?_eq_some_iff.mp hv
    obtain ⟨hi', rfl⟩ := List.getElem?_eq_some_iff.mp hd
    exact hget i hi hi'

/-- **A value unfolds into one tree at most.** -/
theorem Unfolds.unique {v : Value} {d e : Datum} (hd : H.Unfolds v d) (he : H.Unfolds v e) : d = e := by
  induction hd generalizing e with
  | atom hv => cases he <;> first | rfl | cases hv
  | @list h vs ds ho hlength _ ih =>
    cases he with
    | atom hv => cases hv
    | @list _ ws es ho' hlength' hitems' =>
      cases ho.symm.trans ho'
      congr 1
      refine List.ext_getElem? fun i => ?_
      cases hi : ds[i]? with
      | none =>
        rw [List.getElem?_eq_none_iff] at hi
        rw [eq_comm, List.getElem?_eq_none_iff]
        omega
      | some d =>
        obtain ⟨v, hv⟩ := exists_getElem?_of_length_eq hlength.symm hi
        obtain ⟨e, he⟩ := exists_getElem?_of_length_eq hlength' hv
        rw [he, ih i v d hv hi (hitems' i v e hv he)]
    | _ ho' => cases ho.symm.trans ho'
  | _ ho =>
    cases he with
    | atom hv => cases hv
    | _ ho' => cases ho.symm.trans ho'; try rfl

/-- A handle unfolds into more than itself if something is there. -/
theorem Unfolds.isSome_iff {h : Handle} {d : Datum} (hd : H.Unfolds (.handle h) d) :
    (H.get? h).isSome = true ↔ d ≠ .missing h := by
  cases hd with
  | atom hv => cases hv
  | _ ho => simp [ho]

/-- **Every value unfolds into a tree**, given that no list holds itself. -/
theorem exists_unfolds (hwf : WellFounded H.Listed) (v : Value) : ∃ d, H.Unfolds v d := by
  have hhandle (h : Handle) : ∃ d, H.Unfolds (.handle h) d := by
    induction h using hwf.induction with
    | _ h ih =>
      cases ho : H.get? h with
      | none => exact ⟨_, .missing ho⟩
      | some o =>
        cases o with
        | string s => exact ⟨_, .string ho⟩
        | closure c => exact ⟨_, .procedure ho⟩
        | continuation k => exact ⟨_, .continuation ho⟩
        | list vs =>
          have hitem : ∀ v ∈ vs, ∃ d, H.Unfolds v d := by
            intro v hv
            cases v with
            | handle j => exact ih j ⟨vs, ho, hv⟩
            | _ => exact ⟨_, .atom rfl⟩
          choose! unfold hunfold using hitem
          refine ⟨_, .list ho (List.length_map unfold).symm fun i v d hv hd => ?_⟩
          rw [List.getElem?_map, hv] at hd
          cases hd
          exact hunfold v (List.mem_of_getElem? hv)
  cases v with
  | handle h => exact hhandle h
  | _ => exact ⟨_, .atom rfl⟩

/-- **Every value unfolds into just one tree**, given that no list holds itself. -/
theorem existsUnique_unfolds (hwf : WellFounded H.Listed) (v : Value) : ∃! d, H.Unfolds v d := by
  obtain ⟨d, hd⟩ := exists_unfolds hwf v
  exact ⟨d, hd, fun e he => he.unique hd⟩

/-! ### How deep trees are -/

open Classical in
/-- The slots that a list leads to through lists, its own among them. -/
noncomputable def below (H : Heap) (h : Handle) : Finset Handle :=
  (Finset.range H.slots.size).filter fun j => Relation.ReflTransGen H.Listed j h

theorem mem_below {j h : Handle} : j ∈ H.below h ↔ j < H.slots.size ∧ Relation.ReflTransGen H.Listed j h := by
  simp [below]

theorem mem_below_self {h : Handle} {o : Object} (ho : H.get? h = some o) : h ∈ H.below h := by
  obtain ⟨s, hs, -⟩ := get?_eq_some.mp ho
  exact mem_below.mpr ⟨lt_size_of_slot? hs, .refl⟩

/-- **An item leads to less than its list**: not to the list itself. -/
theorem card_below_lt (hwf : WellFounded H.Listed) {j h : Handle} (hlisted : H.Listed j h) :
    (H.below j).card < (H.below h).card := by
  obtain ⟨items, ho, -⟩ := id hlisted
  refine Finset.card_lt_card (Finset.ssubset_iff_of_subset ?_ |>.mpr ⟨h, mem_below_self ho, fun hback => ?_⟩)
  · intro k hk
    obtain ⟨hlt, hleads⟩ := mem_below.mp hk
    exact mem_below.mpr ⟨hlt, hleads.tail hlisted⟩
  · have hcycle : Relation.TransGen H.Listed h h := .tail' (mem_below.mp hback).2 hlisted
    exact hwf.transGen.irrefl.irrefl h hcycle

theorem card_below_le (H : Heap) (h : Handle) : (H.below h).card ≤ H.slots.size :=
  (Finset.card_le_card fun _ hj => Finset.mem_range.mpr (mem_below.mp hj).1).trans (Finset.card_range _).le

/-- **A tree is no deeper than there are slots**, but for its leaves. -/
theorem Unfolds.depth_le (hwf : WellFounded H.Listed) {v : Value} {d : Datum} (hd : H.Unfolds v d) :
    d.depth ≤ H.slots.size + 1 := by
  suffices hbound : ∀ h, v = .handle h → d.depth ≤ (H.below h).card + 1 by
    cases hd with
    | atom => simp [Datum.depth]
    | _ => exact (hbound _ rfl).trans (Nat.add_le_add_right (card_below_le H _) 1)
  induction hd with
  | @list h vs ds ho hlength hitems ih =>
    rintro _ ⟨⟩
    refine Datum.depth_list_le.mpr fun d hd => ?_
    obtain ⟨i, hi⟩ := List.mem_iff_getElem?.mp hd
    obtain ⟨v, hv⟩ := exists_getElem?_of_length_eq hlength.symm hi
    have hitem := hitems i v d hv hi
    cases v with
    | handle j => exact (ih i _ d hv hi j rfl).trans (card_below_lt hwf ⟨vs, ho, List.mem_of_getElem? hv⟩)
    | _ =>
      -- nothing stands below a leaf, but the list itself has been counted
      have hpos : 0 < (H.below h).card := Finset.card_pos.mpr ⟨h, mem_below_self ho⟩
      cases hitem
      simpa [Datum.depth] using hpos
  | _ => simp [Datum.depth]

/-! ### What is read off a tree -/

/-- What is done to the items of a list, as it is done to their trees. -/
theorem map_eq_of_items {α : Type} {vs : List Value} {ds : List Datum} {f : Value → α} {g : Datum → α}
    (hlength : vs.length = ds.length)
    (hitems : ∀ (i : Nat) (v : Value) (d : Datum), vs[i]? = some v → ds[i]? = some d → f v = g d) :
    vs.map f = ds.map g := by
  refine List.ext_getElem? fun i => ?_
  rw [List.getElem?_map, List.getElem?_map]
  cases hv : vs[i]? with
  | none =>
    have hd : ds[i]? = none := by
      rw [List.getElem?_eq_none_iff] at hv ⊢
      omega
    rw [hd]
    rfl
  | some v =>
    obtain ⟨d, hd⟩ := exists_getElem?_of_length_eq hlength hv
    rw [hd, Option.map_some, Option.map_some, hitems i v d hv hd]

/-- **What a program shows of a value** is what its tree shows. -/
theorem Unfolds.display {v : Value} {d : Datum} (hd : H.Unfolds v d) {fuel : Nat} (hfuel : d.depth ≤ fuel) :
    H.displayFrom fuel v = d.text := by
  induction hd generalizing fuel with
  | @atom v hv =>
    rw [Datum.text]
    cases fuel with
    | zero => rfl
    | succ fuel => cases v <;> first | rfl | cases hv
  | @list h vs ds ho hlength hitems ih =>
    obtain ⟨fuel, rfl⟩ := Datum.exists_eq_succ_of_depth_le hfuel
    have hdeep := Datum.depth_list_le.mp hfuel
    simp only [displayFrom, ho, Datum.text]
    rw [map_eq_of_items hlength fun i v d hv hd => ih i v d hv hd (hdeep d (List.mem_of_getElem? hd))]
  | _ ho =>
    obtain ⟨fuel, rfl⟩ := Datum.exists_eq_succ_of_depth_le hfuel
    simp only [displayFrom, ho, Datum.text]

/-- **A value has source text** if its tree has, and the same one. -/
theorem Unfolds.source {v : Value} {d : Datum} (hd : H.Unfolds v d) {fuel : Nat} (hfuel : d.depth ≤ fuel) :
    H.sourceFrom? fuel v = d.source? := by
  induction hd generalizing fuel with
  | @list h vs ds ho hlength hitems ih =>
    obtain ⟨fuel, rfl⟩ := Datum.exists_eq_succ_of_depth_le hfuel
    have hdeep := Datum.depth_list_le.mp hfuel
    have hmap := map_eq_of_items hlength fun i v d hv hd => ih i v d hv hd (hdeep d (List.mem_of_getElem? hd))
    have hmapM : vs.mapM (H.sourceFrom? fuel) = ds.mapM Datum.source? := by
      simpa only [List.mapM_map, Function.id_comp] using congrArg (List.mapM id) hmap
    simp only [sourceFrom?, ho, Datum.source?_list, hmapM]
  | @atom v hv =>
    obtain ⟨fuel, rfl⟩ := Datum.exists_eq_succ_of_depth_le hfuel
    rw [Datum.source?]
    cases v <;> first | rfl | cases hv
  | _ ho =>
    obtain ⟨fuel, rfl⟩ := Datum.exists_eq_succ_of_depth_le hfuel
    simp only [sourceFrom?, ho, Datum.source?]

/-! ### Equality -/

/-- A tree equals itself as far as handles go. -/
theorem Unfolds.same_handle {h : Handle} {d : Datum} (hd : H.Unfolds (.handle h) d) : d.Same d := by
  cases hd with
  | atom hv => cases hv
  | string => exact .string _ _ _
  | list => exact .shared _ _ _
  | procedure => exact .procedure _ _ _
  | continuation => exact .continuation _
  | missing => exact .missing _

/-- Lists are compared item by item. -/
theorem equalFrom_list {fuel : Nat} {g h : Handle} {vs ws : List Value} (hne : g ≠ h)
    (hg : H.get? g = some (.list vs)) (hh : H.get? h = some (.list ws)) :
    H.equalFrom (fuel + 1) (.handle g) (.handle h) = true ↔ vs.length = ws.length ∧
      ∀ (i : Nat) (v w : Value), vs[i]? = some v → ws[i]? = some w → H.equalFrom fuel v w = true := by
  simp only [equalFrom, if_neg hne, hg, hh, Bool.and_eq_true, decide_eq_true_eq, List.all_eq_true]
  refine and_congr_right fun hlength => ⟨fun hall i v w hv hw => ?_, fun hall q hq => ?_⟩
  · exact hall (v, w) (List.mem_of_getElem? (List.getElem?_zip_eq_some.mpr ⟨hv, hw⟩))
  · obtain ⟨i, hi⟩ := List.mem_iff_getElem?.mp hq
    obtain ⟨hv, hw⟩ := List.getElem?_zip_eq_some.mp hi
    exact hall i q.1 q.2 hv hw

/-- What is no object is compared as it is. -/
theorem equalFrom_eq_same {v w : Value} (h : v.handle? = none ∨ w.handle? = none) (fuel : Nat) :
    H.equalFrom fuel v w = v.same w := by
  cases fuel with
  | zero => rfl
  | succ fuel => cases v <;> cases w <;> first | rfl | (rcases h with h | h <;> cases h)

/-- What is no object does not equal one. -/
theorem same_handle_eq_false {v : Value} (hv : v.handle? = none) (h : Handle) :
    v.same (.handle h) = false ∧ (Value.handle h).same v = false := by
  cases v <;> first | exact ⟨rfl, rfl⟩ | cases hv

/-- **Values are equal if their trees are.** -/
theorem Unfolds.equal_iff {v w : Value} {d e : Datum} (hd : H.Unfolds v d) (he : H.Unfolds w e) {fuel : Nat}
    (hfuel : d.depth ≤ fuel) : H.equalFrom fuel v w = true ↔ d.Same e := by
  -- an object equals itself, and what is no object does not equal one
  have hobject : ∀ {h : Handle} {d e : Datum} {w : Value} {fuel : Nat}, H.Unfolds (.handle h) d → H.Unfolds w e →
      d.depth ≤ fuel → (∀ g fuel, w = .handle g → h ≠ g → d.depth ≤ fuel + 1 →
        (H.equalFrom (fuel + 1) (.handle h) (.handle g) = true ↔ d.Same e)) →
      (H.equalFrom fuel (.handle h) w = true ↔ d.Same e) := by
    intro h d e w fuel hd he hfuel hother
    obtain ⟨fuel, rfl⟩ := Datum.exists_eq_succ_of_depth_le hfuel
    cases hw : w.handle? with
    | none =>
      rw [equalFrom_eq_same (Or.inr hw), (same_handle_eq_false hw h).2]
      cases he with
      | atom =>
        refine ⟨nofun, fun hsame => ?_⟩
        cases hsame
        cases hd with
        | atom hv => cases hv
      | _ => cases hw
    | some g =>
      obtain rfl : w = .handle g := by
        cases w <;> cases hw
        rfl
      by_cases hg : h = g
      · subst hg
        rw [← hd.unique he]
        simp only [equalFrom, if_true, true_iff]
        exact hd.same_handle
      · exact hother g fuel rfl hg hfuel
  induction hd generalizing w e fuel with
  | @atom v hv =>
    rw [equalFrom_eq_same (Or.inl hv)]
    cases he with
    | atom => exact ⟨.atom, fun h => by cases h; assumption⟩
    | _ =>
      rw [(same_handle_eq_false hv _).1]
      exact ⟨nofun, nofun⟩
  | @list g vs ds hg hlength hitems ih =>
    refine hobject (.list hg hlength hitems) he hfuel ?_
    rintro h fuel rfl hne hfuel
    cases he with
    | atom hv => cases hv
    | @list _ ws es hh hlength' hitems' =>
      have hdeep := Datum.depth_list_le.mp hfuel
      rw [equalFrom_list hne hg hh]
      constructor
      · rintro ⟨heq, hall⟩
        refine .list _ _ (by omega) fun i d e hd he => ?_
        obtain ⟨v, hv⟩ := exists_getElem?_of_length_eq hlength.symm hd
        obtain ⟨w, hw⟩ := exists_getElem?_of_length_eq hlength'.symm he
        exact (ih i v d hv hd (hitems' i w e hw he) (hdeep d (List.mem_of_getElem? hd))).mp (hall i v w hv hw)
      · intro hsame
        cases hsame with
        | shared => exact absurd rfl hne
        | list _ _ heq hpairs =>
          refine ⟨by omega, fun i v w hv hw => ?_⟩
          obtain ⟨d, hd⟩ := exists_getElem?_of_length_eq hlength hv
          obtain ⟨e, he⟩ := exists_getElem?_of_length_eq hlength' hw
          exact (ih i v d hv hd (hitems' i w e hw he) (hdeep d (List.mem_of_getElem? hd))).mpr (hpairs i d e hd he)
    | _ hh =>
      simp only [equalFrom, if_neg hne, hg, hh]
      exact ⟨nofun, nofun⟩
  | @string g s hg =>
    refine hobject (.string hg) he hfuel ?_
    rintro h fuel rfl hne hfuel
    cases he with
    | atom hv => cases hv
    | @string _ t hh =>
      simp only [equalFrom, if_neg hne, hg, hh, decide_eq_true_eq]
      exact ⟨fun heq => heq ▸ .string g h s, fun hsame => by cases hsame; rfl⟩
    | _ hh =>
      simp only [equalFrom, if_neg hne, hg, hh]
      exact ⟨nofun, nofun⟩
  | @procedure g c hg =>
    refine hobject (.procedure hg) he hfuel ?_
    rintro h fuel rfl hne hfuel
    simp only [equalFrom, if_neg hne, hg]
    exact ⟨nofun, fun hsame => by cases hsame; cases he; exact absurd rfl hne⟩
  | @continuation g k hg =>
    refine hobject (.continuation hg) he hfuel ?_
    rintro h fuel rfl hne hfuel
    simp only [equalFrom, if_neg hne, hg]
    exact ⟨nofun, fun hsame => by cases hsame; cases he; exact absurd rfl hne⟩
  | @missing g hg =>
    refine hobject (.missing hg) he hfuel ?_
    rintro h fuel rfl hne hfuel
    simp only [equalFrom, if_neg hne, hg]
    exact ⟨nofun, fun hsame => by cases hsame; cases he; exact absurd rfl hne⟩

/-- **Trees of one heap** that equal a third one are equal: a list that is shared has the same items everywhere. -/
theorem Unfolds.same_trans {u v w : Value} {c d e : Datum} (hc : H.Unfolds u c) (hd : H.Unfolds v d)
    (he : H.Unfolds w e) (hcd : c.Same d) (hde : d.Same e) : c.Same e := by
  induction hcd generalizing u v w e with
  | atom h =>
    cases hde with
    | atom h' => exact .atom (Value.same_trans h h')
  | shared h ds es =>
    cases hc with
    | list ho hlength hitems =>
      cases hd with
      | list ho' hlength' hitems' =>
        exact (Unfolds.list ho hlength hitems).unique (.list ho' hlength' hitems') ▸ hde
  | @list f g ds es hlength hpairs ih =>
    cases hde with
    | shared _ _ fs =>
      -- both are the list at one handle
      cases hd with
      | list ho hlength' hitems =>
        cases he with
        | list ho' hlength'' hitems' =>
          cases (Unfolds.list ho hlength' hitems).unique (.list ho' hlength'' hitems')
          exact .list _ _ hlength hpairs
    | @list _ h _ fs hlength' hpairs' =>
      cases hc with
      | list _ hus hc =>
        cases hd with
        | list _ hvs hd =>
          cases he with
          | list _ hws he =>
            refine .list _ _ (hlength.trans hlength') fun i c e hci hei => ?_
            obtain ⟨u, hu⟩ := exists_getElem?_of_length_eq hus.symm hci
            obtain ⟨w, hw⟩ := exists_getElem?_of_length_eq hws.symm hei
            obtain ⟨d, hdi⟩ := exists_getElem?_of_length_eq hlength hci
            obtain ⟨v, hv⟩ := exists_getElem?_of_length_eq hvs.symm hdi
            exact ih i c d hci hdi (hc i u c hu hci) (hd i v d hv hdi) (he i w e hw hei) (hpairs' i d e hdi hei)
  | _ =>
    cases hde
    constructor

end Heap

/-- A value compares as equal to itself, unless it is no number where a number should be. -/
theorem Value.same_self {v : Value} : v.same v = true ↔ ∀ x, v = .number x → x.isNaN = false := by
  cases v with
  | number x =>
    have hnan : x.isNaN = false ↔ x.toModel.unpack ≠ .notANumber := by
      show x.toModel.unpack.isNaN = false ↔ _
      cases x.toModel.unpack <;> simp [Float.Model.UnpackedFloat.isNaN]
    rw [same_number]
    constructor
    · rintro ⟨y, heq, hxy⟩ z hz
      cases heq
      cases hz
      exact hnan.mpr (unpacked_beq.mp (float_beq.mp hxy)).1
    · intro h
      exact ⟨x, rfl, float_beq.mpr (unpacked_beq.mpr ⟨hnan.mp (h x rfl), Or.inl rfl⟩)⟩
  | _ => exact ⟨nofun, fun _ => (same_of_number?_eq_none rfl).mpr rfl⟩

/-- **A heap whose lists are finite trees.** -/
structure Heap.Treelike (H : Heap) : Prop where
  /-- No list holds itself, at any depth. -/
  wellFounded : WellFounded H.Listed
  /-- What lists hold is there. -/
  live : ∀ j h, H.Listed j h → (H.get? j).isSome = true
  /-- Every value is a tree. -/
  tree : ∀ v, ∃! d, H.Unfolds v d
  /-- A value is shown as its tree is, and written as source text like it; looking deeper changes nothing. -/
  texts : ∀ v d, H.Unfolds v d → H.display v = d.text ∧ H.source? v = d.source? ∧
    ∀ fuel, H.slots.size < fuel → H.displayFrom fuel v = d.text ∧ H.sourceFrom? fuel v = d.source?
  /-- Values are equal if their trees are. -/
  equal_iff : ∀ v w d e, H.Unfolds v d → H.Unfolds w e → (H.equal v w = true ↔ d.Same e) ∧
    ∀ fuel, H.slots.size < fuel → (H.equalFrom fuel v w = true ↔ d.Same e)
  symm : ∀ v w, H.equal v w = true → H.equal w v = true
  trans : ∀ u v w, H.equal u v = true → H.equal v w = true → H.equal u w = true
  /-- Every value equals itself, but for numbers that are none. -/
  refl_iff : ∀ v, H.equal v v = true ↔ ∀ x, v = .number x → x.isNaN = false

/-- **Lists are finite trees** as soon as no list holds itself, and what they hold is there. -/
theorem Heap.treelike {H : Heap} (hwf : WellFounded H.Listed) (hlive : ∀ j h, H.Listed j h → (H.get? j).isSome = true) :
    H.Treelike := by
  -- fuel that exceeds the size of the heap suffices for every tree
  have hequal : ∀ {v w d e fuel}, H.Unfolds v d → H.Unfolds w e → H.slots.size < fuel →
      (H.equalFrom fuel v w = true ↔ d.Same e) := fun hd he hfuel => hd.equal_iff he ((hd.depth_le hwf).trans hfuel)
  have htexts : ∀ {v d fuel}, H.Unfolds v d → H.slots.size < fuel →
      H.displayFrom fuel v = d.text ∧ H.sourceFrom? fuel v = d.source? := fun hd hfuel =>
    ⟨hd.display ((hd.depth_le hwf).trans hfuel), hd.source ((hd.depth_le hwf).trans hfuel)⟩
  have hdeep : H.slots.size < H.slots.size + 1 := Nat.lt_succ_self _
  refine ⟨hwf, hlive, existsUnique_unfolds hwf, fun v d hd => ?_, fun v w d e hd he => ?_, fun v w h => ?_,
    fun u v w huv hvw => ?_, fun v => ?_⟩
  · exact ⟨(htexts hd hdeep).1, (htexts hd hdeep).2, fun fuel hfuel => htexts hd hfuel⟩
  · exact ⟨hequal hd he hdeep, fun fuel hfuel => hequal hd he hfuel⟩
  · obtain ⟨d, hd⟩ := exists_unfolds hwf v
    obtain ⟨e, he⟩ := exists_unfolds hwf w
    exact (hequal he hd hdeep).mpr ((hequal hd he hdeep).mp h).symm
  · obtain ⟨c, hc⟩ := exists_unfolds hwf u
    obtain ⟨d, hd⟩ := exists_unfolds hwf v
    obtain ⟨e, he⟩ := exists_unfolds hwf w
    exact (hequal hc he hdeep).mpr
      (hc.same_trans hd he ((hequal hc hd hdeep).mp huv) ((hequal hd he hdeep).mp hvw))
  · cases hv : v.handle? with
    | none =>
      rw [equal, equalFrom_eq_same (Or.inl hv)]
      exact Value.same_self
    | some h =>
      obtain rfl : v = .handle h := by
        cases v <;> cases hv
        rfl
      simp [equal, equalFrom]

end SchemeMachine
