import SchemeMachine.Proofs.Move
import SchemeMachine.Proofs.Sound.Heap

/-!
# Variables of a sound machine

On a sound machine, reading, binding and changing a variable is what the lineage of the current closure says, and
closing a procedure finds the activation that it belongs to.

* `Heap.Sound.lookup?_eq_none` and `Heap.Sound.lookup?_eq_some`: a look-up finds what the nearest binder binds, or a
  copy that compares as equal.
* `Machine.Sound.run_dereference`, `run_store`, `run_assign` and `run_makeClosure` say what the moves do.
-/

namespace SchemeMachine

variable {p : Program} {L : Layout p} {strict : Prop} {A : Handle → Prop} {H : Heap} {h : Handle} {c : Closure}
  {l : Ancestry} {m : Machine} {name : String} {v : Value}

/-! ### Look-ups -/

namespace Heap.Sound

/-- A name that no closure of the lineage binds is not seen. -/
theorem lookup?_eq_none (hs : H.Sound L strict A) (hc : H.closure? h = some c) (hl : H.Lineage (some h) l)
    (hb : l.binder? name = none) : Machine.lookup? H c name = none := by
  obtain ⟨rest, rfl, hrest⟩ := hl.exists_eq_cons hc
  have hnone := Ancestry.binder?_eq_none.mp hb
  have hbound : c.bound.find? name = none := hnone _ List.mem_cons_self
  have hout : Ancestry.binder? rest name = none :=
    Ancestry.binder?_eq_none.mpr fun e he => hnone e (List.mem_cons_of_mem _ he)
  have hfree : c.free.find? name = none := by
    cases hfree : c.free.find? name with
    | none => rfl
    | some v =>
      obtain ⟨e, w, hb', -⟩ := (hs.closure hc).copies rest name v hrest hfree
      rw [hout] at hb'
      cases hb'
  simp only [Machine.lookup?, hbound, hfree, hrest.outerBinding?_eq, hout, Option.bind_none]

/-- **A name that the lineage binds is seen**: its nearest binding, or a copy of it that compares as equal. -/
theorem lookup?_eq_some (hs : H.Sound L strict A) (hc : H.closure? h = some c) (hl : H.Lineage (some h) l)
    {e : Handle × Closure} {w : Value} (hb : l.binder? name = some e) (hw : e.2.bound.find? name = some w) :
    ∃ v, Machine.lookup? H c name = some v ∧ (v = w ∨ v.same w = true) ∧ v.Held L A H e.2.label := by
  have he := hl.closure?_of_mem (Ancestry.mem_of_binder? hb)
  have hheld : w.Held L A H e.2.label := ((hs.closure he).owned name w hw).2
  obtain ⟨rest, rfl, hrest⟩ := hl.exists_eq_cons hc
  cases hbound : c.bound.find? name with
  | some u =>
    rw [Ancestry.binder?_cons_of_bound (Table.contains_iff.mpr ⟨u, hbound⟩)] at hb
    cases hb
    exact ⟨w, by simp only [Machine.lookup?, hw], Or.inl rfl, hheld⟩
  | none =>
    rw [Ancestry.binder?_cons_of_not_bound (by simp [Table.contains, hbound])] at hb
    have hout : Machine.outerBinding? H c name = some (w, e.2.isDirty name) := by
      rw [hrest.outerBinding?_eq, hb, Option.bind_some, hw, Option.map_some]
    cases hfree : c.free.find? name with
    | none => exact ⟨w, by simp only [Machine.lookup?, hbound, hfree, hout], Or.inl rfl, hheld⟩
    | some u =>
      obtain ⟨e', w', hb', hw', hsame, hu⟩ := (hs.closure hc).copies rest name u hrest hfree
      cases hb.symm.trans hb'
      cases hw.symm.trans hw'
      by_cases hstale : (!u.same w && e.2.isDirty name) = true
      · exact ⟨w, by simp only [Machine.lookup?, hbound, hfree, hout, hstale, if_true], Or.inl rfl, hheld⟩
      · refine ⟨u, by simp only [Machine.lookup?, hbound, hfree, hout, hstale, Bool.false_eq_true, if_false], ?_, hu⟩
        rcases hsame with heq | hsame | hdirty
        · exact Or.inl heq
        · exact Or.inr hsame
        · simp only [hdirty, Bool.and_true, Bool.not_eq_true, Bool.not_eq_false'] at hstale
          exact Or.inr hstale

end Heap.Sound

namespace Machine

theorem run_closureOf (hc : m.heap.closure? h = some c) : (closureOf h).run m = (.ok c, m) := by
  unfold closureOf
  rw [run_get_bind, hc]
  rfl

/-- An object is placed in the next free slot. -/
theorem run_allocate (o : Object) (m : Machine) :
    (allocate o).run m = (.ok m.heap.nextSlot, { m with heap := (m.heap.allocate o m.current).2 }) := by
  simp only [Machine.allocate, run_modifyGet, Heap.allocate_fst]

/-- A look-up that starts at the current closure. -/
theorem run_dereference (name : String) (hcurrent : m.current = some h) (hc : m.heap.closure? h = some c) :
    (dereference name).run m =
      match lookup? m.heap c name with
      | some v => (.ok v, m)
      | none => (.error (.unboundVariable name), m) := by
  unfold dereference
  rw [run_get_bind, hcurrent]
  dsimp only
  rw [run_bind_ok (run_closureOf hc), run_get_bind]
  cases lookup? m.heap c name <;> rfl

theorem run_updateClosure {H : Heap} (hm : H.mutableClosure? h = some c) (f : Closure → Closure) :
    (updateClosure h f).run { m with heap := H } = (.ok (), { m with heap := H.put h (.closure (f c)) }) := by
  unfold updateClosure
  rw [run_get_bind]
  dsimp only
  rw [hm]
  rfl

/-! ### Changes -/

theorem Sound.run_store (hs : m.Sound L strict A) (hcurrent : m.current = some h) (hc : m.heap.closure? h = some c) :
    (store name v).run m = (.ok (), { m with heap := m.heap.put h (.closure (c.bind name v)) }) := by
  unfold store
  rw [run_get_bind]
  nth_rewrite 1 [hcurrent]
  exact run_updateClosure (m := m) (hs.heap.mutableClosure? hc) _

/-- An assignment starts by a look at the current closure, and at its copy. -/
theorem run_assign (hcurrent : m.current = some h) (hc : m.heap.mutableClosure? h = some c) (name : String) (v : Value) :
    (assign name v).run m =
      if c.bound.contains name then (updateClosure h (·.setBound name v)).run m
      else ((if c.free.contains name then updateClosure h (·.setFree name v) else pure ()) >>= fun _ =>
        get >>= fun m => match binder? m.heap c.parent name with
          | some outer => updateClosure outer (·.setBound name v)
          | none => if c.free.contains name then pure () else throw (.unboundVariable name)).run m := by
  unfold assign
  rw [run_get_bind, hcurrent]
  dsimp only
  rw [run_get_bind, hc]
  dsimp only
  split
  · rfl
  · split <;> rfl

/-- **An assignment to a name that is not bound** fails and changes nothing. -/
theorem Sound.run_assign_of_none (hs : m.Sound L strict A) (hcurrent : m.current = some h)
    (hc : m.heap.closure? h = some c) (hl : m.heap.Lineage (some h) l) (hb : l.binder? name = none) :
    (assign name v).run m = (.error (.unboundVariable name), m) := by
  obtain ⟨rest, rfl, hrest⟩ := hl.exists_eq_cons hc
  have hnone := Ancestry.binder?_eq_none.mp hb
  have hbound : ¬c.bound.contains name = true := by
    simp [Table.contains, show c.bound.find? name = none from hnone _ List.mem_cons_self]
  have hout : Ancestry.binder? rest name = none :=
    Ancestry.binder?_eq_none.mpr fun e he => hnone e (List.mem_cons_of_mem _ he)
  have hfree : ¬c.free.contains name = true := by
    intro hcontains
    obtain ⟨u, hu⟩ := Table.contains_iff.mp hcontains
    obtain ⟨e, w, hb', -⟩ := (hs.heap.closure hc).copies rest name u hrest hu
    rw [hout] at hb'
    cases hb'
  rw [run_assign hcurrent (hs.heap.mutableClosure? hc), if_neg hbound, if_neg hfree, run_pure_bind, run_get_bind,
    hrest.binder?_eq, hout]
  dsimp only [Option.map_none]
  rw [if_neg hfree]
  rfl

/-- **An assignment to a name that is bound** changes its nearest binding, and the copy of the current closure. What becomes
of the heap depends on the heap alone. -/
theorem run_assign_of_binder (hs : H.Sound L strict A) (hc : H.closure? h = some c) (hl : H.Lineage (some h) l)
    {e : Handle × Closure} (hb : l.binder? name = some e) (v : Value) :
    ∃ H', (∀ m : Machine, m.heap = H → m.current = some h → (assign name v).run m = (.ok (), { m with heap := H' })) ∧
      H.Changes H' (Closure.assigned h e.1 name v ·) := by
  have he := hl.closure?_of_mem (Ancestry.mem_of_binder? hb)
  -- changing one closure that may be changed
  have hput : ∀ {H : Heap} {j : Handle} {d : Closure} (f : Closure → Closure), H.Tidy → H.isMutable j →
      H.closure? j = some d →
      ∃ H', (∀ m : Machine, (updateClosure j f).run { m with heap := H } = (.ok (), { m with heap := H' })) ∧
        H.Changes H' fun i d => if i = j then f d else d := by
    intro H j d f ht hm hd
    refine ⟨_, fun m => run_updateClosure ?_ f, Heap.Changes.put ht hm hd f⟩
    rw [Heap.mutableClosure?, if_pos hm, hd]
  obtain ⟨rest, rfl, hrest⟩ := hl.exists_eq_cons hc
  -- the current closure binds the name itself, has a copy of it, or has neither
  by_cases hbound : c.bound.contains name = true
  · rw [Ancestry.binder?_cons_of_bound hbound] at hb
    cases hb
    obtain ⟨H', hrun, hf⟩ := hput (·.setBound name v) hs.tidy (hs.changeable h c hc) hc
    refine ⟨H', fun m hheap hcurrent => ?_, hf.congr fun j d hd => ?_⟩
    · subst hheap
      rw [run_assign hcurrent (hs.mutableClosure? hc), if_pos hbound]
      exact hrun m
    · unfold Closure.assigned
      split
      · rfl
      · next hj => rw [if_neg fun h => hj h.1]
  · rw [Ancestry.binder?_cons_of_not_bound hbound] at hb
    -- the binder is further out, as no closure is twice in a lineage
    have hne : e.1 ≠ h := by
      intro heq
      have hnodup := (Heap.Lineage.cons hc hrest).nodup
      rw [List.map_cons, List.nodup_cons] at hnodup
      exact hnodup.1 (List.mem_map.mpr ⟨e, Ancestry.mem_of_binder? hb, heq⟩)
    by_cases hfree : c.free.contains name = true
    · obtain ⟨H₁, hrun₁, hf₁⟩ := hput (·.setFree name v) hs.tidy (hs.changeable h c hc) hc
      -- writing the copy has moved no binding, so that the binder is found as before
      have hout : Machine.binder? H₁ c.parent name = some e.1 := by
        have hl₁ : H₁.Lineage c.parent _ := hrest.map (f := fun i d => if i = h then d.setFree name v else d)
          fun i d hd => ⟨hf₁.closure? hd, by split <;> rfl⟩
        rw [hl₁.binder?_eq, Ancestry.binder?_map (f := fun i d => if i = h then d.setFree name v else d)
          fun e _ => by split <;> rfl, hb]
        rfl
      have he₁ : H₁.closure? e.1 = some e.2 := by
        rw [hf₁.closure? he, if_neg hne]
      have hm₁ : H₁.isMutable e.1 := by
        have hm := hs.changeable e.1 e.2 he
        rw [Heap.isMutable, hf₁.slots] at *
        cases hslot : H.slot? e.1 with
        | none => simp [hslot] at hm
        | some s => simpa [hslot] using hm
      obtain ⟨H₂, hrun₂, hf₂⟩ := hput (·.setBound name v) hf₁.tidy hm₁ he₁
      refine ⟨H₂, fun m hheap hcurrent => ?_, (hf₁.trans hf₂).congr fun j d hd => ?_⟩
      · subst hheap
        rw [run_assign hcurrent (hs.mutableClosure? hc), if_neg hbound, if_pos hfree, run_bind_ok (hrun₁ m), run_get_bind]
        dsimp only
        rw [hout]
        exact hrun₂ m
      · unfold Closure.assigned
        by_cases hj : j = e.1
        · subst hj
          simp [hne]
        · by_cases hjh : j = h
          · subst hjh
            cases hc.symm.trans hd
            simp [hj, hfree]
          · simp [hj, hjh]
    · obtain ⟨H', hrun, hf⟩ := hput (·.setBound name v) hs.tidy (hs.changeable e.1 e.2 he) he
      refine ⟨H', fun m hheap hcurrent => ?_, hf.congr fun j d hd => ?_⟩
      · subst hheap
        rw [run_assign hcurrent (hs.mutableClosure? hc), if_neg hbound, if_neg hfree, run_pure_bind, run_get_bind,
          hrest.binder?_eq, hb]
        exact hrun m
      · unfold Closure.assigned
        split
        · rfl
        · rw [if_neg]
          rintro ⟨rfl, hcontains⟩
          cases hc.symm.trans hd
          exact hfree hcontains

theorem Sound.run_assign_of_some (hs : m.Sound L strict A) (hcurrent : m.current = some h)
    (hc : m.heap.closure? h = some c) (hl : m.heap.Lineage (some h) l) {e : Handle × Closure}
    (hb : l.binder? name = some e) :
    ∃ H', (assign name v).run m = (.ok (), { m with heap := H' }) ∧
      m.heap.Changes H' (Closure.assigned h e.1 name v ·) := by
  obtain ⟨H', hrun, hf⟩ := run_assign_of_binder hs.heap hc hl hb v
  exact ⟨H', hrun m rfl hcurrent, hf⟩

/-! ### Closures -/

/-- **A procedure that can be closed**: it stands in the running code, or a closure further out waits for it. -/
inductive Closable (L : Layout p) (A : Handle → Prop) (m : Machine) (N : String) : Prop
  | own {h : Handle} {c : Closure} {n : Nat} (hcurrent : m.current = some h) (hact : A h)
      (hc : m.heap.closure? h = some c) (hin : L.inside N c.label) (hentry : L.Entry N n)
  | outer {l : Ancestry} {e : Handle × Closure} (hl : m.heap.Lineage m.current l) (he : e ∈ l)
      (hwaits : L.Waits p e.2.label N)

variable {N : String}

theorem Closable.entry (h : Closable L A m N) : ∃ n, L.Entry N n := by
  cases h with
  | own _ _ _ _ hentry => exact ⟨_, hentry⟩
  | outer _ _ hwaits => exact hwaits.entry

/-- The nearest closure that runs the code around a procedure is an activation. -/
theorem Sound.run_lexicalParent (hs : m.Sound L strict A) {h : Handle} (hcurrent : m.current = some h) (hact : A h)
    {l : Ancestry} (hl : m.heap.Lineage m.current l) {e : Handle × Closure} (he : e ∈ l)
    (henclosing : p.enclosing.find? N = some e.2.label) :
    ∃ g c, (lexicalParent N).run m = (.ok (some g), m) ∧ A g ∧ m.heap.closure? g = some c ∧ c.label = e.2.label := by
  obtain ⟨c, hc⟩ := hs.heap.acts h hact
  obtain ⟨e', he'⟩ : ∃ e', l.labelled? e.2.label = some e' := by
    cases hfind : l.labelled? e.2.label with
    | some e' => exact ⟨e', rfl⟩
    | none =>
      have hne := List.find?_eq_none.mp hfind e he
      simp at hne
  have hlabel : e'.2.label = e.2.label := by simpa using List.find?_some he'
  have hmem : e' ∈ l := List.mem_of_find?_eq_some he'
  refine ⟨e'.1, e'.2, ?_, ?_, hl.closure?_of_mem hmem, hlabel⟩
  · unfold lexicalParent
    rw [run_get_bind, hs.program, henclosing]
    dsimp only
    rw [hl.activationFrom_eq _ _ (Nat.le_succ_of_le hl.length_le), he']
    rfl
  · exact hs.heap.act_of_labelled? (hcurrent ▸ hl) hc (Or.inl hact) he'

/-- A procedure that can be closed belongs to an activation of the code around it. -/
theorem Closable.exists_parent (hn : Closable L A m N) (hs : m.Sound L strict A) :
    ∃ g c, (lexicalParent N).run m = (.ok (some g), m) ∧ A g ∧ m.heap.closure? g = some c ∧ L.inside N c.label := by
  cases hn with
  | @own h c n hcurrent hact hc hin hentry =>
    obtain ⟨l, hl⟩ := hs.heap.exists_lineage hc
    rcases L.enclosing N c.label hin with henclosing | henclosing
    · obtain ⟨g, d, hrun, hg, hd, hlabel⟩ :=
        hs.run_lexicalParent hcurrent hact (hcurrent ▸ hl) List.mem_cons_self henclosing
      exact ⟨g, d, hrun, hg, hd, hlabel ▸ hin⟩
    · refine ⟨h, c, ?_, hact, hc, hin⟩
      unfold lexicalParent
      rw [run_get_bind, hs.program, henclosing, hcurrent]
      rfl
  | @outer l e hl he hwaits =>
    obtain ⟨owner, hruns⟩ := hs.current
    cases hcurrent : m.current with
    | none =>
      rw [hcurrent] at hl
      cases hl
      cases he
    | some h =>
      rw [hcurrent] at hruns
      cases hruns with
      | code hact hc =>
        obtain ⟨g, d, hrun, hg, hd, hlabel⟩ := hs.run_lexicalParent hcurrent hact hl he hwaits.enclosing
        exact ⟨g, d, hrun, hg, hd, hlabel ▸ hwaits.inside⟩

/-- **Closing a procedure** places a closure below the activation that it belongs to. `B` says whether the new
closure is taken for an activation. -/
theorem Closable.run_makeClosure (hn : Closable L A m N) (hs : m.Sound L strict A) (B : Prop)
    (hB : ¬B → (p.enclosing.find? N).isSome) :
    ∃ (A' : Handle → Prop) (h : Handle) (c : Closure) (H' : Heap),
      (makeClosure N).run m = (.ok h, { m with heap := H' }) ∧ H'.Sound L strict A' ∧
        Heap.Grows A m.heap A' H' ∧ H'.closure? h = some c ∧ c.label = N ∧ (A' h ↔ B) := by
  obtain ⟨n, hentry⟩ := hn.entry
  obtain ⟨pc, line, hpc, hline, hi, hspot⟩ := L.exists_place hs.labels hentry
  obtain ⟨g, d, hrun, hact, hd, hin⟩ := hn.exists_parent hs
  obtain ⟨hsound, hgrows, hnew⟩ := hs.heap.allocateClosure (B := B)
    (c := { label := N, address := pc, parent := some g, free := d.environment }) ⟨line, n, hline, hi, hspot⟩ rfl hB
    (.below rfl hd rfl (Or.inl ⟨hact, hin⟩)) m.current
  refine ⟨_, m.heap.nextSlot, _, _, ?_, hsound, hgrows, hnew, rfl, by simp [hs.heap.not_act_nextSlot]⟩
  unfold makeClosure
  rw [run_get_bind, hpc]
  dsimp only
  rw [run_bind_ok hrun]
  dsimp only
  rw [run_bind_ok (run_closureOf hd), run_pure_bind]
  exact run_allocate _ m

/-- The first closure has no parent. -/
theorem Sound.run_makeClosure_top (hs : m.Sound L strict A) (hcurrent : m.current = none)
    (hout : p.enclosing.find? N = none) {n : Nat} (hentry : L.Entry N n) :
    ∃ (A' : Handle → Prop) (h : Handle) (c : Closure) (H' : Heap),
      (makeClosure N).run m = (.ok h, { m with heap := H' }) ∧ H'.Sound L strict A' ∧
        Heap.Grows A m.heap A' H' ∧ H'.closure? h = some c ∧ c.label = N ∧ A' h := by
  obtain ⟨pc, line, hpc, hline, hi, hspot⟩ := L.exists_place hs.labels hentry
  obtain ⟨hsound, hgrows, hnew⟩ := hs.heap.allocateClosure (B := True)
    (c := { label := N, address := pc, parent := none }) ⟨line, n, hline, hi, hspot⟩ rfl (fun h => absurd trivial h)
    (.top trivial rfl rfl) m.current
  refine ⟨_, m.heap.nextSlot, _, _, ?_, hsound, hgrows, hnew, rfl, Or.inr ⟨trivial, rfl⟩⟩
  have hparent : (lexicalParent N).run m = (.ok none, m) := by
    unfold lexicalParent
    rw [run_get_bind, hs.program, hout, hcurrent]
    rfl
  unfold makeClosure
  rw [run_get_bind, hpc]
  dsimp only
  rw [run_bind_ok hparent]
  dsimp only
  rw [run_pure_bind]
  exact run_allocate _ m

end Machine

end SchemeMachine
