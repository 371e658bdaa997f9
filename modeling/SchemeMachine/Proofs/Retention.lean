import SchemeMachine.Proofs.Heap.Change
import SchemeMachine.Proofs.Run
import SchemeMachine.Proofs.Sound.Collection

/-!
# What becomes of objects

No instruction changes an object that is not a closure, and none takes an object away: new objects go into free slots,
and a closure keeps its code and its parent whatever it binds. Only a collection frees objects, and only those that
the registers do not lead to.

* `Heap.Retains` is a heap in which every object of another is still there; `Machine.Retaining` says that a move
  leaves such a heap.
* `Machine.Reaches` is what the registers lead to, `Machine.Lost` what has been freed and is not among it.
* `Machine.Follows` puts both together for a whole step: `Machine.follows_step` and `Machine.follows_deliver`.
-/

namespace SchemeMachine

theorem Object.Grows.trans {o o' o'' : Object} (h : o.Grows o') (h' : o'.Grows o'') : o.Grows o'' := by
  cases h with
  | same => exact h'
  | closure hlabel haddress hparent =>
    cases h' with
    | same => exact .closure hlabel haddress hparent
    | closure hlabel' haddress' hparent' =>
      exact .closure (hlabel'.trans hlabel) (haddress'.trans haddress) (hparent'.trans hparent)

/-- What is no closure never changes. -/
theorem Object.Grows.eq_of_not_closure {o o' : Object} (h : o.Grows o') (ho : ∀ c, o ≠ .closure c) : o' = o := by
  cases h with
  | same => rfl
  | closure => exact absurd rfl (ho _)

/-- A continuation never changes. -/
theorem Object.Grows.continuation {k : Continuation} {o : Object} (h : (Object.continuation k).Grows o) :
    o = .continuation k :=
  h.eq_of_not_closure nofun

/-! ### Heaps -/

/-- **A heap in which every object of another is still there**, closures perhaps with other bindings. -/
structure Heap.Retains (H H' : Heap) : Prop where
  tidy : H'.Tidy
  objects : ∀ h o, H.get? h = some o → ∃ o', H'.get? h = some o' ∧ o.Grows o'

namespace Heap.Retains

variable {H H' H'' : Heap}

theorem refl (ht : H.Tidy) : H.Retains H := ⟨ht, fun _ o ho => ⟨o, ho, .same o⟩⟩

theorem trans (h : H.Retains H') (h' : H'.Retains H'') : H.Retains H'' := by
  refine ⟨h'.tidy, fun j o ho => ?_⟩
  obtain ⟨o', ho', hgrows⟩ := h.objects j o ho
  obtain ⟨o'', ho'', hgrows'⟩ := h'.objects j o' ho'
  exact ⟨o'', ho'', hgrows.trans hgrows'⟩

theorem allocate (ht : H.Tidy) (o : Object) (r : Option Handle) : H.Retains (H.allocate o r).2 :=
  ⟨ht.allocate o r, fun _ o' ho' => ⟨o', ht.get?_allocate_of_some o r ho', .same o'⟩⟩

/-- A closure that is bound anew keeps its place. -/
theorem put (ht : H.Tidy) {h : Handle} {c c' : Closure} (hc : H.closure? h = some c) (halters : c.Alters c') :
    H.Retains (H.put h (.closure c')) := by
  refine ⟨ht.put h _, fun j o ho => ?_⟩
  obtain ⟨s, hs, rfl⟩ := Heap.get?_eq_some.mp ho
  obtain ⟨s', hs', hobject⟩ := Heap.get?_eq_some.mp (Heap.closure?_eq_some.mp hc)
  by_cases hj : j = h
  · subst hj
    cases hs.symm.trans hs'
    rw [Heap.get?, Heap.slot?_put, if_pos rfl, hs]
    by_cases hconstant : s.isConstant
    · exact ⟨s.object, by simp [hconstant], .same _⟩
    · refine ⟨.closure c', by simp [hconstant], ?_⟩
      rw [hobject]
      exact .closure halters.label halters.address halters.parent
  · exact ⟨s.object, by rw [Heap.get?, Heap.slot?_put, if_neg hj, hs]; rfl, .same _⟩

end Heap.Retains

/-- No change takes an object away. -/
def Heap.Change.retention : Heap.Change where
  Rel := Heap.Retains
  refl := .refl
  trans := .trans
  tidy h := h.tidy
  allocate ht o _ r := .allocate ht o r
  put := .put

namespace Machine

/-! ### Moves -/

/-- **A move that takes no object away**, whether it fails or not. -/
def Retaining {α : Type} (x : Move α) : Prop := ∀ m : Machine, m.heap.Tidy → m.heap.Retains (x.run m).2.heap

/-- **No instruction takes an object away.** -/
theorem retaining_dispatch (host : Host) (i : Instruction) : Retaining (dispatch host i) := fun m ht =>
  changesAt_dispatch (R := .retention) ht (fun _ _ => .allocate ht _ m.current) host i

/-! ### What the registers lead to -/

/-- **What a machine can reach**: what its registers refer to, and what that refers to. -/
inductive Reaches (m : Machine) : Handle → Prop
  | root {h : Handle} (hh : h ∈ m.roots) : Reaches m h
  | reference {g h : Handle} {o : Object} (hg : Reaches m g) (ho : m.heap.get? g = some o) (hh : h ∈ o.references) :
      Reaches m h

/-- **An object that has been freed** and that nothing leads to. -/
def Lost (m : Machine) (h : Handle) : Prop := m.heap.get? h = none ∧ ¬m.Reaches h

/-- Only the registers and the heap matter. -/
theorem Reaches.congr {m m' : Machine} (hroots : m'.roots = m.roots) (hheap : m'.heap = m.heap) {h : Handle}
    (hr : m.Reaches h) : m'.Reaches h := by
  induction hr with
  | root hh => exact .root (hroots ▸ hh)
  | reference _ ho hh ih => exact .reference ih (hheap ▸ ho) hh

theorem Lost.congr {m n : Machine} (hroots : n.roots = m.roots) (hheap : n.heap = m.heap) {h : Handle}
    (hl : m.Lost h) : n.Lost h :=
  ⟨hheap ▸ hl.1, fun hr => hl.2 (hr.congr hroots.symm hheap.symm)⟩

/-- **A machine some time after its heap was `H`**: an object is still there, or is lost; and what it refers to is there
as long as it is, unless it is a closure, which may have been given other bindings. -/
structure Follows (H : Heap) (m : Machine) : Prop where
  tidy : m.heap.Tidy
  objects : ∀ h o, H.get? h = some o → (∃ o', m.heap.get? h = some o' ∧ o.Grows o') ∨ m.Lost h
  references : ∀ h o, H.get? h = some o → (∀ c, o ≠ .closure c) → (m.heap.get? h).isSome →
    ∀ g ∈ o.references, ∀ o, H.get? g = some o → ∃ o', m.heap.get? g = some o' ∧ o.Grows o'

variable {H : Heap} {m : Machine}

theorem Follows.of_retains (h : H.Retains m.heap) : Follows H m where
  tidy := h.tidy
  objects j o ho := Or.inl (h.objects j o ho)
  references _ _ _ _ _ g _ o ho := h.objects g o ho

/-! ### Collections -/

/-- **A machine after a collection**: every object is as it was, or is lost; and what an object refers to is as it was
if the object is still there. -/
structure Collected (m m' : Machine) : Prop where
  tidy : m'.heap.Tidy
  objects : ∀ h, m'.heap.get? h = m.heap.get? h ∨ m'.Lost h
  references : ∀ h o, m'.heap.get? h = some o → ∀ g ∈ o.references, m'.heap.get? g = m.heap.get? g

theorem collected_collectGarbage (ht : m.heap.Tidy) : m.Collected m.collectGarbage.2 := by
  have hp := Heap.prunes_collect ht m.roots
  have hnone : ∀ {h}, ¬Heap.Marked (m.heap.reachable m.roots) h → m.collectGarbage.2.heap.get? h = none :=
    fun hh => Option.map_eq_none_iff.mpr (hp.gone _ hh)
  have hreference : ∀ {h o g o'}, m.collectGarbage.2.heap.get? h = some o → g ∈ o.references →
      m.heap.get? g = some o' → Heap.Marked (m.heap.reachable m.roots) g := by
    intro h o g o' ho hg ho'
    have hkept := hp.kept_of_get? ho
    exact hp.closed h o g hkept ((hp.get? hkept).symm.trans ho) hg (by simp [ho'])
  refine ⟨hp.tidy, fun h => ?_, fun h o ho g hg => ?_⟩
  · by_cases hh : Heap.Marked (m.heap.reachable m.roots) h
    · exact Or.inl (hp.get? hh)
    cases ho : m.heap.get? h with
    | none => exact Or.inl (hnone hh)
    | some o =>
      refine Or.inr ⟨hnone hh, fun hreaches => hh ?_⟩
      -- a root is marked, and so is what an object that is left refers to
      cases hreaches with
      | root hroot =>
        obtain ⟨s, hs, -⟩ := Heap.get?_eq_some.mp ho
        exact Heap.reachable_root hroot (by simp [hs])
      | reference _ ho' hg => exact hreference ho' hg ho
  · by_cases hh : Heap.Marked (m.heap.reachable m.roots) g
    · exact hp.get? hh
    cases ho' : m.heap.get? g with
    | none => exact hnone hh
    | some o' => exact absurd (hreference ho hg ho') hh

/-- **A collection loses nothing that the machine can reach.** -/
theorem collected_collectIfDue (ht : m.heap.Tidy) (settings : Settings) : m.Collected (m.collectIfDue settings) := by
  have hsame : m.Collected m := ⟨ht, fun _ => Or.inl rfl, fun _ _ _ _ _ => rfl⟩
  unfold Machine.collectIfDue
  cases settings.gcThreshold with
  | none => exact hsame
  | some threshold =>
    dsimp only
    split
    · obtain ⟨htidy, hobjects, hreferences⟩ := collected_collectGarbage ht
      refine ⟨htidy, fun h => (hobjects h).imp_right fun hlost => ?_, hreferences⟩
      refine Lost.congr ?_ ?_ hlost <;> rfl
    · exact hsame

/-- What the registers of a machine refer to is as it was before the collection. -/
theorem Collected.root {m' : Machine} (hc : m.Collected m') {h : Handle} (hh : h ∈ m'.roots) :
    m'.heap.get? h = m.heap.get? h :=
  (hc.objects h).resolve_right fun hlost => hlost.2 (.root hh)

theorem Collected.follows {m' : Machine} (hr : H.Retains m.heap) (hc : m.Collected m') : Follows H m' := by
  refine ⟨hc.tidy, fun h o ho => ?_, fun h k hk hclosure hsome g hg o ho => ?_⟩
  · obtain ⟨o', ho', hgrows⟩ := hr.objects h o ho
    exact (hc.objects h).imp (fun heq => ⟨o', heq.trans ho', hgrows⟩) id
  · obtain ⟨k', hk', hgrows⟩ := hr.objects h _ hk
    obtain rfl := hgrows.eq_of_not_closure hclosure
    have hkept : m'.heap.get? h = some k' := by
      refine ((hc.objects h).resolve_right fun hlost => ?_).trans hk'
      rw [hlost.1] at hsome
      cases hsome
    obtain ⟨o', ho', hgrows'⟩ := hr.objects g o ho
    exact ⟨o', (hc.references h _ hkept g hg).trans ho', hgrows'⟩

/-! ### Steps -/

theorem follows_stepRunning (host : Host) (ht : m.heap.Tidy) : Follows m.heap (stepRunning host m).machine := by
  by_cases hlimit : host.settings.maxSteps.any (· ≤ m.steps)
  · rw [stepRunning_of_limit hlimit]
    exact .of_retains (.refl ht)
  cases hi : m.image.program.code[m.pc]? with
  | none =>
    rw [stepRunning_of_none hlimit hi]
    exact .of_retains (.refl ht)
  | some i =>
    have hretains := retaining_dispatch host i { m with steps := m.steps + 1 } ht
    rcases hrun : (dispatch host i).run { m with steps := m.steps + 1 } with ⟨(e | written), after⟩ <;>
      rw [hrun] at hretains
    · rw [stepRunning_of_error hlimit hi hrun]
      exact .of_retains hretains
    · rw [stepRunning_of_ok hlimit hi hrun]
      have hnoted : m.heap.Retains (if i.isCall then after.notePeak else after).heap := by split <;> exact hretains
      exact (collected_collectIfDue hnoted.tidy host.settings).follows hnoted

/-- **A step loses nothing that the machine can reach.** -/
theorem follows_step (host : Host) (ht : m.heap.Tidy) : Follows m.heap (step host m).machine := by
  have hrunning : Follows m.heap (stepRunning host { m with state := .running }).machine :=
    follows_stepRunning (m := { m with state := .running }) host ht
  unfold step
  split
  · exact hrunning
  · exact hrunning
  · exact .of_retains (.refl ht)

/-- Nor does the result of a job. -/
theorem follows_deliver (result : Except NativeError NativeOutput) (ht : m.heap.Tidy) :
    Follows m.heap (m.deliver result) :=
  .of_retains (rel_deliver (R := .retention) ht result)

end Machine

/-- **From moment to moment** nothing is lost that the machine can reach. -/
theorem Process.follows_next (settings : Settings) (registry : Registry) (p : Process) (now : Moment)
    (ht : p.machine.heap.Tidy) : Machine.Follows p.machine.heap (next settings registry p now).machine := by
  unfold next
  split
  · exact Machine.follows_deliver (m := { p.machine with pending := none }) now.result ht
  · exact Machine.follows_step _ ht

end SchemeMachine
