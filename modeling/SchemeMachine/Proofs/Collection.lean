import SchemeMachine.Proofs.Alike.Step
import SchemeMachine.Proofs.Run

/-!
# Collection is invisible

Two machines that run the same program and differ in when garbage is collected stay alike: a collection
only gives up pairs that no register can lead to. So the two runs take the same instructions, write the
same text and end the same way.

* `Machine.Alike.collectLeft` and `Machine.Alike.collectRight`: machines stay alike when one of them collects.
* `Machine.Alike.step`: they stay alike when each takes a step, with a collection threshold of its own.
* `Process.run_alike`: runs with different thresholds are alike at every moment.
-/

namespace SchemeMachine

/-- **The same error** but for the number of the handle in its text. -/
structure RunError.Alike (e f : RunError) : Prop where
  fault : e.fault.Alike f.fault
  place : e.place = f.place

/-- A host with another threshold for collections. -/
def Host.withThreshold (host : Host) (threshold : Option Nat) : Host :=
  { host with settings := { host.settings with gcThreshold := threshold } }

namespace Machine.Alike

variable {ps : Pairing} {m n : Machine}

/-! ### Collections -/

/-- Pairs may be given up that no register refers to. -/
theorem restrict (ha : m.Alike ps n) (keep : Handle × Handle → Bool) {H G : Heap}
    (hheap : H.Alike (ps.filter keep) G)
    (hroots : ∀ a b, (a, b) ∈ ps → a ∈ m.roots → b ∈ n.roots → keep (a, b))
    (hconst : ∀ h, m.image.program.constants.contains h → keep (h, h) ∧ H.IsConstant h ∧ G.IsConstant h) :
    ({ m with heap := H } : Machine).Alike (ps.filter keep) { n with heap := G } := by
  simp only [Machine.roots, List.mem_append] at hroots
  refine { ha with
    stack := Value.forall₂_filter ha.stack fun a b hab h k => ?_
    frames := Frame.forall₂_filter ha.frames fun a b hab h k => ?_
    current := ?_
    heap := hheap
    constants := fun h hh => List.mem_filter.mpr ⟨ha.constants h hh, (hconst h hh).1⟩
    constantSlots := fun h hh => (hconst h hh).2 }
  · exact hroots a b hab (Or.inl (Or.inl h)) (Or.inl (Or.inl k))
  · exact hroots a b hab (Or.inl (Or.inr h)) (Or.inl (Or.inr k))
  · have hcur := ha.current
    have hleft : ∀ h, m.current = some h → h ∈ m.current.toList := by simp
    have hright : ∀ k, n.current = some k → k ∈ n.current.toList := by simp
    show Option.Rel _ m.current n.current
    generalize hm : m.current = a at hcur ⊢
    generalize hn : n.current = b at hcur ⊢
    cases hcur with
    | none => exact .none
    | some hab =>
      exact .some (List.mem_filter.mpr ⟨hab, hroots _ _ hab (Or.inr (hleft _ hm)) (Or.inr (hright _ hn))⟩)

/-- The first machine may collect. -/
theorem collectLeft (ha : m.Alike ps n) : ∃ qs, m.collectGarbage.2.Alike qs n := by
  let keep : Handle × Handle → Bool := fun p => (m.heap.reachable m.roots).getD p.1 false
  have live : ∀ h k, (h, k) ∈ ps → (m.heap.slot? h).isSome := by
    intro h k hm
    obtain ⟨s, -, hs, -⟩ := ha.heap.matched h k hm
    simp [hs]
  have hheap : (m.heap.collect m.roots).2.Alike (ps.filter keep) n.heap := by
    refine ha.heap.restrict keep (fun h k _ hk => Heap.slot?_collect_of_marked hk) (fun _ _ _ _ => rfl)
      (fun h k hm hk a b hab hra _ => ?_) (ha.heap.tidyLeft.collect _) ha.heap.tidyRight
    exact Heap.reachable_closed m.heap m.roots h hk a hra (live a b hab)
  refine ⟨_, ha.restrict keep hheap (fun a b hab hra _ => ?_) fun h hh => ?_⟩
  · exact Heap.reachable_root hra (live a b hab)
  · obtain ⟨⟨s, hs, hc⟩, hright⟩ := ha.constantSlots h hh
    have hmarked : Heap.Marked (m.heap.reachable m.roots) h := Heap.marked_of_isConstant hs hc
    exact ⟨hmarked, ⟨s, (Heap.slot?_collect_of_marked hmarked).trans hs, hc⟩, hright⟩

/-- The second machine may collect. -/
theorem collectRight (ha : m.Alike ps n) : ∃ qs, m.Alike qs n.collectGarbage.2 := by
  let keep : Handle × Handle → Bool := fun p => (n.heap.reachable n.roots).getD p.2 false
  have live : ∀ h k, (h, k) ∈ ps → (n.heap.slot? k).isSome := by
    intro h k hm
    obtain ⟨-, s, -, hs, -⟩ := ha.heap.matched h k hm
    simp [hs]
  have hheap : m.heap.Alike (ps.filter keep) (n.heap.collect n.roots).2 := by
    refine ha.heap.restrict keep (fun _ _ _ _ => rfl) (fun h k _ hk => Heap.slot?_collect_of_marked hk)
      (fun h k hm hk a b hab _ hrb => ?_) ha.heap.tidyLeft (ha.heap.tidyRight.collect _)
    exact Heap.reachable_closed n.heap n.roots k hk b hrb (live a b hab)
  refine ⟨_, ha.restrict keep hheap (fun a b hab _ hrb => ?_) fun h hh => ?_⟩
  · exact Heap.reachable_root hrb (live a b hab)
  · obtain ⟨hleft, s, hs, hc⟩ := ha.constantSlots h hh
    have hmarked : Heap.Marked (n.heap.reachable n.roots) h := Heap.marked_of_isConstant hs hc
    exact ⟨hmarked, hleft, s, (Heap.slot?_collect_of_marked hmarked).trans hs, hc⟩

/-- **Machines stay alike whether or not either of them collects.** -/
theorem collectIfDue (ha : m.Alike ps n) (s t : Settings) :
    ∃ qs, (m.collectIfDue s).Alike qs (n.collectIfDue t) := by
  have left : ∃ qs, (m.collectIfDue s).Alike qs n := by
    unfold Machine.collectIfDue
    cases s.gcThreshold with
    | none => exact ⟨ps, ha⟩
    | some threshold =>
      dsimp only
      split
      · obtain ⟨qs, ha⟩ := ha.collectLeft
        exact ⟨qs, { ha with }⟩
      · exact ⟨ps, ha⟩
  obtain ⟨qs, ha⟩ := left
  generalize m.collectIfDue s = m at ha ⊢
  unfold Machine.collectIfDue
  cases t.gcThreshold with
  | none => exact ⟨qs, ha⟩
  | some threshold =>
    dsimp only
    split
    · obtain ⟨rs, ha⟩ := ha.collectRight
      exact ⟨rs, { ha with }⟩
    · exact ⟨qs, ha⟩

/-! ### Steps -/

theorem currentLabel (ha : m.Alike ps n) : m.currentLabel = n.currentLabel := by
  have hcur := ha.current
  unfold Machine.currentLabel
  generalize m.current = a at hcur ⊢
  generalize n.current = b at hcur ⊢
  cases hcur with
  | none => rfl
  | @some h k hm =>
    have hcd := ha.heap.closure? hm
    simp only [Option.bind_some]
    generalize m.heap.closure? h = c at hcd ⊢
    generalize n.heap.closure? k = d at hcd ⊢
    cases hcd with
    | none => rfl
    | some hcd => simp [hcd.label]

theorem notePeak (ha : m.Alike ps n) : m.notePeak.Alike ps n.notePeak :=
  { ha with
    peakDepth := by simp only [Machine.notePeak, ha.peakDepth, ha.frames.length_eq] }

/-- Outcomes that are alike. -/
structure OutcomeAlike (ps : Pairing) (x y : Outcome) : Prop where
  machine : x.machine.Alike ps y.machine
  written : x.written = y.written
  error : Option.Rel RunError.Alike x.error y.error

theorem halted (ha : m.Alike ps n) (fault : Fault) :
    OutcomeAlike ps (Machine.halted m fault) (Machine.halted n fault) :=
  ⟨{ ha with state := rfl }, rfl, .some ⟨.refl _, rfl⟩⟩

theorem located {e f : Fault} (h : e.Alike f) (label : String) (pc : Nat) :
    RunError.Alike (RunError.located { fault := e } label pc) (RunError.located { fault := f } label pc) :=
  ⟨h, rfl⟩

/-- A fork does not see the threshold of collections. -/
theorem forkProgram_withThreshold (host : Host) (threshold : Option Nat) (heap : Heap) (h : Handle) :
    Machine.forkProgram (host.withThreshold threshold) heap h = Machine.forkProgram host heap h := by
  simp only [Machine.forkProgram, Host.withThreshold]

/-- An instruction does not see the threshold of collections. -/
theorem dispatch_withThreshold (host : Host) (threshold : Option Nat) (i : Instruction) :
    Machine.dispatch (host.withThreshold threshold) i = Machine.dispatch host i := by
  cases i with
  | comment text => rfl
  | label name => rfl
  | op opcode operand =>
    cases opcode with
    | fork => simp only [Machine.dispatch, Machine.execute, Machine.fork, forkProgram_withThreshold]
    | call => simp only [Machine.dispatch, Machine.execute, Machine.call, Machine.nativeTarget?, Host.withThreshold]
    | tailCall => simp only [Machine.dispatch, Machine.execute, Machine.call, Machine.nativeTarget?, Host.withThreshold]
    | _ => rfl

/-- **Alike machines take alike steps**, whatever the thresholds of their collections. -/
theorem stepRunning (ha : m.Alike ps n) {host : Host} (hr : host.registry.Uniform)
    (threshold : Option Nat) :
    ∃ qs, OutcomeAlike qs (Machine.stepRunning host m)
      (Machine.stepRunning (host.withThreshold threshold) n) := by
  -- both have counted the step, and are about to carry out the same instruction
  have hcounted : ({ m with steps := m.steps + 1 } : Machine).Alike ps { n with steps := n.steps + 1 } :=
    { ha with steps := congrArg (· + 1) ha.steps }
  have hcode : n.image.program.code[n.pc]? = m.image.program.code[m.pc]? := by rw [ha.image, ha.pc]
  have hmax : ((host.withThreshold threshold).settings.maxSteps.any (· ≤ n.steps)) =
      host.settings.maxSteps.any (· ≤ m.steps) := by rw [ha.steps]; rfl
  by_cases hlimit : host.settings.maxSteps.any (· ≤ m.steps)
  · rw [stepRunning_of_limit hlimit, stepRunning_of_limit (hmax ▸ hlimit)]
    exact ⟨ps, ha.halted _⟩
  have hlimit' : ¬(host.withThreshold threshold).settings.maxSteps.any (· ≤ n.steps) := hmax ▸ hlimit
  cases hi : m.image.program.code[m.pc]? with
  | none =>
    rw [stepRunning_of_none hlimit hi, stepRunning_of_none hlimit' (hcode.trans hi), ha.pc]
    exact ⟨ps, ha.halted _⟩
  | some i =>
    obtain ⟨qs, -, ha', hend⟩ := hcounted.dispatch hr (ha.grounded.code i (Array.mem_of_getElem? hi))
    rw [← dispatch_withThreshold host threshold i] at ha' hend
    rcases hx : (Machine.dispatch (host.withThreshold threshold) i).run { m with steps := m.steps + 1 } with
      ⟨(e | written), m'⟩ <;>
    rcases hy : (Machine.dispatch (host.withThreshold threshold) i).run { n with steps := n.steps + 1 } with
      ⟨(f | written'), n'⟩ <;>
    rw [hx, hy] at ha' hend <;> rw [dispatch_withThreshold] at hx
    · rw [stepRunning_of_error hlimit hi hx, stepRunning_of_error hlimit' (hcode.trans hi) hy,
        ha'.currentLabel, ha.pc]
      exact ⟨qs, { ha' with state := rfl }, rfl, .some (located hend _ _)⟩
    · exact hend.elim
    · exact hend.elim
    · rw [stepRunning_of_ok hlimit hi hx, stepRunning_of_ok hlimit' (hcode.trans hi) hy]
      obtain rfl : written = written' := hend
      have hnoted : (if i.isCall then m'.notePeak else m').Alike qs
          (if i.isCall then n'.notePeak else n') := by
        split
        · exact Machine.Alike.notePeak ha'
        · exact ha'
      -- each may collect now or not: what is given up is not used by either
      obtain ⟨rs, hcollected⟩ := hnoted.collectIfDue host.settings
        (host.withThreshold threshold).settings
      exact ⟨rs, hcollected, rfl, .none⟩

theorem step (ha : m.Alike ps n) (host : Host) (hr : host.registry.Uniform)
    (threshold : Option Nat) :
    ∃ qs, OutcomeAlike qs (Machine.step host m)
      (Machine.step (host.withThreshold threshold) n) := by
  have running : ({ m with state := .running } : Machine).Alike ps { n with state := .running } :=
    { ha with state := rfl }
  unfold Machine.step
  rw [ha.state]
  cases n.state with
  | running => exact running.stepRunning hr threshold
  | suspended => exact running.stepRunning hr threshold
  | _ => exact ⟨ps, ha, rfl, .none⟩

theorem resultValue (ha : m.Alike ps n) (result : Except NativeError NativeOutput) :
    ∃ qs, (Machine.resultValue m result).2.Alike qs (Machine.resultValue n result).2 ∧
      (Machine.resultValue m result).1.Alike qs (Machine.resultValue n result).1 := by
  cases result with
  | error e => exact ⟨ps, ha, .plain rfl⟩
  | ok output =>
    cases output with
    | text content =>
      obtain ⟨qs, -, ha, hm⟩ := ha.allocate (.string content)
      exact ⟨qs, ha, .handle hm⟩
    | number x => exact ⟨ps, ha, .plain rfl⟩
    | boolean b => exact ⟨ps, ha, .plain rfl⟩
    | nothing => exact ⟨ps, ha, .plain rfl⟩

/-- Machines that are woken with the same result stay alike. -/
theorem deliver (ha : m.Alike ps n) (result : Except NativeError NativeOutput) :
    ∃ qs, (m.deliver result).Alike qs (n.deliver result) := by
  obtain ⟨qs, ha, hv⟩ := ha.resultValue result
  unfold Machine.deliver
  generalize Machine.resultValue m result = x at ha hv ⊢
  generalize Machine.resultValue n result = y at ha hv ⊢
  obtain ⟨v, m'⟩ := x
  obtain ⟨w, n'⟩ := y
  obtain ⟨rs, -, ha, -⟩ := (ha.withStack (.cons hv ha.stack)).doReturn
  refine ⟨rs, ?_⟩
  dsimp only at ha ⊢
  rw [ha.state]
  split
  · exact { ha with state := rfl }
  · exact ha

/-! ### The start of a run -/

/-- The constants of a program, each paired with itself. -/
def constantPairs (constants : Table Handle Constant) : Pairing := constants.keys.map fun h => (h, h)

theorem mem_constantPairs {constants : Table Handle Constant} {h k : Handle} :
    (h, k) ∈ constantPairs constants ↔ constants.contains h = true ∧ h = k := by
  constructor
  · intro hm
    obtain ⟨j, hj, he⟩ := List.mem_map.mp hm
    cases he
    exact ⟨Table.contains_iff_mem_keys.mpr hj, rfl⟩
  · rintro ⟨hc, rfl⟩
    exact List.mem_map.mpr ⟨h, Table.contains_iff_mem_keys.mp hc, rfl⟩

/-- A constant is like itself if what it refers to is. -/
theorem ofConstant_alike {qs : Pairing} {c : Constant}
    (h : ∀ items, c = .list items → ∀ j, Operand.handle j ∈ items → (j, j) ∈ qs) :
    (Object.ofConstant c).Alike qs (Object.ofConstant c) := by
  cases c with
  | string content => exact .string content
  | list items =>
    refine .list (List.forall₂_same.mpr fun v hv => ?_)
    obtain ⟨operand, hmem, hv⟩ := List.mem_filterMap.mp hv
    cases operand with
    | handle j =>
      cases hv
      exact .handle (h items rfl j hmem)
    | label name =>
      cases hv
      exact .plain rfl
    | atom a =>
      cases a with
      | «variable» name => cases hv
      | _ =>
        cases hv
        exact .plain rfl

variable {p : Program}

/-- **The heap of the constants is like itself.** -/
theorem heap_ofConstants (hp : p.Grounded) :
    (Heap.ofConstants p.constants).Alike (constantPairs p.constants) (Heap.ofConstants p.constants) := by
  have hslot := Heap.slot?_ofConstants hp.sorted.nodup
  have hget : ∀ {h o}, (Heap.ofConstants p.constants).get? h = some o →
      ∃ c, p.constants.find? h = some c ∧ o = Object.ofConstant c := by
    intro h o ho
    obtain ⟨s, hs, rfl⟩ := Option.map_eq_some_iff.mp ho
    rw [hslot] at hs
    obtain ⟨c, hc, rfl⟩ := Option.map_eq_some_iff.mp hs
    exact ⟨c, hc, rfl⟩
  refine ⟨fun h k hm => ?_, ?_, ?_, Heap.tidy_ofConstants _, Heap.tidy_ofConstants _⟩
  · obtain ⟨hc, rfl⟩ := mem_constantPairs.mp hm
    obtain ⟨c, hc⟩ := Table.contains_iff.mp hc
    refine ⟨_, _, by rw [hslot, hc]; rfl, by rw [hslot, hc]; rfl, rfl, ofConstant_alike fun items he j hj => ?_⟩
    exact mem_constantPairs.mpr ⟨(hp.lists h items (he ▸ hc) j hj).2, rfl⟩
  · -- a constant refers to constants with larger handles, and these lie behind it
    suffices hsuffix : ∀ ks, ks <:+ p.constants.keys →
        Heap.Layered (Heap.ofConstants p.constants) (Heap.ofConstants p.constants) (ks.map fun h => (h, h)) from
      hsuffix _ List.suffix_rfl
    intro ks
    induction ks with
    | nil => exact fun _ => trivial
    | cons h ks ih =>
      intro hs
      refine ⟨fun o o' ho ho' => ?_, ih ((List.suffix_cons h ks).trans hs)⟩
      obtain ⟨c, hc, rfl⟩ := hget ho
      cases ho.symm.trans ho'
      refine (ofConstant_alike fun items he j hj => ?_).rooted
      obtain ⟨hlt, hj⟩ := hp.lists h items (he ▸ hc) j hj
      refine List.mem_map.mpr ⟨j, ?_, rfl⟩
      obtain ⟨before, hbefore⟩ := hs
      have hmem := Table.contains_iff_mem_keys.mp hj
      have hsorted : (before ++ h :: ks).Pairwise (· < ·) := hbefore ▸ hp.sorted
      rw [← hbefore, List.mem_append, List.mem_cons] at hmem
      rcases hmem with hmem | rfl | hmem
      · have hgt : j < h := (List.pairwise_append.mp hsorted).2.2 j hmem h List.mem_cons_self
        exact absurd hlt (Nat.lt_asymm hgt)
      · exact absurd hlt (Nat.lt_irrefl j)
      · exact hmem
  · have hfst : (constantPairs p.constants).map Prod.fst = p.constants.keys := by
      simp [constantPairs, Function.comp_def]
    have hsnd : (constantPairs p.constants).map Prod.snd = p.constants.keys := by
      simp [constantPairs, Function.comp_def]
    exact ⟨hfst ▸ hp.sorted.nodup, hsnd ▸ hp.sorted.nodup⟩

/-- Machines that are about to run the same program are alike. -/
theorem start {image : Image} (hp : image.program.Grounded) (s s' : Settings) (pid : Nat) :
    (Machine.start s pid image).Alike (constantPairs image.program.constants) (Machine.start s' pid image) := by
  have hconstant : ∀ h, image.program.constants.contains h = true →
      (Heap.ofConstants image.program.constants).IsConstant h := by
    intro h hh
    obtain ⟨c, hc⟩ := Table.contains_iff.mp hh
    exact ⟨_, by rw [Heap.slot?_ofConstants hp.sorted.nodup, hc]; rfl, rfl⟩
  exact {
    pid := rfl, image := rfl, pc := rfl, stack := .nil, frames := .nil, current := .none
    heap := heap_ofConstants hp
    state := rfl, steps := rfl, peakDepth := rfl, forked := rfl, pending := rfl
    constants := fun h hh => mem_constantPairs.mpr ⟨hh, rfl⟩
    constantSlots := fun h hh => ⟨hconstant h hh, hconstant h hh⟩
    grounded := hp }

end Machine.Alike

/-! ### Runs -/

namespace Process

/-- **Processes that are alike**: their machines are, and they have written the same and failed alike. -/
structure Alike (p q : Process) : Prop where
  machine : ∃ ps, p.machine.Alike ps q.machine
  output : p.output = q.output
  error : Option.Rel RunError.Alike p.error q.error

variable {settings : Settings} {registry : Registry} {p q : Process}

/-- Processes stay alike from moment to moment. -/
theorem Alike.next (h : p.Alike q) (hr : registry.Uniform) (threshold : Option Nat) (now : Moment) :
    (Process.next settings registry p now).Alike
      (Process.next { settings with gcThreshold := threshold } registry q now) := by
  obtain ⟨ps, ha⟩ := h.machine
  have hstep : ∃ qs, Machine.Alike.OutcomeAlike qs (p.machine.step (hostAt settings registry now))
      (q.machine.step (hostAt { settings with gcThreshold := threshold } registry now)) :=
    ha.step (hostAt settings registry now) hr threshold
  obtain ⟨qs, hmachine, hwritten, herror⟩ := hstep
  -- the step is alike, and so are the texts and the first error
  have hawake : Alike
      { machine := (p.machine.step (hostAt settings registry now)).machine
        output := p.output ++ (p.machine.step (hostAt settings registry now)).written
        error := p.error <|> (p.machine.step (hostAt settings registry now)).error }
      { machine := (q.machine.step (hostAt { settings with gcThreshold := threshold } registry now)).machine
        output := q.output ++ (q.machine.step (hostAt { settings with gcThreshold := threshold } registry now)).written
        error := q.error <|> (q.machine.step (hostAt { settings with gcThreshold := threshold } registry now)).error } := by
    refine ⟨⟨qs, hmachine⟩, by simp only [h.output, hwritten], ?_⟩
    have hpq := h.error
    generalize p.error = a at hpq ⊢
    generalize q.error = b at hpq ⊢
    cases hpq with
    | none => exact herror
    | some hab => exact .some hab
  unfold Process.next
  rw [ha.state]
  cases hs : q.machine.state with
  | sleeping =>
    have hidle : ({ p.machine with pending := none } : Machine).Alike ps { q.machine with pending := none } :=
      { ha with pending := rfl }
    exact ⟨hidle.deliver now.result, h.output, h.error⟩
  | _ => exact hawake

/-- **Runs with different thresholds are alike at every moment.** -/
theorem run_alike {image : Image} (hp : image.program.Grounded) (hr : registry.Uniform) (settings : Settings)
    (threshold : Option Nat) (pid : Nat) (moments : List Moment) :
    (run settings registry pid image moments).Alike
      (run { settings with gcThreshold := threshold } registry pid image moments) := by
  induction moments using List.reverseRecOn with
  | nil =>
    have hstart : (Process.start settings pid image).Alike
        (Process.start { settings with gcThreshold := threshold } pid image) :=
      ⟨⟨_, Machine.Alike.start hp _ _ pid⟩, by simp only [Process.start], .none⟩
    exact hstart
  | append_singleton moments now ih =>
    rw [run_append, run_append]
    exact ih.next hr threshold now

end Process

end SchemeMachine
