import SchemeMachine.Proofs.Lookup
import SchemeMachine.Proofs.Retention
import SchemeMachine.Proofs.Sound.Step

/-!
# Continuations can be re-entered

A captured continuation is an object like others: it is never changed, and it is there as long as the machine can reach
it, with all that it refers to. So whenever it is called, however late and however often, the machine goes on where it
was captured, with the value that the call passes; what was assigned in between stays assigned.

* `Machine.IsAbout` and `Machine.Calls` say what a machine is about to do.
* `Continuation.Intact` says that the handles in a continuation denote what they denoted.
* `Machine.Holds` is what is kept from the capture on: `Machine.Ready.holds_capture` and `Machine.Holds.follows`.
* `Machine.Resumed` is what a call of the continuation leaves.
* `Process.run_continuation` is the result.
-/

namespace SchemeMachine

open Lowering

/-- The handles in a continuation denote in the heap `H'` the objects that they denote in `H`; closures may have been
given other bindings. -/
def Continuation.Intact (k : Continuation) (H H' : Heap) : Prop :=
  ∀ g ∈ (Object.continuation k).references, ∃ o o', H.get? g = some o ∧ H'.get? g = some o' ∧ o.Grows o'

namespace Machine

/-- What remains to be done, to go on at a label. -/
def continuation (m : Machine) (name : String) : Continuation := ⟨m.current, m.stack, m.frames, name⟩

/-- **A machine about to carry out an instruction**: it is running, below its limit, and has come to the instruction. -/
structure IsAbout (settings : Settings) (m : Machine) (i : Instruction) : Prop where
  running : m.state = .running
  below : ¬settings.maxSteps.any (· ≤ m.steps)
  instruction : m.image.program.code[m.pc]? = some i

/-- **A machine about to call a value**, in tail position or not, with `v` on top of the stack. -/
def Calls (host : Host) (m : Machine) (callee v : Value) : Prop :=
  ∃ tail target rest, m.IsAbout host.settings (callTo tail target) ∧ callee? host m target = some (.inr callee) ∧
    m.stack = v :: rest

/-- **A machine that has resumed a continuation**: `m` goes on where `s` was, under the label `name`, with the value `v`
more. What the continuation refers to is there, and every object is as it was in `t`, just before, if the machine can
reach it. -/
structure Resumed (s t m : Machine) (name : String) (v : Value) : Prop where
  running : m.state = .running
  stack : m.stack = v :: s.stack
  frames : m.frames = s.frames
  current : m.current = s.current
  place : m.image.program.code[m.pc]? = some (.label name)
  intact : (s.continuation name).Intact s.heap m.heap
  objects : ∀ g, m.heap.get? g = t.heap.get? g ∨ m.Lost g

variable {p : Program} {L : Layout p} {A : Handle → Prop} {m m' : Machine} {host : Host} {settings : Settings}

/-! ### Steps -/

/-- A collection is about the heap alone. -/
theorem collectIfDue_eq (settings : Settings) (m : Machine) :
    ∃ H n, m.collectIfDue settings = { m with heap := H, nextCollection := n } := by
  unfold Machine.collectIfDue
  cases settings.gcThreshold with
  | none => exact ⟨m.heap, m.nextCollection, rfl⟩
  | some threshold =>
    dsimp only
    split
    · exact ⟨_, _, rfl⟩
    · exact ⟨m.heap, m.nextCollection, rfl⟩

/-- A machine that is about to carry out an instruction takes the step of a running machine. -/
theorem IsAbout.step_eq {i : Instruction} (ha : m.IsAbout host.settings i) :
    Machine.step host m = stepRunning host m := by
  have hsame : ({ m with state := .running } : Machine) = m := by rw [← ha.running]
  unfold Machine.step
  rw [ha.running]
  dsimp only
  rw [hsame]

/-- A step that does what it is about to do. -/
theorem IsAbout.step {i : Instruction} (ha : m.IsAbout host.settings i) {written : String} {after : Machine}
    (hrun : (dispatch host i).run { m with steps := m.steps + 1 } = (.ok written, after)) :
    (Machine.step host m).machine = (if i.isCall then after.notePeak else after).collectIfDue host.settings := by
  rw [ha.step_eq, stepRunning_of_ok ha.below ha.instruction hrun]

/-! ### The capture -/

/-- **What is kept from a capture on**: the continuation is in its slot, and what it refers to denotes what it denoted. -/
structure Holds (s : Machine) (name : String) (h : Handle) (m : Machine) : Prop where
  object : m.heap.get? h = some (.continuation (s.continuation name))
  intact : (s.continuation name).Intact s.heap m.heap

/-- A machine that is ready has all that its registers refer to. -/
theorem Stands.exists_root {s : Spot} (hs : m.Stands L False A s) (hpending : s.pending = none)
    {g : Handle} (hg : g ∈ m.roots) : ∃ o, m.heap.get? g = some o := by
  have hclosure : ∀ {current owner}, Runs A m.heap current owner → current = some g → ∃ o, m.heap.get? g = some o := by
    rintro current owner hruns rfl
    cases hruns with
    | code _ hc => exact ⟨_, Heap.closure?_eq_some.mp hc⟩
  -- each frame runs with a closure that is there
  have hframes : ∀ {owner fs b}, Stacked L A m.heap owner fs b → g ∈ fs.filterMap (·.closure) →
      ∃ o, m.heap.get? g = some o := by
    intro owner fs b hstacked
    induction hstacked with
    | start => simp
    | frame _ _ hruns _ ih =>
      intro hmem
      obtain ⟨f, hf, hclosureOf⟩ := List.mem_filterMap.mp hmem
      rcases List.mem_cons.mp hf with rfl | hf
      · exact hclosure hruns hclosureOf
      · exact ih (List.mem_filterMap.mpr ⟨f, hf, hclosureOf⟩)
  have hoperands := hs.operands
  rw [hpending] at hoperands
  rcases List.mem_append.mp hg with hg | hg
  · rcases List.mem_append.mp hg with hg | hg
    · obtain ⟨v, hv, hhandle⟩ := List.mem_filterMap.mp hg
      have hsettled := hoperands v hv
      cases v <;> cases hhandle
      exact Option.isSome_iff_exists.mp hsettled.1
    · obtain ⟨b, hstacked, -⟩ := hs.stacked
      exact hframes hstacked hg
  · exact hclosure hs.runs (Option.mem_toList.mp hg)

/-- A machine that is ready stands at the line of the instruction that it is about to carry out. -/
theorem Ready.exists_line (hr : m.Ready L False A) {i : Instruction} (ha : m.IsAbout settings i) :
    ∃ line, L.lines[m.pc]? = some line ∧ line.instruction = i ∧ m.Stands L False A line.spot := by
  have hkeeps := hr.keeps
  unfold Keeps at hkeeps
  rw [ha.running] at hkeeps
  obtain ⟨s, hstands⟩ := hkeeps
  obtain ⟨line, hline, rfl⟩ := hstands.line
  refine ⟨line, hline, ?_, hstands⟩
  have hi : m.image.program.code[m.pc]? = some line.instruction := by
    rw [hr.sound.program, ← Array.getElem?_toList, ← L.code, List.getElem?_map, hline, Option.map_some]
  exact Option.some.inj (hi.symm.trans ha.instruction)

/-- The handle of a value that a closure binds. -/
theorem mem_references_of_bound {c : Closure} {name : String} {h : Handle}
    (hbound : c.bound.find? name = some (.handle h)) : h ∈ (Object.closure c).references := by
  have hmem := Table.mem_entries_of_find? hbound
  refine List.mem_append_right _ (List.mem_filterMap.mpr ⟨.handle h, List.mem_append_left _ ?_, rfl⟩)
  exact List.mem_map.mpr ⟨_, hmem, rfl⟩

/-- The heap after a capture, which the closure `c` at `g` binds to a name. -/
def capturing (m : Machine) (name : String) (g : Handle) (c : Closure) : Heap :=
  (m.heap.allocate (.continuation (m.continuation name)) m.current).2.put g
    (.closure (c.bind name (.handle m.heap.nextSlot)))

/-- **A capture makes a continuation** in a free slot and binds the name to it. -/
theorem Sound.run_capture (hs : m.Sound L False A) {g : Handle} {c : Closure} (hcurrent : m.current = some g)
    (hc : m.heap.closure? g = some c) {name : String} (hk : (m.continuation name).Sound L False A m.heap) :
    (capture name).run m = (.ok (), { m with heap := m.capturing name g c, pc := m.pc + 1 }) ∧
      m.heap.Retains (m.capturing name g c) ∧
      (m.capturing name g c).get? m.heap.nextSlot = some (.continuation (m.continuation name)) ∧
      (m.capturing name g c).closure? g = some (c.bind name (.handle m.heap.nextSlot)) := by
  have ht := hs.heap.tidy
  obtain ⟨hsound, hgrows, -⟩ :=
    hs.heap.allocate (o := .continuation (m.continuation name)) (by simp) hk m.current
  have hc' := Heap.closure?_eq_some.mpr
    (ht.get?_allocate_of_some (.continuation (m.continuation name)) m.current (Heap.closure?_eq_some.mp hc))
  have hchanges := Heap.Changes.put hsound.tidy (hsound.changeable g c hc') hc' (·.bind name (.handle m.heap.nextSlot))
  refine ⟨?_, (Heap.Retains.allocate ht _ m.current).trans
    (.put hsound.tidy hc' (c.alters_bind name (.handle m.heap.nextSlot))), ?_, ?_⟩
  · unfold Machine.capture
    rw [run_get_bind]
    refine (run_bind_ok (run_allocate (.continuation (m.continuation name)) m)).trans ?_
    rw [run_bind_ok ((hs.withHeap hsound hgrows).run_store hcurrent hc'), run_advance]
    rfl
  · rw [capturing, hchanges.get?, Heap.get?_allocate ht, if_pos rfl]
    rfl
  · rw [capturing, hchanges.closure? hc', if_pos rfl]

/-- A machine that is ready to capture a continuation has all that the continuation refers to. -/
theorem Ready.capture (hr : m.Ready L False A) {name : String} (ha : m.IsAbout settings (onVariable .capture name)) :
    ∃ g c, m.current = some g ∧ m.heap.closure? g = some c ∧ (m.continuation name).Sound L False A m.heap ∧
      ∀ h ∈ m.roots, ∃ o, m.heap.get? h = some o := by
  obtain ⟨line, hline, hi, hstands⟩ := hr.exists_line ha
  obtain ⟨next, hflow, -⟩ := L.flows m.pc line hline
  cases hflow with
  | @capture o name' d howns hat =>
    cases hi
    obtain ⟨-, hruns, ⟨b, hstacked, -⟩, hoperands⟩ := id hstands
    have hk : (m.continuation name).Sound L False A m.heap :=
      ⟨o, d, b, hat, hruns, hstacked, hoperands, False.elim⟩
    generalize hcurrent : m.current = current at hruns
    cases hruns with
    | code _ hc => exact ⟨_, _, rfl, hc, hk, fun h hh => hstands.exists_root rfl hh⟩
  | branch hop => cases hi
  | _ => cases hi

theorem run_dispatch_capture {name : String} (h : (Machine.capture name).run m = (.ok (), m')) :
    (dispatch host (onVariable .capture name)).run m = (.ok "", m') :=
  (run_bind_ok (run_require m)).trans ((run_bind_ok h).trans rfl)

/-- A collection leaves the continuation that the current closure is bound to, and what it refers to. -/
theorem Holds.of_bound {s : Machine} {name : String} {g h : Handle} {c : Closure}
    (hretains : s.heap.Retains m.heap) (hobject : m.heap.get? h = some (.continuation (s.continuation name)))
    (hcurrent : m.current = some g) (hc : m.heap.closure? g = some c)
    (hbound : c.bound.find? name = some (.handle h)) (hroots : ∀ j ∈ s.roots, ∃ o, s.heap.get? j = some o)
    (settings : Settings) :
    Holds s name h (m.collectIfDue settings) ∧ (m.collectIfDue settings).heap.closure? g = some c := by
  have hcollected := collected_collectIfDue hretains.tidy settings
  obtain ⟨H, n, hlast⟩ := collectIfDue_eq settings m
  rw [hlast] at hcollected ⊢
  -- the current closure leads to the continuation, and that to all it refers to
  have hg : H.get? g = some (.closure c) := by
    refine (hcollected.root ?_).trans (Heap.closure?_eq_some.mp hc)
    exact List.mem_append_right _ (Option.mem_toList.mpr hcurrent)
  have hh : H.get? h = some (.continuation (s.continuation name)) :=
    (hcollected.references g _ hg _ (mem_references_of_bound hbound)).trans hobject
  refine ⟨⟨hh, fun j hj => ?_⟩, Heap.closure?_eq_some.mpr hg⟩
  have hroot : j ∈ s.roots := by
    simp only [Object.references, continuation, List.mem_append] at hj
    simp only [roots, List.mem_append]
    tauto
  obtain ⟨o, ho⟩ := hroots j hroot
  obtain ⟨o', ho', hgrows⟩ := hretains.objects j o ho
  exact ⟨o, o', ho, (hcollected.references _ _ hh j hj).trans ho', hgrows⟩

/-- **What is kept from the capture on is there after it.** -/
theorem Ready.holds_capture (hr : m.Ready L False A) {name : String}
    (ha : m.IsAbout host.settings (onVariable .capture name)) :
    ∃ h, m.heap.get? h = none ∧ Holds m name h (Machine.step host m).machine ∧
      ∃ g c, m.current = some g ∧ (Machine.step host m).machine.heap.closure? g = some c ∧
        c.bound.find? name = some (.handle h) := by
  obtain ⟨g, c, hcurrent, hc, hk, hroots⟩ := hr.capture ha
  obtain ⟨hrun, hretains, hobject, hclosure⟩ :=
    Sound.run_capture (m := { m with steps := m.steps + 1 }) { hr.sound with } hcurrent hc hk
  have hbound : (c.bind name (.handle m.heap.nextSlot)).bound.find? name = some (.handle m.heap.nextSlot) := by
    rw [Closure.bound_bind, Table.find?_insert, if_pos rfl]
  have hcall : (onVariable .capture name).isCall = false := rfl
  rw [ha.step (run_dispatch_capture hrun), hcall, if_neg Bool.false_ne_true]
  obtain ⟨hholds, hg⟩ := Holds.of_bound (s := m)
    (m := { m with steps := m.steps + 1, heap := capturing { m with steps := m.steps + 1 } name g c, pc := m.pc + 1 })
    hretains hobject hcurrent hclosure hbound hroots host.settings
  exact ⟨m.heap.nextSlot, hr.sound.heap.tidy.get?_nextSlot, hholds, g, _, hcurrent, hg, hbound⟩

/-- **A continuation that is not lost is held on to.** -/
theorem Holds.follows {s : Machine} {name : String} {h : Handle} (hh : Holds s name h m) (hf : Follows m.heap m')
    (hlost : ¬m'.Lost h) : Holds s name h m' := by
  obtain ⟨o, ho, hgrows⟩ := (hf.objects h _ hh.object).resolve_right hlost
  obtain rfl := hgrows.continuation
  refine ⟨ho, fun g hg => ?_⟩
  obtain ⟨o, o', ho, ho', hgrows⟩ := hh.intact g hg
  obtain ⟨o'', ho'', hgrows'⟩ := hf.references h _ hh.object nofun (by simp [*]) g hg o' ho'
  exact ⟨o, o'', ho, ho'', hgrows.trans hgrows'⟩

/-! ### The resumption -/

/-- A call of a value does just that. -/
theorem run_call_of_callee {target : Operand} {v : Value} (h : callee? host m target = some (.inr v)) (tail : Bool) :
    (call host target tail).run m = (callValue v tail).run m := by
  unfold call
  split
  · next name =>
    rw [run_get_bind]
    rw [callee?] at h
    cases hnative : nativeTarget? host m name with
    | some native =>
      rw [hnative] at h
      cases h
    | none =>
      rw [hnative] at h
      obtain ⟨w, hseen, hw⟩ := Option.map_eq_some_iff.mp h
      cases hw
      obtain ⟨c, hclosure, hlookup⟩ := Option.bind_eq_some_iff.mp hseen
      obtain ⟨g, hcurrent, hc⟩ := Option.bind_eq_some_iff.mp hclosure
      have hread := run_dereference name hcurrent hc
      rw [hlookup] at hread
      exact run_bind_ok hread
  · next hother =>
    rw [callee?.eq_2 _ _ _ hother] at h
    obtain ⟨w, hoperand, hw⟩ := Option.map_eq_some_iff.mp h
    cases hw
    rw [hoperand]

theorem run_dispatch_callTo (tail : Bool) (target : Operand) :
    (dispatch host (callTo tail target)).run m = (call host target tail).run m := by
  cases tail <;> rfl

/-- A call of a continuation puts back the registers that it holds. -/
theorem run_callValue_continuation {h : Handle} {k : Continuation} (hk : m.heap.get? h = some (.continuation k))
    {v : Value} {rest : List Value} (hstack : m.stack = v :: rest) {place : Nat}
    (hplace : m.image.labels.find? k.resume = some place) (tail : Bool) :
    (callValue (.handle h) tail).run m =
      (.ok "", { m with stack := v :: k.stack, frames := k.frames, current := k.closure, pc := place }) := by
  have hresume : (resume k).run m =
      (.ok (), { m with stack := v :: k.stack, frames := k.frames, current := k.closure, pc := place }) := by
    unfold resume
    rw [run_bind_ok (run_pop_cons hstack), run_get_bind]
    dsimp only
    rw [hplace]
    rfl
  have hcall : (callObject h tail).run m = (resume k).run m := by
    unfold callObject
    rw [run_get_bind, hk]
  exact (run_bind_ok (hcall.trans hresume)).trans rfl

/-- A collection leaves what has been put back. -/
theorem Resumed.collectIfDue {s t : Machine} {name : String} {v : Value} (ht : m.heap.Tidy)
    (hm : Resumed s t m name v) (hheap : m.heap = t.heap) (settings : Settings) :
    Resumed s t (m.collectIfDue settings) name v := by
  have hcollected := collected_collectIfDue ht settings
  obtain ⟨H, n, hlast⟩ := collectIfDue_eq settings m
  rw [hlast] at hcollected ⊢
  refine ⟨hm.running, hm.stack, hm.frames, hm.current, hm.place, fun g hg => ?_, fun g => hheap ▸ hcollected.objects g⟩
  obtain ⟨o, o', ho, ho', hgrows⟩ := hm.intact g hg
  refine ⟨o, o', ho, (hcollected.root ?_).trans ho', hgrows⟩
  simp only [Object.references, continuation, List.mem_append] at hg
  simp only [roots, hm.stack, hm.frames, hm.current, List.filterMap_cons, List.mem_append]
  rcases hg with (hg | hg) | hg
  · exact Or.inr hg
  · refine Or.inl (Or.inl ?_)
    split
    · exact hg
    · exact List.mem_cons_of_mem _ hg
  · exact Or.inl (Or.inr hg)

/-- **A call of a continuation goes on where it was captured.** -/
theorem Holds.resumed {s : Machine} {name : String} {h : Handle} (hr : m.Ready L False A) (hh : Holds s name h m)
    {v : Value} (hcalls : m.Calls host (.handle h) v) : Resumed s m (Machine.step host m).machine name v := by
  obtain ⟨tail, target, rest, ha, hcallee, hstack⟩ := hcalls
  obtain ⟨o, d, b, hat, -⟩ := hr.sound.heap.objects h _ hh.object
  obtain ⟨place, line, hplace, -⟩ := L.exists_place hr.sound.labels hat
  have hrun : (dispatch host (callTo tail target)).run { m with steps := m.steps + 1 } =
      (.ok "", { m with
        steps := m.steps + 1, stack := v :: s.stack, frames := s.frames, current := s.current, pc := place }) := by
    rw [run_dispatch_callTo]
    refine (run_call_of_callee (m := { m with steps := m.steps + 1 }) (v := .handle h) hcallee tail).trans ?_
    exact run_callValue_continuation (m := { m with steps := m.steps + 1 }) hh.object hstack hplace tail
  have hcall : (callTo tail target).isCall = true := by cases tail <;> rfl
  have hlabel := (LabelTable.find?_ofCode hr.sound.labels).mp hplace
  rw [← hr.sound.program] at hlabel
  rw [ha.step hrun, if_pos hcall]
  refine Resumed.collectIfDue ?_ ?_ ?_ host.settings
  · exact hr.sound.heap.tidy
  · exact ⟨ha.running, rfl, rfl, rfl, hlabel, hh.intact, fun _ => Or.inl rfl⟩
  · rfl

end Machine

/-! ### Runs -/

namespace Process

variable {p : Program} {registry : Registry}

/-- A machine that is running takes a step. -/
theorem next_machine {settings : Settings} {q : Process} (hrunning : q.machine.state = .running) (now : Moment) :
    (next settings registry q now).machine = (q.machine.step (hostAt settings registry now)).machine := by
  unfold next
  rw [hrunning]

/-- **A continuation can be re-entered** any number of times. Take a program that was compiled or loaded, any settings,
and any run that comes to a capture, in the state `s`. The capture makes a continuation at a handle that was free, and
binds the name to it. However the run goes on, as long as the continuation is not lost it is what it was, and whenever
it is called, with `v` on top of the stack, the machine goes on where `s` was with `v` more; closures keep the
bindings that they have then. -/
theorem run_continuation (hp : p.Produced) (hmodest : registry.Modest) :
    ∃ image, Image.ofProgram p = .ok image ∧ ∀ (settings : Settings) (pid : Nat) (before : List Moment) (now : Moment)
      (name : String), (run settings registry pid image before).machine.IsAbout settings (onVariable .capture name) →
      ∃ h, (run settings registry pid image before).machine.heap.get? h = none ∧
        (∃ g c, (run settings registry pid image before).machine.current = some g ∧
          (run settings registry pid image (before ++ [now])).machine.heap.closure? g = some c ∧
          c.bound.find? name = some (.handle h)) ∧
        ∀ later : List Moment, (∀ stretch, stretch <+: later →
            ¬(run settings registry pid image (before ++ now :: stretch)).machine.Lost h) →
          Machine.Holds (run settings registry pid image before).machine name h
              (run settings registry pid image (before ++ now :: later)).machine ∧
          ∀ (now' : Moment) (v : Value),
            (run settings registry pid image (before ++ now :: later)).machine.Calls
              (hostAt settings registry now') (.handle h) v →
            Machine.Resumed (run settings registry pid image before).machine
              (run settings registry pid image (before ++ now :: later)).machine
              (run settings registry pid image (before ++ now :: later ++ [now'])).machine name v := by
  obtain ⟨t, roots, blocks, hcompiled⟩ := hp.exists_compiled
  obtain ⟨image, himage, -⟩ := hp.exists_image
  refine ⟨image, himage, fun settings pid before now name ha => ?_⟩
  -- nothing is asked of the calls, so the numbers of parameters do not matter
  have hready := fun moments => (run_ready hcompiled hcompiled.layout False himage hmodest (fun _ => none) False.elim
    settings pid moments False.elim).1
  obtain ⟨A, hr⟩ := hready before
  have habout : (run settings registry pid image before).machine.IsAbout (hostAt settings registry now).settings
      (onVariable .capture name) := ha
  obtain ⟨h, hfree, hholds, hbound⟩ := hr.holds_capture habout
  rw [← next_machine ha.running, ← run_append] at hholds hbound
  refine ⟨h, hfree, hbound, fun later hkept => ?_⟩
  -- what the capture has left is kept from moment to moment
  have hlater : Machine.Holds (run settings registry pid image before).machine name h
      (run settings registry pid image (before ++ now :: later)).machine := by
    induction later using List.reverseRecOn with
    | nil => exact hholds
    | append_singleton later now' ih =>
      have hlast := ih fun stretch hstretch => hkept stretch (hstretch.trans (List.prefix_append _ _))
      have hnot := hkept (later ++ [now']) List.prefix_rfl
      rw [← List.cons_append, ← List.append_assoc, run_append] at hnot ⊢
      obtain ⟨B, hr'⟩ := hready (before ++ now :: later)
      exact hlast.follows (follows_next settings registry _ now' hr'.sound.heap.tidy) hnot
  refine ⟨hlater, fun now' v hcalls => ?_⟩
  obtain ⟨B, hr'⟩ := hready (before ++ now :: later)
  obtain ⟨tail, target, rest, ha', -⟩ := id hcalls
  rw [run_append, next_machine ha'.running]
  exact hlater.resumed hr' hcalls

/-- A continuation that is re-entered for the second time, in a run that collects whenever it can. -/
theorem run_continuation_again :
    ∃ p image now v, Program.compile "(define k #f) (display (call/cc (lambda (c) (set! k c) #t))) (k '())" = .ok p ∧
      Image.ofProgram p = .ok image ∧
      Machine.Resumed (run { gcThreshold := some 0 } Registry.builtins 0 image (List.replicate 4 now)).machine
        (run { gcThreshold := some 0 } Registry.builtins 0 image (List.replicate 20 now)).machine
        (run { gcThreshold := some 0 } Registry.builtins 0 image (List.replicate 21 now)).machine "_cont0" v := by
  let now : Moment := ⟨{}, .ok .nothing⟩
  -- the run is evaluated once: the continuation is captured, kept, and called with a list
  have hrun : (do
      let p ← (Program.compile "(define k #f) (display (call/cc (lambda (c) (set! k c) #t))) (k '())").toOption
      let image ← (Image.ofProgram p).toOption
      let s := (run { gcThreshold := some 0 } Registry.builtins 0 image (List.replicate 4 now)).machine
      let bound := (run { gcThreshold := some 0 } Registry.builtins 0 image (List.replicate 5 now)).machine
      let t := (run { gcThreshold := some 0 } Registry.builtins 0 image (List.replicate 20 now)).machine
      return decide (
        (s.state = .running ∧ s.image.program.code[s.pc]? = some (onVariable .capture "_cont0")) ∧
        ((s.current.bind bound.heap.closure?).bind fun c => c.bound.find? "_cont0") = some (.handle 9) ∧
        (∀ i ∈ List.range 16, ((run { gcThreshold := some 0 } Registry.builtins 0 image
          (List.replicate (i + 5) now)).machine.heap.get? 9).isSome) ∧
        (t.state = .running ∧ t.image.program.code[t.pc]? = some (callTo true (.atom (.variable "&0.k")))) ∧
        (Machine.callee? (hostAt { gcThreshold := some 0 } Registry.builtins now) t (.atom (.variable "&0.k"))).bind
          Sum.getRight? = some (.handle 9) ∧
        t.stack = [.handle 7])) = some true := by
    decide +kernel
  cases hp : Program.compile "(define k #f) (display (call/cc (lambda (c) (set! k c) #t))) (k '())" with
  | error e =>
    rw [hp] at hrun
    cases hrun
  | ok p =>
    obtain ⟨image, himage, hcontinuation⟩ := run_continuation (.compiled hp) Registry.modest_builtins
    rw [hp] at hrun
    simp only [Except.toOption, Option.bind_eq_bind, Option.bind_some, himage, Option.pure_def, Option.some.injEq,
      decide_eq_true_eq, List.mem_range] at hrun
    obtain ⟨⟨hstate, hi⟩, hbound, hthere, ⟨hstate', hi'⟩, hcallee, hstack⟩ := hrun
    obtain ⟨h, -, ⟨g, c, hcurrent, hc, hh⟩, hlater⟩ := hcontinuation { gcThreshold := some 0 } 0 (List.replicate 4 now)
      now "_cont0" ⟨hstate, by simp, hi⟩
    -- the handle that the theorem speaks of is the one that was seen
    have hnine : h = 9 := by
      rw [hcurrent, Option.bind_some, show List.replicate 5 now = List.replicate 4 now ++ [now] from rfl, hc,
        Option.bind_some, hh] at hbound
      cases hbound
      rfl
    subst hnine
    -- what is there at each moment in between is never lost
    have hkept : ∀ stretch, stretch <+: List.replicate 15 now → ¬(run { gcThreshold := some 0 } Registry.builtins 0
        image (List.replicate 4 now ++ now :: stretch)).machine.Lost 9 := by
      intro stretch hstretch hlost
      obtain ⟨hlength, hsame⟩ := List.prefix_replicate_iff.mp hstretch
      have hsome := hthere stretch.length (by omega)
      rw [hsame] at hlost
      exact absurd hlost.1 (Option.isSome_iff_ne_none.mp hsome)
    obtain ⟨x, hx, hright⟩ := Option.bind_eq_some_iff.mp hcallee
    have hcalls : Machine.Calls (hostAt { gcThreshold := some 0 } Registry.builtins now) (run { gcThreshold := some 0 }
        Registry.builtins 0 image (List.replicate 4 now ++ now :: List.replicate 15 now)).machine (.handle 9)
        (.handle 7) :=
      ⟨true, _, [], ⟨hstate', by simp [hostAt], hi'⟩, hx.trans (by rw [Sum.getRight?_eq_some_iff.mp hright]), hstack⟩
    exact ⟨p, image, now, .handle 7, rfl, himage, (hlater (List.replicate 15 now) hkept).2 now (.handle 7) hcalls⟩

end Process

end SchemeMachine
