import SchemeMachine.Proofs.Heap.Upkeep
import SchemeMachine.Proofs.TailCall.Elimination
import SchemeMachine.Proofs.Watchdog

/-!
# A job delivers what an answer at once would

A native function answers at once, or with a job that is carried out while the machine sleeps. The two ways finish a call
differently: an answer is pushed and the call is over; for a job, the machine first remembers where to return to, falls asleep,
and returns there when it is woken. It comes out the same.

* `NativeOutput.ofResult` is what the result of a job counts as, `NativeAnswer.Tells` says that an answer at once comes to that.
* `Machine.Finds` says that a machine finds in its heap what was in another: what has been placed since refers to nothing, and
  what has been freed cannot be reached.
* `Machine.finishCall_eq` and `Machine.deliver_of_sleeping`: either way, the machine returns to where the call would return to.
* `Process.Concurs` says in what the two may differ, and `Process.next_next_concurs` is the result.
-/

namespace SchemeMachine

open Lowering

/-! ### What is delivered -/

/-- **What the result of a job counts as**: a job that fails, or that has nothing to deliver, delivers `#f`. -/
def NativeOutput.ofResult : Except NativeError NativeOutput → NativeOutput
  | .ok .nothing => .boolean false
  | .ok output => output
  | .error _ => .boolean false

/-- A value that stands for an output; a string does by its content. -/
inductive Value.Denotes (H : Heap) : Value → NativeOutput → Prop
  | number (x : Float) : Denotes H (.number x) (.number x)
  | boolean (b : Bool) : Denotes H (.boolean b) (.boolean b)
  | text {h : Handle} {content : String} (hh : H.get? h = some (.string content)) : Denotes H (.handle h) (.text content)

/-- **An answer at once that comes to an output**: a value, or a string that is still to be placed. -/
inductive NativeAnswer.Tells (H : Heap) : NativeAnswer → NativeOutput → Prop
  | value {v : Value} {output : NativeOutput} (hv : v.Denotes H output) : Tells H (.value v) output
  | newString (content : String) : Tells H (.newString content) (.text content)

namespace Machine

variable {H : Heap} {m n : Machine} {settings : Settings} {host : Host} {v : Value} {output : NativeOutput}

/-! ### What a machine finds in its heap -/

/-- **A machine that finds in its heap what was in `H`**: what has been placed since refers to nothing, and what the machine
reaches is as it was. -/
structure Finds (H : Heap) (m : Machine) : Prop where
  tidy : m.heap.Tidy
  placed : ∀ g o, m.heap.get? g = some o → H.get? g = some o ∨ o.references = []
  kept : ∀ g o, H.get? g = some o → m.Reaches g → m.heap.get? g = some o

/-- Objects that refer to nothing lead nowhere. -/
theorem Reaches.mono (hroots : ∀ g ∈ m.roots, g ∈ n.roots)
    (hheap : ∀ g o, m.heap.get? g = some o → o.references ≠ [] → m.Reaches g → n.Reaches g → n.heap.get? g = some o)
    {g : Handle} (hg : m.Reaches g) : n.Reaches g := by
  induction hg with
  | root hh => exact .root (hroots _ hh)
  | reference hg ho hh ih => exact .reference ih (hheap _ _ ho (List.ne_nil_of_mem hh) hg ih) hh

namespace Finds

/-- Placing a string takes nothing away, whatever the registers are. -/
theorem of_newString (ht : H.Tidy)
    (hheap : m.heap = H ∨ ∃ content r, m.heap = (H.allocate (.string content) r).2) : m.Finds H := by
  rcases hheap with hheap | ⟨content, r, hheap⟩
  · exact ⟨hheap ▸ ht, fun g o ho => Or.inl (hheap ▸ ho), fun g o ho _ => hheap ▸ ho⟩
  · refine ⟨hheap ▸ ht.allocate _ r, fun g o ho => ?_, fun g o ho _ => hheap ▸ ht.get?_allocate_of_some _ r ho⟩
    rw [hheap, Heap.get?_allocate ht] at ho
    split at ho
    · cases ho
      exact Or.inr rfl
    · exact Or.inl ho

/-- With fewer roots a machine reaches less. A string may be placed. -/
theorem narrow (hf : n.Finds H) (hroots : ∀ g ∈ m.roots, g ∈ n.roots)
    (hheap : m.heap = n.heap ∨ ∃ content r, m.heap = (n.heap.allocate (.string content) r).2) : m.Finds H := by
  have hplaced : m.Finds n.heap := of_newString hf.tidy hheap
  have hreaches : ∀ {g}, m.Reaches g → n.Reaches g := Reaches.mono hroots fun g o ho hreferences _ _ =>
    (hplaced.placed g o ho).resolve_right hreferences
  refine ⟨hplaced.tidy, fun g o ho => ?_, fun g o ho hg => ?_⟩
  · exact (hplaced.placed g o ho).elim (hf.placed g o) Or.inr
  · exact hplaced.kept g o (hf.kept g o ho (hreaches hg)) hg

/-- A collection frees only what the machine does not reach. -/
theorem collectIfDue (hf : m.Finds H) (settings : Settings) : (m.collectIfDue settings).Finds H := by
  have hcollected := collected_collectIfDue hf.tidy settings
  have hleft : ∀ g o, (m.collectIfDue settings).heap.get? g = some o → m.heap.get? g = some o := by
    intro g o ho
    rcases hcollected.objects g with hsame | hlost
    · exact hsame ▸ ho
    · rw [hlost.1] at ho
      cases ho
  have hroots : (m.collectIfDue settings).roots = m.roots := by
    obtain ⟨H', k, heq⟩ := collectIfDue_eq settings m
    rw [heq]
    rfl
  refine ⟨hcollected.tidy, fun g o ho => hf.placed g o (hleft g o ho), fun g o ho hg => ?_⟩
  have hbefore : m.Reaches g := hg.mono (fun g hg => hroots ▸ hg) fun g o ho _ _ _ => hleft g o ho
  calc (m.collectIfDue settings).heap.get? g
      = m.heap.get? g := (hcollected.objects g).resolve_right fun hlost => hlost.2 hg
    _ = some o := hf.kept g o ho hbefore

/-- Machines with the same roots that find the same reach the same. -/
theorem reaches (hm : m.Finds H) (hn : n.Finds H) (hroots : m.roots = n.roots) {g : Handle} (hg : m.Reaches g) :
    n.Reaches g :=
  hg.mono (fun _ hg => hroots ▸ hg) fun g o ho hreferences _ hg =>
    hn.kept g o ((hm.placed g o ho).resolve_right hreferences) hg

end Finds

/-- **A machine with room** for another object before garbage is collected. -/
def Spacious (settings : Settings) (m : Machine) : Prop :=
  settings.gcThreshold = none ∨ m.heap.dynamic < m.nextCollection

/-- A collection that is not due changes nothing. -/
theorem collectIfDue_of_le (h : settings.gcThreshold = none ∨ m.heap.dynamic ≤ m.nextCollection) :
    m.collectIfDue settings = m := by
  unfold Machine.collectIfDue
  cases hthreshold : settings.gcThreshold with
  | none => rfl
  | some threshold =>
    rw [hthreshold] at h
    exact if_neg (Nat.not_lt.mpr (h.resolve_left nofun))

/-- What stands on top of the stack still stands for the same after a collection. -/
theorem denotes_collectIfDue (ht : m.heap.Tidy) (hv : v.Denotes m.heap output) (hmem : v ∈ m.stack) :
    v.Denotes (m.collectIfDue settings).heap output := by
  obtain ⟨H', k, heq⟩ := collectIfDue_eq settings m
  cases hv with
  | number x => exact .number x
  | boolean b => exact .boolean b
  | @text h content hh =>
    refine .text ?_
    have hroot : h ∈ (m.collectIfDue settings).roots := by
      rw [heq]
      exact List.mem_append_left _ (List.mem_append_left _ (List.mem_filterMap.mpr ⟨_, hmem, rfl⟩))
    exact ((collected_collectIfDue ht settings).root hroot).trans hh

/-! ### Values that are placed -/

/-- The value of an answer at once, and the machine that has it. -/
def answered (m : Machine) : NativeAnswer → Value × Machine
  | .value v => (v, m)
  | .newString content => m.newString content
  | .pending _ => (.boolean false, m)

/-- **A value that stands for an output**, and the machine that has it: at most a string has been placed. -/
structure Places (m : Machine) (output : NativeOutput) (x : Value × Machine) : Prop where
  machine : x.2 = { m with heap := x.2.heap }
  heap : x.2.heap = m.heap ∨ ∃ content r, x.2.heap = (m.heap.allocate (.string content) r).2
  denotes : x.1.Denotes x.2.heap output

theorem places_newString (ht : m.heap.Tidy) (content : String) : m.Places (.text content) (m.newString content) where
  machine := rfl
  heap := Or.inr ⟨content, m.current, rfl⟩
  denotes := by
    refine .text ?_
    show (m.heap.allocate (.string content) m.current).2.get? (m.heap.allocate (.string content) m.current).1 = _
    rw [Heap.get?_allocate ht, Heap.allocate_fst, if_pos rfl]

theorem places_resultValue (ht : m.heap.Tidy) (result : Except NativeError NativeOutput) :
    m.Places (.ofResult result) (m.resultValue result) := by
  cases result with
  | error e => exact ⟨rfl, Or.inl rfl, .boolean false⟩
  | ok output =>
    cases output with
    | number x => exact ⟨rfl, Or.inl rfl, .number x⟩
    | boolean b => exact ⟨rfl, Or.inl rfl, .boolean b⟩
    | text content => exact places_newString ht content
    | nothing => exact ⟨rfl, Or.inl rfl, .boolean false⟩

/-- An answer at once that comes to the result of a job is that result, but for a string that has been there before. -/
theorem answered_eq_resultValue {answer : NativeAnswer} {result : Except NativeError NativeOutput}
    (h : answer.Tells H (.ofResult result)) (hnew : ∀ h, answer ≠ .value (.handle h)) :
    m.answered answer = m.resultValue result := by
  generalize hresult : NativeOutput.ofResult result = output at h
  cases h with
  | newString content =>
    rcases result with e | (x | b | text | _) <;> cases hresult
    rfl
  | value hv =>
    cases hv with
    | number x =>
      rcases result with e | (x | b | text | _) <;> cases hresult
      rfl
    | boolean b => rcases result with e | (x | b | text | _) <;> cases hresult <;> rfl
    | text hh => exact absurd rfl (hnew _)

/-- Only the heap and the current closure matter to a result. -/
theorem resultValue_congr (hheap : n.heap = m.heap) (hcurrent : n.current = m.current)
    (result : Except NativeError NativeOutput) :
    (n.resultValue result).1 = (m.resultValue result).1 ∧
      (n.resultValue result).2.heap = (m.resultValue result).2.heap := by
  rcases result with e | (x | b | content | _)
  all_goals simp only [resultValue, newString, hheap, hcurrent, and_self]

theorem places_answered (ht : m.heap.Tidy) {answer : NativeAnswer} (h : answer.Tells m.heap output) :
    m.Places output (m.answered answer) := by
  cases h with
  | value hv => exact ⟨rfl, Or.inl rfl, hv⟩
  | newString content => exact places_newString ht content

/-! ### Returns -/

/-- **What a return changes**: the machine goes on as the frame on top says, or stops if there is none. -/
theorem returned_eq (m : Machine) : m.returned =
    { m with
      current := (m.frames.head?.map (·.closure)).getD m.current
      pc := (m.frames.head?.map (·.returnAddress)).getD m.pc
      frames := m.frames.tail
      state := if m.frames = [] then .stopped else m.state } := by
  by_cases hframes : m.frames = []
  · rw [returned_of_nil hframes, if_pos hframes, hframes]
    rfl
  · obtain ⟨f, fs, hcons⟩ := List.exists_cons_of_ne_nil hframes
    rw [returned_of_cons hcons, if_neg hframes, hcons]
    rfl

/-- A return brings no new roots. -/
theorem mem_roots_of_returned {g : Handle} (hg : g ∈ m.returned.roots) : g ∈ m.roots := by
  by_cases hframes : m.frames = []
  · rw [returned_of_nil hframes] at hg
    exact hg
  · obtain ⟨f, fs, hframes⟩ := List.exists_cons_of_ne_nil hframes
    rw [returned_of_cons hframes] at hg
    simp only [roots, List.mem_append, List.mem_filterMap, Option.mem_toList, hframes, List.mem_cons,
      exists_eq_or_imp] at hg ⊢
    rcases hg with (hg | hg) | hg
    · exact Or.inl (Or.inl hg)
    · exact Or.inl (Or.inr (Or.inr hg))
    · exact Or.inl (Or.inr (Or.inl hg))

/-- Nor does taking a value off the stack. -/
theorem mem_roots_of_below {rest : List Value} (h : m.stack = v :: rest) {g : Handle}
    (hg : g ∈ ({ m with stack := rest } : Machine).roots) : g ∈ m.roots := by
  simp only [roots, List.mem_append, List.mem_filterMap, h, List.mem_cons, exists_eq_or_imp] at hg ⊢
  rcases hg with (hg | hg) | hg
  · exact Or.inl (Or.inl (Or.inr hg))
  · exact Or.inl (Or.inr hg)
  · exact Or.inr hg

/-- **A call that is over returns to where it was made**: without a frame that says so, the machine goes there by itself. -/
theorem finishCall_eq (tail : Bool) (m : Machine) :
    (finishCall tail).run m = (.ok (), ({ m with frames := m.framesFor tail } : Machine).returned) := by
  cases tail with
  | true => rfl
  | false => rw [returned_of_cons rfl]; rfl

/-! ### Calls of natives -/

variable {tail : Bool} {name library function : String} {native : NativeFunction} {arguments rest : List Value}

/-- The arguments of a call are on the stack, the last one on top. -/
theorem run_popArguments (h : m.stack = arguments.reverse ++ rest) :
    (popArguments arguments.length).run m = (.ok arguments, { m with stack := rest }) := by
  induction arguments using List.reverseRecOn generalizing m with
  | nil =>
    obtain rfl : m.stack = rest := h
    rfl
  | append_singleton arguments v ih =>
    rw [List.reverse_append, List.reverse_singleton, List.singleton_append, List.cons_append] at h
    rw [List.length_append, List.length_singleton]
    unfold popArguments
    rw [run_bind_ok (run_pop_cons h), run_bind_ok (ih rfl)]
    rfl

/-- A call of a native function takes its arguments off the stack and asks it. -/
theorem run_callNative (h : m.stack = arguments.reverse ++ rest) (harity : native.arity = arguments.length)
    {answer : NativeAnswer} (hanswer : native.invoke m.heap ⟨m.pid, library, function, arguments⟩ = .ok answer) :
    (callNative library function native tail).run m = (receive (.ok answer) tail).run { m with stack := rest } := by
  rw [callNative_eq, harity, run_bind_ok (run_popArguments h), run_get_bind]
  show (receive (native.invoke m.heap ⟨m.pid, library, function, arguments⟩) tail).run { m with stack := rest } = _
  rw [hanswer]

/-- **An answer at once** is pushed, and the call returns. -/
theorem run_receive_answered (tail : Bool) {answer : NativeAnswer} (htells : answer.Tells H output) :
    (receive (.ok answer) tail).run m =
      (.ok (), ({ (m.answered answer).2 with
        stack := (m.answered answer).1 :: (m.answered answer).2.stack, frames := m.framesFor tail } : Machine).returned) := by
  cases htells with
  | value hv => exact (run_bind_ok (run_push _ _)).trans (finishCall_eq tail _)
  | newString content =>
    have hallocate : (allocate (.string content)).run m =
        (.ok (m.heap.allocate (.string content) m.current).1, (m.newString content).2) := rfl
    exact (run_bind_ok hallocate).trans ((run_bind_ok (run_push _ _)).trans (finishCall_eq tail _))

/-- **A job** puts the machine to sleep, which remembers where to return to. -/
theorem run_receive_pending (tail : Bool) (job : Job) :
    (receive (.ok (.pending job)) tail).run m =
      (.ok (), { m with frames := m.framesFor tail, pending := some job, state := .sleeping }) :=
  run_bind_ok (run_pushFrame tail m)

theorem run_dispatch_native (htarget : nativeTarget? host m name = some (library, function, native)) {m' : Machine}
    (h : (callNative library function native tail).run m = (.ok (), m')) :
    (dispatch host (callTo tail (.atom (.variable name)))).run m = (.ok "", m') := by
  rw [run_dispatch_callTo, call, run_get_bind, htarget]
  exact run_bind_ok h

/-- **A machine about to call a native function**, in tail position or not: it goes on, is below its limit, and has come to the
call. The arguments are on the stack, the last one on top, with `rest` below. -/
structure Requests (settings : Settings) (m : Machine) (tail : Bool) (name : String) (arguments rest : List Value) : Prop where
  goes : m.state = .running ∨ m.state = .suspended
  below : ¬settings.maxSteps.any (· ≤ m.steps)
  instruction : m.image.program.code[m.pc]? = some (callTo tail (.atom (.variable name)))
  stack : m.stack = arguments.reverse ++ rest

end Machine

namespace Process

variable {settings : Settings} {registry registry' : Registry} {now later : Moment} {a : Process} {tail : Bool}
  {name library function : String} {f g : NativeFunction} {arguments rest : List Value}

/-! ### The two ways of a call -/

/-- A machine once it has taken the arguments of a call off its stack. -/
def asking (m : Machine) (rest : List Value) : Machine :=
  { m with state := .running, steps := m.steps + 1, stack := rest }

/-- **Where a call returns to**: the frame that the call has pushed, or that of its caller; the run is over if there is none. -/
def landing (m : Machine) (tail : Bool) (rest : List Value) : Machine :=
  { asking m rest with
    current := ((m.framesFor tail).head?.map (·.closure)).getD m.current
    pc := ((m.framesFor tail).head?.map (·.returnAddress)).getD m.pc
    frames := (m.framesFor tail).tail
    state := if m.framesFor tail = [] then .stopped else .running }

/-- **A process that has returned from a call of a native** with a value that stands for an output. What the process `a` reached
before the call is still there. Without a collection, the value and the heap are those of `x`. -/
structure Returns (settings : Settings) (a : Process) (tail : Bool) (rest : List Value) (output : NativeOutput)
    (x : Value × Machine) (v : Value) (b : Process) : Prop where
  machine : b.machine =
    { landing a.machine tail rest with
      stack := v :: rest, heap := b.machine.heap, nextCollection := b.machine.nextCollection
      peakDepth := b.machine.peakDepth, pending := b.machine.pending }
  denotes : v.Denotes b.machine.heap output
  finds : ({ b.machine with stack := rest } : Machine).Finds a.machine.heap
  prompt : a.machine.Spacious settings →
    v = x.1 ∧ b.machine.heap = x.2.heap ∧ b.machine.nextCollection = a.machine.nextCollection
  output : b.output = a.output
  error : b.error = a.error

/-- A process that sleeps is woken. -/
theorem next_of_sleeping {b : Process} (h : b.machine.state = .sleeping) :
    next settings registry b later =
      { b with machine := ({ b.machine with pending := none } : Machine).deliver later.result } := by
  unfold next
  rw [h]

/-- A process that calls a native function, whatever comes of the answer. -/
theorem next_of_requests (hr : a.machine.Requests settings tail name arguments rest)
    (htarget : Machine.nativeTarget? (hostAt settings registry now) a.machine name = some (library, function, f))
    (harity : f.arity = arguments.length) {answer : NativeAnswer}
    (hanswer : f.invoke a.machine.heap ⟨a.machine.pid, library, function, arguments⟩ = .ok answer) {after : Machine}
    (hrun : (Machine.receive (.ok answer) tail).run (asking a.machine rest) = (.ok (), after)) :
    next settings registry a now =
      { machine := after.notePeak.collectIfDue settings, output := a.output, error := a.error } := by
  have hawake : a.machine.state ≠ .sleeping := by rcases hr.goes with h | h <;> rw [h] <;> nofun
  have hgoes : a.machine.state.isTerminated = false := by rcases hr.goes with h | h <;> rw [h] <;> rfl
  have hcall : (Machine.callNative library function f tail).run
      { a.machine with state := .running, steps := a.machine.steps + 1 } = (.ok (), after) :=
    (Machine.run_callNative (m := { a.machine with state := .running, steps := a.machine.steps + 1 }) hr.stack harity
      hanswer).trans hrun
  have hcalled : (callTo tail (.atom (.variable name))).isCall = true := by cases tail <;> rfl
  rw [next_of_goes hawake hgoes, Machine.stepRunning_of_ok (m := { a.machine with state := .running }) hr.below
    hr.instruction (Machine.run_dispatch_native (m := { a.machine with state := .running, steps := a.machine.steps + 1 })
      htarget hcall), if_pos hcalled]
  dsimp only
  rw [String.append_empty]
  cases a.error <;> rfl

section Calls

variable (ht : a.machine.heap.Tidy) (hr : a.machine.Requests settings tail name arguments rest)

include ht hr

/-- **A native that answers at once**: the process has returned. -/
theorem next_answered {answer : NativeAnswer} {output : NativeOutput}
    (htarget : Machine.nativeTarget? (hostAt settings registry now) a.machine name = some (library, function, f))
    (harity : f.arity = arguments.length)
    (hanswer : f.invoke a.machine.heap ⟨a.machine.pid, library, function, arguments⟩ = .ok answer)
    (htells : answer.Tells a.machine.heap output) :
    ∃ v, Returns settings a tail rest output ((asking a.machine rest).answered answer) v (next settings registry a now) := by
  have hplaces := Machine.places_answered (m := asking a.machine rest) ht htells
  have hnext := next_of_requests hr htarget harity hanswer (Machine.run_receive_answered tail htells)
  generalize (asking a.machine rest).answered answer = x at hplaces hnext ⊢
  obtain ⟨v, m⟩ := x
  obtain ⟨hmachine, hheap, hdenotes⟩ := hplaces
  dsimp only at hmachine hheap hdenotes hnext ⊢
  -- the machine before its collection
  have hbefore : ({ m with stack := v :: m.stack, frames := (asking a.machine rest).framesFor tail } : Machine).returned =
      { landing a.machine tail rest with stack := v :: rest, heap := m.heap } := by
    rw [hmachine]
    exact Machine.returned_eq _
  rw [hbefore] at hnext
  generalize hafter : ({ landing a.machine tail rest with stack := v :: rest, heap := m.heap } : Machine).notePeak = after
    at hnext
  have hstack : after.stack = v :: rest := by rw [← hafter]; rfl
  have hafterHeap : after.heap = m.heap := by rw [← hafter]; rfl
  have hfinds : after.Finds a.machine.heap := .of_newString ht (hafterHeap ▸ hheap)
  obtain ⟨H, k, heq⟩ := Machine.collectIfDue_eq settings after
  rw [hnext]
  refine ⟨v, ?_, ?_, ?_, fun hspacious => ?_, rfl, rfl⟩
  · rw [heq, ← hafter]
    rfl
  · exact Machine.denotes_collectIfDue hfinds.tidy (hafterHeap ▸ hdenotes) (hstack ▸ List.mem_cons_self)
  · refine (hfinds.collectIfDue settings).narrow (fun g hg => ?_) (Or.inl rfl)
    rw [heq] at hg ⊢
    exact Machine.mem_roots_of_below (m := { after with heap := H, nextCollection := k }) hstack hg
  · have hsame : after.collectIfDue settings = after := by
      refine Machine.collectIfDue_of_le (hspacious.imp_right fun hlt => ?_)
      have hnextCollection : after.nextCollection = a.machine.nextCollection := by rw [← hafter]; rfl
      rw [hafterHeap, hnextCollection]
      rcases hheap with hheap | ⟨content, r, hheap⟩
      · rw [hheap]
        exact Nat.le_of_lt hlt
      · rw [hheap, Heap.allocate_dynamic]
        exact hlt
    rw [hsame]
    exact ⟨rfl, hafterHeap, by rw [← hafter]; rfl⟩

/-- **A native that starts a job**: the process sleeps on it. Once it is woken, it has returned. -/
theorem next_delivered (later : Moment) {job : Job}
    (htarget : Machine.nativeTarget? (hostAt settings registry now) a.machine name = some (library, function, f))
    (harity : f.arity = arguments.length)
    (hjob : f.invoke a.machine.heap ⟨a.machine.pid, library, function, arguments⟩ = .ok (.pending job)) :
    ((next settings registry a now).machine.state = .sleeping ∧ (next settings registry a now).machine.pending = some job) ∧
      ∃ v, Returns settings a tail rest (.ofResult later.result) ((asking a.machine rest).resultValue later.result) v
          (next settings registry (next settings registry a now) later) ∧
        (next settings registry (next settings registry a now) later).machine.pending = none := by
  have hnext := next_of_requests hr htarget harity hjob (Machine.run_receive_pending tail job)
  generalize hafter : ({ asking a.machine rest with
    frames := (asking a.machine rest).framesFor tail, pending := some job, state := .sleeping } : Machine).notePeak = after
    at hnext
  have hafterHeap : after.heap = a.machine.heap := by rw [← hafter]; rfl
  have hafterNext : after.nextCollection = a.machine.nextCollection := by rw [← hafter]; rfl
  have hfinds : (after.collectIfDue settings).Finds a.machine.heap :=
    (Machine.Finds.of_newString ht (Or.inl hafterHeap)).collectIfDue settings
  have hprompt : a.machine.Spacious settings → after.collectIfDue settings = after := fun hspacious =>
    Machine.collectIfDue_of_le (hspacious.imp_right fun hlt => by
      rw [hafterHeap, hafterNext]
      exact Nat.le_of_lt hlt)
  obtain ⟨H, k, heq⟩ := Machine.collectIfDue_eq settings after
  rw [hnext, heq]
  rw [heq] at hfinds hprompt
  have hstate : after.state = .sleeping := by rw [← hafter]; rfl
  refine ⟨⟨hstate, by rw [← hafter]; rfl⟩, ?_⟩
  rw [next_of_sleeping hstate]
  have hplaces := Machine.places_resultValue (m := { after with heap := H, nextCollection := k, pending := none }) hfinds.tidy
    later.result
  have hresult : a.machine.Spacious settings → _ := fun hspacious =>
    Machine.resultValue_congr (m := asking a.machine rest) (n := { after with heap := H, nextCollection := k, pending := none })
      ((congrArg Machine.heap (hprompt hspacious)).trans hafterHeap) (by rw [← hafter]; rfl) later.result
  dsimp only
  rw [Machine.deliver_of_sleeping (n := { after with heap := H, nextCollection := k, pending := none }) hstate]
  generalize Machine.resultValue { after with heap := H, nextCollection := k, pending := none } later.result = x
    at hplaces hresult ⊢
  obtain ⟨v, m⟩ := x
  obtain ⟨hmachine, hheap, hdenotes⟩ := hplaces
  dsimp only at hmachine hheap hdenotes hresult ⊢
  have hreturned : ({ m with stack := v :: m.stack, state := .running } : Machine).returned =
      { landing a.machine tail rest with
        stack := v :: rest, heap := m.heap, nextCollection := k, peakDepth := after.peakDepth, pending := none } := by
    rw [hmachine, ← hafter]
    exact Machine.returned_eq _
  rw [hreturned]
  refine ⟨v, ⟨rfl, hdenotes, ?_, fun hspacious => ?_, rfl, rfl⟩, rfl⟩
  · -- what the machine returns to has been among its frames
    refine hfinds.narrow (fun g hg => ?_) hheap
    rw [← hafter]
    refine Machine.mem_roots_of_returned ?_
    rw [Machine.returned_eq]
    exact hg
  · obtain ⟨hvalue, hsame⟩ := hresult hspacious
    exact ⟨hvalue, hsame, (congrArg Machine.nextCollection (hprompt hspacious)).trans hafterNext⟩

end Calls

/-! ### The result -/

/-- **Two processes that go on alike** after a call of a native, of which `b` has slept on a job and `a` has not. Their
registers are the same but for the value of the call, which stands for the same output; how deep the calls have been, and
when garbage is collected, may differ. Besides that value both reach the same, and whatever was in the heap `H` they find
as it was. -/
structure Concurs (H : Heap) (rest : List Value) (output : NativeOutput) (a b : Process) : Prop where
  machine : ∃ v w, a.machine.stack = v :: rest ∧ v.Denotes a.machine.heap output ∧ w.Denotes b.machine.heap output ∧
    b.machine =
      { a.machine with
        stack := w :: rest, heap := b.machine.heap, nextCollection := b.machine.nextCollection
        peakDepth := b.machine.peakDepth, pending := none }
  reaches : ∀ g, ({ a.machine with stack := rest } : Machine).Reaches g ↔
    ({ b.machine with stack := rest } : Machine).Reaches g
  objects : ∀ g o, H.get? g = some o → ({ a.machine with stack := rest } : Machine).Reaches g →
    a.machine.heap.get? g = some o ∧ b.machine.heap.get? g = some o
  output : b.output = a.output
  error : b.error = a.error

/-- **The two ways of a call come out the same.** -/
theorem Returns.concurs {output : NativeOutput} {x y : Value × Machine} {v w : Value} {b c : Process}
    (hb : Returns settings a tail rest output x v b) (hc : Returns settings a tail rest output y w c)
    (hpending : c.machine.pending = none) : Concurs a.machine.heap rest output b c := by
  have hstack : b.machine.stack = v :: rest := by rw [hb.machine]
  have hsame : c.machine =
      { b.machine with
        stack := w :: rest, heap := c.machine.heap, nextCollection := c.machine.nextCollection
        peakDepth := c.machine.peakDepth, pending := none } := by
    rw [hb.machine, hc.machine, hpending]
  -- besides the value of the call, the two machines hold on to the same handles
  have hroots : ({ b.machine with stack := rest } : Machine).roots = ({ c.machine with stack := rest } : Machine).roots := by
    rw [hsame]
    rfl
  have hreaches : ∀ {g}, ({ b.machine with stack := rest } : Machine).Reaches g →
      ({ c.machine with stack := rest } : Machine).Reaches g := hb.finds.reaches hc.finds hroots
  refine ⟨⟨v, w, hstack, hb.denotes, hc.denotes, hsame⟩, fun g => ⟨hreaches, hc.finds.reaches hb.finds hroots.symm⟩,
    fun g o ho hg => ⟨hb.finds.kept g o ho hg, hc.finds.kept g o ho (hreaches hg)⟩, ?_, ?_⟩
  · rw [hb.output, hc.output]
  · rw [hb.error, hc.error]

/-- The heap of a run is tidy at every moment. -/
theorem tidy_run (settings : Settings) (registry : Registry) (pid : Nat) (image : Image) (moments : List Moment) :
    (run settings registry pid image moments).machine.heap.Tidy :=
  run_induction settings registry (motive := fun a => a.machine.heap.Tidy) (Heap.tidy_ofConstants _)
    (fun a now ht => (follows_next settings registry a now ht).tidy) moments

/-- **A job delivers what an answer at once would.** Take any process whose heap is tidy, as it is at every moment of a run, and
that is about to call a native function, in tail position or not, with whatever calls under way. One library gives the function an
answer at once, a number, a boolean or a string; the other has it start a job, with whose result the process is woken later. If
the answer comes to that result, a failed job counting as `#f`, then

* the process sleeps on the job in between;
* in the end the two ways concur: same image, place, closure, calls under way, state, number of instructions, forks, output and
  error, and the same stack but for the handle of a string, whose content is the same;
* the process goes on, unless the call has returned from the last procedure: then the run is over either way;
* if no collection is due, nothing at all differs but how deep the calls have been (a string that was there before apart). -/
theorem next_next_concurs (later : Moment) (ht : a.machine.heap.Tidy) (hr : a.machine.Requests settings tail name arguments rest)
    (hf : Machine.nativeTarget? (hostAt settings registry now) a.machine name = some (library, function, f))
    (hg : Machine.nativeTarget? (hostAt settings registry' now) a.machine name = some (library, function, g))
    (hfarity : f.arity = arguments.length) (hgarity : g.arity = arguments.length) {answer : NativeAnswer} {job : Job}
    (hanswer : f.invoke a.machine.heap ⟨a.machine.pid, library, function, arguments⟩ = .ok answer)
    (hjob : g.invoke a.machine.heap ⟨a.machine.pid, library, function, arguments⟩ = .ok (.pending job))
    (hsame : answer.Tells a.machine.heap (.ofResult later.result)) :
    let called := next settings registry a now
    let asleep := next settings registry' a now
    let woken := next settings registry' asleep later
    (asleep.machine.state = .sleeping ∧ asleep.machine.pending = some job) ∧
      Concurs a.machine.heap rest (.ofResult later.result) called woken ∧
      woken.machine.state = (if tail = true ∧ a.machine.frames = [] then .stopped else .running) ∧
      (a.machine.Spacious settings → (∀ h, answer ≠ .value (.handle h)) →
        woken.machine = { called.machine with peakDepth := woken.machine.peakDepth, pending := none }) := by
  -- either way the machine comes to return with a value that denotes the output
  obtain ⟨v, hcalled⟩ := next_answered ht hr hf hfarity hanswer hsame
  obtain ⟨hasleep, w, hwoken, hpending⟩ := next_delivered ht hr later hg hgarity hjob
  have hconcurs := hcalled.concurs hwoken hpending
  refine ⟨hasleep, hconcurs, ?_, fun hspacious hnew => ?_⟩
  · rw [hwoken.machine]
    cases tail <;> simp [landing, Machine.framesFor]
  · obtain ⟨rfl, hheap, hnext⟩ := hcalled.prompt hspacious
    obtain ⟨rfl, hheap', hnext'⟩ := hwoken.prompt hspacious
    rw [Machine.answered_eq_resultValue hsame hnew] at hheap hcalled
    rw [hwoken.machine, hcalled.machine, hheap, hheap', hnext, hnext', hpending]

/-- A library with one function, which has no parameters and gives one answer. -/
def answering (answer : NativeAnswer) : Registry :=
  Table.ofList [("T", Table.ofList [("get", ⟨0, fun _ _ => .ok answer⟩)])]

/-- A procedure that ends with a call of a native. -/
theorem next_next_concurs_tailCall :
    ∃ p image, Program.compile "(native T) (define (f) (T.get)) (display (f))" = .ok p ∧ Image.ofProgram p = .ok image ∧
      let at_once := answering (.newString "late")
      let later := answering (.pending (.settled (.ok (.text "late"))))
      let a := run {} at_once 0 image (List.replicate 6 ⟨{}, .ok .nothing⟩)
      a.machine.Requests {} true "T.get" [] [] ∧
      Concurs a.machine.heap [] (.text "late") (next {} at_once a ⟨{}, .ok .nothing⟩)
        (next {} later (next {} later a ⟨{}, .ok .nothing⟩) ⟨{}, .ok (.text "late")⟩) := by
  -- the run is evaluated up to the call
  have hrun : (do
      let p ← (Program.compile "(native T) (define (f) (T.get)) (display (f))").toOption
      let image ← (Image.ofProgram p).toOption
      let m := (run {} (answering (.newString "late")) 0 image (List.replicate 6 ⟨{}, .ok .nothing⟩)).machine
      return decide (m.state = .running ∧ m.stack = [] ∧ m.image.program.natives.contains "T" = true ∧
        m.image.program.code[m.pc]? = some (callTo true (.atom (.variable "T.get"))))) = some true := by
    decide +kernel
  simp only [Option.bind_eq_bind, Option.pure_def, Option.bind_eq_some_iff, Except.toOption_eq_some, Option.some.injEq,
    decide_eq_true_eq] at hrun
  obtain ⟨p, hp, image, himage, hstate, hstack, hnatives, hinstruction⟩ := hrun
  have htarget (answer : NativeAnswer) : Machine.nativeTarget? (hostAt {} (answering answer) ⟨{}, .ok .nothing⟩)
      (run {} (answering (.newString "late")) 0 image (List.replicate 6 ⟨{}, .ok .nothing⟩)).machine "T.get" =
        some ("T", "get", ⟨0, fun _ _ => .ok answer⟩) := by
    show (if _ then _ else _) = _
    exact if_pos hnatives
  have hrequests : Machine.Requests {} (run {} (answering (.newString "late")) 0 image
      (List.replicate 6 ⟨{}, .ok .nothing⟩)).machine true "T.get" [] [] :=
    ⟨Or.inl hstate, Bool.false_ne_true, hinstruction, hstack⟩
  exact ⟨p, image, hp, himage, hrequests,
    (next_next_concurs ⟨{}, .ok (.text "late")⟩ (tidy_run _ _ _ _ _) hrequests (htarget _) (htarget _)
      rfl rfl rfl rfl (.newString "late")).2.1⟩

end Process

end SchemeMachine
