import SchemeMachine.Proofs.Layout.Flow
import SchemeMachine.Proofs.TailCall.Matching

/-!
# Tail calls cannot be seen

A program with tail calls and the same program without run beside each other. Where they are level, both take a step;
where the first is ahead, the second goes on alone until it has made the returns that the first has left out. There
are as many of those as there are frames, so that the second always catches up, and neither runs forever alone.

* `Machine.Even.step` and `Machine.Ahead.step` are the steps, `Process.Beside.catchUp` says that the second catches up.
* `Process.SeenIn` says that one run shows what another shows; `Process.run_tail_calls_invisible` says it of a program
  with and without tail calls, both ways.
-/

namespace SchemeMachine

open Lowering

namespace Machine

variable {p : Program} {image : Image} {m n : Machine} {host : Host}

/-! ### Steps -/

theorem returned_withPeak (m : Machine) (k : Nat) :
    ({ m with peakDepth := k } : Machine).returned = { m.returned with peakDepth := k } := by
  simp only [returned, doReturn, run_modify]
  cases m.frames <;> rfl

/-- A machine that goes on after a return has returned to a frame. -/
theorem frames_of_returned (h : n.returned.state = .running) : ∃ f, n.frames = f :: n.returned.frames := by
  cases hframes : n.frames with
  | nil =>
    rw [returned_of_nil hframes] at h
    cases h
  | cons f fs => exact ⟨f, by rw [returned_of_cons hframes]⟩

/-- How deep calls have been does not matter. -/
theorem Matches.withPeak (h : Matches p image m n) (k l : Nat) :
    Matches p image { m with peakDepth := k } { n with peakDepth := l } := by
  rcases h with (⟨steps, peakDepth, himage, rfl⟩ | ⟨hm, hn, hstack⟩) | ⟨himage, hstate, hexits, steps, peakDepth, pc,
    current, rfl⟩
  · exact .level steps k himage rfl
  · exact Or.inl (.ended hm hn hstack)
  · exact Or.inr ⟨himage, hstate, hexits, steps, k, pc, current, (returned_withPeak _ k).symm⟩

/-- **Steps beside each other**: they write the same and fail in the same way. -/
structure Outcome.Matches (p : Program) (image : Image) (o o' : Outcome) : Prop where
  machine : Machine.Matches p image o.machine o'.machine
  written : o.written = o'.written
  error : o.error = o'.error

/-- A host without a limit on steps that never collects. -/
structure Unlimited (host : Host) : Prop where
  steps : host.settings.maxSteps = none
  collection : host.settings.gcThreshold = none

theorem collectIfDue_of_unlimited (hl : Unlimited host) (m : Machine) : m.collectIfDue host.settings = m := by
  unfold collectIfDue
  rw [hl.collection]

theorem stepRunning_matches (hu : p.Untails image.program) (hblind : host.registry.Blind) (hl : Unlimited host)
    (himage : n.image = image) (hstate : n.state = .running) (steps peakDepth : Nat) :
    Outcome.Matches p image (stepRunning host (n.thin (viewOf p image.program steps peakDepth))) (stepRunning host n) := by
  -- without limits a step is the instruction, or the end of the code
  have hlimit (k : Nat) : ¬host.settings.maxSteps.any (· ≤ k) := by simp [hl.steps]
  -- both programs have code at the same places
  have hnone : p.code[n.pc]? = none ↔ image.program.code[n.pc]? = none := by
    rcases hu.code n.pc with h | ⟨target, hi, hj, -⟩
    · rw [h]
    · simp [hi, hj]
  subst himage
  cases hj : n.image.program.code[n.pc]? with
  | none =>
    rw [stepRunning_of_none (hlimit _) hj, stepRunning_of_none (hlimit _) (hnone.mpr hj)]
    exact ⟨.level steps peakDepth rfl rfl, rfl, rfl⟩
  | some j =>
    obtain ⟨i, hi⟩ := Option.ne_none_iff_exists'.mp (mt hnone.mp (by simp [hj]))
    have hpoised : ({ n with steps := n.steps + 1 } : Machine).Poised n.image n.pc := ⟨rfl, rfl, hstate⟩
    have hdispatch : Agrees p n.image
        ((dispatch host i).run (({ n with steps := n.steps + 1 } : Machine).thin
          (viewOf p n.image.program (steps + 1) peakDepth)))
        ((dispatch host j).run { n with steps := n.steps + 1 }) :=
      agrees_dispatch hu hblind hpoised hi hj
    rcases hr : (dispatch host i).run (({ n with steps := n.steps + 1 } : Machine).thin
      (viewOf p n.image.program (steps + 1) peakDepth)) with ⟨a, m'⟩
    rcases hr' : (dispatch host j).run { n with steps := n.steps + 1 } with ⟨b, n'⟩
    rw [hr, hr'] at hdispatch
    cases hdispatch with
    | ok hmatches =>
      rw [stepRunning_of_ok (hlimit _) hi hr, stepRunning_of_ok (hlimit _) hj hr', collectIfDue_of_unlimited hl,
        collectIfDue_of_unlimited hl]
      refine ⟨?_, rfl, rfl⟩
      dsimp only
      -- how deep the calls are may differ, but this is no more than noted down
      have hnoted (c : Bool) (m : Machine) : ∃ k, (if c then m.notePeak else m) = { m with peakDepth := k } := by
        cases c with
        | true => exact ⟨_, rfl⟩
        | false => exact ⟨_, rfl⟩
      obtain ⟨k, hk⟩ := hnoted i.isCall m'
      obtain ⟨l, hl'⟩ := hnoted j.isCall n'
      rw [hk, hl']
      exact hmatches.withPeak k l
    | error steps' peakDepth' himage =>
      rw [stepRunning_of_error (hlimit _) hi hr, stepRunning_of_error (hlimit _) hj hr']
      refine ⟨.level steps' peakDepth' himage rfl, rfl, ?_⟩
      have hlabel : (n'.thin (viewOf p n.image.program steps' peakDepth')).currentLabel = n'.currentLabel := by
        simp only [currentLabel, thin]
        cases n'.current with
        | none => rfl
        | some h => simp only [Option.bind_some, Heap.closure?_thin]
      rw [hlabel]
      rfl

/-- **A step of both machines** where they are level. -/
theorem Even.step (he : Even p image m n) (hu : p.Untails image.program) (hblind : host.registry.Blind)
    (hl : Unlimited host) : Outcome.Matches p image (step host m) (step host n) := by
  cases he with
  | ended hm hn hstack =>
    unfold Machine.step
    rw [hm, hn]
    exact ⟨Or.inl (.ended hm hn hstack), rfl, rfl⟩
  | level steps peakDepth himage hm =>
    subst hm
    have hrunning := stepRunning_matches (n := { n with state := .running }) hu hblind hl himage rfl steps peakDepth
    unfold Machine.step
    rw [show (n.thin (viewOf p image.program steps peakDepth)).state = n.state from rfl]
    split
    · exact hrunning
    · exact hrunning
    · exact ⟨.level steps peakDepth himage rfl, rfl, rfl⟩

/-! ### Steps of the machine that is behind -/

/-- An instruction that writes nothing and does not fail. -/
theorem step_of_run {i : Instruction} (hl : Unlimited host) (hstate : n.state = .running)
    (hi : n.image.program.code[n.pc]? = some i) (hcall : i.isCall = false) {n' : Machine}
    (hrun : (dispatch host i).run { n with steps := n.steps + 1 } = (.ok "", n')) : step host n = { machine := n' } := by
  have hself : ({ n with state := .running } : Machine) = n := by rw [← hstate]
  have hstep : step host n = stepRunning host { n with state := .running } := by
    unfold step
    rw [hstate]
  have hlimit : ¬host.settings.maxSteps.any (· ≤ n.steps) := by simp [hl.steps]
  rw [hstep, hself, stepRunning_of_ok hlimit hi hrun, hcall, collectIfDue_of_unlimited hl]
  rfl

/-- A jump on the way to a return. -/
theorem step_goto (hl : Unlimited host) (hstate : n.state = .running)
    (hlabels : LabelTable.ofCode n.image.program.code = .ok n.image.labels) {name : String} {place : Nat}
    (hi : n.image.program.code[n.pc]? = some (toLabel .goto name))
    (hplace : n.image.program.code[place]? = some (.label name)) :
    step host n = { machine := { n with steps := n.steps + 1, pc := place } } := by
  have hfind : n.image.labels.find? name = some place := (LabelTable.find?_ofCode hlabels).mpr hplace
  have hjump : (jump name).run { n with steps := n.steps + 1 } =
      (.ok (), { n with steps := n.steps + 1, pc := place }) := by
    unfold jump
    rw [run_get_bind, hfind]
    rfl
  refine step_of_run hl hstate hi rfl ?_
  show (do jump name; return "" : Move String).run { n with steps := n.steps + 1 } = _
  rw [run_bind_ok hjump]
  rfl

/-- The machine that is ahead stays ahead while the other goes to another place. -/
theorem Ahead.moved (ha : Ahead p image m n) {pc : Nat} (hexits : Exits image.program.code pc) (steps : Nat) :
    Ahead p image m { n with steps, pc } := by
  obtain ⟨himage, hstate, -, hreturned⟩ := ha
  exact ⟨himage, hstate, hexits, hreturned⟩

/-- The machine that is ahead when the other returns. -/
theorem Ahead.returns (ha : Ahead p image m n) (hu : p.Untails image.program) (steps : Nat) :
    Matches p image m ({ n with steps } : Machine).returned := by
  obtain ⟨himage, hstate, -, steps', peakDepth, pc, current, rfl⟩ := ha
  exact matches_returned (n := { n with steps }) hu himage hstate pc current

/-- **A step of the machine that is behind** writes nothing and does not fail. -/
theorem Ahead.step (ha : Ahead p image m n) (hu : p.Untails image.program) (hl : Unlimited host)
    (hlabels : LabelTable.ofCode image.program.code = .ok image.labels) :
    ∃ n', step host n = { machine := n' } ∧ Matches p image m n' := by
  have himage := ha.runs
  subst himage
  cases ha.exits with
  | ret hi => exact ⟨_, step_of_run hl ha.state hi rfl rfl, ha.returns hu _⟩
  | label hi hnext => exact ⟨_, step_of_run hl ha.state hi rfl rfl, Or.inr (ha.moved hnext _)⟩
  | goto hi hplace hnext => exact ⟨_, step_goto hl ha.state hlabels hi hplace, Or.inr (ha.moved hnext _)⟩

/-! ### Results of jobs -/

theorem resultValue_thin (v : View) (n : Machine) (result : Except NativeError NativeOutput) :
    resultValue (n.thin v) result = ((resultValue n result).1, (resultValue n result).2.thin v) := by
  have hstring (content : String) := Heap.allocate_thin v.keep n.heap (.string content) n.current
  rcases result with e | (x | b | content | _)
  · rfl
  · rfl
  · rfl
  · simp only [resultValue, newString, thin]
    rw [show Object.string content = (Object.string content).thin v.keep from rfl, hstring]
    rfl
  · rfl

/-- A machine that is woken has returned. -/
theorem deliver_of_sleeping (hstate : n.state = .sleeping) (result : Except NativeError NativeOutput) :
    n.deliver result = ({ (resultValue n result).2 with
      stack := (resultValue n result).1 :: (resultValue n result).2.stack, state := .running } : Machine).returned := by
  have hkept : (resultValue n result).2.state = .sleeping := by
    rcases result with e | (x | b | content | _) <;> exact hstate
  unfold deliver
  simp only [returned, doReturn, run_modify]
  cases (resultValue n result).2.frames with
  | nil => rfl
  | cons f fs => simp [hkept]

/-- **A result that both machines get.** -/
theorem Even.deliver (he : Even p image m n) (hu : p.Untails image.program) (hstate : m.state = .sleeping)
    (result : Except NativeError NativeOutput) : Matches p image (m.deliver result) (n.deliver result) := by
  cases he with
  | ended hm _ _ =>
    rw [hm] at hstate
    cases hstate
  | level steps peakDepth himage hm =>
    subst hm
    have hstate' : n.state = .sleeping := hstate
    have hkept : (resultValue n result).2.image = image := by
      rcases result with e | (x | b | content | _) <;> exact himage
    rw [deliver_of_sleeping hstate, deliver_of_sleeping hstate', resultValue_thin]
    exact matches_returned (n := { (resultValue n result).2 with
      stack := (resultValue n result).1 :: (resultValue n result).2.stack, state := .running }) hu hkept rfl _ _

end Machine

/-! ### Runs -/

namespace Process

/-- **Processes beside each other** have written the same and failed in the same way; `R` relates the machines. -/
structure Beside (R : Machine → Machine → Prop) (a b : Process) : Prop where
  machine : R a.machine b.machine
  output : a.output = b.output
  error : a.error = b.error

variable {settings : Settings} {registry : Registry} {p : Program} {image : Image} {a b : Process} {now : Moment}

theorem next_of_awake (h : a.machine.state ≠ .sleeping) : next settings registry a now =
    { machine := (a.machine.step (hostAt settings registry now)).machine
      output := a.output ++ (a.machine.step (hostAt settings registry now)).written
      error := a.error <|> (a.machine.step (hostAt settings registry now)).error } := by
  unfold next
  split
  · contradiction
  · rfl

/-- A step that writes nothing and does not fail. -/
theorem next_of_step {n : Machine} (hstate : b.machine.state = .running)
    (hstep : b.machine.step (hostAt settings registry now) = { machine := n }) :
    next settings registry b now = { b with machine := n } := by
  rw [next_of_awake (by rw [hstate]; simp), hstep]
  obtain ⟨machine, output, error⟩ := b
  cases error <;> simp

section Steps

variable (hu : p.Untails image.program) (hblind : registry.Blind)
  (hl : Machine.Unlimited (hostAt settings registry now))

include hu hl

include hblind in
/-- **A moment of both** where they are level. -/
theorem Beside.next (h : Beside (Machine.Even p image) a b) :
    Beside (Machine.Matches p image) (next settings registry a now) (next settings registry b now) := by
  have hstates : a.machine.state = b.machine.state := by
    cases h.machine with
    | level steps peakDepth himage hm => rw [hm]; rfl
    | ended hm hn _ => rw [hm, hn]
  by_cases hstate : a.machine.state = .sleeping
  · have hpending : Machine.Even p image { a.machine with pending := none } { b.machine with pending := none } := by
      cases h.machine with
      | level steps peakDepth himage hm => exact .level steps peakDepth himage (by rw [hm]; rfl)
      | ended hm hn hstack => exact .ended hm hn hstack
    unfold Process.next
    rw [← hstates, hstate]
    exact ⟨hpending.deliver hu hstate now.result, h.output, h.error⟩
  · obtain ⟨hmachine, hwritten, herror⟩ := h.machine.step hu hblind hl
    rw [next_of_awake hstate, next_of_awake (hstates ▸ hstate)]
    exact ⟨hmachine, by rw [h.output, hwritten], by rw [h.error, herror]⟩

variable (hlabels : LabelTable.ofCode image.program.code = .ok image.labels)

include hlabels

/-- A moment of the process that is behind. -/
theorem Beside.next_behind (h : Beside (Machine.Ahead p image) a b) :
    Beside (Machine.Matches p image) a (Process.next settings registry b now) := by
  obtain ⟨n, hstep, hn⟩ := h.machine.step hu hl hlabels
  rw [next_of_step h.machine.state hstep]
  exact ⟨hn, h.output, h.error⟩

omit hu in
/-- The process that is behind comes to its return. -/
theorem Beside.exists_return (h : Beside (Machine.Ahead p image) a b) :
    ∃ k b', (List.replicate k now).foldl (Process.next settings registry) b = b' ∧
      Beside (Machine.Ahead p image) a b' ∧ image.program.code[b'.machine.pc]? = some (plain .ret) ∧
      b'.machine.frames = b.machine.frames := by
  have hexits := h.machine.exits
  generalize hpc : b.machine.pc = pc at hexits
  -- along the way nothing changes but the place
  have hmove {b : Process} (h : Beside (Machine.Ahead p image) a b) {pc : Nat} (hexits : Exits image.program.code pc)
      (hstep : b.machine.step (hostAt settings registry now) =
        { machine := { b.machine with steps := b.machine.steps + 1, pc } }) :
      ∃ b', Process.next settings registry b now = b' ∧ Beside (Machine.Ahead p image) a b' ∧ b'.machine.pc = pc ∧
        b'.machine.frames = b.machine.frames :=
    ⟨_, next_of_step h.machine.state hstep, ⟨h.machine.moved hexits _, h.output, h.error⟩, rfl, rfl⟩
  induction hexits generalizing b with
  | ret hi => exact ⟨0, b, rfl, h, by rw [hpc, hi], rfl⟩
  | @label pc name hi hnext ih =>
    have hi' : b.machine.image.program.code[b.machine.pc]? = some (.label name) := by rw [h.machine.runs, hpc, hi]
    obtain ⟨b', hb', h', hpc', hframes⟩ := hmove h hnext (hpc ▸ Machine.step_of_run hl h.machine.state hi' rfl rfl)
    obtain ⟨k, b'', hrun, h'', hi'', hframes'⟩ := ih h' hpc'
    refine ⟨k + 1, b'', ?_, h'', hi'', hframes'.trans hframes⟩
    rw [List.replicate_succ, List.foldl_cons, hb', hrun]
  | @goto pc place name hi hplace hnext ih =>
    have himage := h.machine.runs
    have hi' : b.machine.image.program.code[b.machine.pc]? = some (toLabel .goto name) := by rw [himage, hpc, hi]
    obtain ⟨b', hb', h', hpc', hframes⟩ := hmove h hnext
      (Machine.step_goto hl h.machine.state (himage ▸ hlabels) hi' (himage ▸ hplace))
    obtain ⟨k, b'', hrun, h'', hi'', hframes'⟩ := ih h' hpc'
    refine ⟨k + 1, b'', ?_, h'', hi'', hframes'.trans hframes⟩
    rw [List.replicate_succ, List.foldl_cons, hb', hrun]

/-- The process that is behind returns: then it has caught up, or one frame is gone. -/
theorem Beside.returns (h : Beside (Machine.Ahead p image) a b) :
    ∃ k b', (List.replicate k now).foldl (Process.next settings registry) b = b' ∧
      (Beside (Machine.Even p image) a b' ∨
        Beside (Machine.Ahead p image) a b' ∧ ∃ f, b.machine.frames = f :: b'.machine.frames) := by
  obtain ⟨k, b', hrun, h', hi, hframes⟩ := h.exists_return hl hlabels
  have hi' : b'.machine.image.program.code[b'.machine.pc]? = some (plain .ret) := by rw [h'.machine.runs, hi]
  have hstep : b'.machine.step (hostAt settings registry now) =
      { machine := ({ b'.machine with steps := b'.machine.steps + 1 } : Machine).returned } :=
    Machine.step_of_run hl h'.machine.state hi' rfl rfl
  refine ⟨k + 1, { b' with machine := ({ b'.machine with steps := b'.machine.steps + 1 } : Machine).returned }, ?_, ?_⟩
  · rw [List.replicate_succ', List.foldl_append, hrun]
    exact next_of_step h'.machine.state hstep
  rcases h'.machine.returns hu (b'.machine.steps + 1) with heven | hahead
  · exact Or.inl ⟨heven, h'.output, h'.error⟩
  · refine Or.inr ⟨⟨hahead, h'.output, h'.error⟩, ?_⟩
    rw [← hframes]
    exact Machine.frames_of_returned hahead.state

/-- **The process that is behind catches up.** -/
theorem Beside.catchUp (h : Beside (Machine.Ahead p image) a b) :
    ∃ k, Beside (Machine.Even p image) a ((List.replicate k now).foldl (Process.next settings registry) b) := by
  -- each return takes a frame away
  induction hframes : b.machine.frames generalizing b with
  | nil =>
    obtain ⟨k, b', hrun, heven | ⟨-, f, hf⟩⟩ := h.returns hu hl hlabels
    · exact ⟨k, hrun ▸ heven⟩
    · rw [hframes] at hf
      cases hf
  | cons f fs ih =>
    obtain ⟨k, b', hrun, heven | ⟨hahead, g, hg⟩⟩ := h.returns hu hl hlabels
    · exact ⟨k, hrun ▸ heven⟩
    · obtain ⟨l, heven⟩ := ih hahead (by rw [hframes] at hg; cases hg; rfl)
      refine ⟨k + l, ?_⟩
      rw [List.replicate_add, List.foldl_append, hrun]
      exact heven

end Steps

/-! ### What can be seen of a run -/

/-- **A run that can be seen in another**: what the one has written at some time, the other has written at some time,
and where the one ends, the other ends in the same state, for the same reason and with the same operands. -/
def SeenIn (a b : Nat → Process) : Prop :=
  ∀ k, ∃ l, (b l).output = (a k).output ∧ ((a k).machine.state.isTerminated →
    (b l).machine.state = (a k).machine.state ∧ (b l).error = (a k).error ∧ (b l).machine.stack = (a k).machine.stack)

/-- A process after some moments that are all the same. -/
def after (settings : Settings) (registry : Registry) (pid : Nat) (image : Image) (now : Moment) (k : Nat) : Process :=
  run settings registry pid image (List.replicate k now)

theorem after_add (settings : Settings) (registry : Registry) (pid : Nat) (image : Image) (now : Moment) (k l : Nat) :
    after settings registry pid image now (k + l) =
      (List.replicate l now).foldl (next settings registry) (after settings registry pid image now k) := by
  rw [after, run, List.replicate_add, List.foldl_append]
  rfl

/-- Processes that are level show the same. -/
theorem Beside.shows (h : Beside (Machine.Even p image) a b) : b.machine.state = a.machine.state ∧
    b.error = a.error ∧ b.machine.stack = a.machine.stack := by
  cases h.machine with
  | level steps peakDepth himage hm => exact ⟨by rw [hm]; rfl, h.error.symm, by rw [hm]; rfl⟩
  | ended hm hn hstack => exact ⟨hn.trans hm.symm, h.error.symm, hstack.symm⟩

section Runs

variable {pid : Nat} {image' : Image} (hu : p.Untails image.program) (hblind : registry.Blind)
  (hl : Machine.Unlimited (hostAt settings registry now))
  (hstart : Beside (Machine.Even p image) (start settings pid image') (start settings pid image))

include hu hblind hl hstart

/-- **The run without tail calls keeps up** with the run with them. -/
theorem exists_even (hlabels : LabelTable.ofCode image.program.code = .ok image.labels) (k : Nat) :
    ∃ l, Beside (Machine.Even p image) (after settings registry pid image' now k)
      (after settings registry pid image now l) := by
  induction k with
  | zero => exact ⟨0, hstart⟩
  | succ k ih =>
    obtain ⟨l, heven⟩ := ih
    have hnext : Beside (Machine.Matches p image) (after settings registry pid image' now (k + 1))
        (after settings registry pid image now (l + 1)) := by
      rw [after_add, after_add]
      exact heven.next hu hblind hl
    rcases hnext.machine with hmachine | hmachine
    · exact ⟨l + 1, hmachine, hnext.output, hnext.error⟩
    · have hahead : Beside (Machine.Ahead p image) _ _ := ⟨hmachine, hnext.output, hnext.error⟩
      obtain ⟨j, hj⟩ := hahead.catchUp hu hl hlabels
      rw [← after_add] at hj
      exact ⟨l + 1 + j, hj⟩

/-- **Every moment of the run without tail calls** has its place beside the run with them. -/
theorem exists_matches (hlabels : LabelTable.ofCode image.program.code = .ok image.labels) (l : Nat) :
    ∃ k, Beside (Machine.Matches p image) (after settings registry pid image' now k)
      (after settings registry pid image now l) := by
  induction l with
  | zero => exact ⟨0, Or.inl hstart.machine, hstart.output, hstart.error⟩
  | succ l ih =>
    obtain ⟨k, hmachine | hmachine, houtput, herror⟩ := ih
    · refine ⟨k + 1, ?_⟩
      have heven : Beside (Machine.Even p image) _ _ := ⟨hmachine, houtput, herror⟩
      rw [after_add, after_add]
      exact heven.next hu hblind hl
    · refine ⟨k, ?_⟩
      have hahead : Beside (Machine.Ahead p image) _ _ := ⟨hmachine, houtput, herror⟩
      rw [after_add]
      exact hahead.next_behind hu hl hlabels

end Runs

end Process

/-- Constants have no frames. -/
theorem Heap.thin_ofConstants (keep : Frame → Bool) (constants : Table Handle Constant) :
    (Heap.ofConstants constants).thin keep = Heap.ofConstants constants := by
  -- each constant is placed in a heap without frames, and brings none
  have hplace (H : Heap) (h : Handle) (c : Constant) (hH : H.thin keep = H) :
      (H.placeConstant h c).thin keep = H.placeConstant h c := by
    have hc : (Object.ofConstant c).thin keep = Object.ofConstant c := by cases c <;> rfl
    have hslots : H.slots.map (Option.map (Slot.thin keep)) = H.slots := congrArg Heap.slots hH
    simp [Heap.thin, placeConstant, Array.map_setIfInBounds, hslots, Slot.thin, hc]
  unfold Heap.ofConstants
  generalize hH : ({} : Heap) = H
  have hempty : H.thin keep = H := by subst hH; simp [Heap.thin]
  clear hH
  induction constants.entries generalizing H with
  | nil => exact hempty
  | cons e entries ih => exact ih _ (hplace H e.1 e.2 hempty)

namespace Process

/-- **Tail calls cannot be seen.** Take a source that compiles and has no tail call in `and` or `or`, and native
functions that do not look at frames. The program with tail calls and the program without run, with no limit on steps
and no collection, so that each shows what the other shows: they write the same, and both run forever or both end, in
the same state, for the same reason at the same place, and with the same operands. -/
theorem run_tail_calls_invisible {source : String} {t : Tree} {p : Program}
    (ht : (Tree.parse source >>= Tree.analyse) = .ok t) (hp : Program.ofTree t = .ok p)
    (hfree : ∀ h, t.tailCalls.contains h = true → ¬t.Connects h) {registry : Registry} (hblind : registry.Blind) :
    ∃ q image image', Program.ofTree t.unmarked = .ok q ∧ Image.ofProgram p = .ok image ∧
      Image.ofProgram q = .ok image' ∧
      ∀ (settings : Settings) (pid : Nat) (now : Moment), settings.maxSteps = none → settings.gcThreshold = none →
        SeenIn (after settings registry pid image now) (after settings registry pid image' now) ∧
        SeenIn (after settings registry pid image' now) (after settings registry pid image now) := by
  obtain ⟨roots, ha⟩ := Tree.exists_analysed ht
  obtain ⟨blocks, hcompiled⟩ := ha.compiled_ofTree hp
  obtain ⟨labels, hlabels⟩ := hcompiled.labels
  -- the same tree without its marks lowers to the same code, up to the kind of the calls
  obtain ⟨q, hq, hu⟩ := ha.untails hfree hp
  have hlabels' : LabelTable.ofCode q.code = .ok labels := hu.labels ▸ hlabels
  refine ⟨q, ⟨p, labels⟩, ⟨q, labels⟩, hq, by rw [Image.ofProgram, hlabels], by rw [Image.ofProgram, hlabels'],
    fun settings pid now hsteps hcollection => ?_⟩
  have hl : Machine.Unlimited (hostAt settings registry now) := ⟨hsteps, hcollection⟩
  -- both start with the same machine: no frame has been pushed that thinning could remove
  have hstart : Beside (Machine.Even p ⟨q, labels⟩) (start settings pid ⟨p, labels⟩) (start settings pid ⟨q, labels⟩) := by
    refine ⟨.level 0 0 rfl ?_, rfl, rfl⟩
    unfold start Machine.start Machine.thin
    dsimp only
    rw [Heap.thin_ofConstants, hu.rest]
    rfl
  refine ⟨fun k => ?_, fun l => ?_⟩
  · -- a step with tail calls is followed by as many without them as it takes to be level again
    obtain ⟨l, heven⟩ := exists_even hu hblind hl hstart hlabels' k
    exact ⟨l, heven.output.symm, fun _ => heven.shows⟩
  · -- the other way round, the run without them may be ahead by returns, but then it has not ended
    obtain ⟨k, hmachine, houtput, herror⟩ := exists_matches hu hblind hl hstart hlabels' l
    refine ⟨k, houtput, fun hterminated => ?_⟩
    rcases hmachine with heven | hahead
    · obtain ⟨hstate, herror', hstack⟩ := Beside.shows ⟨heven, houtput, herror⟩
      exact ⟨hstate.symm, herror'.symm, hstack.symm⟩
    · rw [hahead.state] at hterminated
      cases hterminated

/-- A procedure that calls itself in tail position, with and without tail calls. -/
theorem run_tail_calls_invisible_loop :
    ∃ t p q image image' now,
      (Tree.parse "(define (f x) (if x (f #f) '())) (display (f #t)) (f #f)" >>= Tree.analyse) = .ok t ∧
      Program.ofTree t = .ok p ∧ Program.ofTree t.unmarked = .ok q ∧ p.code ≠ q.code ∧
      Image.ofProgram p = .ok image ∧ Image.ofProgram q = .ok image' ∧
      SeenIn (after { gcThreshold := none } Registry.builtins 0 image now)
        (after { gcThreshold := none } Registry.builtins 0 image' now) ∧
      SeenIn (after { gcThreshold := none } Registry.builtins 0 image' now)
        (after { gcThreshold := none } Registry.builtins 0 image now) := by
  -- both programs are compiled; nothing is run
  have hcheck : (do
      let t ← (Tree.parse "(define (f x) (if x (f #f) '())) (display (f #t)) (f #f)" >>= Tree.analyse).toOption
      let p ← (Program.ofTree t).toOption
      let q ← (Program.ofTree t.unmarked).toOption
      return decide (p.code ≠ q.code ∧ ∀ h ∈ t.tailCalls.keys, t.mayConnect 4 h = false)) = some true := by
    decide +kernel
  cases ht : Tree.parse "(define (f x) (if x (f #f) '())) (display (f #t)) (f #f)" >>= Tree.analyse with
  | error e =>
    rw [ht] at hcheck
    cases hcheck
  | ok t =>
    rw [ht] at hcheck
    obtain ⟨p, hp, q, hq, hcode, hmarks⟩ : ∃ p, Program.ofTree t = .ok p ∧ ∃ q, Program.ofTree t.unmarked = .ok q ∧
        p.code ≠ q.code ∧ ∀ h ∈ t.tailCalls.keys, t.mayConnect 4 h = false := by
      cases hp : Program.ofTree t with
      | error e => simp [Except.toOption, hp] at hcheck
      | ok p =>
        cases hq : Program.ofTree t.unmarked with
        | error e => simp [Except.toOption, hp, hq] at hcheck
        | ok q => exact ⟨p, rfl, q, rfl, by simpa [Except.toOption, hp, hq] using hcheck⟩
    -- no marked call is a clause of a connective
    have hfree : ∀ h, t.tailCalls.contains h = true → ¬t.Connects h := by
      intro h hmark hconnects
      have hnot := hmarks h (Table.contains_iff_mem_keys.mp hmark)
      rw [hconnects.mayConnect] at hnot
      cases hnot
    obtain ⟨q', image, image', hq', himage, himage', hruns⟩ :=
      run_tail_calls_invisible ht hp hfree Registry.blind_builtins
    cases hq.symm.trans hq'
    exact ⟨t, p, q, image, image', ⟨{}, .ok .nothing⟩, rfl, hp, hq, hcode, himage, himage', hruns _ _ _ rfl rfl⟩

end Process

end SchemeMachine
