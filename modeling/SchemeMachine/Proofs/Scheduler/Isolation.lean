import SchemeMachine.Proofs.Natives
import SchemeMachine.Proofs.Scheduler.Custody

/-!
# Machines do not disturb each other

Machines that take turns share nothing but the place where they write. As long as natives answer at once and whoever
asks, what a machine does among others is what it does alone: it ends with the same report but for its number, and it
writes the same texts in the same order.

* `Scheduler.turns` are the turns of a run: whose turn it was, what was written and what was forked. What one machine
  writes is `Scheduler.writtenBy`, and the machines are numbered as `Scheduler.tick` takes them on.
* `Machine.Ends` is the whole life of a machine with nothing around it: the texts it writes, and its report.
* `Scheduler.ends_of_report` finds such a life behind every report, `Scheduler.report_of_ends` a report at the end of
  every life, since everyone in the queue gets a turn.
* `Scheduler.run_isolated` puts both together.
-/

namespace SchemeMachine

/-! ### Natives that answer at once -/

/-- The built-in libraries but for the files. -/
def Registry.synchronous : Registry := Table.ofList [("Math", math), ("String", strings)]

theorem Except.eq_ok_of_toOption {ε α : Type} {x : Except ε α} {a : α} (h : x.toOption = some a) : x = .ok a := by
  cases x with
  | error e => cases h
  | ok b =>
    cases h
    rfl

/-- **All built-in functions but those of files answer at once, and whoever asks.** -/
theorem Registry.independent_synchronous : synchronous.Independent := by
  intro library function f h heap call
  obtain ⟨functions, hlibrary, hfunction⟩ := Option.bind_eq_some_iff.mp h
  have hlibrary := Table.find?_ofList_mem hlibrary
  simp only [List.mem_cons, Prod.mk.injEq, List.not_mem_nil, or_false] at hlibrary
  -- an answer that is given after something that may fail
  have hgiven {α : Type} (x : Except NativeError α) (answer : α → NativeAnswer)
      (hanswer : ∀ a job, answer a ≠ .pending job) (job : Job) : (x >>= fun a => pure (answer a)) ≠ .ok (.pending job) := by
    cases x with
    | error e => exact fun hx => by cases hx
    | ok a => exact fun hx => hanswer a job (Except.ok.inj hx)
  rcases hlibrary with ⟨-, rfl⟩ | ⟨-, rfl⟩
  · have hfunction := Table.find?_ofList_mem hfunction
    simp only [List.mem_cons, Prod.mk.injEq, List.not_mem_nil, or_false] at hfunction
    rcases hfunction with ⟨-, rfl⟩ | ⟨-, rfl⟩ | ⟨-, rfl⟩ | ⟨-, rfl⟩ | ⟨-, rfl⟩ | ⟨-, rfl⟩ | ⟨-, rfl⟩
    all_goals exact ⟨hgiven _ _ (by simp), fun _ => rfl⟩
  · have hfunction := Table.find?_ofList_mem hfunction
    simp only [List.mem_cons, Prod.mk.injEq, List.not_mem_nil, or_false] at hfunction
    rcases hfunction with ⟨-, rfl⟩ | ⟨-, rfl⟩ | ⟨-, rfl⟩ | ⟨-, rfl⟩ | ⟨-, rfl⟩
    · exact ⟨hgiven _ _ (by simp), fun _ => rfl⟩
    · refine ⟨fun job => ?_, fun _ => rfl⟩
      simp only [stringConcat]
      cases call.string heap 0 with
      | error e => exact fun h => by cases h
      | ok text => exact hgiven (call.string heap 1) (fun other => .newString (text ++ other)) (by simp) job
    · exact ⟨hgiven _ _ (by simp), fun _ => rfl⟩
    · exact ⟨hgiven _ _ (by simp), fun _ => rfl⟩
    · refine ⟨fun job => ?_, fun _ => rfl⟩
      simp only [stringFromNumber]
      split <;> simp

/-! ### A life of its own -/

namespace Machine

/-- Whether a machine is over after a step. -/
def Outcome.isOver (o : Outcome) : Bool := o.error.isSome || o.machine.state.isTerminated

/-- The report on a machine that is over. -/
def Outcome.report (o : Outcome) : Report :=
  ⟨o.machine.pid, if o.error.isSome then .failed else o.machine.state, o.machine.steps, o.machine.peakDepth,
    o.error.map (·.message)⟩

/-- A machine after a step, what it forked having been taken over. -/
def Outcome.rest (o : Outcome) : Machine := { o.machine with forked := [] }

/-- **The life of a machine** from some point on: the texts that it writes, step by step, and its report. -/
inductive Ends (host : Host) : Machine → List String → Report → Prop
  | ended {m : Machine} (h : (m.step host).isOver = true) :
      Ends host m [(m.step host).written] (m.step host).report
  | goes {m : Machine} {texts : List String} {r : Report} (h : (m.step host).isOver = false)
      (hrest : Ends host (m.step host).rest texts r) : Ends host m ((m.step host).written :: texts) r

/-- **A machine lives the same life under every number.** -/
theorem Ends.named {host : Host} (hr : host.registry.Independent) {m : Machine} {texts : List String} {r : Report}
    (h : Ends host m texts r) (who : Identity) : Ends host (m.named who) texts { r with pid := who.pid } := by
  induction h with
  | @ended m h =>
    have hstep : (m.named who).step host = _ := step_named (Or.inl hr)
    have hlast : ((m.named who).step host).isOver = true →
        Ends host (m.named who) [((m.named who).step host).written] ((m.named who).step host).report := .ended
    rw [hstep] at hlast
    exact hlast h
  | @goes m texts r h _ ih =>
    have hstep : (m.named who).step host = _ := step_named (Or.inl hr)
    have hnext : ((m.named who).step host).isOver = false →
        Ends host ((m.named who).step host).rest texts { r with pid := who.pid } →
          Ends host (m.named who) (((m.named who).step host).written :: texts) { r with pid := who.pid } := .goes
    rw [hstep] at hnext
    exact hnext h ih

end Machine

namespace Scheduler

open scoped List
open Machine (Ends)

/-! ### The turns of a run -/

/-- **A turn**: whose it was, what was written, and what was forked. -/
structure Turn where
  pid : Nat
  written : String
  forked : List Image

/-- The turn that the next tick gives. -/
def turn? (s : Scheduler) : Option Turn :=
  s.settle.wakeAll.queue.head?.map fun m =>
    let outcome := m.step s.settle.wakeAll.host
    ⟨m.pid, outcome.written, outcome.machine.forked⟩

/-- **The turns of a run** of `fuel` ticks at most. -/
def turns : (fuel : Nat) → Scheduler → List Turn
  | 0, _ => []
  | fuel + 1, s => if s.live = 0 then [] else s.turn?.toList ++ turns fuel s.tick

/-- The texts that one machine writes, turn by turn. -/
def writtenBy (pid : Nat) (ts : List Turn) : List String := (ts.filter (·.pid = pid)).map (·.written)

/-- The programs that are forked, in the order in which they are taken on. -/
def forkedIn (ts : List Turn) : List Program := ts.flatMap fun t => t.forked.map (·.program)

/-- Add programs one after the other. -/
def spawnAll : List Program → Scheduler → Except Fault Scheduler
  | [], s => .ok s
  | p :: ps, s => do
    let (_, s) ← s.spawn p
    spawnAll ps s

/-- Machines for images, numbered in order. -/
def started (s : Scheduler) (images : List Image) : List Machine :=
  images.mapIdx fun i image => Machine.start s.host.settings (s.nextPid + i) image

theorem foldl_enrol (images : List Image) (s : Scheduler) :
    images.foldl enrol s =
      { s with queue := s.queue ++ s.started images, nextPid := s.nextPid + images.length } := by
  induction images generalizing s with
  | nil => simp [started]
  | cons image images ih =>
    rw [List.foldl_cons, ih]
    simp only [enrol, started, List.mapIdx_cons, List.append_assoc, List.length_cons, Nat.add_zero,
      List.singleton_append]
    have hnext : s.nextPid + 1 + images.length = s.nextPid + (images.length + 1) := by omega
    have hpid (i : Nat) : s.nextPid + 1 + i = s.nextPid + (i + 1) := by omega
    simp only [hnext, hpid]

/-! ### Schedulers on which no machine sleeps -/

/-- **All machines are awake**, and nothing they have forked is left with them. -/
structure Awake (s : Scheduler) : Prop where
  accounts : Accounts [] [] s
  sleeping : s.sleeping.entries = []
  fresh : ∀ m ∈ s.queue, m.forked = []

namespace Awake

variable {s : Scheduler}

theorem start (host : Host) : Awake { host } := ⟨.start host, rfl, fun _ h => by cases h⟩

theorem enrol (h : Awake s) (image : Image) : Awake (s.enrol image) := by
  refine ⟨h.accounts.enrol image, h.sleeping, fun m hm => ?_⟩
  rcases List.mem_append.mp hm with hm | hm
  · exact h.fresh m hm
  · rw [List.mem_singleton.mp hm]
    rfl

/-- Nothing is waited for. -/
theorem waiting (h : Awake s) : s.jobs = [] ∧ s.results = [] := by
  have hkeys : s.sleeping.keys = [] := by
    rw [Table.keys, h.sleeping]
    rfl
  have hwaiting := h.accounts.waiting
  rw [hkeys, List.perm_nil, List.append_eq_nil_iff, List.map_eq_nil_iff, List.map_eq_nil_iff] at hwaiting
  exact hwaiting

/-- A tick is a turn. -/
theorem settle_wakeAll (h : Awake s) : s.settle.wakeAll = s := by
  obtain ⟨hjobs, hresults⟩ := h.waiting
  have hsettle : s.settle = s := by
    rw [settle, hjobs]
    rfl
  rw [hsettle, wakeAll, hresults]
  obtain ⟨host, queue, sleeping, jobs, results, nextPid, output, reports⟩ := s
  cases hresults
  rfl

theorem live (h : Awake s) : s.live = s.queue.length := by
  rw [Scheduler.live, Table.size, h.sleeping]
  rfl

/-- The numbers in the queue are different, and all have been handed out. -/
theorem queue_nodup (h : Awake s) : (s.queue.map (·.pid)).Nodup :=
  h.accounts.nodup.sublist ((List.sublist_append_left _ _).trans (List.sublist_append_left _ _))

theorem pid_lt (h : Awake s) {m : Machine} (hm : m ∈ s.queue) : m.pid < s.nextPid := by
  have hmem : m.pid ∈ List.range' 1 (s.nextPid - 1) := by
    refine h.accounts.numbers.subset ?_
    exact List.mem_append_right _ (List.mem_append_left _ (List.mem_append_left _ (List.mem_map.mpr ⟨m, hm, rfl⟩)))
  have := List.mem_range'_1.mp hmem
  omega

variable {m : Machine} {queue : List Machine}

/-- The turn that comes next. -/
theorem turns_succ (h : Awake s) (hqueue : s.queue = m :: queue) (n : Nat) :
    s.turns (n + 1) = ⟨m.pid, (m.step s.host).written, (m.step s.host).machine.forked⟩ :: s.tick.turns n := by
  have hlive : s.live ≠ 0 := by
    rw [h.live, hqueue]
    exact Nat.succ_ne_zero _
  rw [turns, if_neg hlive, turn?, h.settle_wakeAll, hqueue]
  rfl

theorem runFor_succ (h : Awake s) (hqueue : s.queue = m :: queue) (n : Nat) :
    runFor (n + 1) s = runFor n s.tick := by
  have hlive : s.live ≠ 0 := by
    rw [h.live, hqueue]
    exact Nat.succ_ne_zero _
  rw [runFor, if_neg hlive]

/-- Without machines nothing happens. -/
theorem ended (h : Awake s) (hqueue : s.queue = []) (n : Nat) : runFor n s = s ∧ s.turns n = [] := by
  have hlive : s.live = 0 := by
    rw [h.live, hqueue]
    rfl
  cases n with
  | zero => exact ⟨rfl, rfl⟩
  | succ n => exact ⟨by rw [runFor, if_pos hlive], by rw [turns, if_pos hlive]⟩

variable (hr : s.host.registry.Independent)
include hr

/-- **What a tick does**: the first machine takes a step and goes to the end of the queue or is reported; what it
forked follows. -/
theorem tick_eq (h : Awake s) (hqueue : s.queue = m :: queue) :
    s.tick =
      { s with
        queue := queue ++ (if (m.step s.host).isOver then [] else [(m.step s.host).rest])
          ++ s.started (m.step s.host).machine.forked
        nextPid := s.nextPid + (m.step s.host).machine.forked.length
        output := s.output ++ (m.step s.host).written
        reports := s.reports ++ if (m.step s.host).isOver then [(m.step s.host).report] else [] } := by
  have hm := h.accounts.queued m (hqueue ▸ List.mem_cons_self)
  obtain ⟨-, hfailed⟩ := Machine.persists_step s.host hm.2
  have hawake := Machine.step_awake hr hm.1
  rw [tick, h.settle_wakeAll, turn, hqueue]
  dsimp only
  rw [foldl_enrol]
  -- where the machine goes depends on its error and its state
  cases herror : (m.step s.host).error with
  | some e =>
    simp only [place, Option.isSome_some, if_true, retire, Machine.Outcome.isOver, Machine.Outcome.report, herror,
      Bool.true_or, List.append_nil]
    rfl
  | none =>
    cases hstate : (m.step s.host).machine.state with
    | running =>
      simp only [place, Option.isSome_none, Bool.false_eq_true, if_false, hstate, Machine.Outcome.isOver, herror,
        RunState.isTerminated, Bool.or_self, Machine.Outcome.rest, List.append_nil]
      rfl
    | suspended =>
      simp only [place, Option.isSome_none, Bool.false_eq_true, if_false, hstate, Machine.Outcome.isOver, herror,
        RunState.isTerminated, Bool.or_self, Machine.Outcome.rest, List.append_nil]
      rfl
    | sleeping => exact absurd hstate hawake
    | failed => exact absurd hstate (hfailed herror)
    | stopped =>
      simp only [place, Option.isSome_none, Bool.false_eq_true, if_false, hstate, Machine.Outcome.isOver, herror,
        RunState.isTerminated, Bool.or_true, if_true, retire, Machine.Outcome.report, List.append_nil]
      rfl

theorem tick (h : Awake s) : Awake s.tick := by
  cases hqueue : s.queue with
  | nil =>
    rw [Scheduler.tick, h.settle_wakeAll, turn, hqueue]
    exact h
  | cons m queue =>
    have haccounts : Accounts [] [] s.tick := by
      rw [Scheduler.tick, h.settle_wakeAll]
      exact h.accounts.turn
    rw [tick_eq hr h hqueue] at haccounts ⊢
    refine ⟨haccounts, h.sleeping, fun n hn => ?_⟩
    rcases List.mem_append.mp hn with hn | hn
    · rcases List.mem_append.mp hn with hn | hn
      · exact h.fresh n (hqueue ▸ List.mem_cons_of_mem m hn)
      · split at hn
        · cases hn
        · rw [List.mem_singleton.mp hn]
          rfl
    · obtain ⟨i, hi, rfl⟩ := List.mem_mapIdx.mp hn
      rfl

end Awake

variable {s : Scheduler}

@[simp] theorem writtenBy_nil (pid : Nat) : writtenBy pid [] = [] := rfl

theorem writtenBy_cons_self {pid : Nat} {written : String} {forked : List Image} {ts : List Turn} :
    writtenBy pid (⟨pid, written, forked⟩ :: ts) = written :: writtenBy pid ts := by
  simp [writtenBy]

theorem writtenBy_cons_of_ne {pid : Nat} {t : Turn} {ts : List Turn} (h : t.pid ≠ pid) :
    writtenBy pid (t :: ts) = writtenBy pid ts := by
  simp [writtenBy, h]

/-- What runs is written down in the order of the turns. -/
theorem output_runFor (hr : s.host.registry.Independent) (h : Awake s) (n : Nat) :
    (runFor n s).output = s.output ++ String.join ((s.turns n).map (·.written)) := by
  induction n generalizing s with
  | zero => simp [runFor, turns]
  | succ n ih =>
    cases hqueue : s.queue with
    | nil => rw [(h.ended hqueue (n + 1)).1, (h.ended hqueue (n + 1)).2]; simp
    | cons m queue =>
      have htick := Awake.tick_eq hr h hqueue
      have hhost : s.tick.host = s.host := by rw [htick]
      rw [h.runFor_succ hqueue, h.turns_succ hqueue, ih (hhost ▸ hr) (Awake.tick hr h)]
      rw [List.map_cons, show s.tick.output = s.output ++ (m.step s.host).written by rw [htick]]
      simp [String.append_assoc]

/-- Only machines in the queue, and those still to come, take turns. -/
theorem writtenBy_of_gone (hr : s.host.registry.Independent) (h : Awake s) {pid : Nat}
    (hgone : ∀ m ∈ s.queue, m.pid ≠ pid) (hlt : pid < s.nextPid) (n : Nat) : writtenBy pid (s.turns n) = [] := by
  induction n generalizing s with
  | zero => rfl
  | succ n ih =>
    cases hqueue : s.queue with
    | nil => rw [(h.ended hqueue (n + 1)).2]; rfl
    | cons m queue =>
      have htick := Awake.tick_eq hr h hqueue
      have hhost : s.tick.host = s.host := by rw [htick]
      have hm := h.accounts.queued m (hqueue ▸ List.mem_cons_self)
      have hpid : (m.step s.host).machine.pid = m.pid := (Machine.persists_step s.host hm.2).1.pid
      rw [h.turns_succ hqueue, writtenBy_cons_of_ne (hgone m (hqueue ▸ List.mem_cons_self))]
      -- the process has not come back: what is queued is the one that ran, or is new
      refine ih (hhost ▸ hr) (Awake.tick hr h) (fun k hk => ?_) ?_
      · rw [htick] at hk
        rcases List.mem_append.mp hk with hk | hk
        · rcases List.mem_append.mp hk with hk | hk
          · exact hgone k (hqueue ▸ List.mem_cons_of_mem m hk)
          · split at hk
            · cases hk
            · rw [List.mem_singleton.mp hk]
              exact fun heq => hgone m (hqueue ▸ List.mem_cons_self) (hpid.symm.trans heq)
        · obtain ⟨i, hi, rfl⟩ := List.mem_mapIdx.mp hk
          have : pid < s.nextPid + i := by omega
          exact fun heq => absurd heq (by simp only [Machine.start]; omega)
      · rw [htick]
        dsimp only
        omega

/-! ### From reports to lives -/

/-- The machine that a number belongs to, from its beginning or from now on: it is in the queue, or it will be forked. -/
def Knows (s : Scheduler) (n : Nat) (m : Machine) : Prop :=
  m ∈ s.queue ∨ ∃ i image, image.Sound ∧ (forkedIn (s.turns n))[i]? = some image.program ∧
    m = Machine.start s.host.settings (s.nextPid + i) image

/-- What is known after a tick is known before it, the machine whose turn it was apart. -/
theorem Awake.knows (hr : s.host.registry.Independent) (h : Awake s) {m m' : Machine} {queue : List Machine}
    (hqueue : s.queue = m :: queue) {n : Nat} (hknows : s.tick.Knows n m') :
    (m'.pid ≠ m.pid ∧ s.Knows (n + 1) m') ∨
      ((m.step s.host).isOver = false ∧ m' = (m.step s.host).rest) := by
  have htick := Awake.tick_eq hr h hqueue
  have hturns := h.turns_succ hqueue n
  have hm := h.pid_lt (hqueue ▸ List.mem_cons_self)
  have hsound : ∀ i ∈ (m.step s.host).machine.forked, i.Sound := by
    have hkeeps := (Machine.persists_step s.host (h.accounts.queued m (hqueue ▸ List.mem_cons_self)).2).1
    refine hkeeps.forked fun i hi => ?_
    rw [h.fresh m (hqueue ▸ List.mem_cons_self)] at hi
    cases hi
  have hforked : forkedIn (s.turns (n + 1)) =
      (m.step s.host).machine.forked.map (·.program) ++ forkedIn (s.tick.turns n) := by
    rw [hturns, forkedIn, List.flatMap_cons]
    rfl
  rcases hknows with hmem | ⟨i, image, himage, hi, rfl⟩
  · rw [htick] at hmem
    rcases List.mem_append.mp hmem with hmem | hmem
    · rcases List.mem_append.mp hmem with hmem | hmem
      · -- another machine of the queue
        have hnodup := h.queue_nodup
        rw [hqueue, List.map_cons, List.nodup_cons] at hnodup
        refine Or.inl ⟨fun heq => hnodup.1 (List.mem_map.mpr ⟨m', hmem, heq⟩), Or.inl ?_⟩
        exact hqueue ▸ List.mem_cons_of_mem m hmem
      · split at hmem
        · cases hmem
        · next hover => exact Or.inr ⟨Bool.eq_false_iff.mpr hover, List.mem_singleton.mp hmem⟩
    · -- a machine that has just been forked
      obtain ⟨i, hi, rfl⟩ := List.mem_mapIdx.mp hmem
      refine Or.inl ⟨?_, Or.inr ⟨i, _, hsound _ (List.getElem_mem hi), ?_, rfl⟩⟩
      · simp only [Machine.start]
        omega
      · rw [hforked, List.getElem?_append_left (by simpa using hi), List.getElem?_map,
          List.getElem?_eq_getElem hi]
        rfl
  · -- a machine that will be forked later
    have hnext : s.tick.nextPid = s.nextPid + (m.step s.host).machine.forked.length := by rw [htick]
    have hhost : s.tick.host = s.host := by rw [htick]
    refine Or.inl ⟨?_, Or.inr ⟨(m.step s.host).machine.forked.length + i, image, himage, ?_, ?_⟩⟩
    · simp only [Machine.start, hnext]
      omega
    · rw [hforked, List.getElem?_append_right (by simp)]
      simpa using hi
    · rw [hhost, hnext, Nat.add_assoc]

/-- A machine that is over takes no turn any more. -/
theorem Awake.gone (hr : s.host.registry.Independent) (h : Awake s) {m : Machine} {queue : List Machine}
    (hqueue : s.queue = m :: queue) (hover : (m.step s.host).isOver = true) (n : Nat) :
    writtenBy m.pid (s.tick.turns n) = [] := by
  have htick := Awake.tick_eq hr h hqueue
  have hhost : s.tick.host = s.host := by rw [htick]
  refine writtenBy_of_gone (hhost ▸ hr) (Awake.tick hr h) (fun k hk heq => ?_) ?_ n
  · rcases Awake.knows (n := 0) hr h hqueue (Or.inl hk) with ⟨hne, -⟩ | ⟨hgoes, -⟩
    · exact hne heq
    · rw [hover] at hgoes
      cases hgoes
  · have hlt := h.pid_lt (hqueue ▸ List.mem_cons_self)
    rw [htick]
    exact Nat.lt_of_lt_of_le hlt (Nat.le_add_right _ _)

/-- **Behind every report there is a life**: the machine of that number is known, and the texts that it writes are
those of its turns. -/
theorem ends_of_report (hr : s.host.registry.Independent) (h : Awake s) (n : Nat) {r : Report}
    (hreport : r ∈ (runFor n s).reports) :
    r ∈ s.reports ∨ ∃ m, s.Knows n m ∧ m.pid = r.pid ∧ Ends s.host m (writtenBy r.pid (s.turns n)) r := by
  induction n generalizing s with
  | zero => exact Or.inl hreport
  | succ n ih =>
    cases hqueue : s.queue with
    | nil =>
      rw [(h.ended hqueue (n + 1)).1] at hreport
      exact Or.inl hreport
    | cons m queue =>
      have htick := Awake.tick_eq hr h hqueue
      have hhost : s.tick.host = s.host := by rw [htick]
      have hturns := h.turns_succ hqueue n
      have hm : m ∈ s.queue := hqueue ▸ List.mem_cons_self
      have hpid : (m.step s.host).machine.pid = m.pid :=
        (Machine.persists_step s.host (h.accounts.queued m hm).2).1.pid
      rw [h.runFor_succ hqueue] at hreport
      rcases ih (hhost ▸ hr) (Awake.tick hr h) hreport with hold | ⟨m', hknows, hname, hends⟩
      · have hreports : s.tick.reports =
            s.reports ++ if (m.step s.host).isOver then [(m.step s.host).report] else [] := by rw [htick]
        rw [hreports] at hold
        rcases List.mem_append.mp hold with hold | hnew
        · exact Or.inl hold
        · split at hnew
          · next hover =>
            -- the machine is over with this turn, and takes no other
            obtain rfl := List.mem_singleton.mp hnew
            have hgone := Awake.gone hr h hqueue hover n
            refine Or.inr ⟨m, Or.inl hm, hpid.symm, ?_⟩
            have hlast := Ends.ended hover
            rw [show (m.step s.host).report.pid = m.pid from hpid, hturns, writtenBy_cons_self, hgone]
            exact hlast
          · cases hnew
      · rw [hhost] at hends
        rcases Awake.knows hr h hqueue hknows with ⟨hne, hknows⟩ | ⟨hgoes, rfl⟩
        · refine Or.inr ⟨m', hknows, hname, ?_⟩
          rw [hturns, writtenBy_cons_of_ne (hname ▸ hne.symm)]
          exact hends
        · have hself : r.pid = m.pid := hname.symm.trans hpid
          refine Or.inr ⟨m, Or.inl hm, hself.symm, ?_⟩
          rw [hself] at hends ⊢
          rw [hturns, writtenBy_cons_self]
          exact .goes hgoes hends

/-! ### From lives to reports -/

/-- A report is kept. -/
theorem reports_runFor (hr : s.host.registry.Independent) (h : Awake s) (n : Nat) :
    s.reports <+: (runFor n s).reports := by
  induction n generalizing s with
  | zero => exact List.prefix_rfl
  | succ n ih =>
    cases hqueue : s.queue with
    | nil =>
      rw [(h.ended hqueue (n + 1)).1]
    | cons m queue =>
      have htick := Awake.tick_eq hr h hqueue
      have hhost : s.tick.host = s.host := by rw [htick]
      rw [h.runFor_succ hqueue]
      refine List.IsPrefix.trans ?_ (ih (hhost ▸ hr) (Awake.tick hr h))
      rw [htick]
      exact List.prefix_append _ _

/-- **At the end of every life there is a report.** Everyone in the queue gets a turn, so after enough ticks a machine
that comes to an end has been reported, and has written all its texts. -/
theorem report_of_ends {host : Host} (hr : host.registry.Independent) {m : Machine} {texts : List String} {r : Report}
    (hends : Ends host m texts r) : ∀ {s : Scheduler}, s.host = host → Awake s → m ∈ s.queue →
      ∃ k, ∀ k' ≥ k, r ∈ (runFor k' s).reports ∧ writtenBy m.pid (s.turns k') = texts := by
  -- by induction on the life, and for each step of it on the machines that have their turn before
  have hturn : ∀ (before : List Machine) {s : Scheduler} {m : Machine} {texts : List String} {r : Report}
      {after : List Machine}, s.host = host → Awake s → s.queue = before ++ m :: after →
      (∀ {s : Scheduler} {queue : List Machine}, s.host = host → Awake s → s.queue = m :: queue →
        ∃ k, ∀ k' ≥ k, r ∈ (runFor k' s).reports ∧ writtenBy m.pid (s.turns k') = texts) →
      ∃ k, ∀ k' ≥ k, r ∈ (runFor k' s).reports ∧ writtenBy m.pid (s.turns k') = texts := by
    intro before
    induction before with
    | nil => exact fun hhost h hqueue hfirst => hfirst hhost h hqueue
    | cons b before ih =>
      intro s m texts r after hhost h hqueue hfirst
      have hrs : s.host.registry.Independent := hhost ▸ hr
      rw [List.cons_append] at hqueue
      have htick := Awake.tick_eq hrs h hqueue
      have hnext : s.tick.queue = before ++ m :: (after ++ ((if (b.step s.host).isOver then []
          else [(b.step s.host).rest]) ++ s.started (b.step s.host).machine.forked)) := by
        rw [htick]
        simp only [List.append_assoc, List.cons_append]
      obtain ⟨k, hk⟩ := ih (by rw [htick]; exact hhost) (Awake.tick hrs h) hnext hfirst
      have hne : b.pid ≠ m.pid := by
        have hnodup := h.queue_nodup
        rw [hqueue, List.map_cons, List.nodup_cons] at hnodup
        refine fun heq => hnodup.1 (List.mem_map.mpr ⟨m, ?_, heq.symm⟩)
        exact List.mem_append_right _ List.mem_cons_self
      refine ⟨k + 1, fun k' hk' => ?_⟩
      obtain ⟨j, rfl⟩ : ∃ j, k' = j + 1 := ⟨k' - 1, by omega⟩
      rw [h.runFor_succ hqueue, h.turns_succ hqueue, writtenBy_cons_of_ne hne]
      exact hk j (by omega)
  induction hends with
  | @ended m hover =>
    intro s hhost h hm
    obtain ⟨before, after, hqueue⟩ := List.append_of_mem hm
    refine hturn before hhost h hqueue fun {s queue} hhost h hqueue => ⟨1, fun k' hk' => ?_⟩
    have hrs : s.host.registry.Independent := hhost ▸ hr
    obtain ⟨j, rfl⟩ : ∃ j, k' = j + 1 := ⟨k' - 1, by omega⟩
    have htick := Awake.tick_eq hrs h hqueue
    have hnext : s.tick.host.registry.Independent := by
      rw [htick]
      exact hrs
    rw [h.runFor_succ hqueue, h.turns_succ hqueue, writtenBy_cons_self, Awake.gone hrs h hqueue (hhost ▸ hover), hhost]
    refine ⟨(reports_runFor hnext (Awake.tick hrs h) j).subset ?_, rfl⟩
    simp only [htick, hhost, hover, if_true]
    exact List.mem_append_right _ List.mem_cons_self
  | @goes m texts r hgoes _ ih =>
    intro s hhost h hm
    obtain ⟨before, after, hqueue⟩ := List.append_of_mem hm
    refine hturn before hhost h hqueue fun {s queue} hhost h hqueue => ?_
    have hrs : s.host.registry.Independent := hhost ▸ hr
    have htick := Awake.tick_eq hrs h hqueue
    have hpid : (m.step host).machine.pid = m.pid :=
      (Machine.persists_step host (h.accounts.queued m (hqueue ▸ List.mem_cons_self)).2).1.pid
    have hrest : (m.step host).rest ∈ s.tick.queue := by
      rw [htick, hhost, if_neg (Bool.eq_false_iff.mp hgoes)]
      exact List.mem_append_left _ (List.mem_append_right _ List.mem_cons_self)
    obtain ⟨k, hk⟩ := ih (by rw [htick]; exact hhost) (Awake.tick hrs h) hrest
    refine ⟨k + 1, fun k' hk' => ?_⟩
    obtain ⟨j, rfl⟩ : ∃ j, k' = j + 1 := ⟨k' - 1, by omega⟩
    obtain ⟨hreport, htexts⟩ := hk j (by omega)
    rw [h.runFor_succ hqueue, h.turns_succ hqueue, writtenBy_cons_self, hhost, ← htexts]
    exact ⟨hreport, congrArg (_ :: writtenBy · _) hpid.symm⟩

/-! ### Alone and among others -/

theorem spawnAll_eq {programs : List Program} {s s' : Scheduler} (h : spawnAll programs s = .ok s') :
    ∃ images : List Image, images.map (·.program) = programs ∧ (∀ i ∈ images, i.Sound) ∧
      s' = images.foldl enrol s := by
  induction programs generalizing s with
  | nil =>
    cases h
    exact ⟨[], rfl, List.forall_mem_nil _, rfl⟩
  | cons program programs ih =>
    rw [spawnAll, spawn] at h
    cases himage : Image.ofProgram program with
    | error fault =>
      rw [himage] at h
      cases h
    | ok image =>
      rw [himage] at h
      obtain ⟨images, hprograms, hsound, rfl⟩ := ih h
      obtain ⟨hprogram, himage⟩ := Image.sound_of_ofProgram himage
      refine ⟨image :: images, ?_, List.forall_mem_cons.mpr ⟨himage, hsound⟩, rfl⟩
      rw [List.map_cons, hprogram, hprograms]

theorem Awake.foldl_enrol (h : Awake s) (images : List Image) : Awake (images.foldl Scheduler.enrol s) := by
  induction images generalizing s with
  | nil => exact h
  | cons image images ih => exact ih (h.enrol image)

/-- The machines of a run have the programs they were started with, in order, and then those forked. -/
theorem Knows.start {host : Host} {images : List Image} (hsound : ∀ i ∈ images, i.Sound) {n : Nat} {m : Machine}
    (h : (images.foldl enrol { host }).Knows n m) :
    ∃ image : Image, image.Sound ∧
      (images.map (·.program) ++ forkedIn (turns n (images.foldl enrol { host })))[m.pid - 1]? = some image.program ∧
      m = Machine.start host.settings m.pid image := by
  rw [foldl_enrol] at h ⊢
  rcases h with hm | ⟨i, image, himage, hi, rfl⟩
  · obtain ⟨i, hi, rfl⟩ := List.mem_mapIdx.mp hm
    refine ⟨images[i], hsound _ (List.getElem_mem hi), ?_, rfl⟩
    have hpid : (Machine.start host.settings (1 + i) images[i]).pid - 1 = i := Nat.add_sub_cancel_left 1 i
    rw [hpid, List.getElem?_append_left (by simpa using hi), List.getElem?_map, List.getElem?_eq_getElem hi]
    rfl
  · refine ⟨image, himage, ?_, rfl⟩
    have hpid : (Machine.start host.settings (1 + images.length + i) image).pid - 1 = images.length + i := by
      simp only [Machine.start]
      omega
    rw [hpid, List.getElem?_append_right (by simp)]
    simpa using hi

/-- **Machines do not disturb each other.** Whatever programs are added, and whatever they fork, every machine that is
reported on ends as it does alone: its report is that of the first machine of a fresh scheduler with its program, but
for the number, and the texts that it writes are the same. What is written altogether is what is written turn by turn. -/
theorem run_isolated {host : Host} (hr : host.registry.Independent) {programs : List Program} {s : Scheduler}
    (hs : spawnAll programs { host } = .ok s) (n : Nat) :
    (runFor n s).output = String.join ((s.turns n).map (·.written)) ∧
      ∀ r ∈ (runFor n s).reports, ∃ program alone k,
        (programs ++ forkedIn (s.turns n))[r.pid - 1]? = some program ∧
        ({ host } : Scheduler).spawn program = .ok (1, alone) ∧
        ∀ k' ≥ k, { r with pid := 1 } ∈ (runFor k' alone).reports ∧
          writtenBy 1 (alone.turns k') = writtenBy r.pid (s.turns n) := by
  obtain ⟨images, rfl, hsound, rfl⟩ := spawnAll_eq hs
  have hawake : Awake (images.foldl enrol { host }) := (Awake.start host).foldl_enrol images
  have hhost : (images.foldl enrol { host }).host = host := by rw [foldl_enrol]
  have hrs : (images.foldl enrol { host }).host.registry.Independent := by
    rw [hhost]
    exact hr
  refine ⟨?_, fun r hreport => ?_⟩
  · have houtput : (images.foldl enrol { host }).output = "" := by rw [foldl_enrol]
    rw [output_runFor hrs hawake, houtput, String.empty_append]
  -- a report there tells of a machine that came to its end, and of its life until then
  rcases ends_of_report hrs hawake n hreport with hold | ⟨m, hknows, hpid, hends⟩
  · rw [foldl_enrol] at hold
    cases hold
  -- its life is that of the machine of the same program alone
  obtain ⟨image, himage, hprogram, hm⟩ := hknows.start hsound
  rw [hhost] at hends
  have hnamed : Machine.start host.settings 1 image = m.named ⟨1, image.program.sourceHash⟩ := by
    rw [hm]
    rfl
  have halone := hends.named hr ⟨1, image.program.sourceHash⟩
  rw [← hnamed] at halone
  obtain ⟨k, hk⟩ := report_of_ends hr halone (s := ({ host } : Scheduler).enrol image) rfl
    ((Awake.start host).enrol image) List.mem_cons_self
  refine ⟨image.program, ({ host } : Scheduler).enrol image, k, hpid ▸ hprogram, ?_, hk⟩
  rw [spawn, himage]
  rfl

/-- One program forks quoted code, the other calls a native and fails: all three machines end as they do alone. -/
theorem run_isolated_forking :
    ∃ programs s,
      ["(display \"a\") (fork '(display \"b\"))", "(native String) (display (String.concat \"c\" \"d\")) (car \"d\")"].mapM
        Program.compile = .ok programs ∧
      spawnAll programs { host := { registry := Registry.synchronous } } = .ok s ∧
      (runFor 40 s).reports.map (fun r => (r.pid, r.state)) = [(1, .stopped), (2, .failed), (3, .stopped)] ∧
      (runFor 40 s).output = "acdb" ∧
      (runFor 40 s).output = String.join ((s.turns 40).map (·.written)) ∧
      ∀ r ∈ (runFor 40 s).reports, ∃ program alone k,
        (programs ++ forkedIn (s.turns 40))[r.pid - 1]? = some program ∧
        ({ host := { registry := Registry.synchronous } } : Scheduler).spawn program = .ok (1, alone) ∧
        ∀ k' ≥ k, { r with pid := 1 } ∈ (runFor k' alone).reports ∧
          writtenBy 1 (alone.turns k') = writtenBy r.pid (s.turns 40) := by
  have hrun : ((["(display \"a\") (fork '(display \"b\"))",
      "(native String) (display (String.concat \"c\" \"d\")) (car \"d\")"].mapM Program.compile).toOption.bind fun programs =>
        (spawnAll programs { host := { registry := Registry.synchronous } }).toOption.map fun s =>
          ((runFor 40 s).reports.map (fun r => (r.pid, r.state)), (runFor 40 s).output)) =
      some ([(1, .stopped), (2, .failed), (3, .stopped)], "acdb") := by
    decide +kernel
  obtain ⟨programs, hprograms, hrun⟩ := Option.bind_eq_some_iff.mp hrun
  obtain ⟨s, hs, hrun⟩ := Option.map_eq_some_iff.mp hrun
  have hs := Except.eq_ok_of_toOption hs
  obtain ⟨hreports, houtput⟩ := Prod.mk.inj hrun
  exact ⟨programs, s, Except.eq_ok_of_toOption hprograms, hs, hreports, houtput,
    run_isolated Registry.independent_synchronous hs 40⟩

end Scheduler

end SchemeMachine
