import SchemeMachine.Proofs.Scheduler.Turn
import SchemeMachine.Proofs.Table
import SchemeMachine.Scheduler

/-!
# No machine is lost

A scheduler hands out numbers in order, one for each machine that it takes on. From then on a machine is in one
place: in the queue, asleep, or reported as over. Jobs are carried out apart from the turns, and their results come
in in any order.

* `Scheduler.Reachable` is a scheduler after any sequence of events, with the reports that it has handed over.
* `Scheduler.Accounts` is the account of all numbers, with one lemma for each thing that a scheduler does. While a
  machine has its turn it is in none of the places, so the account also lists what is in hand.
* `Scheduler.reachable_accounts` is the result.
-/

namespace SchemeMachine.Scheduler

open scoped List

/-! ### Events -/

/-- **What a scheduler can come to be.** Programs are added, jobs are carried out in any order, results are delivered
in the order in which they came in, machines take turns, and reports are handed over; `issued` are the reports handed
over so far. -/
inductive Reachable (host : Host) : (issued : List Report) → Scheduler → Prop
  | start : Reachable host [] { host }
  | spawn {issued : List Report} {s s' : Scheduler} {program : Program} {pid : Nat} (h : Reachable host issued s)
      (hspawn : s.spawn program = .ok (pid, s')) : Reachable host issued s'
  | finish {issued : List Report} {s : Scheduler} {pid : Nat} {job : Job} (h : Reachable host issued s)
      (hjob : (pid, job) ∈ s.jobs) : Reachable host issued (s.finish pid job)
  | wake {issued : List Report} {s : Scheduler} {pid : Nat} {result : Except NativeError NativeOutput}
      {others : List (Nat × Except NativeError NativeOutput)} (h : Reachable host issued s)
      (hresult : s.results = (pid, result) :: others) :
      Reachable host issued ({ s with results := others }.wake pid result)
  | turn {issued : List Report} {s : Scheduler} (h : Reachable host issued s) : Reachable host issued s.turn
  | takeReports {issued : List Report} {s : Scheduler} (h : Reachable host issued s) :
      Reachable host (issued ++ s.reports) s.takeReports.2

/-! ### The account -/

/-- The numbers of the machines in the queue, of those asleep, and of those reported. -/
def numbers (issued : List Report) (s : Scheduler) : List Nat :=
  s.queue.map (·.pid) ++ s.sleeping.keys ++ (issued ++ s.reports).map (·.pid)

/-- **The account of all machines**; `held` are the numbers of those in hand. -/
structure Accounts (issued : List Report) (held : List Nat) (s : Scheduler) : Prop where
  /-- Every number handed out is in one place, and there once. -/
  numbers : held ++ s.numbers issued ~ List.range' 1 (s.nextPid - 1)
  next : 0 < s.nextPid
  sorted : s.sleeping.Sorted
  asleep : ∀ pid m, s.sleeping.find? pid = some m → m.pid = pid ∧ m.state = .sleeping
  /-- For each machine asleep there is one job under way or one result not yet delivered, and no others. -/
  waiting : s.jobs.map (·.1) ++ s.results.map (·.1) ~ s.sleeping.keys
  queued : ∀ m ∈ s.queue, m.state ≠ .sleeping ∧ m.state ≠ .failed
  reported : ∀ r ∈ issued ++ s.reports,
    (r.state = .stopped ∧ r.error = none) ∨ (r.state = .failed ∧ r.error.isSome)

namespace Accounts

variable {issued : List Report} {held : List Nat} {s : Scheduler}

theorem start (host : Host) : Accounts [] [] { host } where
  numbers := .refl _
  next := Nat.one_pos
  sorted := Table.sorted_empty
  asleep _ _ h := by cases h
  waiting := .refl _
  queued _ h := by cases h
  reported _ h := by cases h

/-- No number is in two places. -/
theorem nodup (h : Accounts issued held s) : (held ++ s.numbers issued).Nodup :=
  h.numbers.nodup_iff.mpr (List.nodup_range' 1)

theorem enrol (h : Accounts issued held s) (image : Image) : Accounts issued held (s.enrol image) := by
  have hnumbers : held ++ (s.enrol image).numbers issued ~ s.nextPid :: (held ++ s.numbers issued) := by
    refine List.Perm.trans ?_ (@List.perm_middle _ s.nextPid held _)
    refine List.Perm.append_left held ?_
    simp only [Scheduler.numbers, Scheduler.enrol, List.map_append, List.map_cons, List.map_nil, Machine.start,
      List.append_assoc]
    exact List.perm_middle
  refine { h with numbers := ?_, next := Nat.succ_pos _, queued := fun m hm => ?_ }
  · have hrange : List.range' 1 ((s.enrol image).nextPid - 1) = List.range' 1 (s.nextPid - 1) ++ [s.nextPid] := by
      have hnext : (s.enrol image).nextPid - 1 = s.nextPid - 1 + 1 := by
        have := h.next
        simp only [Scheduler.enrol]
        omega
      rw [hnext, List.range'_1_concat]
      congr 2
      have := h.next
      omega
    rw [hrange]
    exact hnumbers.trans ((h.numbers.cons _).trans (List.perm_append_singleton _ _).symm)
  · rcases List.mem_append.mp hm with hm | hm
    · exact h.queued m hm
    · rw [List.mem_singleton.mp hm]
      exact ⟨(nomatch ·), (nomatch ·)⟩

theorem enrolAll (h : Accounts issued held s) (images : List Image) :
    Accounts issued held (images.foldl Scheduler.enrol s) := by
  induction images generalizing s with
  | nil => exact h
  | cons image images ih => exact ih (h.enrol image)

theorem spawn (h : Accounts issued held s) {program : Program} {pid : Nat} {s' : Scheduler}
    (hspawn : s.spawn program = .ok (pid, s')) : Accounts issued held s' := by
  unfold Scheduler.spawn at hspawn
  cases himage : Image.ofProgram program with
  | error e =>
    rw [himage] at hspawn
    cases hspawn
  | ok image =>
    rw [himage] at hspawn
    cases hspawn
    exact h.enrol image

/-! ### Jobs -/

/-- A job that is done leaves its result. -/
theorem finish (h : Accounts issued held s) {pid : Nat} {job : Job} (hjob : (pid, job) ∈ s.jobs) :
    Accounts issued held (s.finish pid job) := by
  have hnodup : (s.jobs.map (·.1)).Nodup :=
    (h.waiting.nodup_iff.mpr h.sorted.nodup).sublist (List.sublist_append_left _ _)
  have hpid : pid ∈ s.jobs.map (·.1) := List.mem_map.mpr ⟨_, hjob, rfl⟩
  have hjobs : (s.finish pid job).jobs.map (·.1) = (s.jobs.map (·.1)).erase pid := by
    rw [hnodup.erase_eq_filter, List.filter_map]
    refine congrArg _ (List.filter_congr fun j _ => ?_)
    by_cases hj : j.1 = pid <;> simp [hj]
  have hresults : (s.finish pid job).results.map (·.1) = s.results.map (·.1) ++ [pid] := by
    simp [Scheduler.finish]
  -- one job goes and one result comes, both of the same machine
  have hwaiting : (s.finish pid job).jobs.map (·.1) ++ (s.finish pid job).results.map (·.1) ~
      s.jobs.map (·.1) ++ s.results.map (·.1) := by
    rw [hjobs, hresults]
    calc (s.jobs.map (·.1)).erase pid ++ (s.results.map (·.1) ++ [pid])
        = (s.jobs.map (·.1)).erase pid ++ s.results.map (·.1) ++ [pid] := (List.append_assoc _ _ _).symm
      _ ~ pid :: ((s.jobs.map (·.1)).erase pid ++ s.results.map (·.1)) := List.perm_append_singleton _ _
      _ ~ s.jobs.map (·.1) ++ s.results.map (·.1) :=
        (List.perm_cons_erase hpid).symm.append_right _
  exact { h with waiting := hwaiting.trans h.waiting }

/-- A result that is delivered brings its machine back into the queue. -/
theorem wake (h : Accounts issued held s) {pid : Nat} {result : Except NativeError NativeOutput}
    {others : List (Nat × Except NativeError NativeOutput)} (hresult : s.results = (pid, result) :: others) :
    Accounts issued held ({ s with results := others }.wake pid result) := by
  have hpid : pid ∈ s.sleeping.keys := by
    refine h.waiting.subset (List.mem_append_right _ ?_)
    rw [hresult]
    exact List.mem_cons_self
  obtain ⟨m, hm⟩ := Table.contains_iff.mp (Table.contains_iff_mem_keys.mpr hpid)
  obtain ⟨hname, hstate⟩ := h.asleep pid m hm
  obtain ⟨hkeeps, hawake⟩ := m.persists_deliver result
  have herase := h.sorted.keys_erase_perm hpid
  have hwake : { s with results := others }.wake pid result =
      { s with results := others, sleeping := s.sleeping.erase pid, queue := s.queue ++ [m.deliver result] } := by
    simp only [Scheduler.wake, hm]
  rw [hwake]
  refine { h with numbers := ?_, sorted := h.sorted.erase pid, asleep := ?_, waiting := ?_, queued := ?_ }
  · -- the number moves from the table to the queue
    refine List.Perm.trans (List.Perm.append_left held ?_) h.numbers
    simp only [Scheduler.numbers, List.map_append, List.map_cons, List.map_nil, hkeeps.pid, hname, List.append_assoc]
    refine List.Perm.append_left _ ?_
    exact herase.symm.append_right _
  · exact fun pid' m' hm' => h.asleep pid' m' (h.sorted.find?_of_erase hm')
  · have hwaiting := h.waiting.trans herase
    rw [hresult, List.map_cons] at hwaiting
    exact (List.perm_middle.symm.trans hwaiting).cons_inv
  · intro n hn
    rcases List.mem_append.mp hn with hn | hn
    · exact h.queued n hn
    · rw [List.mem_singleton.mp hn]
      exact ⟨hawake, fun hfailed => by simpa [hstate] using hkeeps.failed hfailed⟩

/-! ### Turns -/

/-- A machine in hand is reported as over. -/
theorem retire {m : Machine} (h : Accounts issued (m.pid :: held) s) {error : Option RunError}
    (hstate : error = none → m.state = .stopped) : Accounts issued held (s.retire m error) := by
  refine { h with numbers := ?_, reported := fun r hr => ?_ }
  · refine List.Perm.trans ?_ h.numbers
    simp only [Scheduler.numbers, Scheduler.retire, List.map_append, List.map_cons, List.map_nil,
      ← List.append_assoc]
    exact List.perm_append_singleton _ _
  · simp only [Scheduler.retire, ← List.append_assoc] at hr
    rcases List.mem_append.mp hr with hr | hr
    · exact h.reported r hr
    · rw [List.mem_singleton.mp hr]
      cases error with
      | none => exact Or.inl ⟨hstate rfl, rfl⟩
      | some e => exact Or.inr ⟨rfl, rfl⟩

/-- A machine in hand falls asleep. -/
theorem park {m : Machine} (h : Accounts issued (m.pid :: held) s) (hstate : m.state = .sleeping) :
    Accounts issued held (s.park m) := by
  unfold Scheduler.park
  cases hpending : m.pending with
  | none => exact h.retire (fun herror => nomatch herror)
  | some job =>
    -- the process is counted once, and so it is not among those asleep
    have hnew : m.pid ∉ s.sleeping.keys := by
      have hnodup := h.nodup
      rw [List.cons_append, List.nodup_cons] at hnodup
      refine fun hmem => hnodup.1 (List.mem_append_right _ ?_)
      exact List.mem_append_left _ (List.mem_append_right _ hmem)
    have hinsert := Table.keys_insert_perm hnew { m with pending := none }
    refine { h with numbers := ?_, sorted := h.sorted.insert _ _, asleep := ?_, waiting := ?_ }
    · refine List.Perm.trans ?_ h.numbers
      -- its number moves from those held to those asleep
      simp only [Scheduler.numbers]
      calc held ++ (s.queue.map (·.pid) ++ (s.sleeping.insert m.pid { m with pending := none }).keys ++
              (issued ++ s.reports).map (·.pid))
          ~ held ++ (s.queue.map (·.pid) ++ (m.pid :: s.sleeping.keys) ++ (issued ++ s.reports).map (·.pid)) :=
            ((hinsert.append_left _).append_right _).append_left held
        _ ~ held ++ (m.pid :: (s.queue.map (·.pid) ++ s.sleeping.keys ++ (issued ++ s.reports).map (·.pid))) :=
            (List.perm_middle.append_right _).append_left held
        _ ~ m.pid :: (held ++ (s.queue.map (·.pid) ++ s.sleeping.keys ++ (issued ++ s.reports).map (·.pid))) :=
            List.perm_middle
    · intro pid n hn
      rw [Table.find?_insert] at hn
      split at hn
      · next hpid =>
        cases hn
        exact ⟨hpid.symm, hstate⟩
      · exact h.asleep pid n hn
    · refine List.Perm.trans ?_ hinsert.symm
      simp only [List.map_append, List.map_cons, List.map_nil, List.append_assoc]
      exact List.perm_middle.trans (h.waiting.cons _)

/-- A machine in hand is put where it belongs. -/
theorem place {m : Machine} (h : Accounts issued (m.pid :: held) s) {error : Option RunError}
    (hfailed : error = none → m.state ≠ .failed) : Accounts issued held (s.place m error) := by
  unfold Scheduler.place
  split
  · next herror => exact h.retire fun hnone => by rw [hnone] at herror; cases herror
  · next herror =>
    have hnone : error = none := Option.not_isSome_iff_eq_none.mp herror
    have hqueue (hawake : m.state ≠ .sleeping) : Accounts issued held { s with queue := s.queue ++ [m] } := by
      refine { h with numbers := ?_, queued := fun n hn => ?_ }
      · refine List.Perm.trans ?_ h.numbers
        simp only [Scheduler.numbers, List.map_append, List.map_cons, List.map_nil, List.append_assoc,
          List.cons_append, List.nil_append]
        exact (List.perm_middle.append_left held).trans List.perm_middle
      · rcases List.mem_append.mp hn with hn | hn
        · exact h.queued n hn
        · rw [List.mem_singleton.mp hn]
          exact ⟨hawake, hfailed hnone⟩
    cases hstate : m.state with
    | running => exact hqueue (by rw [hstate]; decide)
    | suspended => exact hqueue (by rw [hstate]; decide)
    | sleeping => exact h.park hstate
    | stopped => exact h.retire fun _ => hstate
    | failed => exact absurd hstate (hfailed hnone)

/-- **A turn keeps the account**: the first machine is taken in hand and put back, and what it forked is added. -/
theorem turn (h : Accounts issued [] s) : Accounts issued [] s.turn := by
  unfold Scheduler.turn
  cases hqueue : s.queue with
  | nil => exact h
  | cons m queue =>
    dsimp only
    have hm := h.queued m (hqueue ▸ List.mem_cons_self)
    obtain ⟨hkeeps, hfailed⟩ := Machine.persists_step s.host hm.2
    have hpid : (m.step s.host).machine.pid = m.pid := hkeeps.pid
    -- while it runs, the machine is in hand and no longer in the queue
    have hheld : Accounts issued [m.pid] { s with queue, output := s.output ++ (m.step s.host).written } := by
      refine { h with numbers := ?_, queued := fun n hn => h.queued n (hqueue ▸ List.mem_cons_of_mem m hn) }
      have hnumbers := h.numbers
      simp only [Scheduler.numbers, hqueue, List.map_cons] at hnumbers
      exact hnumbers
    rw [← hpid] at hheld
    exact (hheld.place (m := { (m.step s.host).machine with forked := [] }) hfailed).enrolAll _

end Accounts

variable {host : Host} {issued : List Report} {s : Scheduler}

/-- **Whatever happens, the account is kept.** -/
theorem Reachable.accounts (h : Reachable host issued s) : Accounts issued [] s := by
  induction h with
  | start => exact .start host
  | spawn _ hspawn ih => exact ih.spawn hspawn
  | finish _ hjob ih => exact ih.finish hjob
  | wake _ hresult ih => exact ih.wake hresult
  | turn _ ih => exact ih.turn
  | @takeReports issued s _ ih =>
    have hissued : (issued ++ s.reports) ++ s.takeReports.2.reports = issued ++ s.reports :=
      List.append_nil _
    refine { ih with numbers := ?_, reported := fun r hr => ih.reported r (hissued ▸ hr) }
    simp only [Scheduler.numbers, hissued]
    exact ih.numbers

/-! ### Ticks -/

/-- Carrying out all jobs is a sequence of events. -/
theorem Reachable.settle (h : Reachable host issued s) : Reachable host issued s.settle := by
  -- along the fold, the jobs still to come are still under way, since no machine has two
  have hfold : ∀ (jobs : List (Nat × Job)) (s : Scheduler), Reachable host issued s → jobs ⊆ s.jobs →
      (jobs.map (·.1)).Nodup → Reachable host issued (jobs.foldl (fun s j => s.finish j.1 j.2) s) := by
    intro jobs
    induction jobs with
    | nil => exact fun s hs _ _ => hs
    | cons j jobs ih =>
      intro s hs hsub hnodup
      obtain ⟨hj, hjobs⟩ := List.cons_subset.mp hsub
      obtain ⟨hnot, hnodup⟩ := List.nodup_cons.mp hnodup
      refine ih (s.finish j.1 j.2) (hs.finish hj) (fun k hk => ?_) hnodup
      refine List.mem_filter.mpr ⟨hjobs hk, ?_⟩
      have hne : k.1 ≠ j.1 := fun heq => hnot (List.mem_map.mpr ⟨k, hk, heq⟩)
      simpa using hne
  refine hfold s.jobs s h (List.Subset.refl _) ?_
  exact (h.accounts.waiting.nodup_iff.mpr h.accounts.sorted.nodup).sublist (List.sublist_append_left _ _)

/-- Delivering all results is a sequence of events. -/
theorem Reachable.wakeAll (h : Reachable host issued s) : Reachable host issued s.wakeAll := by
  have hfold : ∀ (results : List (Nat × Except NativeError NativeOutput)) (s : Scheduler), s.results = results →
      Reachable host issued s →
      Reachable host issued (results.foldl (fun s r => s.wake r.1 r.2) { s with results := [] }) := by
    intro results
    induction results with
    | nil =>
      intro s hresults hs
      rw [List.foldl_nil, ← hresults]
      exact hs
    | cons r results ih =>
      intro s hresults hs
      -- results that have not been delivered do not matter to a delivery
      have hsame : ({ s with results := [] }.wake r.1 r.2) =
          { ({ s with results := results }.wake r.1 r.2) with results := [] } := by
        unfold Scheduler.wake
        dsimp only
        split <;> rfl
      have hleft : ({ s with results := results }.wake r.1 r.2).results = results := by
        unfold Scheduler.wake
        dsimp only
        split <;> rfl
      rw [List.foldl_cons, hsame]
      exact ih _ hleft (hs.wake hresults)
  exact hfold s.results s rfl h

theorem Reachable.tick (h : Reachable host issued s) : Reachable host issued s.tick := h.settle.wakeAll.turn

/-- **A run is a sequence of events.** -/
theorem Reachable.runFor (h : Reachable host issued s) (n : Nat) : Reachable host issued (runFor n s) := by
  induction n generalizing s with
  | zero => exact h
  | succ n ih =>
    rw [Scheduler.runFor]
    split
    · exact h
    · exact ih h.tick

/-- When no machine is left, all have been reported. -/
theorem Accounts.over (h : Accounts issued [] s) (hlive : s.live = 0) :
    (issued ++ s.reports).map (·.pid) ~ List.range' 1 (s.nextPid - 1) := by
  have hsum : s.queue.length + s.sleeping.size = 0 := hlive
  have hqueue : s.queue = [] := List.length_eq_zero_iff.mp (by omega)
  have hkeys : s.sleeping.keys = [] := by
    rw [Table.keys, List.length_eq_zero_iff.mp (show s.sleeping.entries.length = 0 by rw [Table.size] at hsum; omega)]
    rfl
  have hnumbers := h.numbers
  simpa only [Scheduler.numbers, hqueue, hkeys, List.map_nil, List.nil_append] using hnumbers

/-- **The scheduler neither loses nor duplicates a machine.** In every state that it can come to be in, the numbers in
the queue, asleep and reported are together those handed out, each once; what is asleep waits for one job or one
result; what is in the queue neither sleeps nor has failed; and a report gives a reason exactly if the machine
failed. A run is a sequence of events, so that when it is over every machine has been reported once. -/
theorem reachable_accounts (h : Reachable host issued s) :
    Accounts issued [] s ∧ ∀ n, Accounts issued [] (runFor n s) ∧ ((runFor n s).live = 0 →
      (issued ++ (runFor n s).reports).map (·.pid) ~ List.range' 1 ((runFor n s).nextPid - 1)) := by
  refine ⟨h.accounts, fun n => ?_⟩
  have hrun := (h.runFor n).accounts
  exact ⟨hrun, hrun.over⟩

/-- Two machines fall asleep, the job of the second is done first, and both come to their end. -/
theorem reachable_accounts_sleepers :
    ∃ s, Reachable {} [] s ∧ s.sleeping.keys = [1, 2] ∧ s.jobs.map (·.1) = [1] ∧ s.results.map (·.1) = [2] ∧
      Accounts [] [] s ∧ (runFor 4 s).live = 0 ∧ (runFor 4 s).reports.map (·.pid) ~ [1, 2] := by
  let program : Program :=
    { code := #[.op .push (some (.handle 0)), .op .call (some (.atom (.variable "File.read"))), .op .halt none]
      constants := Table.ofList [(0, .string "a")]
      natives := OrderedSet.ofMembers ["File"] }
  let image : Image := ⟨program, {}⟩
  let both : Scheduler := (({ host := {} } : Scheduler).enrol image).enrol image
  let asleep := both.turn.turn.turn.turn
  have hfirst : ({ host := {} } : Scheduler).spawn program = .ok (1, ({ host := {} } : Scheduler).enrol image) := rfl
  have hsecond : (({ host := {} } : Scheduler).enrol image).spawn program = .ok (2, both) := rfl
  -- two processes that ask for the same file go to sleep
  have hreach : Reachable {} [] asleep :=
    .turn <| .turn <| .turn <| .turn <| .spawn (.spawn .start hfirst) hsecond
  let reading : Nat × Job → Option (Nat × String)
    | (pid, .readFile path) => some (pid, path)
    | _ => none
  have hjob : (2, Job.readFile "a") ∈ asleep.jobs := by
    have hreading : asleep.jobs.filterMap reading = [(1, "a"), (2, "a")] := by decide
    have hmem : (2, "a") ∈ asleep.jobs.filterMap reading := by
      rw [hreading]
      exact List.mem_cons_of_mem _ List.mem_cons_self
    obtain ⟨⟨pid, job⟩, hj, hread⟩ := List.mem_filterMap.mp hmem
    cases job with
    | readFile path =>
      cases hread
      exact hj
    | writeFile path content => cases hread
    | settled result => cases hread
  -- the second job is done before the first one
  have hfinish := hreach.finish hjob
  obtain ⟨haccounts, hrun⟩ := reachable_accounts hfinish
  have hlive : (runFor 4 (asleep.finish 2 (.readFile "a"))).live = 0 := by decide
  refine ⟨_, hfinish, by decide, by decide, by decide, haccounts, hlive, ?_⟩
  have hnext : (runFor 4 (asleep.finish 2 (.readFile "a"))).nextPid = 3 := by decide
  have hreports := (hrun 4).2 hlive
  rw [hnext, List.nil_append] at hreports
  exact hreports

end SchemeMachine.Scheduler
