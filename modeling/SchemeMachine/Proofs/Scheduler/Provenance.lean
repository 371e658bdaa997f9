import SchemeMachine.Proofs.Scheduler.Turn
import SchemeMachine.Proofs.Syntax.Grammar
import SchemeMachine.Scheduler

/-!
# Where a program comes from

A program carries the hash of its source. A run does not depend on it: a program under another hash writes the same texts
and ends with the same reports.

* `Scheduler.credited` gives one machine of a scheduler another hash.
* `Scheduler.tick_credited` and `Scheduler.runFor_credited` say that this makes no difference to a tick and to a run.
* `Scheduler.runFor_sourceHash` is the result for a program that is spawned alone.
-/

namespace SchemeMachine

namespace Table

variable {κ α β : Type} (f : α → β)

@[simp] theorem size_map (t : Table κ α) : (t.map f).size = t.size := by simp [size, map]

variable [DecidableEq κ]

@[simp] theorem find?_map (t : Table κ α) (k : κ) : (t.map f).find? k = (t.find? k).map f := by
  obtain ⟨entries⟩ := t
  simp only [find?, map]
  induction entries with
  | nil => rfl
  | cons e entries ih =>
    obtain ⟨k', v⟩ := e
    by_cases hk : k = k' <;> simp [lookupEntry, hk, ih]

theorem insert_map [LT κ] [DecidableLT κ] (t : Table κ α) (k : κ) (v : α) :
    (t.insert k v).map f = (t.map f).insert k (f v) := by
  obtain ⟨entries⟩ := t
  simp only [insert, map, Table.mk.injEq]
  induction entries with
  | nil => rfl
  | cons e entries ih =>
    obtain ⟨k', v'⟩ := e
    by_cases hk : k = k'
    · simp [insertEntry, hk]
    · by_cases hlt : k < k' <;> simp [insertEntry, hk, hlt, ih]

theorem erase_map (t : Table κ α) (k : κ) : (t.erase k).map f = (t.map f).erase k := by
  simp only [erase, map, List.filter_map, Table.mk.injEq]
  rfl

end Table

namespace Machine

/-- A machine with the hash of another source, if its number is `pid`. -/
def credited (pid : Nat) (hash : String) (m : Machine) : Machine := if m.pid = pid then m.named ⟨pid, hash⟩ else m

variable {pid : Nat} {hash : String}

@[simp] theorem credited_pid (m : Machine) : (m.credited pid hash).pid = m.pid := by
  unfold credited
  split
  · next h => exact h.symm
  · rfl

/-- A machine keeps its number through a step. -/
theorem step_pid (host : Host) (m : Machine) : (m.step host).machine.pid = m.pid := by
  by_cases hfailed : m.state = .failed
  · simp [step, hfailed]
  · exact (persists_step host hfailed).1.pid

theorem step_credited (host : Host) (m : Machine) :
    (m.credited pid hash).step host = { m.step host with machine := (m.step host).machine.credited pid hash } := by
  unfold credited
  rw [step_pid]
  split
  · next h => exact step_named (Or.inr h.symm)
  · rfl

theorem deliver_credited (m : Machine) (result : Except NativeError NativeOutput) :
    (m.credited pid hash).deliver result = (m.deliver result).credited pid hash := by
  unfold credited
  rw [(persists_deliver m result).1.pid]
  split
  · exact deliver_named m result _
  · rfl

/-- A change of registers that the hash has nothing to do with. -/
theorem change_credited (pid : Nat) (hash : String) {g : Machine → Machine} (hpid : ∀ m, (g m).pid = m.pid)
    (hg : ∀ m who, g (m.named who) = (g m).named who) (m : Machine) :
    g (m.credited pid hash) = (g m).credited pid hash := by
  unfold credited
  rw [hpid]
  split
  · exact hg m _
  · rfl

/-- What does not change with the hash. -/
theorem read_credited {α : Type} {f : Machine → α} (hf : ∀ (m : Machine) (who : Identity), who.pid = m.pid →
    f (m.named who) = f m) (m : Machine) : f (m.credited pid hash) = f m := by
  unfold credited
  split
  · next h => exact hf m _ h.symm
  · rfl

end Machine

namespace Scheduler

variable {pid : Nat} {hash : String}

/-- **The scheduler with the hash of another source** for the machine with the number `pid`. -/
def credited (pid : Nat) (hash : String) (s : Scheduler) : Scheduler :=
  { s with
    queue := s.queue.map (Machine.credited pid hash)
    sleeping := s.sleeping.map (Machine.credited pid hash) }

theorem settle_credited (s : Scheduler) : (s.credited pid hash).settle = s.settle.credited pid hash := by
  unfold settle
  change s.jobs.foldl _ (s.credited pid hash) = _
  generalize s.jobs = jobs
  induction jobs generalizing s with
  | nil => rfl
  | cons j jobs ih =>
    have hfinish : (s.credited pid hash).finish j.1 j.2 = (s.finish j.1 j.2).credited pid hash := by
      simp only [finish, credited]
    rw [List.foldl_cons, List.foldl_cons, hfinish, ih]

theorem wake_credited (s : Scheduler) (woken : Nat) (result : Except NativeError NativeOutput) :
    (s.credited pid hash).wake woken result = (s.wake woken result).credited pid hash := by
  simp only [wake, credited, Table.find?_map]
  cases s.sleeping.find? woken with
  | none => rfl
  | some m =>
    simp only [Option.map_some, List.map_append, List.map_cons, List.map_nil, Table.erase_map, Machine.deliver_credited]

theorem wakeAll_credited (s : Scheduler) : (s.credited pid hash).wakeAll = s.wakeAll.credited pid hash := by
  unfold wakeAll
  have hfold : ∀ (results : List (Nat × Except NativeError NativeOutput)) (s : Scheduler),
      results.foldl (fun s r => s.wake r.1 r.2) (s.credited pid hash) =
        (results.foldl (fun s r => s.wake r.1 r.2) s).credited pid hash := by
    intro results
    induction results with
    | nil => exact fun s => rfl
    | cons r results ih =>
      intro s
      rw [List.foldl_cons, List.foldl_cons, wake_credited, ih]
  exact hfold s.results { s with results := [] }

theorem retire_credited (s : Scheduler) (m : Machine) (error : Option RunError) :
    (s.credited pid hash).retire (m.credited pid hash) error = (s.retire m error).credited pid hash := by
  have hreport : ((m.credited pid hash).pid, (m.credited pid hash).state, (m.credited pid hash).steps,
      (m.credited pid hash).peakDepth) = (m.pid, m.state, m.steps, m.peakDepth) :=
    Machine.read_credited (f := fun m => (m.pid, m.state, m.steps, m.peakDepth))
      (fun m who hwho => by simp [Machine.named, hwho]) m
  simp only [Prod.mk.injEq] at hreport
  obtain ⟨hpid, hstate, hsteps, hpeak⟩ := hreport
  simp only [retire, credited, hpid, hstate, hsteps, hpeak]

theorem park_credited (s : Scheduler) (m : Machine) :
    (s.credited pid hash).park (m.credited pid hash) = (s.park m).credited pid hash := by
  have hpending : (m.credited pid hash).pending = m.pending := Machine.read_credited (fun _ _ _ => rfl) m
  unfold park
  rw [hpending]
  cases m.pending with
  | none => exact retire_credited s m _
  | some job =>
    have hcleared := Machine.change_credited pid hash (g := fun m => { m with pending := none }) (fun _ => rfl)
      (fun _ _ => rfl) m
    dsimp only at hcleared ⊢
    rw [hcleared]
    simp only [credited, Machine.credited_pid, Table.insert_map]

theorem place_credited (s : Scheduler) (m : Machine) (error : Option RunError) :
    (s.credited pid hash).place (m.credited pid hash) error = (s.place m error).credited pid hash := by
  have hstate : (m.credited pid hash).state = m.state := Machine.read_credited (fun _ _ _ => rfl) m
  have hqueue : { s.credited pid hash with queue := (s.credited pid hash).queue ++ [m.credited pid hash] } =
      credited pid hash { s with queue := s.queue ++ [m] } := by
    simp only [credited, List.map_append, List.map_cons, List.map_nil]
  unfold place
  rw [hstate]
  split
  · exact retire_credited s m error
  · cases m.state with
    | running | suspended => exact hqueue
    | sleeping => exact park_credited s m
    | stopped | failed => exact retire_credited s m none

/-- New machines have numbers of their own. -/
theorem enrol_credited {s : Scheduler} (hpid : pid < s.nextPid) (image : Image) :
    (s.credited pid hash).enrol image = (s.enrol image).credited pid hash := by
  have hnew : (Machine.start s.host.settings s.nextPid image).credited pid hash =
      Machine.start s.host.settings s.nextPid image := if_neg (Nat.ne_of_gt hpid)
  simp only [enrol, credited, List.map_append, List.map_cons, List.map_nil, hnew]

theorem foldl_enrol_credited {s : Scheduler} (hpid : pid < s.nextPid) (images : List Image) :
    images.foldl enrol (s.credited pid hash) = (images.foldl enrol s).credited pid hash := by
  induction images generalizing s with
  | nil => rfl
  | cons image images ih =>
    have hnext : pid < (s.enrol image).nextPid := Nat.lt_succ_of_lt hpid
    rw [List.foldl_cons, List.foldl_cons, enrol_credited hpid, ih hnext]

/-! ### Numbers -/

theorem nextPid_settle (s : Scheduler) : s.settle.nextPid = s.nextPid := by
  unfold settle
  generalize s.jobs = jobs
  induction jobs generalizing s with
  | nil => rfl
  | cons j jobs ih => exact ih (s.finish j.1 j.2)

theorem nextPid_wake (s : Scheduler) (woken : Nat) (result : Except NativeError NativeOutput) :
    (s.wake woken result).nextPid = s.nextPid := by
  unfold wake
  split <;> rfl

theorem nextPid_wakeAll (s : Scheduler) : s.wakeAll.nextPid = s.nextPid := by
  unfold wakeAll
  have hfold : ∀ (results : List (Nat × Except NativeError NativeOutput)) (s : Scheduler),
      (results.foldl (fun s r => s.wake r.1 r.2) s).nextPid = s.nextPid := by
    intro results
    induction results with
    | nil => exact fun s => rfl
    | cons r results ih => exact fun s => (ih _).trans (nextPid_wake s r.1 r.2)
  exact hfold s.results { s with results := [] }

theorem nextPid_place (s : Scheduler) (m : Machine) (error : Option RunError) : (s.place m error).nextPid = s.nextPid := by
  unfold place
  split
  · rfl
  · split
    · rfl
    · rfl
    · unfold park
      split <;> rfl
    · rfl
    · rfl

theorem nextPid_le_foldl_enrol (s : Scheduler) (images : List Image) : s.nextPid ≤ (images.foldl enrol s).nextPid := by
  induction images generalizing s with
  | nil => exact Nat.le_refl _
  | cons image images ih => exact Nat.le_trans (Nat.le_succ s.nextPid) (ih (s.enrol image))

theorem nextPid_le_tick (s : Scheduler) : s.nextPid ≤ s.tick.nextPid := by
  unfold tick turn
  split
  · exact Nat.le_of_eq ((nextPid_wakeAll _).trans (nextPid_settle s)).symm
  · refine Nat.le_trans (Nat.le_of_eq ?_) (nextPid_le_foldl_enrol _ _)
    rw [nextPid_place]
    exact ((nextPid_wakeAll _).trans (nextPid_settle s)).symm

/-! ### Runs -/

/-- **A tick is the same under another hash.** -/
theorem tick_credited {s : Scheduler} (hpid : pid < s.nextPid) :
    (s.credited pid hash).tick = s.tick.credited pid hash := by
  unfold tick
  rw [settle_credited, wakeAll_credited]
  have hnext : pid < s.settle.wakeAll.nextPid := by rwa [nextPid_wakeAll, nextPid_settle]
  generalize s.settle.wakeAll = s at hnext
  unfold turn
  cases hqueue : s.queue with
  | nil => simp only [credited, hqueue, List.map_nil]
  | cons m queue =>
    have hmapped : (s.credited pid hash).queue = m.credited pid hash :: queue.map (Machine.credited pid hash) := by
      simp only [credited, hqueue, List.map_cons]
    have hhost : (s.credited pid hash).host = s.host := rfl
    have hcleared := Machine.change_credited pid hash (g := fun m => { m with forked := [] }) (fun _ => rfl)
      (fun _ _ => rfl) (m.step s.host).machine
    have hforked : ((m.step s.host).machine.credited pid hash).forked = (m.step s.host).machine.forked :=
      Machine.read_credited (fun _ _ _ => rfl) _
    have hplaced : (credited pid hash { s with queue, output := s.output ++ (m.step s.host).written }).place
        (Machine.credited pid hash { (m.step s.host).machine with forked := [] }) (m.step s.host).error =
          (place _ _ _).credited pid hash := place_credited _ _ _
    simp only [hmapped, hhost, Machine.step_credited, hforked]
    rw [← foldl_enrol_credited (by rwa [nextPid_place]), ← hplaced, ← hcleared]
    rfl

/-- **A run is the same under another hash.** -/
theorem runFor_credited {s : Scheduler} (hpid : pid < s.nextPid) (n : Nat) :
    runFor n (s.credited pid hash) = (runFor n s).credited pid hash := by
  induction n generalizing s with
  | zero => rfl
  | succ n ih =>
    have hlive : (s.credited pid hash).live = s.live := by simp [live, credited]
    rw [runFor, runFor, hlive]
    split
    · rfl
    · rw [tick_credited hpid, ih (Nat.lt_of_lt_of_le hpid (nextPid_le_tick s))]

/-- **The hash of its source makes no difference to a program.** -/
theorem runFor_sourceHash {host : Host} {program : Program} {s : Scheduler}
    (hs : ({ host } : Scheduler).spawn program = .ok (1, s)) (hash : String) :
    ∃ s', ({ host } : Scheduler).spawn { program with sourceHash := hash } = .ok (1, s') ∧
      ∀ n, (runFor n s').output = (runFor n s).output ∧ (runFor n s').reports = (runFor n s).reports := by
  obtain ⟨image, himage, hs⟩ := Except.bind_eq_ok.mp hs
  cases hs
  obtain ⟨rfl, -⟩ := Image.sound_of_ofProgram himage
  refine ⟨(({ host } : Scheduler).enrol image).credited 1 hash, ?_, fun n => ?_⟩
  · have hrehashed : Image.ofProgram { image.program with sourceHash := hash } =
        .ok { image with program := { image.program with sourceHash := hash } } := by
      unfold Image.ofProgram at himage ⊢
      cases hlabels : LabelTable.ofCode image.program.code with
      | error e =>
        rw [hlabels] at himage
        cases himage
      | ok labels =>
        rw [hlabels] at himage
        obtain ⟨program, labels'⟩ := image
        cases himage
        rfl
    rw [spawn, hrehashed]
    rfl
  · have hnew : 1 < (({ host } : Scheduler).enrol image).nextPid := Nat.lt_succ_self 1
    rw [runFor_credited hnew]
    exact ⟨rfl, rfl⟩

end Scheduler

end SchemeMachine
