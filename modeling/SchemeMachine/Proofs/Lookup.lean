import SchemeMachine.Proofs.Layout.Compiled
import SchemeMachine.Proofs.Natives
import SchemeMachine.Proofs.Sound.Step

/-!
# Look-up is lexical

A closure keeps copies of the variables around it and a mark for each variable that was changed. In a run of a
compiled program none of this shows: reading and changing a variable is what the bindings of the closures around the
running code say, the nearest binding first.

* `Machine.Lexical` is plain lexical look-up, along the closures from the current one outward.
* `Machine.Sound.exists_lexical` derives it from what is known of sound machines.
* `Process.run_lexical` is the result for every state that a process can reach.
-/

namespace SchemeMachine

open Machine

/-- **Plain lexical look-up** along `l`, the closures from the current one outward. A variable can be read just if one
of them binds it, and then it has the value of the nearest binding, or one that compares as equal. It can be changed
just if one of them binds it; then the nearest binding changes and no other. -/
structure Machine.Lexical (m : Machine) (l : Ancestry) : Prop where
  /-- The closures from the current one outward come to an end, and these are they. -/
  lineage : m.heap.Lineage m.current l
  read_iff : ∀ name, (∃ v m', (dereference name).run m = (.ok v, m')) ↔ ∃ e ∈ l, e.2.bound.contains name = true
  read : ∀ name e, l.binder? name = some e →
    ∃ v w, (dereference name).run m = (.ok v, m) ∧ e.2.bound.find? name = some w ∧ (v = w ∨ v.same w = true)
  assign_iff : ∀ name v, (∃ m', (assign name v).run m = (.error (.unboundVariable name), m')) ↔
    ∀ e ∈ l, e.2.bound.contains name = false
  assign_unbound : ∀ name v, (∀ e ∈ l, e.2.bound.contains name = false) →
    (assign name v).run m = (.error (.unboundVariable name), m)
  assign_bound : ∀ name v e, l.binder? name = some e →
    ∃ m', (assign name v).run m = (.ok (), m') ∧
      (m'.heap.closure? e.1).map Closure.bound = some (e.2.bound.insert name v) ∧
      ∀ h, h ≠ e.1 → (m'.heap.closure? h).map Closure.bound = (m.heap.closure? h).map Closure.bound

variable {p : Program} {L : Layout p} {strict : Prop} {A : Handle → Prop} {m : Machine} {l : Ancestry} {name : String}

/-- No closure binds a name, or there is a nearest one that does. -/
theorem Ancestry.binder?_cases (l : Ancestry) (name : String) :
    (l.binder? name = none ∧ ∀ e ∈ l, e.2.bound.contains name = false) ∨
      ∃ e, l.binder? name = some e ∧ e ∈ l ∧ e.2.bound.contains name = true := by
  cases hb : l.binder? name with
  | none =>
    refine Or.inl ⟨rfl, fun e he => ?_⟩
    simp [Table.contains, Ancestry.binder?_eq_none.mp hb e he]
  | some e =>
    obtain ⟨w, hw⟩ := Ancestry.bound_of_binder? hb
    exact Or.inr ⟨e, rfl, Ancestry.mem_of_binder? hb, Table.contains_iff.mpr ⟨w, hw⟩⟩

/-- The bindings after an assignment. -/
theorem Heap.Changes.map_bound {H H' : Heap} {current binder h : Handle} {v : Value}
    (hf : H.Changes H' (Closure.assigned current binder name v ·)) :
    (H'.closure? h).map Closure.bound =
      (H.closure? h).map fun c => if h = binder then c.bound.insert name v else c.bound := by
  cases hc : H.closure? h with
  | some c => rw [hf.closure? hc, Option.map_some, Option.map_some, Closure.bound_assigned]
  | none =>
    cases hc' : H'.closure? h with
    | none => rfl
    | some c' =>
      obtain ⟨c, hold, -⟩ := hf.exists_closure? hc'
      rw [hc] at hold
      cases hold

/-- **What a sound machine does with a variable**, by whether the closures from the current one outward bind it. -/
structure Machine.Resolves (m : Machine) (l : Ancestry) (name : String) : Prop where
  unbound : l.binder? name = none → (dereference name).run m = (.error (.unboundVariable name), m) ∧
    ∀ v, (assign name v).run m = (.error (.unboundVariable name), m)
  bound : ∀ e, l.binder? name = some e →
    (∃ v w, (dereference name).run m = (.ok v, m) ∧ e.2.bound.find? name = some w ∧ (v = w ∨ v.same w = true)) ∧
    ∀ v, ∃ m', (assign name v).run m = (.ok (), m') ∧
      (m'.heap.closure? e.1).map Closure.bound = some (e.2.bound.insert name v) ∧
      ∀ h, h ≠ e.1 → (m'.heap.closure? h).map Closure.bound = (m.heap.closure? h).map Closure.bound

/-- Outside any closure nothing is bound. -/
theorem Machine.resolves_of_current_eq_none (hcurrent : m.current = none) (name : String) : m.Resolves [] name := by
  refine ⟨fun _ => ⟨?_, fun v => ?_⟩, fun e he => nomatch he⟩
  · unfold dereference
    rw [run_get_bind, hcurrent]
    rfl
  · unfold assign
    rw [run_get_bind, hcurrent]
    rfl

theorem Machine.Sound.resolves (hs : m.Sound L strict A) {h : Handle} {c : Closure} (hcurrent : m.current = some h)
    (hc : m.heap.closure? h = some c) (hl : m.heap.Lineage (some h) l) (name : String) : m.Resolves l name := by
  have hread := run_dereference name hcurrent hc
  refine ⟨fun hb => ⟨?_, fun v => hs.run_assign_of_none hcurrent hc hl hb⟩, fun e hb => ⟨?_, fun v => ?_⟩⟩
  · rw [hread, hs.heap.lookup?_eq_none hc hl hb]
  · obtain ⟨w, hw⟩ := Ancestry.bound_of_binder? hb
    obtain ⟨v, hv, hsame, -⟩ := hs.heap.lookup?_eq_some hc hl hb hw
    exact ⟨v, w, by rw [hread, hv], hw, hsame⟩
  · obtain ⟨H', hrun, hchanges⟩ := hs.run_assign_of_some (v := v) hcurrent hc hl hb
    refine ⟨_, hrun, ?_, fun j hj => ?_⟩
    · rw [hchanges.map_bound, hl.closure?_of_mem (Ancestry.mem_of_binder? hb), Option.map_some, if_pos rfl]
    · rw [hchanges.map_bound]
      simp only [hj, if_false]

/-- Machines that resolve every name along a lineage look up lexically. -/
theorem Machine.lexical_of_resolves (hl : m.heap.Lineage m.current l) (h : ∀ name, m.Resolves l name) :
    m.Lexical l := by
  refine ⟨hl, fun name => ?_, fun name e hb => ((h name).bound e hb).1, fun name v => ?_, fun name v hnone => ?_,
    fun name v e hb => ((h name).bound e hb).2 v⟩
  · rcases l.binder?_cases name with ⟨hb, hnone⟩ | ⟨e, hb, he, hbound⟩
    · refine ⟨fun ⟨v, m', hrun⟩ => ?_, fun ⟨e, he, hbound⟩ => ?_⟩
      · rw [((h name).unbound hb).1] at hrun
        cases hrun
      · rw [hnone e he] at hbound
        cases hbound
    · obtain ⟨⟨v, w, hrun, -⟩, -⟩ := (h name).bound e hb
      exact ⟨fun _ => ⟨e, he, hbound⟩, fun _ => ⟨v, m, hrun⟩⟩
  · rcases l.binder?_cases name with ⟨hb, hnone⟩ | ⟨e, hb, he, hbound⟩
    · exact ⟨fun _ => hnone, fun _ => ⟨m, ((h name).unbound hb).2 v⟩⟩
    · refine ⟨fun ⟨m', hrun⟩ => ?_, fun hnone => ?_⟩
      · obtain ⟨m'', hok, -⟩ := ((h name).bound e hb).2 v
        rw [hok] at hrun
        cases hrun
      · rw [hnone e he] at hbound
        cases hbound
  · rcases l.binder?_cases name with ⟨hb, -⟩ | ⟨e, -, he, hbound⟩
    · exact ((h name).unbound hb).2 v
    · rw [hnone e he] at hbound
      cases hbound

/-- **A sound machine looks up lexically.** -/
theorem Machine.Sound.exists_lexical (hs : m.Sound L strict A) : ∃ l, m.Lexical l := by
  obtain ⟨owner, hruns⟩ := hs.current
  cases hcurrent : m.current with
  | none => exact ⟨[], lexical_of_resolves (hcurrent ▸ .nil) (resolves_of_current_eq_none hcurrent)⟩
  | some h =>
    rw [hcurrent] at hruns
    cases hruns with
    | code _ hc =>
      obtain ⟨l, hl⟩ := hs.heap.exists_lineage hc
      exact ⟨_, lexical_of_resolves (hcurrent ▸ hl) (hs.resolves hcurrent hc hl)⟩

/-- The built-in functions make up no references. -/
theorem Registry.modest_builtins : builtins.Modest := by
  intro library function f hf H call v hv
  obtain ⟨x, rfl⟩ := (lookup_builtins hf).plain hv
  exact Or.inr fun _ _ => trivial

/-- **Look-up is lexical.** Take a program that was compiled or loaded, any settings and any sequence of moments: in
the state that the process is in then, whether it goes on or not, variables are read and changed lexically. -/
theorem Process.run_lexical {p : Program} (hp : p.Produced) {registry : Registry} (hr : registry.Modest) :
    ∃ image, Image.ofProgram p = .ok image ∧ ∀ (settings : Settings) (pid : Nat) (moments : List Moment),
      ∃ l, (Process.run settings registry pid image moments).machine.Lexical l := by
  obtain ⟨t, roots, blocks, hcompiled⟩ := hp.exists_compiled
  obtain ⟨image, himage, -⟩ := hp.exists_image
  refine ⟨image, himage, fun settings pid moments => ?_⟩
  -- nothing is asked of the calls, so the numbers of parameters do not matter
  obtain ⟨⟨A, hready⟩, -⟩ := run_ready hcompiled hcompiled.layout False himage hr (fun _ => none) False.elim settings
    pid moments False.elim
  exact hready.sound.exists_lexical

/-- A program whose closures share a variable that one of them changes. -/
theorem Process.run_lexical_counter :
    ∃ p image, Program.compile "(define (counter n) (lambda () (set! n (+ n 1)) n)) (display ((counter 1)))" = .ok p ∧
      Image.ofProgram p = .ok image ∧ ∀ (settings : Settings) (pid : Nat) (moments : List Moment),
        ∃ l, (Process.run settings Registry.builtins pid image moments).machine.Lexical l := by
  have hok : (Program.compile "(define (counter n) (lambda () (set! n (+ n 1)) n)) (display ((counter 1)))").isOk =
      true := by decide +kernel
  cases h : Program.compile "(define (counter n) (lambda () (set! n (+ n 1)) n)) (display ((counter 1)))" with
  | error e =>
    rw [h] at hok
    cases hok
  | ok p =>
    obtain ⟨image, himage, hrun⟩ := Process.run_lexical (.compiled h) Registry.modest_builtins
    exact ⟨p, image, rfl, himage, hrun⟩

end SchemeMachine
