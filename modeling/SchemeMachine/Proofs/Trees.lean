import SchemeMachine.Proofs.Closed
import SchemeMachine.Proofs.Heap.Datum
import SchemeMachine.Proofs.Lookup
import SchemeMachine.Proofs.Retention
import SchemeMachine.Proofs.Sound.Step

/-!
# Lists stay finite trees

A list holds constants that come later, or else what was there before it was made; it never changes after that. Handles
say nothing of this order, as slots are used again. But a slot is free only when no list holds its handle any more, so no
list comes to hold itself.

* `Heap.wellFounded_allocate`: a new list holds what is there, and nothing holds it yet.
* `Heap.Change.founding`: all else that happens to a heap makes no list.
* `Machine.Ready.founded_step` and `founded_deliver` are the steps, `Process.run_treelike` is the result.
-/

namespace SchemeMachine

namespace Heap

variable {H H' : Heap}

/-- Fewer lists do not hold more. -/
theorem wellFounded_of_lists (hwf : WellFounded H.Listed)
    (h : ∀ j items, H'.get? j = some (.list items) → H.get? j = some (.list items)) : WellFounded H'.Listed :=
  Subrelation.wf (fun ⟨items, ho, hmem⟩ => ⟨items, h _ items ho, hmem⟩) hwf

/-- **A new list holds what is there**, and nothing holds it yet. -/
theorem wellFounded_allocate (ht : H.Tidy) (hwf : WellFounded H.Listed)
    (hlive : ∀ j h, H.Listed j h → (H.get? j).isSome = true) {items : List Value}
    (hitems : ∀ j, .handle j ∈ items → (H.get? j).isSome = true) (r : Option Handle) :
    WellFounded (H.allocate (.list items) r).2.Listed := by
  have hlisted : ∀ {j h}, (H.allocate (.list items) r).2.Listed j h → h = H.nextSlot ∧ .handle j ∈ items ∨ H.Listed j h := by
    rintro j h ⟨others, ho, hmem⟩
    rw [get?_allocate ht] at ho
    split at ho
    · cases ho
      exact Or.inl ⟨‹_›, hmem⟩
    · exact Or.inr ⟨others, ho, hmem⟩
  have hfresh : ∀ {j}, (H.get? j).isSome = true → j ≠ H.nextSlot := by
    rintro j hj rfl
    rw [ht.get?_nextSlot] at hj
    cases hj
  -- what was there leads only to what was there
  have hold : ∀ h, h ≠ H.nextSlot → Acc (H.allocate (.list items) r).2.Listed h := by
    intro h
    induction h using hwf.induction with
    | _ h ih =>
      refine fun hne => ⟨h, fun j hj => ?_⟩
      have hj := (hlisted hj).resolve_left fun hnew => hne hnew.1
      exact ih j hj (hfresh (hlive j h hj))
  refine ⟨fun h => ⟨h, fun j hj => hold j (hfresh ?_)⟩⟩
  rcases hlisted hj with ⟨-, hmem⟩ | hj
  · exact hitems j hmem
  · exact hlive j h hj

/-- No other change makes a list. -/
def Change.founding : Heap.Change where
  Rel H H' := H'.Tidy ∧ (WellFounded H.Listed → WellFounded H'.Listed)
  refl ht := ⟨ht, id⟩
  trans h h' := ⟨h'.1, h'.2 ∘ h.2⟩
  tidy h := h.1
  allocate ht o ho r := by
    refine ⟨ht.allocate o r, fun hwf => wellFounded_of_lists hwf fun j items hj => ?_⟩
    rw [get?_allocate ht] at hj
    split at hj
    · exact absurd (Option.some.inj hj) (ho items)
    · exact hj
  put {H} ht {h c c'} hc _ := by
    refine ⟨ht.put h _, fun hwf => wellFounded_of_lists hwf fun j items hj => ?_⟩
    -- where a closure was, there is one still
    have hother : j ≠ h := by
      rintro rfl
      obtain ⟨s, hs, hobject⟩ := get?_eq_some.mp (closure?_eq_some.mp hc)
      rw [get?, slot?_put, if_pos rfl, hs] at hj
      by_cases hconstant : s.isConstant <;> simp [hconstant, hobject] at hj
    rwa [get?, slot?_put, if_neg hother] at hj

/-- Nor does a collection. -/
theorem wellFounded_collect (ht : H.Tidy) (hwf : WellFounded H.Listed) (roots : List Handle) :
    WellFounded (H.collect roots).2.Listed := by
  have hp := prunes_collect ht roots
  exact wellFounded_of_lists hwf fun j items hj => (hp.get? (hp.kept_of_get? hj)).symm.trans hj

end Heap

variable {p : Program} {L : Layout p} {strict : Prop} {A : Handle → Prop} {m : Machine}

/-- What lists of a sound heap hold is there. -/
theorem Heap.Sound.live {H : Heap} (hs : H.Sound L strict A) (j h : Handle) (hlisted : H.Listed j h) :
    (H.get? j).isSome = true := by
  obtain ⟨items, ho, hmem⟩ := hlisted
  exact (hs.objects h _ ho _ hmem).1

namespace Machine

/-- The handles on the stack are there. A procedure that waits to be closed is not on the heap. -/
theorem Ready.live_of_stack (hr : m.Ready L strict A) (hgoes : m.state = .running ∨ m.state = .sleeping) {h : Handle}
    (hh : .handle h ∈ m.stack) : (m.heap.get? h).isSome = true := by
  obtain ⟨pending, hoperands⟩ : ∃ pending, Operands A m.heap pending m.stack := by
    have hkeeps := hr.keeps
    unfold Keeps at hkeeps
    rcases hgoes with hstate | hstate <;> rw [hstate] at hkeeps
    · obtain ⟨s, -, -, -, hoperands⟩ := hkeeps
      exact ⟨_, hoperands⟩
    · obtain ⟨o, b, -, hoperands, -⟩ := hkeeps
      exact ⟨_, hoperands⟩
  cases hstack : m.stack with
  | nil => rw [hstack] at hh; cases hh
  | cons v rest =>
    rw [hstack] at hh hoperands
    obtain ⟨hrest, htop⟩ := hoperands.cons
    rcases List.mem_cons.mp hh with rfl | hh
    · rcases htop with hsettled | ⟨N, -, hlabel⟩
      · exact hsettled.1
      · cases hlabel
    · exact (hrest _ hh).1

theorem founded_collectIfDue (settings : Settings) (ht : m.heap.Tidy) (hwf : WellFounded m.heap.Listed) :
    WellFounded (m.collectIfDue settings).heap.Listed := by
  unfold collectIfDue
  cases settings.gcThreshold with
  | none => exact hwf
  | some threshold =>
    dsimp only
    split
    · exact Heap.wellFounded_collect ht hwf m.roots
    · exact hwf

/-- **No step of a ready machine makes a list hold itself.** -/
theorem Ready.founded_step (hr : m.Ready L strict A) (hwf : WellFounded m.heap.Listed) (host : Host) :
    WellFounded (Machine.step host m).machine.heap.Listed := by
  have ht := hr.sound.heap.tidy
  -- a step that is carried out; in other states nothing happens
  have hrunning : m.state = .running →
      WellFounded (Machine.stepRunning host { m with state := .running }).machine.heap.Listed := by
    intro hstate
    have hsame : ({ m with state := .running } : Machine) = m := by rw [← hstate]
    rw [hsame]
    by_cases hlimit : host.settings.maxSteps.any (· ≤ m.steps)
    · rw [stepRunning_of_limit hlimit]
      exact hwf
    cases hi : m.image.program.code[m.pc]? with
    | none =>
      rw [stepRunning_of_none hlimit hi]
      exact hwf
    | some i =>
      have hchange := changesAt_dispatch (R := .founding) (m := { m with steps := m.steps + 1 }) ht (fun items hmakes => by
        refine ⟨ht.allocate _ _, fun hwf => Heap.wellFounded_allocate ht hwf hr.sound.heap.live (fun j hj => ?_) _⟩
        -- what a primitive puts in a list was on the stack or in another list
        rcases hmakes _ hj with hstack | ⟨h, vs, ho, hmem⟩
        · exact hr.live_of_stack (.inl hstate) hstack
        · exact hr.sound.heap.live j h ⟨vs, ho, hmem⟩) host i
      obtain ⟨htidy, hwf'⟩ := hchange
      rcases hrun : (dispatch host i).run { m with steps := m.steps + 1 } with ⟨(e | written), after⟩ <;>
        rw [hrun] at htidy hwf'
      · rw [stepRunning_of_error hlimit hi hrun]
        exact hwf' hwf
      · rw [stepRunning_of_ok hlimit hi hrun]
        split <;> exact founded_collectIfDue host.settings htidy (hwf' hwf)
  unfold Machine.step
  split
  · next hstate => exact hrunning hstate
  · next hstate =>
    have hkeeps := hr.keeps
    rw [Keeps, hstate] at hkeeps
    exact hkeeps.elim
  · exact hwf

/-- **A tree stays what it is** as long as its root is there. -/
theorem Follows.unfolds {H : Heap} (hf : Follows H m)
    (hlive : ∀ j h, H.Listed j h → (H.get? j).isSome = true) {v : Value} {d : Datum} (hd : H.Unfolds v d)
    (hv : ∀ h, v = .handle h → (H.get? h).isSome = true ∧ (m.heap.get? h).isSome = true) : m.heap.Unfolds v d := by
  have hkept : ∀ {h o}, H.get? h = some o → (m.heap.get? h).isSome = true → ∃ o', m.heap.get? h = some o' ∧ o.Grows o' := by
    intro h o ho hsome
    refine (hf.objects _ _ ho).resolve_right fun hlost => ?_
    rw [hlost.1] at hsome
    cases hsome
  induction hd with
  | atom hnone => exact .atom hnone
  | @string h s ho =>
    obtain ⟨o', ho', hgrows⟩ := hkept ho (hv h rfl).2
    cases hgrows
    exact .string ho'
  | @list h vs ds ho hlength _ ih =>
    obtain ⟨o', ho', hgrows⟩ := hkept ho (hv h rfl).2
    cases hgrows
    refine .list ho' hlength fun i v d hvi hdi => ih i v d hvi hdi fun j hj => ?_
    subst hj
    have hmem := List.mem_of_getElem? hvi
    have hsome := hlive j h ⟨vs, ho, hmem⟩
    obtain ⟨o, ho''⟩ := Option.isSome_iff_exists.mp hsome
    -- a list is there with its items
    obtain ⟨o', ho', -⟩ := hf.references h _ ho nofun (hv h rfl).2 j (List.mem_filterMap.mpr ⟨_, hmem, rfl⟩) o ho''
    exact ⟨hsome, by rw [ho']; rfl⟩
  | @procedure h c ho =>
    obtain ⟨o', ho', hgrows⟩ := hkept ho (hv h rfl).2
    cases hgrows with
    | same => exact .procedure ho'
    | closure hlabel => exact hlabel ▸ .procedure ho'
  | @continuation h k ho =>
    obtain ⟨o', ho', hgrows⟩ := hkept ho (hv h rfl).2
    cases hgrows
    exact .continuation ho'
  | @missing h ho =>
    have hsome := (hv h rfl).1
    rw [ho] at hsome
    cases hsome

end Machine

/-- The constants of a compiled program hold later ones. -/
theorem Program.Compiled.founded_ofConstants {t : Tree} {roots : List Term} {blocks : List Block}
    (hp : p.Compiled t roots blocks) : WellFounded (Heap.ofConstants p.constants).Listed := by
  -- a constant holds what its items refer to, and these come later among the constants
  refine Subrelation.wf (r := fun j h => p.Refers h j) ?_ hp.lists_wellFounded
  rintro j h ⟨items, ho, hmem⟩
  rw [Heap.get?, Heap.slot?_ofConstants hp.sorted.nodup, Option.map_map] at ho
  obtain ⟨c, hc, hobject⟩ := Option.map_eq_some_iff.mp ho
  cases c with
  | string content => cases hobject
  | list operands =>
    cases hobject
    obtain ⟨operand, hoperand, hvalue⟩ := List.mem_filterMap.mp hmem
    refine ⟨operands, hc, ?_⟩
    cases operand with
    | handle g => cases hvalue; exact hoperand
    | label name => cases hvalue
    | atom a => cases a <;> cases hvalue

namespace Process

variable {t : Tree} {roots : List Term} {blocks : List Block} {image : Image} {registry : Registry}

/-- **No list of a process holds itself**, in any state that it can reach. -/
theorem run_founded (hp : p.Compiled t roots blocks) (himage : Image.ofProgram p = .ok image) (hmodest : registry.Modest)
    (settings : Settings) (pid : Nat) (moments : List Moment) :
    WellFounded (run settings registry pid image moments).machine.heap.Listed ∧
      ∀ j h, (run settings registry pid image moments).machine.heap.Listed j h →
        ((run settings registry pid image moments).machine.heap.get? j).isSome = true := by
  -- nothing is asked of the calls, so the numbers of parameters do not matter
  have hready := fun moments => (run_ready hp hp.layout False himage hmodest (fun _ => none) False.elim settings pid
    moments False.elim).1
  refine ⟨?_, fun j h hlisted => ?_⟩
  · induction moments using List.reverseRecOn with
    | nil =>
      obtain ⟨A, hr⟩ := hready []
      show WellFounded (Heap.ofConstants image.program.constants).Listed
      rw [show image.program = p from hr.sound.program]
      exact hp.founded_ofConstants
    | append_singleton moments now ih =>
      obtain ⟨A, hr⟩ := hready moments
      rw [run_append]
      unfold next
      split
      · exact (Machine.rel_deliver (R := .founding) (m := { (run settings registry pid image moments).machine with
          pending := none }) hr.sound.heap.tidy now.result).2 ih
      · -- a step makes lists of what is there, and changes none
        exact hr.founded_step ih _
  · obtain ⟨A, hr⟩ := hready moments
    exact hr.sound.heap.live j h hlisted

/-- **A tree stays what it is** in all states of a stretch, as long as its root is there in each. -/
theorem run_unfolds (hp : p.Compiled t roots blocks) (himage : Image.ofProgram p = .ok image) (hmodest : registry.Modest)
    {settings : Settings} {pid : Nat} {before stretch : List Moment} {v : Value} {d : Datum}
    (hd : (run settings registry pid image before).machine.heap.Unfolds v d)
    (hheld : ∀ early, early <+: stretch → ∀ h, v = .handle h →
      ((run settings registry pid image (before ++ early)).machine.heap.get? h).isSome = true) :
    (run settings registry pid image (before ++ stretch)).machine.heap.Unfolds v d := by
  induction stretch using List.reverseRecOn with
  | nil => rwa [List.append_nil]
  | append_singleton stretch now ih =>
    -- on the moments of the stretch: a list that is there is not changed, and neither is what it holds
    have hnow := ih fun early hearly => hheld early (hearly.trans (List.prefix_append _ _))
    obtain ⟨⟨A, hr⟩, -⟩ := run_ready hp hp.layout False himage hmodest (fun _ => none) False.elim settings pid
      (before ++ stretch) False.elim
    have hfollows := follows_next settings registry (run settings registry pid image (before ++ stretch)) now
      hr.sound.heap.tidy
    rw [← run_append, List.append_assoc] at hfollows
    exact hfollows.unfolds hr.sound.heap.live hnow fun h hv =>
      ⟨hheld _ (List.prefix_append _ _) h hv, hheld _ List.prefix_rfl h hv⟩

/-- **The lists of a process are finite trees.** Take a program that was compiled or loaded, any settings, a threshold
for collections among them, and any sequence of moments. In the state that the process is in then, whether it goes on or
not, no list holds itself at any depth, and what lists hold is there. So every value is one finite tree; it is shown and
written as this tree is, and it equals another value if the trees do. -/
theorem run_treelike (hp : p.Produced) (hmodest : registry.Modest) :
    ∃ image, Image.ofProgram p = .ok image ∧ ∀ (settings : Settings) (pid : Nat) (moments : List Moment),
      (run settings registry pid image moments).machine.heap.Treelike := by
  obtain ⟨t, roots, blocks, hcompiled⟩ := hp.exists_compiled
  obtain ⟨image, himage, -⟩ := hp.exists_image
  refine ⟨image, himage, fun settings pid moments => ?_⟩
  obtain ⟨hwf, hlive⟩ := run_founded hcompiled himage hmodest settings pid moments
  exact Heap.treelike hwf hlive

/-- A list with another one in it, made at run time while garbage is collected, equals a constant. -/
theorem run_treelike_quasiquote :
    ∃ p image, Program.compile "(define l '(b (c \"d\"))) (display (= `(a ,(cdr l)) '(a ((c \"d\")))))" = .ok p ∧
      Image.ofProgram p = .ok image ∧
      (∀ (settings : Settings) (pid : Nat) (moments : List Moment),
        (run settings Registry.builtins pid image moments).machine.heap.Treelike) ∧
      (run { gcThreshold := some 0 } Registry.builtins 0 image (List.replicate 40 ⟨{}, .ok .nothing⟩)).output = "#t" := by
  have hrun : (do
      let p ← (Program.compile "(define l '(b (c \"d\"))) (display (= `(a ,(cdr l)) '(a ((c \"d\")))))").toOption
      let image ← (Image.ofProgram p).toOption
      return (run { gcThreshold := some 0 } Registry.builtins 0 image
        (List.replicate 40 ⟨{}, .ok .nothing⟩)).output) = some "#t" := by
    decide +kernel
  cases hp : Program.compile "(define l '(b (c \"d\"))) (display (= `(a ,(cdr l)) '(a ((c \"d\")))))" with
  | error e =>
    rw [hp] at hrun
    cases hrun
  | ok p =>
    obtain ⟨image, himage, htreelike⟩ := run_treelike (.compiled hp) Registry.modest_builtins
    rw [hp] at hrun
    simp only [Except.toOption, Option.bind_eq_bind, Option.bind_some, himage, Option.pure_def, Option.some.injEq] at hrun
    exact ⟨p, image, rfl, himage, htreelike, hrun⟩

end Process

end SchemeMachine
