import SchemeMachine.Proofs.Operands.Keeping

/-!
# Amid an expression

While an expression is evaluated, the machine is in the code of the expression or in code called from there. A step keeps
it there: it gets out at the end of the expression or, in tail position, by a tail call. Only a call of a continuation
can take it anywhere else.

* `Machine.Ready.goes_step` and `Machine.Ready.way_step` carry what a line does over to a step.
* `Machine.Amid` is kept while an expression is evaluated, by `Machine.Amid.way` for the steps of the code and by
  `Machine.Amid.deliver` for the results of jobs.
* `Machine.IsIn` says the same without the lines of the code; `Machine.Amid.of_isIn` finds them again after a call of a
  continuation.
* `Process.run_amid` is about a stretch of a run: it crosses the expression, or leaves it by a tail call, or is not over
  with it.
-/

namespace SchemeMachine

open Lowering

/-- Whether a value is a continuation. -/
def Value.isContinuation (H : Heap) : Value → Bool
  | .handle h =>
    match H.get? h with
    | some (.continuation _) => true
    | _ => false
  | _ => false

/-! ### Stretches of code -/

theorem prefix_drop_append {α : Type} {l xs ys : List α} {n : Nat} (h : xs ++ ys <+: l.drop n) :
    xs <+: l.drop n ∧ ys <+: l.drop (n + xs.length) := by
  obtain ⟨rest, hrest⟩ := h
  refine ⟨⟨ys ++ rest, by rw [← hrest, List.append_assoc]⟩, ⟨rest, ?_⟩⟩
  rw [← List.drop_drop, ← hrest, List.append_assoc, List.drop_left]

theorem prefix_drop_cons {α : Type} {l xs : List α} {n : Nat} {x : α} (h : x :: xs <+: l.drop n) :
    l[n]? = some x ∧ xs <+: l.drop (n + 1) := by
  obtain ⟨⟨rest, hrest⟩, hxs⟩ := prefix_drop_append (show [x] ++ xs <+: l.drop n from h)
  refine ⟨?_, hxs⟩
  rw [← Nat.add_zero n, ← List.getElem?_drop, ← hrest]
  rfl

/-! ### Steps -/

namespace Machine

/-- **Whether a machine is about to call a continuation.** -/
def resumes (host : Host) (m : Machine) : Bool :=
  match (m.image.program.code[m.pc]?.bind Instruction.callTarget?).bind (callee? host m) with
  | some (.inr v) => decide (m.state = .running) && v.isContinuation m.heap
  | _ => false

variable {p : Program} {L : Layout p} {strict : Prop} {A : Handle → Prop} {m m' n n' : Machine} {line : Line} {host : Host}

/-- Where a line goes is about frames, place and state alone. -/
theorem Way.congr (h : Way line m m') (hframes : n.frames = m.frames) (hcurrent : n.current = m.current)
    (hpc : n.pc = m.pc) (himage : n.image = m.image) (hframes' : n'.frames = m'.frames)
    (hcurrent' : n'.current = m'.current) (hpc' : n'.pc = m'.pc) (hstate' : n'.state = m'.state) : Way line n n' := by
  cases h with
  | on hf hc hs hp =>
    exact .on (by rw [hframes', hframes, hf]) (by rw [hcurrent', hcurrent, hc]) (hstate'.trans hs)
      (by rw [hpc', hpc, himage]; exact hp)
  | calls hi hf => exact .calls hi (by rw [hframes', hcurrent, hpc, hframes, hf])
  | instead hl hf => exact .instead hl (by rw [hframes', hframes, hf])
  | back hl hf hc hp hs =>
    exact .back hl (by rw [hframes', hframes, hf]) (hcurrent'.trans hc) (hpc'.trans hp) (hstate'.trans hs)
  | ends hs => exact .ends (hstate'.trans hs)

/-- A machine is at the instruction of its line. -/
theorem Sound.instruction (hs : m.Sound L strict A) (hline : L.lines[m.pc]? = some line) :
    m.image.program.code[m.pc]? = some line.instruction := by
  rw [hs.program, ← Array.getElem?_toList, ← L.code, List.getElem?_map, hline, Option.map_some]

/-- **A step of a machine that runs** fails or comes to what its line leads to. -/
theorem Ready.leads_step (hr : m.Ready L strict A) (hstate : m.state = .running) (hline : L.lines[m.pc]? = some line)
    {Q : Machine → Prop} (hleads : Leads (dispatch host line.instruction) { m with steps := m.steps + 1 } Q) :
    (Machine.step host m).machine.state = .failed ∨ ∃ after H k peak, Q after ∧
      (Machine.step host m).machine = { after with heap := H, nextCollection := k, peakDepth := peak } := by
  have hi := hr.sound.instruction hline
  have hsame : ({ m with state := .running } : Machine) = m := by rw [← hstate]
  have hstep : Machine.step host m = Machine.stepRunning host m := by
    unfold Machine.step
    rw [hstate]
    dsimp only
    rw [hsame]
  rw [hstep]
  by_cases hlimit : host.settings.maxSteps.any (· ≤ m.steps)
  · rw [stepRunning_of_limit hlimit]
    exact Or.inl rfl
  rcases hrun : (dispatch host line.instruction).run { m with steps := m.steps + 1 } with ⟨(e | written), after⟩
  · rw [stepRunning_of_error hlimit hi hrun]
    exact Or.inl rfl
  · have hnoted : ∃ peak, (if line.instruction.isCall then after.notePeak else after) = { after with peakDepth := peak } := by
      split
      · exact ⟨_, rfl⟩
      · exact ⟨after.peakDepth, rfl⟩
    obtain ⟨peak, hnoted⟩ := hnoted
    obtain ⟨H, k, hcollected⟩ := collectIfDue_eq host.settings { after with peakDepth := peak }
    rw [stepRunning_of_ok hlimit hi hrun, hnoted, hcollected]
    exact Or.inr ⟨after, H, k, peak, hleads _ _ hrun, rfl⟩

/-- What a machine calls that is not about to call a continuation. -/
theorem Sound.not_continuation (hs : m.Sound L strict A) (hstate : m.state = .running)
    (hline : L.lines[m.pc]? = some line) (hresumes : m.resumes host = false) (tail : Bool) (target : Operand) (h : Handle)
    (k : Continuation) (htarget : line.instruction = callTo tail target)
    (hcallee : callee? host m target = some (.inr (.handle h))) : m.heap.get? h ≠ some (.continuation k) := by
  intro hk
  have htarget' : line.instruction.callTarget? = some target := Instruction.callTarget?_eq_some.mpr ⟨tail, htarget⟩
  simp [resumes, hs.instruction hline, htarget', hcallee, hstate, Value.isContinuation, hk] at hresumes

/-- **A step of a machine that runs** fails or does what its line says, unless it calls a continuation. -/
theorem Ready.goes_step (hr : m.Ready L strict A) (hstate : m.state = .running) (hline : L.lines[m.pc]? = some line)
    {parameters : String → Option Nat} (hcall : m.CallMatches L.lines parameters host)
    (hresumes : m.resumes host = false) :
    (Machine.step host m).machine.state = .failed ∨ Goes line m (Machine.step host m).machine := by
  obtain ⟨next, hflow, -⟩ := L.flows m.pc line hline
  have hleads : Leads (dispatch host line.instruction) { m with steps := m.steps + 1 }
      (Goes line { m with steps := m.steps + 1 }) :=
    leads_dispatch hflow hstate (fun tail target k => hcall hstate line hline tail target k)
      (hr.sound.not_continuation hstate hline hresumes)
  refine (hr.leads_step hstate hline hleads).imp_right ?_
  rintro ⟨after, H, k, peak, ⟨hstack, hway⟩, hstep⟩
  rw [hstep]
  exact ⟨hstack, hway.congr rfl rfl rfl rfl rfl rfl rfl rfl⟩

/-- **A step of a machine that runs** fails or goes where its line says, unless it calls a continuation. -/
theorem Ready.way_step (hr : m.Ready L strict A) (hstate : m.state = .running) (hline : L.lines[m.pc]? = some line)
    (hresumes : m.resumes host = false) :
    (Machine.step host m).machine.state = .failed ∨ Way line m (Machine.step host m).machine := by
  obtain ⟨next, hflow, -⟩ := L.flows m.pc line hline
  have hleads : Leads (dispatch host line.instruction) { m with steps := m.steps + 1 }
      (Way line { m with steps := m.steps + 1 }) :=
    way_dispatch hflow hstate (hr.sound.not_continuation hstate hline hresumes)
  refine (hr.leads_step hstate hline hleads).imp_right ?_
  rintro ⟨after, H, k, peak, hway, hstep⟩
  rw [hstep]
  exact hway.congr rfl rfl rfl rfl rfl rfl rfl rfl

/-- A closure that is still there runs the code that it ran. -/
theorem Follows.label_eq {H : Heap} (hf : Follows H m) {g : Handle} {c c' : Closure} (hc : H.closure? g = some c)
    (hc' : m.heap.closure? g = some c') : c'.label = c.label := by
  have hc' := Heap.closure?_eq_some.mp hc'
  rcases hf.objects g _ (Heap.closure?_eq_some.mp hc) with ⟨o', ho', hgrows⟩ | hlost
  · cases ho'.symm.trans hc'
    cases hgrows with
    | same => rfl
    | closure hlabel => exact hlabel
  · cases hlost.1.symm.trans hc'

/-- The result of a job goes to the code that has called. -/
theorem exists_deliver (hstate : m.state = .sleeping) {f : Frame} {fs : List Frame} (hframes : m.frames = f :: fs)
    (result : Except NativeError NativeOutput) :
    ∃ v H, m.deliver result = { m with
      heap := H, stack := v :: m.stack, current := f.closure, pc := f.returnAddress, frames := fs,
      state := .running } := by
  have hresult : ∃ v H, resultValue m result = (v, { m with heap := H }) := by
    rcases result with e | (x | b | content | _) <;> exact ⟨_, _, rfl⟩
  obtain ⟨v, H, hresult⟩ := hresult
  refine ⟨v, H, ?_⟩
  unfold deliver
  rw [hresult]
  simp only [doReturn, run_modify, hframes, hstate, if_true]

end Machine

/-! ### Calls under way -/

section

variable {p : Program} {L : Layout p} {A A' : Handle → Prop} {H H' : Heap} {o o' : Option String} {fs : List Frame}
  {b b' : Nat}

/-- The code that a closure runs. -/
theorem Runs.exists_closure {h : Handle} (hruns : Runs A H (some h) o) :
    ∃ c, H.closure? h = some c ∧ o = some c.label := by
  cases hruns with
  | code _ hc => exact ⟨_, hc, rfl⟩

namespace Stacked

/-- Calls under way determine how many operands belong to them. -/
theorem unique (h : Stacked L A H o fs b) (h' : Stacked L A' H' o' fs b') : b = b' := by
  induction h generalizing o' b' with
  | start =>
    cases h'
    rfl
  | frame hline hspot _ _ ih =>
    cases h' with
    | frame hline' hspot' _ hrest' =>
      cases hline.symm.trans hline'
      cases hspot.symm.trans hspot'
      rw [ih hrest']

/-- **One of the calls under way**: the code that it was made from, which has operands below those of later calls. -/
theorem of_append {G : List Frame} {f : Frame} (h : Stacked L A H o (G ++ f :: fs) b) :
    ∃ line below e b', L.lines[f.returnAddress]? = some line ∧ line.spot = ⟨below, e + 1, none⟩ ∧
      Runs A H f.closure below ∧ Stacked L A H below fs b' ∧ e + b' ≤ b := by
  induction G generalizing o b with
  | nil =>
    cases h with
    | frame hline hspot hruns hrest => exact ⟨_, _, _, _, hline, hspot, hruns, hrest, Nat.le_refl _⟩
  | cons g G ih =>
    cases h with
    | frame _ _ _ hrest =>
      obtain ⟨line, below, e, b', hline, hspot, hruns, hstacked, hle⟩ := ih hrest
      exact ⟨line, below, e, b', hline, hspot, hruns, hstacked, hle.trans (Nat.le_add_left _ _)⟩

/-- Calls made from a call have operands of their own. -/
theorem le_of_append {G : List Frame} {f : Frame} {line : Line} {below : Option String} {e : Nat}
    (h : Stacked L A H o (G ++ f :: fs) b) (hbase : Stacked L A' H' o' fs b')
    (hline : L.lines[f.returnAddress]? = some line) (hspot : line.spot = ⟨below, e + 1, none⟩) : e + b' ≤ b := by
  obtain ⟨line', below', e', b'', hline', hspot', -, hstacked, hle⟩ := h.of_append
  cases hline.symm.trans hline'
  cases hspot.symm.trans hspot'
  rwa [← hstacked.unique hbase]

end Stacked

end

/-- The calls under way of a machine that is ready. -/
theorem Machine.Ready.exists_stacked {p : Program} {L : Layout p} {strict : Prop} {A : Handle → Prop} {m : Machine}
    (hr : m.Ready L strict A) (hgoes : m.state = .running ∨ m.state = .sleeping) :
    ∃ o b, Stacked L A m.heap o m.frames b := by
  have hkeeps := hr.keeps
  unfold Keeps at hkeeps
  rcases hgoes with hstate | hstate <;> rw [hstate] at hkeeps
  · obtain ⟨_, -, -, ⟨b, hstacked, -⟩, -⟩ := hkeeps
    exact ⟨_, b, hstacked⟩
  · obtain ⟨o, b, hstacked, -⟩ := hkeeps
    exact ⟨_, b, hstacked⟩

/-! ### The evaluation of an expression -/

/-- **An expression of the code at `o`**, in tail position or not: lines from `start` on that keep to their operands, of
which there are `d` below. -/
structure Layout.Expression {p : Program} (L : Layout p) (o : String) (tail : Bool) (d start : Nat) (ls : List Line) :
    Prop where
  lines : ls <+: L.lines.drop start
  keeping : ∀ line ∈ ls, line.Keeping ls o tail d

/-- The lines of an expression are lines of the program. -/
theorem Layout.Expression.getElem? {p : Program} {L : Layout p} {o : String} {tail : Bool} {d start : Nat}
    {ls : List Line} (he : L.Expression o tail d start ls) {k : Nat} (hk : k < ls.length) :
    L.lines[start + k]? = ls[k]? := by
  obtain ⟨rest, hrest⟩ := he.lines
  rw [← List.getElem?_drop, ← hrest, List.getElem?_append_left hk]

/-- The first line of an expression. -/
theorem Layout.Expression.exists_first {p : Program} {L : Layout p} {o : String} {tail : Bool} {d start : Nat}
    {ls : List Line} (he : L.Expression o tail d start ls) {P : Plan} {s s' : Spot} (hchain : Chain p P s ls s')
    (hls : ls ≠ []) : ∃ line, L.lines[start]? = some line ∧ line.spot = s := by
  cases hchain with
  | nil => exact absurd rfl hls
  | cons => exact ⟨_, he.getElem? (k := 0) (Nat.zero_lt_succ _), rfl⟩

/-- A place that the code comes to: the line before goes on to it, or it has operands, as where a call comes back. -/
def Layout.Entered {p : Program} (L : Layout p) (place : Nat) : Prop :=
  (∃ pc line, pc + 1 = place ∧ L.lines[pc]? = some line ∧ line.falls = true) ∨
  ∃ line, L.lines[place]? = some line ∧ 0 < line.spot.depth

/-- A place in an expression has one of its lines. -/
theorem Layout.Expression.mem_of_place {p : Program} {L : Layout p} {o : String} {tail : Bool} {d start place : Nat}
    {ls : List Line} (he : L.Expression o tail d start ls) (hstart : start ≤ place) (hstop : place < start + ls.length)
    {line : Line} (hline : L.lines[place]? = some line) : line ∈ ls := by
  have hthere := he.getElem? (k := place - start) (by omega)
  rw [Nat.add_sub_cancel' hstart, hline] at hthere
  exact List.mem_of_getElem? hthere.symm

namespace Machine

/-- **A machine that has come back** to where another was, at the place after an expression: no more calls are under way
than there. -/
def IsBack (s m : Machine) (place : Nat) : Prop :=
  m.state = .running ∧ m.pc = place ∧ m.frames.length = s.frames.length

instance (s m : Machine) (place : Nat) : Decidable (s.IsBack m place) :=
  inferInstanceAs (Decidable (_ ∧ _ ∧ _))

/-- **A machine at a place of the code that `s` runs**, in the same closure and with the same calls under way. -/
structure IsAt (s m : Machine) (place : Nat) : Prop where
  running : m.state = .running
  frames : m.frames = s.frames
  current : m.current = s.current
  place : m.pc = place

/-- **A machine that is in the code between two places**, as `s` was: at one of these places, or in a call that comes
back there. -/
def IsIn (s m : Machine) (start stop : Nat) : Prop :=
  (∃ place, s.IsAt m place ∧ start ≤ place ∧ place < stop) ∨
  ∃ G f, m.frames = G ++ f :: s.frames ∧ f.closure = s.current ∧ start ≤ f.returnAddress ∧ f.returnAddress ≤ stop

/-- **A machine that is about to leave the code between two places** by a tail call. -/
def Leaves (s m : Machine) (start stop : Nat) : Prop :=
  ∃ place target, s.IsAt m place ∧ start ≤ place ∧ place < stop ∧
    m.image.program.code[place]? = some (callTo true target)

/-- **A machine amid an expression**, the lines `ls` from `start` on of the code at `o`, which `s` has begun to
evaluate. -/
inductive Amid {p : Program} (L : Layout p) (o : String) (d start : Nat) (ls : List Line) (s m : Machine) : Prop
  /-- In the lines themselves, or just after them. -/
  | inside {line : Line} (hstate : m.state = .running) (hframes : m.frames = s.frames) (hcurrent : m.current = s.current)
      (hstart : start ≤ m.pc) (hstop : m.pc ≤ start + ls.length) (hline : L.lines[m.pc]? = some line)
      (howner : line.spot.owner = some o)
  /-- In code called from one of the lines. -/
  | called {G : List Frame} {f : Frame} {line : Line} {e : Nat} (hframes : m.frames = G ++ f :: s.frames)
      (hclosure : f.closure = s.current) (hstart : start ≤ f.returnAddress) (hstop : f.returnAddress ≤ start + ls.length)
      (hline : L.lines[f.returnAddress]? = some line) (hspot : line.spot = ⟨some o, e + 1, none⟩) (he : d ≤ e)

namespace Amid

variable {p : Program} {L : Layout p} {strict : Prop} {A : Handle → Prop} {o : String} {tail : Bool} {d start : Nat}
  {ls : List Line} {s m m' : Machine} {line : Line}

/-- Before its end a machine amid an expression is in the code of it. -/
theorem isIn (h : Amid L o d start ls s m) (hbefore : ¬s.IsBack m (start + ls.length)) :
    s.IsIn m start (start + ls.length) := by
  cases h with
  | inside hstate hframes hcurrent hstart hstop _ _ =>
    refine Or.inl ⟨m.pc, ⟨hstate, hframes, hcurrent, rfl⟩, hstart, Nat.lt_of_le_of_ne hstop fun hpc => ?_⟩
    exact hbefore ⟨hstate, hpc, by rw [hframes]⟩
  | called hframes hclosure hstart hstop _ _ _ => exact Or.inr ⟨_, _, hframes, hclosure, hstart, hstop⟩

/-- At its end it is in the closure and with the calls that it was in at the start. -/
theorem isAt (h : Amid L o d start ls s m) (hback : s.IsBack m (start + ls.length)) : s.IsAt m (start + ls.length) := by
  obtain ⟨hstate, hpc, hlength⟩ := hback
  cases h with
  | inside _ hframes hcurrent _ _ _ _ => exact ⟨hstate, hframes, hcurrent, hpc⟩
  | called hframes =>
    rw [hframes, List.length_append, List.length_cons] at hlength
    omega

/-- **The lines of the code go on amid the expression**, before its end. In tail position, a tail call leaves it. -/
theorem way (h : Amid L o d start ls s m) (hs : m.Sound L strict A) (he : L.Expression o tail d start ls)
    (hstate : m.state = .running) (hline : L.lines[m.pc]? = some line) (hway : Way line m m')
    (hbefore : ¬s.IsBack m (start + ls.length)) :
    m'.state = .stopped ∨
    (Amid L o d start ls s m' ∧ (s.IsBack m' (start + ls.length) → L.Entered (start + ls.length))) ∨
    tail = true ∧ s.Leaves m start (start + ls.length) := by
  obtain ⟨next, hflow, hnext⟩ := L.flows m.pc line hline
  -- with calls under way that were not there at the start, the machine is not back
  have hnot {G : List Frame} {f : Frame} (hf : m'.frames = G ++ f :: s.frames) : ¬s.IsBack m' (start + ls.length) := by
    rintro ⟨-, -, hlength⟩
    rw [hf, List.length_append, List.length_cons] at hlength
    omega
  cases h with
  | inside _ hframes hcurrent hstart hstop hline' howner =>
    cases hline.symm.trans hline'
    -- it is in the code of the expression, at a line of it
    have hlt : m.pc < start + ls.length :=
      Nat.lt_of_le_of_ne hstop fun hpc => hbefore ⟨hstate, hpc, by rw [hframes]⟩
    obtain ⟨htaken, hleaves, hjumps⟩ := he.keeping line (he.mem_of_place hstart hlt hline) howner
    have hleft (hl : line.leaves = true) : tail = true ∧ s.Leaves m start (start + ls.length) := by
      obtain ⟨htail, target, hi⟩ := hleaves hl
      exact ⟨htail, m.pc, target, ⟨hstate, hframes, hcurrent, rfl⟩, hstart, hlt, hi ▸ hs.instruction hline⟩
    cases hway with
    | on hf hc hstate' hpc =>
      rcases hpc with ⟨hfalls, hpc⟩ | ⟨name, hname, hplace⟩
      · -- going on to the next line
        obtain ⟨s', hs', hsame⟩ := hflow.exists_next hfalls
        obtain ⟨line', hline', rfl⟩ := hnext s' hs'
        refine Or.inr (Or.inl ⟨.inside hstate' (hf.trans hframes) (hc.trans hcurrent) (by omega) (by omega)
          (by rw [hpc]; exact hline') (hsame.trans howner), fun hback => ?_⟩)
        exact Or.inl ⟨m.pc, line, hpc.symm.trans hback.2.1, hline, hfalls⟩
      · -- a jump goes to a label within the expression
        obtain ⟨label, hlabel, hi⟩ := hjumps name hname
        obtain ⟨k, hk⟩ := List.getElem?_of_mem hlabel
        have hklt := (List.getElem?_eq_some_iff.mp hk).1
        have hthere : L.lines[start + k]? = some label := (he.getElem? hklt).trans hk
        have hpc : start + k = m'.pc :=
          Option.some.inj (((L.find?_eq_some hs.labels).mpr ⟨label, hthere, hi⟩).symm.trans hplace)
        obtain ⟨s', hat, hsame⟩ := hflow.at_jump hname
        obtain ⟨pc, line', hpc', hline', -, rfl⟩ := L.exists_place hs.labels hat
        cases hpc'.symm.trans hplace
        refine Or.inr (Or.inl ⟨.inside hstate' (hf.trans hframes) (hc.trans hcurrent) (by omega) (by omega) hline'
          (hsame.trans howner), fun hback => ?_⟩)
        have := hback.2.1
        omega
    | calls hi hf =>
      obtain ⟨e, hdepth, rfl⟩ := hflow.of_call hi
      obtain ⟨line', hline', hspot⟩ := hnext _ rfl
      rw [howner] at hspot
      have hf' : m'.frames = [] ++ ⟨m.current, m.pc + 1⟩ :: s.frames := by rw [hf, hframes, List.nil_append]
      exact Or.inr (Or.inl ⟨.called hf' hcurrent (Nat.le_succ_of_le hstart) hlt hline' hspot (by omega),
        fun hback => absurd hback (hnot hf')⟩)
    | instead hl _ => exact Or.inr (Or.inr (hleft hl))
    | back hl _ _ _ _ => exact Or.inr (Or.inr (hleft hl))
    | ends hstate' => exact Or.inl hstate'
  | @called G f line' e hframes hclosure hstart hstop hline' hspot hd =>
    -- a call that it has made is under way, and nothing there ends the expression
    have hcalled {G' : List Frame} (hf : m'.frames = G' ++ f :: s.frames) :
        Amid L o d start ls s m' ∧ (s.IsBack m' (start + ls.length) → L.Entered (start + ls.length)) :=
      ⟨.called hf hclosure hstart hstop hline' hspot hd, fun hback => absurd hback (hnot hf)⟩
    cases hway with
    | on hf _ _ _ => exact Or.inr (Or.inl (hcalled (hf.trans hframes)))
    | calls _ hf =>
      have hf' : m'.frames = (⟨m.current, m.pc + 1⟩ :: G) ++ f :: s.frames := by rw [hf, hframes, List.cons_append]
      exact Or.inr (Or.inl (hcalled hf'))
    | instead _ hf => exact Or.inr (Or.inl (hcalled (hf.trans hframes)))
    | back _ hf hc hpc hstate' =>
      -- a return: from the call that the expression made, or from one above it
      have hreturned := hframes.symm.trans hf
      cases G with
      | nil =>
        obtain ⟨rfl, hrest⟩ := List.cons.inj hreturned
        refine Or.inr (Or.inl ⟨.inside hstate' hrest.symm (hc.trans hclosure) (by omega) (by omega)
          (by rw [hpc]; exact hline') (by rw [hspot]), fun hback => ?_⟩)
        exact Or.inr ⟨line', by rw [← hback.2.1, hpc]; exact hline', by rw [hspot]; exact Nat.succ_pos e⟩
      | cons g G => exact Or.inr (Or.inl (hcalled (List.cons.inj hreturned).2.symm))
    | ends hstate' => exact Or.inl hstate'

/-- **The result of a job** amid an expression. -/
theorem deliver (h : Amid L o d start ls s m) (hstate : m.state = .sleeping)
    (result : Except NativeError NativeOutput) :
    let m' := { m with pending := none }.deliver result
    Amid L o d start ls s m' ∧ (s.IsBack m' (start + ls.length) → L.Entered (start + ls.length)) ∧ m.stack <:+ m'.stack := by
  cases h with
  | inside hrunning =>
    rw [hstate] at hrunning
    cases hrunning
  | @called G f line e hframes hclosure hstart hstop hline hspot he =>
    cases G with
    | nil =>
      obtain ⟨v, H, hdeliver⟩ := exists_deliver (m := { m with pending := none }) hstate hframes result
      dsimp only
      rw [hdeliver]
      refine ⟨.inside rfl rfl hclosure hstart hstop hline (by rw [hspot]), fun hback => ?_, List.suffix_cons _ _⟩
      exact Or.inr ⟨line, by rw [← hback.2.1]; exact hline, by rw [hspot]; exact Nat.succ_pos e⟩
    | cons g G =>
      obtain ⟨v, H, hdeliver⟩ := exists_deliver (m := { m with pending := none }) hstate hframes result
      dsimp only
      rw [hdeliver]
      refine ⟨.called rfl hclosure hstart hstop hline hspot he, fun hback => ?_, List.suffix_cons _ _⟩
      have hlength : (G ++ f :: s.frames).length = s.frames.length := hback.2.2
      rw [List.length_append, List.length_cons] at hlength
      omega

/-- The closure that evaluates an expression runs the code that the expression is in. -/
theorem exists_owner (h : Amid L o d start ls s m) (hr : m.Ready L strict A)
    (hgoes : m.state = .running ∨ m.state = .sleeping) :
    ∃ g c, s.current = some g ∧ m.heap.closure? g = some c ∧ c.label = o := by
  have hruns : Runs A m.heap s.current (some o) := by
    cases h with
    | inside hrunning _ hcurrent _ _ hline howner =>
      have hkeeps := hr.keeps
      unfold Keeps at hkeeps
      rw [hrunning] at hkeeps
      obtain ⟨_, ⟨line', hline', rfl⟩, hruns, -⟩ := hkeeps
      cases hline.symm.trans hline'
      rwa [howner, hcurrent] at hruns
    | called hframes hclosure _ _ hline hspot _ =>
      obtain ⟨o', b, hstacked⟩ := hr.exists_stacked hgoes
      obtain ⟨line', below, e, b', hline', hspot', hruns, -⟩ := (hframes ▸ hstacked).of_append
      cases hline.symm.trans hline'
      cases hspot.symm.trans hspot'
      rwa [hclosure] at hruns
  generalize s.current = current at hruns
  cases hruns with
  | code _ hc => exact ⟨_, _, rfl, hc, rfl⟩

/-- **A machine that is ready is amid an expression** if it is in the code of its lines. -/
theorem of_isIn (hin : s.IsIn m start (start + ls.length)) (hr : m.Ready L strict A)
    (hgoes : m.state = .running ∨ m.state = .sleeping) {g : Handle} (hcurrent : s.current = some g)
    (howner : ∀ c, m.heap.closure? g = some c → c.label = o) :
    Amid L o 0 start ls s m ∧ ¬s.IsBack m (start + ls.length) := by
  rcases hin with ⟨place, hat, hstart, hstop⟩ | ⟨G, f, hframes, hclosure, hstart, hstop⟩
  · have hkeeps := hr.keeps
    unfold Keeps at hkeeps
    rw [hat.running] at hkeeps
    obtain ⟨_, ⟨line, hline, rfl⟩, hruns, -⟩ := hkeeps
    rw [hat.current, hcurrent] at hruns
    obtain ⟨c, hc, hlabel⟩ := hruns.exists_closure
    have hpc := hat.place
    refine ⟨.inside hat.running hat.frames hat.current (by omega) (by omega) hline (by rw [hlabel, howner c hc]), ?_⟩
    rintro ⟨-, hpc', -⟩
    omega
  · obtain ⟨o', b, hstacked⟩ := hr.exists_stacked hgoes
    obtain ⟨line, below, e, b', hline, hspot, hruns, -⟩ := (hframes ▸ hstacked).of_append
    rw [hclosure, hcurrent] at hruns
    obtain ⟨c, hc, hlabel⟩ := hruns.exists_closure
    refine ⟨.called hframes hclosure hstart hstop hline (by rw [hspot, hlabel, howner c hc]) (Nat.zero_le e), ?_⟩
    rintro ⟨-, -, hlength⟩
    rw [hframes, List.length_append, List.length_cons] at hlength
    omega

end Amid

end Machine

/-! ### Runs -/

namespace Process

section

variable (settings : Settings) (registry : Registry) (pid : Nat) (image : Image)

/-- **A stretch of a run that crosses the code between two places**, in the closure and with the calls that `s` has: until
the machine is at the second place, it is in the code between them. -/
structure Crosses (s : Machine) (start stop : Nat) (before stretch : List Moment) : Prop where
  begins : s.IsAt (run settings registry pid image before).machine start
  inside : ∀ early, early <+: stretch → early ≠ stretch →
    s.IsIn (run settings registry pid image (before ++ early)).machine start stop
  ends : s.IsAt (run settings registry pid image (before ++ stretch)).machine stop

/-- **A stretch of a run that leaves the code between two places** by a tail call, at the moment `now`. -/
inductive Escapes (s : Machine) (start stop : Nat) (before : List Moment) : List Moment → Prop
  | intro {early late : List Moment} {now : Moment}
      (inside : ∀ sooner, sooner <+: early →
        s.IsIn (run settings registry pid image (before ++ sooner)).machine start stop)
      (leaves : s.Leaves (run settings registry pid image (before ++ early)).machine start stop) :
      Escapes s start stop before (early ++ now :: late)

end

variable {p : Program} {settings : Settings} {registry : Registry} {pid : Nat} {image : Image} {L : Layout p}
  {s : Machine} {before stretch : List Moment} {start stop : Nat}

theorem Escapes.append (h : Escapes settings registry pid image s start stop before stretch) (later : List Moment) :
    Escapes settings registry pid image s start stop before (stretch ++ later) := by
  cases h with
  | intro inside leaves =>
    rw [List.append_assoc]
    exact .intro inside leaves

/-- A machine that is over stays so. -/
theorem run_over (hover : (run settings registry pid image before).machine.state = .stopped ∨
    (run settings registry pid image before).machine.state = .failed) (stretch : List Moment) :
    (run settings registry pid image (before ++ stretch)).machine.state = .stopped ∨
    (run settings registry pid image (before ++ stretch)).machine.state = .failed := by
  induction stretch using List.reverseRecOn with
  | nil => rwa [List.append_nil]
  | append_singleton stretch now ih =>
    have hidle : (run settings registry pid image (before ++ stretch ++ [now])).machine =
        (run settings registry pid image (before ++ stretch)).machine := by
      rw [run_append]
      unfold next
      rcases ih with hstate | hstate <;>
      · rw [hstate]
        dsimp only
        rw [Machine.step, hstate]
    rwa [← List.append_assoc, hidle]

variable {o : String} {tail : Bool} {ls : List Line} (he : L.Expression o tail 0 start ls)
  (hready : ∀ moments, ∃ A, (run settings registry pid image moments).machine.Ready L False A)
include he hready

/-- **A moment amid an expression**, before its end: the machine is amid it still, or at its end, or leaves it by a tail
call, or is over. -/
theorem amid_next {now : Moment}
    (hamid : s.Amid L o 0 start ls (run settings registry pid image before).machine)
    (hbefore : ¬s.IsBack (run settings registry pid image before).machine (start + ls.length))
    (hstays : (run settings registry pid image before).machine.resumes (hostAt settings registry now) = true →
      s.IsIn (run settings registry pid image (before ++ [now])).machine start (start + ls.length)) :
    let m := (run settings registry pid image (before ++ [now])).machine
    (m.state = .stopped ∨ m.state = .failed) ∨
    (s.Amid L o 0 start ls m ∧ (s.IsBack m (start + ls.length) → L.Entered (start + ls.length))) ∨
    tail = true ∧ s.Leaves (run settings registry pid image before).machine start (start + ls.length) := by
  obtain ⟨A, hr⟩ := hready before
  obtain ⟨A', hr'⟩ := hready (before ++ [now])
  dsimp only
  -- whether the machine runs decides what the moment is: a step, a result, or nothing
  cases hstate : (run settings registry pid image before).machine.state with
  | suspended =>
    have hkeeps := hr.keeps
    unfold Machine.Keeps at hkeeps
    rw [hstate] at hkeeps
    exact hkeeps.elim
  | stopped => exact Or.inl (run_over (Or.inl hstate) [now])
  | failed => exact Or.inl (run_over (Or.inr hstate) [now])
  | sleeping =>
    rw [run_append]
    unfold next
    rw [hstate]
    obtain ⟨hamid', hentered, -⟩ := hamid.deliver hstate now.result
    exact Or.inr (Or.inl ⟨hamid', hentered⟩)
  | running =>
    have hmachine : (run settings registry pid image (before ++ [now])).machine =
        (Machine.step (hostAt settings registry now) (run settings registry pid image before).machine).machine := by
      rw [run_append, next_machine hstate]
    cases hresumes : (run settings registry pid image before).machine.resumes (hostAt settings registry now) with
    | false =>
      have hkeeps := hr.keeps
      unfold Machine.Keeps at hkeeps
      rw [hstate] at hkeeps
      obtain ⟨_, ⟨line, hline, -⟩, -⟩ := hkeeps
      rw [hmachine]
      rcases hr.way_step hstate hline hresumes with hfailed | hway
      · exact Or.inl (Or.inr hfailed)
      · exact (hamid.way hr.sound he hstate hline hway hbefore).imp_left Or.inl
    | true =>
      -- a continuation is resumed: it has to come back to the expression, in the same closure
      obtain ⟨g, c, hcurrent, hc, hlabel⟩ := hamid.exists_owner hr (Or.inl hstate)
      have howner : ∀ c', (run settings registry pid image (before ++ [now])).machine.heap.closure? g = some c' →
          c'.label = o := by
        intro c' hc'
        rw [hmachine] at hc'
        exact ((Machine.follows_step _ hr.sound.heap.tidy).label_eq hc hc').trans hlabel
      have hgoes : (run settings registry pid image (before ++ [now])).machine.state = .running ∨
          (run settings registry pid image (before ++ [now])).machine.state = .sleeping ∨
          (run settings registry pid image (before ++ [now])).machine.state = .stopped ∨
          (run settings registry pid image (before ++ [now])).machine.state = .failed := by
        have hkeeps := hr'.keeps
        unfold Machine.Keeps at hkeeps
        generalize (run settings registry pid image (before ++ [now])).machine.state = state at hkeeps
        cases state <;> simp_all
      rcases hgoes with hgoes | hgoes | hover
      · obtain ⟨hamid', hnot⟩ := Machine.Amid.of_isIn (hstays hresumes) hr' (Or.inl hgoes) hcurrent howner
        exact Or.inr (Or.inl ⟨hamid', fun hback => absurd hback hnot⟩)
      · obtain ⟨hamid', hnot⟩ := Machine.Amid.of_isIn (hstays hresumes) hr' (Or.inr hgoes) hcurrent howner
        exact Or.inr (Or.inl ⟨hamid', fun hback => absurd hback hnot⟩)
      · exact Or.inl hover

/-- **A stretch of a run that begins an expression** crosses it, or leaves it by a tail call, or is amid it all along, or
ends with a machine that is over. -/
theorem run_amid (hls : ls ≠ []) {line : Line} (hline : L.lines[start]? = some line) (howner : line.spot.owner = some o)
    (hat : s.IsAt (run settings registry pid image before).machine start)
    (hstays : ∀ early now, early ++ [now] <+: stretch →
      (run settings registry pid image (before ++ early)).machine.resumes (hostAt settings registry now) = true →
      s.IsIn (run settings registry pid image (before ++ early)).machine start (start + ls.length) →
      s.IsIn (run settings registry pid image (before ++ (early ++ [now]))).machine start (start + ls.length)) :
    (L.Entered (start + ls.length) ∧ ∃ first rest, stretch = first ++ rest ∧
      Crosses settings registry pid image s start (start + ls.length) before first) ∨
    (tail = true ∧ Escapes settings registry pid image s start (start + ls.length) before stretch) ∨
    (∀ early, early <+: stretch →
      s.Amid L o 0 start ls (run settings registry pid image (before ++ early)).machine ∧
      ¬s.IsBack (run settings registry pid image (before ++ early)).machine (start + ls.length)) ∨
    (run settings registry pid image (before ++ stretch)).machine.state = .stopped ∨
    (run settings registry pid image (before ++ stretch)).machine.state = .failed := by
  induction stretch using List.reverseRecOn with
  | nil =>
    have hlength := List.length_pos_of_ne_nil hls
    refine Or.inr (Or.inr (Or.inl fun early hearly => ?_))
    rw [List.prefix_nil.mp hearly, List.append_nil]
    refine ⟨.inside hat.running hat.frames hat.current (Nat.le_of_eq hat.place.symm) (by rw [hat.place]; omega)
      (by rw [hat.place]; exact hline) howner, ?_⟩
    rintro ⟨-, hpc, -⟩
    have := hat.place
    omega
  | append_singleton stretch now ih =>
    -- what has been settled before stays so; only a machine that is amid the expression moves
    rcases ih fun early now' h => hstays early now' (h.trans (List.prefix_append _ _)) with
      ⟨hentered, first, rest, rfl, hcrosses⟩ | ⟨htail, hescapes⟩ | hall | hover
    · exact Or.inl ⟨hentered, first, rest ++ [now], List.append_assoc _ _ _, hcrosses⟩
    · exact Or.inr (Or.inl ⟨htail, hescapes.append [now]⟩)
    · obtain ⟨hamid, hbefore⟩ := hall stretch List.prefix_rfl
      have hinside : ∀ early, early <+: stretch →
          s.IsIn (run settings registry pid image (before ++ early)).machine start (start + ls.length) :=
        fun early hearly => (hall early hearly).1.isIn (hall early hearly).2
      have hstay (hresumes : (run settings registry pid image (before ++ stretch)).machine.resumes
          (hostAt settings registry now) = true) :
          s.IsIn (run settings registry pid image (before ++ stretch ++ [now])).machine start (start + ls.length) := by
        rw [List.append_assoc]
        exact hstays stretch now List.prefix_rfl hresumes (hinside stretch List.prefix_rfl)
      have hnext := amid_next he hready hamid hbefore hstay
      rw [List.append_assoc] at hnext
      rcases hnext with hover | ⟨hamid', hentered⟩ | ⟨htail, hleaves⟩
      · exact Or.inr (Or.inr (Or.inr hover))
      · -- it is amid the expression still, unless it has just come to its end
        by_cases hback : s.IsBack (run settings registry pid image (before ++ (stretch ++ [now]))).machine
          (start + ls.length)
        · refine Or.inl ⟨hentered hback, stretch ++ [now], [], (List.append_nil _).symm, hat, fun early hearly hne => ?_,
            hamid'.isAt hback⟩
          exact hinside early ((List.prefix_concat_iff.mp hearly).resolve_left hne)
        · refine Or.inr (Or.inr (Or.inl fun early hearly => ?_))
          rcases List.prefix_concat_iff.mp hearly with rfl | hearly
          · exact ⟨hamid', hback⟩
          · exact hall early hearly
      · exact Or.inr (Or.inl ⟨htail, .intro hinside hleaves⟩)
    · rw [← List.append_assoc]
      exact Or.inr (Or.inr (Or.inr (run_over hover [now])))

end Process

end SchemeMachine
