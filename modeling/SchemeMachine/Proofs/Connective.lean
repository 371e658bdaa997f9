import SchemeMachine.Proofs.Layout.Occurrence
import SchemeMachine.Proofs.Operands.Evaluation

/-!
# The value of `and` and `or`

The clauses of `and` and `or` are evaluated one after the other until one decides. The value is a boolean, whatever the
clauses have left. There is one exception: the last clause of a form in tail position may end in tail calls. Then the
lambda is left from within that clause, and returns what is called in its place.

* `Process.Gives` is a stretch of a run in which a clause is evaluated to a value, `Process.Passed` one in which clauses
  are evaluated and none decides, `Process.Stopped` one up to the clause that does.
* `Process.Completes` is a stretch in which a form is evaluated to the end. A continuation may be called on the way if it
  goes on in the clause that calls it.
* `Process.run_clauses` goes along the clauses; each of them is left at its end or by a tail call (`Process.run_clause`).
* `Process.run_connective` is the result, `Process.run_connective_tail` an `and` that is left by a tail call. Every form
  that is evaluated has a place as it is asked for there (`Program.exists_place`).
-/

namespace SchemeMachine

open Lowering Piece

/-! ### Clauses -/

namespace Piece

/-- The clauses of `and` and `or`. -/
def clauses : Piece → List Piece
  | .connective _ _ clauses last _ => clauses ++ [last]
  | _ => []

/-- The place after clauses, each with its jump. -/
def after (start : Nat) : List Piece → Nat
  | [] => start
  | q :: qs => after (start + q.value.length + 1) qs

/-- The places of clauses: where the code of each starts and stops. -/
def spans (start : Nat) : List Piece → List (Nat × Nat)
  | [] => []
  | q :: qs => (start, start + q.value.length) :: spans (start + q.value.length + 1) qs

theorem le_after (start : Nat) (qs : List Piece) : start ≤ after start qs := by
  induction qs generalizing start with
  | nil => exact Nat.le_refl start
  | cons q qs ih =>
    have := ih (start + q.value.length + 1)
    rw [after]
    omega

theorem spans_append (start : Nat) (early late : List Piece) : spans start early ⊆ spans start (early ++ late) := by
  induction early generalizing start with
  | nil => exact List.nil_subset _
  | cons q early ih => exact List.cons_subset_cons _ (ih _)

theorem mem_spans (start : Nat) (early late : List Piece) (q : Piece) :
    (after start early, after start early + q.value.length) ∈ spans start (early ++ q :: late) := by
  induction early generalizing start with
  | nil => exact List.mem_cons_self
  | cons q' early ih => exact List.mem_cons_of_mem _ (ih _)

/-- The lines of a value are its instructions. -/
theorem length_valuedLines (o : String) (d : Nat) (q : Piece) :
    (valuedLines o d q.yields (q.lines o d)).length = q.value.length := by
  rw [value, ← map_valuedLines (o := o) (d := d) (map_lines (o := o) q d), List.length_map]

/-- The lines of clauses and their jumps end at the place after them. -/
theorem length_linesThen (o : String) (d start : Nat) (i : Instruction) (qs : List Piece) :
    start + (linesThen o d i qs).length = after start qs := by
  induction qs generalizing start with
  | nil => rfl
  | cons q qs ih =>
    rw [after, ← ih, linesThen, List.length_append, List.length_cons, length_valuedLines]
    omega

/-- The literals at the end of a form and what is around them. -/
def literalLines (o : String) (d : Nat) (conjunction : Bool) (n : Nat) : List Line :=
  [⟨⟨o, d, none⟩, pushBoolean conjunction, 0⟩, ⟨⟨o, d + 1, none⟩, toLabel .goto (sinkLabel conjunction n ++ "_end"), 0⟩,
    ⟨⟨o, d, none⟩, .label (sinkLabel conjunction n), 0⟩, ⟨⟨o, d, none⟩, pushBoolean (!conjunction), 0⟩,
    ⟨⟨o, d + 1, none⟩, .label (sinkLabel conjunction n ++ "_end"), 0⟩]

/-- **Where the parts of a form are**: the clauses, then the last clause with its jump, unless it returns, then the
literals. -/
theorem layout_connective {o : String} {conjunction returns : Bool} {n d start : Nat} {ps : List Piece} {q : Piece}
    {lines : List Line} (h : (Piece.connective conjunction n ps q returns).lines o d <+: lines.drop start) :
    linesThen o d (clauseJump conjunction n) ps <+: lines.drop start ∧
    valuedLines o d q.yields (q.lines o d) <+: lines.drop (after start ps) ∧
    ∃ place, place = after start ps + q.value.length + (if returns then 0 else 1) ∧
      (returns = false → ∃ jump, lines[after start ps + q.value.length]? = some jump ∧
        jump.instruction = clauseJump conjunction n) ∧
      literalLines o d conjunction n <+: lines.drop place ∧
      start + (Piece.connective conjunction n ps q returns).code.length = place + 5 := by
  have hlength : ((Piece.connective conjunction n ps q returns).lines o d).length =
      (Piece.connective conjunction n ps q returns).code.length := by
    rw [← map_lines (o := o) (Piece.connective conjunction n ps q returns) d, List.length_map]
  have hclauses := length_linesThen o d start (clauseJump conjunction n) ps
  rw [Piece.lines] at h hlength
  rw [List.append_assoc, List.append_assoc] at h
  obtain ⟨hfirst, h⟩ := prefix_drop_append h
  obtain ⟨hlast, h⟩ := prefix_drop_append h
  rw [hclauses] at hlast h
  rw [length_valuedLines] at h
  simp only [List.length_append, length_valuedLines, List.length_cons, List.length_nil] at hlength
  refine ⟨hfirst, hlast, _, rfl, ?_⟩
  cases returns with
  | true => exact ⟨nofun, h, by simp only [if_true, List.length_nil] at hlength ⊢; omega⟩
  | false =>
    obtain ⟨hjump, h⟩ := prefix_drop_cons h
    refine ⟨fun _ => ⟨_, hjump, rfl⟩, h, ?_⟩
    simp only [Bool.false_eq_true, if_false, List.length_cons, List.length_nil] at hlength ⊢
    omega

end Piece

/-- **The lines of a clause** are an expression, at the first line of which there are `d` operands. -/
theorem Lowers.expression {p : Program} {t : Tree} {roots : List Term} {blocks : List Block}
    (hp : p.Compiled t roots blocks) {M : Handle} {tail : Bool} {x : Term} {q : Piece} {d start : Nat}
    (hx : Lowers t p.constants M tail x q) (hd : tail = true → d = 0)
    (hlines : valuedLines (Handle.label M) d q.yields (q.lines (Handle.label M) d) <+: hp.layout.lines.drop start) :
    hp.layout.Expression (Handle.label M) tail 0 start
        (valuedLines (Handle.label M) d q.yields (q.lines (Handle.label M) d)) ∧
      valuedLines (Handle.label M) d q.yields (q.lines (Handle.label M) d) ≠ [] ∧
      ∃ line, hp.layout.lines[start]? = some line ∧ line.spot = ⟨Handle.label M, d, none⟩ := by
  have hsub : valuedLines (Handle.label M) d q.yields (q.lines (Handle.label M) d) ⊆ Program.linesOf blocks :=
    fun line hline => List.mem_of_mem_drop (hlines.subset hline)
  have hexpression : hp.layout.Expression (Handle.label M) tail 0 start
      (valuedLines (Handle.label M) d q.yields (q.lines (Handle.label M) d)) :=
    ⟨hlines, fun line hline => (keeping_valuedLines (hx.keeping id d (subset_of_valuedLines (List.Subset.refl _))) line
      hline).mono (Nat.zero_le d)⟩
  have hchain := (hx.chain hp d hd (subset_of_valuedLines hsub)).valued
  have hne : valuedLines (Handle.label M) d q.yields (q.lines (Handle.label M) d) ≠ [] := by
    intro hnil
    rw [hnil] at hchain
    generalize hs : (⟨Handle.label M, d, none⟩ : Spot) = s, hs' : (⟨Handle.label M, d + 1, none⟩ : Spot) = s' at hchain
    cases hchain
    cases hs'.trans hs.symm
  exact ⟨hexpression, hne, hexpression.exists_first hchain hne⟩

/-! ### Instructions at a place -/

namespace Machine

variable {s m : Machine} {host : Host} {place there : Nat} {conjunction : Bool} {n : Nat} {name : String}

theorem IsAt.counted (h : s.IsAt m place) (k : Nat) : s.IsAt { m with steps := k } place :=
  ⟨h.running, h.frames, h.current, h.place⟩

theorem IsAt.collected (h : s.IsAt m place) (H : Heap) (k peak : Nat) :
    s.IsAt { m with heap := H, nextCollection := k, peakDepth := peak } place :=
  ⟨h.running, h.frames, h.current, h.place⟩

/-- **The jump after a clause** pops a value and goes on if it has passed. -/
theorem IsAt.leads_clauseJump (h : s.IsAt m place)
    (hthere : m.image.labels.find? (Piece.sinkLabel conjunction n) = some there) :
    Leads (dispatch host (Piece.clauseJump conjunction n)) m fun m' =>
      ∃ v, m.stack.head? = some v ∧ s.IsAt m' (if v.isTruthy = conjunction then place + 1 else there) := by
  have hbranch (op : Opcode) : Leads (branch op (some (.label (Piece.sinkLabel conjunction n))) (!conjunction)) m
      fun m' => ∃ v, m.stack.head? = some v ∧ s.IsAt m' (if v.isTruthy = conjunction then place + 1 else there) := by
    intro a m' hrun
    rw [branch, labelOperand, run_bind_ok (run_require m)] at hrun
    cases hstack : m.stack with
    | nil =>
      rw [run_bind_error (run_pop_nil hstack)] at hrun
      cases hrun
    | cons v rest =>
      rw [run_bind_ok (run_pop_cons hstack)] at hrun
      refine ⟨v, rfl, ?_⟩
      -- the value goes on to the next clause, or it decides
      by_cases hv : v.isTruthy = conjunction
      · rw [if_neg (by rw [hv]; cases conjunction <;> decide), run_advance] at hrun
        cases hrun
        rw [if_pos hv]
        exact ⟨h.running, h.frames, h.current, congrArg (· + 1) h.place⟩
      · rw [if_pos (by cases conjunction <;> simp_all), jump, run_get_bind] at hrun
        dsimp only at hrun
        rw [hthere] at hrun
        cases hrun
        rw [if_neg hv]
        exact ⟨h.running, h.frames, h.current, rfl⟩
  cases conjunction with
  | true => exact (hbranch .ifFalse).then_pure ""
  | false => exact (hbranch .ifTrue).then_pure ""

theorem IsAt.leads_pushBoolean (h : s.IsAt m place) (b : Bool) :
    Leads (dispatch host (pushBoolean b)) m fun m' => s.IsAt m' (place + 1) ∧ m'.stack = .boolean b :: m.stack := by
  intro a m' hrun
  cases hrun
  exact ⟨⟨h.running, h.frames, h.current, congrArg (· + 1) h.place⟩, rfl⟩

theorem IsAt.leads_goto (h : s.IsAt m place) (hthere : m.image.labels.find? name = some there) :
    Leads (dispatch host (toLabel .goto name)) m fun m' => s.IsAt m' there ∧ m'.stack = m.stack := by
  have hjump : Leads (jump name) m fun m' => s.IsAt m' there ∧ m'.stack = m.stack := by
    intro a m' hrun
    rw [jump, run_get_bind, hthere] at hrun
    cases hrun
    exact ⟨⟨h.running, h.frames, h.current, rfl⟩, rfl⟩
  exact hjump.then_pure ""

theorem IsAt.leads_label (h : s.IsAt m place) (name : String) :
    Leads (dispatch host (.label name)) m fun m' => s.IsAt m' (place + 1) ∧ m'.stack = m.stack := by
  intro a m' hrun
  cases hrun
  exact ⟨⟨h.running, h.frames, h.current, congrArg (· + 1) h.place⟩, rfl⟩

/-- **A machine that is done with the code** that `s` was in: it has come to the end of it, or back to where that code was
called from. -/
def IsDone (s m : Machine) (stop : Nat) : Prop :=
  s.IsBack m stop ∨ m.state = .running ∧ m.frames.length < s.frames.length

instance (s m : Machine) (stop : Nat) : Decidable (s.IsDone m stop) := inferInstanceAs (Decidable (_ ∨ _))

theorem IsDone.running {stop : Nat} (h : s.IsDone m stop) : m.state = .running := h.elim And.left And.left

/-- A machine at a place before the end is not done. -/
theorem IsAt.not_isDone (h : s.IsAt m place) {stop : Nat} (hne : place ≠ stop) : ¬s.IsDone m stop := by
  rintro (⟨-, hpc, -⟩ | ⟨-, hlt⟩)
  · exact hne (h.place.symm.trans hpc)
  · rw [h.frames] at hlt
    exact Nat.lt_irrefl _ hlt

end Machine

namespace Process

section

variable (settings : Settings) (registry : Registry) (pid : Nat) (image : Image)

/-- **A clause gives a value**: a stretch of a run crosses its code and leaves the value on top of the stack. -/
structure Gives (s : Machine) (start stop : Nat) (before stretch : List Moment) (v : Value) : Prop extends
    Crosses settings registry pid image s start stop before stretch where
  value : (run settings registry pid image (before ++ stretch)).machine.stack.head? = some v

/-- **A stretch of a run in which clauses pass**: each gives a value that counts as true in an `and`, as false in an `or`,
and a moment later the next one begins. -/
inductive Passed (s : Machine) (conjunction : Bool) :
    List Piece → Nat → List Moment → List Moment → List Value → Prop
  | none {start : Nat} {before : List Moment} : Passed s conjunction [] start before [] []
  | clause {q : Piece} {qs : List Piece} {start : Nat} {before stretch stretch' : List Moment} {v : Value}
      {vs : List Value} (hv : Gives settings registry pid image s start (start + q.value.length) before stretch v)
      (hpasses : v.isTruthy = conjunction) (now : Moment)
      (hrest : Passed s conjunction qs (start + q.value.length + 1) (before ++ (stretch ++ [now])) stretch' vs) :
      Passed s conjunction (q :: qs) start before (stretch ++ [now] ++ stretch') (v :: vs)

/-- **A stretch of a run in which one of the clauses does not pass**; those before it do. -/
inductive Stopped (s : Machine) (conjunction : Bool) (qs : List Piece) (start : Nat) (before : List Moment) :
    List Moment → List Value → Prop
  | intro {early late : List Piece} {q : Piece} {stretch stretch' : List Moment} {vs : List Value} {v : Value}
      (hqs : qs = early ++ q :: late)
      (hearly : Passed settings registry pid image s conjunction early start before stretch vs)
      (hv : Gives settings registry pid image s (after start early) (after start early + q.value.length)
        (before ++ stretch) stretch' v)
      (hstops : v.isTruthy ≠ conjunction) (now : Moment) :
      Stopped s conjunction qs start before (stretch ++ (stretch' ++ [now])) (vs ++ [v])

/-- **A stretch of a run in which a form is evaluated to the end**, after `s` has begun it. A continuation that is called
in one of the clauses goes on in that clause. -/
structure Completes (s : Machine) (spans : List (Nat × Nat)) (stop : Nat) (before stretch : List Moment) : Prop where
  going : ∀ early now, early ++ [now] <+: stretch →
    ¬s.IsDone (run settings registry pid image (before ++ early)).machine stop
  stays : ∀ early now, early ++ [now] <+: stretch →
    (run settings registry pid image (before ++ early)).machine.resumes (hostAt settings registry now) = true →
    ∀ span ∈ spans, s.IsIn (run settings registry pid image (before ++ early)).machine span.1 span.2 →
      s.IsIn (run settings registry pid image (before ++ (early ++ [now]))).machine span.1 span.2
  done : s.IsDone (run settings registry pid image (before ++ stretch)).machine stop

end

variable {p : Program} {settings : Settings} {registry : Registry} {pid : Nat} {image : Image} {L : Layout p}
  {s : Machine} {conjunction : Bool} {spans : List (Nat × Nat)} {before stretch : List Moment} {start stop : Nat}

/-! ### Values of clauses -/

/-- One more clause passes. -/
theorem Passed.concat {qs : List Piece} {q : Piece} {stretch' : List Moment} {vs : List Value} {v : Value}
    (h : Passed settings registry pid image s conjunction qs start before stretch vs)
    (hv : Gives settings registry pid image s (after start qs) (after start qs + q.value.length)
      (before ++ stretch) stretch' v) (hpasses : v.isTruthy = conjunction) (now : Moment) :
    Passed settings registry pid image s conjunction (qs ++ [q]) start before (stretch ++ (stretch' ++ [now]))
      (vs ++ [v]) := by
  induction h with
  | none =>
    rw [List.append_nil] at hv
    have hlast := Passed.clause hv hpasses now .none
    rwa [List.append_nil] at hlast
  | @clause q' qs start before first rest w ws hw hpasses' now' _ ih =>
    rw [List.append_assoc (first ++ [now'])]
    refine .clause hw hpasses' now' (ih ?_)
    rw [List.append_assoc]
    exact hv

/-- The first clause does not pass. -/
theorem Stopped.head {q : Piece} {qs : List Piece} {v : Value}
    (hv : Gives settings registry pid image s start (start + q.value.length) before stretch v)
    (hstops : v.isTruthy ≠ conjunction) (now : Moment) :
    Stopped settings registry pid image s conjunction (q :: qs) start before (stretch ++ [now]) [v] := by
  rw [← List.append_nil before] at hv
  exact .intro (List.nil_append (q :: qs)).symm .none hv hstops now

/-- A clause passes before others, one of which does not. -/
theorem Stopped.cons {q : Piece} {qs : List Piece} {first stretch : List Moment} {v : Value} {vs : List Value}
    (hv : Gives settings registry pid image s start (start + q.value.length) before first v)
    (hpasses : v.isTruthy = conjunction) (now : Moment)
    (h : Stopped settings registry pid image s conjunction qs (start + q.value.length + 1)
      (before ++ (first ++ [now])) stretch vs) :
    Stopped settings registry pid image s conjunction (q :: qs) start before (first ++ [now] ++ stretch) (v :: vs) := by
  obtain ⟨rfl, hearly, hw, hstops, now'⟩ := h
  rw [← List.append_assoc, ← List.cons_append]
  refine .intro rfl (.clause hv hpasses now hearly) ?_ hstops now'
  rw [List.append_assoc] at hw
  exact hw

/-- Clauses that are not come to do not matter. -/
theorem Stopped.append {qs : List Piece} {vs : List Value}
    (h : Stopped settings registry pid image s conjunction qs start before stretch vs) (late : List Piece) :
    Stopped settings registry pid image s conjunction (qs ++ late) start before stretch vs := by
  obtain ⟨rfl, hearly, hv, hstops, now⟩ := h
  exact .intro (List.append_assoc _ _ _) hearly hv hstops now

/-- What has passed counts alike. -/
theorem Passed.isTruthy_eq {qs : List Piece} {vs : List Value}
    (h : Passed settings registry pid image s conjunction qs start before stretch vs) :
    ∀ v ∈ vs, v.isTruthy = conjunction := by
  induction h with
  | none => simp
  | clause _ hpasses _ _ ih => exact List.forall_mem_cons.mpr ⟨hpasses, ih⟩

/-- **The value of `and` and `or`** for the values of the clauses that are evaluated. -/
def connected (conjunction : Bool) (vs : List Value) : Bool :=
  if conjunction then vs.all Value.isTruthy else vs.any Value.isTruthy

theorem Passed.connected_eq {qs : List Piece} {vs : List Value}
    (h : Passed settings registry pid image s conjunction qs start before stretch vs) :
    connected conjunction vs = conjunction := by
  cases conjunction with
  | true => exact List.all_eq_true.mpr h.isTruthy_eq
  | false => exact List.any_eq_false.mpr fun v hv => by rw [h.isTruthy_eq v hv]; decide

theorem Stopped.connected_eq {qs : List Piece} {vs : List Value}
    (h : Stopped settings registry pid image s conjunction qs start before stretch vs) :
    connected conjunction vs = !conjunction := by
  obtain ⟨-, -, -, hstops, -⟩ := h
  cases conjunction with
  | true => simp_all [connected]
  | false => simp_all [connected]

/-! ### The rest of an evaluation -/

theorem Completes.append {first rest : List Moment}
    (hc : Completes settings registry pid image s spans stop before (first ++ rest)) :
    Completes settings registry pid image s spans stop (before ++ first) rest where
  going early now h := by
    have hinit : first ++ early ++ [now] <+: first ++ rest := by
      rw [List.append_assoc]
      exact (List.prefix_append_right_inj first).mpr h
    rw [List.append_assoc]
    exact hc.going (first ++ early) now hinit
  stays early now h := by
    have hinit : first ++ early ++ [now] <+: first ++ rest := by
      rw [List.append_assoc]
      exact (List.prefix_append_right_inj first).mpr h
    have hstays := hc.stays (first ++ early) now hinit
    rw [List.append_assoc first early [now]] at hstays
    rw [List.append_assoc, List.append_assoc]
    exact hstays
  done := by
    rw [List.append_assoc]
    exact hc.done

/-- A form that has come to its end is complete. -/
theorem Completes.eq_nil (hc : Completes settings registry pid image s spans stop before stretch)
    (hat : s.IsAt (run settings registry pid image before).machine stop) : stretch = [] := by
  obtain _ | ⟨now, rest⟩ := stretch
  · rfl
  · have hgoing := hc.going [] now ⟨rest, rfl⟩
    rw [List.append_nil] at hgoing
    exact absurd (Or.inl ⟨hat.running, hat.place, congrArg List.length hat.frames⟩) hgoing

section

variable (hready : ∀ moments, ∃ A, (run settings registry pid image moments).machine.Ready L False A)
include hready

/-- **A moment before the end**: the machine carries out the line that it has come to. -/
theorem Completes.exists_next (hc : Completes settings registry pid image s spans stop before stretch) {place : Nat}
    (hat : s.IsAt (run settings registry pid image before).machine place) (hne : place ≠ stop) {line : Line} {i : Instruction}
    (hline : L.lines[place]? = some line) (hi : line.instruction = i) {Q : Machine → Prop}
    (hleads : ∀ host, Machine.Leads (Machine.dispatch host i)
      { (run settings registry pid image before).machine with
        steps := (run settings registry pid image before).machine.steps + 1 } Q)
    (hkeeps : ∀ m H k peak, Q m → Q { m with heap := H, nextCollection := k, peakDepth := peak }) :
    ∃ now rest, stretch = now :: rest ∧ Q (run settings registry pid image (before ++ [now])).machine ∧
      Completes settings registry pid image s spans stop (before ++ [now]) rest := by
  obtain _ | ⟨now, rest⟩ := stretch
  · have hdone := hc.done
    rw [List.append_nil] at hdone
    exact absurd hdone (hat.not_isDone hne)
  have hrest : Completes settings registry pid image s spans stop (before ++ [now]) rest := hc.append
  refine ⟨now, rest, rfl, ?_, hrest⟩
  subst hi
  obtain ⟨A, hr⟩ := hready before
  have hmachine : (run settings registry pid image (before ++ [now])).machine =
      (Machine.step (hostAt settings registry now) (run settings registry pid image before).machine).machine := by
    rw [run_append, next_machine hat.running]
  rw [hmachine]
  rcases hr.leads_step hat.running (hat.place ▸ hline) (hleads _) with hfailed | ⟨m, H, k, peak, hm, hstep⟩
  · rw [← hmachine] at hfailed
    rcases run_over (Or.inr hfailed) rest with hover | hover <;> cases hover.symm.trans hrest.done.running
  · rw [hstep]
    exact hkeeps m H k peak hm

/-- **A clause is evaluated** to the end of its code, or left by a tail call. -/
theorem Completes.run_clause {o : String} {tail : Bool} {ls : List Line} (he : L.Expression o tail 0 start ls)
    (hls : ls ≠ []) {line : Line} (hline : L.lines[start]? = some line) (howner : line.spot.owner = some o)
    (hc : Completes settings registry pid image s spans stop before stretch)
    (hat : s.IsAt (run settings registry pid image before).machine start)
    (hspan : (start, start + ls.length) ∈ spans) (hlt : start + ls.length < stop) :
    (L.Entered (start + ls.length) ∧ ∃ first rest, stretch = first ++ rest ∧
      Crosses settings registry pid image s start (start + ls.length) before first) ∨
    tail = true ∧ Escapes settings registry pid image s start (start + ls.length) before stretch := by
  rcases run_amid he hready hls hline howner hat fun early now h hresumes => hc.stays early now h hresumes _ hspan with
    hcrosses | hescapes | hall | hover
  · exact Or.inl hcrosses
  · exact Or.inr hescapes
  · -- amid the clause the machine is not done
    obtain ⟨hamid, hnot⟩ := hall stretch List.prefix_rfl
    rcases hamid.isIn hnot with ⟨place, hat', -, hplace⟩ | ⟨G, f, hframes, -⟩
    · exact absurd hc.done (hat'.not_isDone (by omega))
    · rcases hc.done with ⟨-, -, hcount⟩ | ⟨-, hcount⟩ <;>
      · rw [hframes, List.length_append, List.length_cons] at hcount
        omega
  · rcases hover with hover | hover <;> cases hover.symm.trans hc.done.running

/-- **A clause and its jump**: the value decides where it goes on. -/
theorem Completes.run_decided {o : String} {tail : Bool} {ls : List Line} (he : L.Expression o tail 0 start ls)
    (hls : ls ≠ []) {line : Line} (hline : L.lines[start]? = some line) (howner : line.spot.owner = some o)
    (hc : Completes settings registry pid image s spans stop before stretch)
    (hat : s.IsAt (run settings registry pid image before).machine start)
    (hspan : (start, start + ls.length) ∈ spans) (hlt : start + ls.length < stop) {n sink : Nat} {jump sinkLine : Line}
    (hjump : L.lines[start + ls.length]? = some jump) (hi : jump.instruction = clauseJump conjunction n)
    (hsink : L.lines[sink]? = some sinkLine) (hi' : sinkLine.instruction = .label (sinkLabel conjunction n)) :
    (∃ first now rest v, stretch = first ++ [now] ++ rest ∧
      Gives settings registry pid image s start (start + ls.length) before first v ∧
      s.IsAt (run settings registry pid image (before ++ (first ++ [now]))).machine
        (if v.isTruthy = conjunction then start + ls.length + 1 else sink) ∧
      Completes settings registry pid image s spans stop (before ++ (first ++ [now])) rest) ∨
    tail = true ∧ Escapes settings registry pid image s start (start + ls.length) before stretch := by
  refine (hc.run_clause hready he hls hline howner hat hspan hlt).imp_left ?_
  rintro ⟨-, first, rest, rfl, hcrosses⟩
  obtain ⟨A, hr⟩ := hready (before ++ first)
  have hthere := (L.find?_eq_some hr.sound.labels).mpr ⟨sinkLine, hsink, hi'⟩
  obtain ⟨now, rest, rfl, ⟨v, hv, hgoes⟩, hrest⟩ := hc.append.exists_next hready hcrosses.ends (Nat.ne_of_lt hlt) hjump hi
    (fun host => (hcrosses.ends.counted _).leads_clauseJump hthere)
    fun m H k peak ⟨v, hv, hat⟩ => ⟨v, hv, hat.collected H k peak⟩
  rw [List.append_assoc] at hgoes hrest
  exact ⟨first, now, rest, v, by simp, ⟨hcrosses, hv⟩, hgoes, hrest⟩

/-- A literal is pushed. -/
theorem Completes.exists_push (hc : Completes settings registry pid image s spans stop before stretch) {place : Nat}
    (hat : s.IsAt (run settings registry pid image before).machine place) (hne : place ≠ stop) {line : Line} {b : Bool}
    (hline : L.lines[place]? = some line) (hi : line.instruction = pushBoolean b) :
    ∃ now rest, stretch = now :: rest ∧
      s.IsAt (run settings registry pid image (before ++ [now])).machine (place + 1) ∧
      (run settings registry pid image (before ++ [now])).machine.stack.head? = some (.boolean b) ∧
      Completes settings registry pid image s spans stop (before ++ [now]) rest := by
  obtain ⟨now, rest, rfl, ⟨hat', hstack⟩, hrest⟩ := hc.exists_next hready hat hne hline hi
    (fun host => (hat.counted _).leads_pushBoolean b)
    fun m H k peak h => ⟨h.1.collected H k peak, h.2⟩
  exact ⟨now, rest, rfl, hat', by rw [hstack]; rfl, hrest⟩

/-- A label is passed. -/
theorem Completes.exists_label (hc : Completes settings registry pid image s spans stop before stretch) {place : Nat}
    (hat : s.IsAt (run settings registry pid image before).machine place) (hne : place ≠ stop) {line : Line}
    {name : String} (hline : L.lines[place]? = some line) (hi : line.instruction = .label name) :
    ∃ now rest, stretch = now :: rest ∧
      s.IsAt (run settings registry pid image (before ++ [now])).machine (place + 1) ∧
      (run settings registry pid image (before ++ [now])).machine.stack =
        (run settings registry pid image before).machine.stack ∧
      Completes settings registry pid image s spans stop (before ++ [now]) rest := by
  obtain ⟨now, rest, rfl, ⟨hat', hstack⟩, hrest⟩ := hc.exists_next hready hat hne hline hi
    (fun host => (hat.counted _).leads_label name)
    fun m H k peak h => ⟨h.1.collected H k peak, h.2⟩
  exact ⟨now, rest, rfl, hat', hstack, hrest⟩

/-- A jump leads to its label. -/
theorem Completes.exists_goto (hc : Completes settings registry pid image s spans stop before stretch)
    {place there : Nat} (hat : s.IsAt (run settings registry pid image before).machine place) (hne : place ≠ stop)
    {line label : Line} {name : String} (hline : L.lines[place]? = some line)
    (hi : line.instruction = toLabel .goto name) (hlabel : L.lines[there]? = some label)
    (hi' : label.instruction = .label name) :
    ∃ now rest, stretch = now :: rest ∧ s.IsAt (run settings registry pid image (before ++ [now])).machine there ∧
      (run settings registry pid image (before ++ [now])).machine.stack =
        (run settings registry pid image before).machine.stack ∧
      Completes settings registry pid image s spans stop (before ++ [now]) rest := by
  obtain ⟨A, hr⟩ := hready before
  have hthere := (L.find?_eq_some hr.sound.labels).mpr ⟨label, hlabel, hi'⟩
  obtain ⟨now, rest, rfl, ⟨hat', hstack⟩, hrest⟩ := hc.exists_next hready hat hne hline hi
    (fun host => (hat.counted _).leads_goto hthere)
    fun m H k peak h => ⟨h.1.collected H k peak, h.2⟩
  exact ⟨now, rest, rfl, hat', hstack, hrest⟩

/-- **The literals at the end of a form**: where all clauses have passed, and where one has not. -/
theorem Completes.run_literal {o : String} {d n place : Nat}
    (hlines : literalLines o d conjunction n <+: L.lines.drop place) {b : Bool}
    (hc : Completes settings registry pid image s spans (place + 5) before stretch)
    (hat : s.IsAt (run settings registry pid image before).machine (if b = conjunction then place else place + 2)) :
    stretch.length = 3 ∧ s.IsAt (run settings registry pid image (before ++ stretch)).machine (place + 5) ∧
      (run settings registry pid image (before ++ stretch)).machine.stack.head? = some (.boolean b) := by
  obtain ⟨hpush, hlines⟩ := prefix_drop_cons hlines
  obtain ⟨hgoto, hlines⟩ := prefix_drop_cons hlines
  obtain ⟨hsink, hlines⟩ := prefix_drop_cons hlines
  obtain ⟨hpush', hlines⟩ := prefix_drop_cons hlines
  obtain ⟨hend, -⟩ := prefix_drop_cons hlines
  -- past the last label the form is completed
  have hlast : ∀ {first stretch : List Moment}, Completes settings registry pid image s spans (place + 5) first stretch →
      s.IsAt (run settings registry pid image first).machine (place + 4) →
      ∃ now, stretch = [now] ∧ s.IsAt (run settings registry pid image (first ++ [now])).machine (place + 5) ∧
        (run settings registry pid image (first ++ [now])).machine.stack =
          (run settings registry pid image first).machine.stack := by
    intro first stretch hc hat
    obtain ⟨now, rest, rfl, hat', hstack, hrest⟩ := hc.exists_label hready hat (by omega) hend rfl
    obtain rfl := hrest.eq_nil hat'
    exact ⟨now, rfl, hat', hstack⟩
  -- where the clauses have passed, the first literal is pushed and the other one jumped over
  by_cases hb : b = conjunction
  · subst hb
    rw [if_pos rfl] at hat
    obtain ⟨now, rest, rfl, hat, hstack, hc⟩ := hc.exists_push hready hat (by omega) hpush rfl
    obtain ⟨now', rest, rfl, hat, hstack', hc⟩ := hc.exists_goto hready hat (by omega) hgoto rfl hend rfl
    obtain ⟨now'', rfl, hat, hstack''⟩ := hlast hc hat
    rw [List.append_assoc, List.append_assoc] at hat
    refine ⟨rfl, hat, ?_⟩
    have htop := (congrArg List.head? (hstack''.trans hstack')).trans hstack
    rwa [List.append_assoc, List.append_assoc] at htop
  · rw [if_neg hb] at hat
    obtain ⟨now, rest, rfl, hat, hstack, hc⟩ := hc.exists_label hready hat (by omega) hsink rfl
    obtain ⟨now', rest, rfl, hat, hstack', hc⟩ := hc.exists_push hready hat (by omega) hpush' rfl
    obtain ⟨now'', rfl, hat, hstack''⟩ := hlast hc hat
    rw [List.append_assoc, List.append_assoc] at hat
    refine ⟨rfl, hat, ?_⟩
    have htop := (congrArg List.head? hstack'').trans hstack'
    rw [List.append_assoc, List.append_assoc] at htop
    rwa [Bool.eq_not_of_ne hb]

end

section

variable {t : Tree} {roots : List Term} {blocks : List Block} (hp : p.Compiled t roots blocks)
  (hready : ∀ moments, ∃ A, (run settings registry pid image moments).machine.Ready hp.layout False A)
  {M : Handle} {d n sink : Nat} {sinkLine : Line} (hsink : hp.layout.lines[sink]? = some sinkLine)
  (hi : sinkLine.instruction = .label (sinkLabel conjunction n))
include hready hsink hi

/-- **Clauses in no tail position** all pass, or one of them does not. -/
theorem Completes.run_clauses {xs : List Term} {ps : List Piece} (hps : LowersAll t p.constants M xs ps) {start : Nat}
    {before stretch : List Moment}
    (hlines : linesThen (Handle.label M) d (clauseJump conjunction n) ps <+: hp.layout.lines.drop start)
    (hspans : Piece.spans start ps ⊆ spans) (hle : after start ps ≤ stop)
    (hc : Completes settings registry pid image s spans stop before stretch)
    (hat : s.IsAt (run settings registry pid image before).machine start) :
    (∃ passed rest vs, stretch = passed ++ rest ∧
      Passed settings registry pid image s conjunction ps start before passed vs ∧
      s.IsAt (run settings registry pid image (before ++ passed)).machine (after start ps) ∧
      Completes settings registry pid image s spans stop (before ++ passed) rest) ∨
    ∃ stopped rest vs, stretch = stopped ++ rest ∧
      Stopped settings registry pid image s conjunction ps start before stopped vs ∧
      s.IsAt (run settings registry pid image (before ++ stopped)).machine sink ∧
      Completes settings registry pid image s spans stop (before ++ stopped) rest := by
  induction ps generalizing xs start before stretch with
  | nil => exact Or.inl ⟨[], stretch, [], rfl, .none, by rw [List.append_nil]; exact hat, by rw [List.append_nil]; exact hc⟩
  | cons q ps ih =>
    cases hps with
    | cons hx hxs =>
      obtain ⟨hlines, hlines'⟩ := prefix_drop_append hlines
      obtain ⟨hjump, hlines'⟩ := prefix_drop_cons hlines'
      obtain ⟨he, hne, line, hline, hspot⟩ := hx.expression hp (by simp) hlines
      rw [length_valuedLines] at hlines'
      obtain ⟨hspan, hspans'⟩ := List.cons_subset.mp hspans
      rw [← length_valuedLines (Handle.label M) d q] at hspan
      have hlt := le_after (start + q.value.length + 1) ps
      rw [after] at hle
      -- the first clause delivers a value, on which it depends whether the code goes on or jumps to the sink
      rcases hc.run_decided hready he hne hline (by rw [hspot]) hat hspan (by rw [length_valuedLines]; omega) hjump rfl
        hsink hi with ⟨first, now, rest, v, rfl, hv, hgoes, hrest⟩ | ⟨hfalse, -⟩
      · rw [length_valuedLines] at hv hgoes
        by_cases hpasses : v.isTruthy = conjunction
        · rw [if_pos hpasses] at hgoes
          refine (ih hxs hlines' hspans' hle hrest hgoes).imp ?_ ?_
          · rintro ⟨passed, rest, vs, rfl, hpassed, hat', hc'⟩
            rw [List.append_assoc] at hat' hc'
            exact ⟨first ++ [now] ++ passed, rest, v :: vs, (List.append_assoc _ _ _).symm,
              .clause hv hpasses now hpassed, hat', hc'⟩
          · rintro ⟨stopped, rest, vs, rfl, hstopped, hat', hc'⟩
            rw [List.append_assoc] at hat' hc'
            exact ⟨first ++ [now] ++ stopped, rest, v :: vs, (List.append_assoc _ _ _).symm,
              hstopped.cons hv hpasses now, hat', hc'⟩
        · rw [if_neg hpasses] at hgoes
          exact Or.inr ⟨first ++ [now], rest, [v], rfl, .head hv hpasses now, hgoes, hrest⟩
      · cases hfalse

/-- **The last clause** passes, or does not, or is left by a tail call. -/
theorem Completes.run_last {tail returns : Bool} {x : Term} {ps : List Piece} {q : Piece} {place : Nat}
    {passed rest : List Moment} {vs : List Value} (hx : Lowers t p.constants M tail x q) (hd : tail = true → d = 0)
    (hreturns : returns = true → q.IsTailCall)
    (hlines : valuedLines (Handle.label M) d q.yields (q.lines (Handle.label M) d) <+:
      hp.layout.lines.drop (after start ps))
    (hplace : place = after start ps + q.value.length + (if returns then 0 else 1))
    (hjump : returns = false → ∃ jump, hp.layout.lines[after start ps + q.value.length]? = some jump ∧
      jump.instruction = clauseJump conjunction n)
    (hliteral : ∃ literal, hp.layout.lines[place]? = some literal ∧ literal.spot.depth = d)
    (hspans : Piece.spans start (ps ++ [q]) ⊆ spans) (hlt : place < stop)
    (hpassed : Passed settings registry pid image s conjunction ps start before passed vs)
    (hc : Completes settings registry pid image s spans stop (before ++ passed) rest)
    (hat : s.IsAt (run settings registry pid image (before ++ passed)).machine (after start ps)) :
    ((∃ first rest' vs, rest = first ++ rest' ∧
      Passed settings registry pid image s conjunction (ps ++ [q]) start before (passed ++ first) vs ∧
      s.IsAt (run settings registry pid image (before ++ (passed ++ first))).machine place ∧
      Completes settings registry pid image s spans stop (before ++ (passed ++ first)) rest') ∨
    ∃ first rest' vs, rest = first ++ rest' ∧
      Stopped settings registry pid image s conjunction (ps ++ [q]) start before (passed ++ first) vs ∧
      s.IsAt (run settings registry pid image (before ++ (passed ++ first))).machine sink ∧
      Completes settings registry pid image s spans stop (before ++ (passed ++ first)) rest') ∨
    tail = true ∧ Escapes settings registry pid image s (after start ps) (after start ps + q.value.length)
      (before ++ passed) rest := by
  obtain ⟨he, hne, line, hline, hspot⟩ := hx.expression hp hd hlines
  have hspan := hspans (mem_spans start ps [] q)
  rw [← length_valuedLines (Handle.label M) d q] at hspan
  cases returns with
  | false =>
    obtain ⟨jump, hjump, hi'⟩ := hjump rfl
    rw [← length_valuedLines (Handle.label M) d q] at hjump
    rcases hc.run_decided hready he hne hline (by rw [hspot]) hat hspan
      (by rw [length_valuedLines]; simp only [Bool.false_eq_true, if_false] at hplace; omega) hjump hi' hsink hi with
      ⟨first, now, rest', v, rfl, hv, hgoes, hrest⟩ | hescapes
    · rw [length_valuedLines] at hv hgoes
      rw [List.append_assoc] at hgoes hrest
      by_cases hpasses : v.isTruthy = conjunction
      · rw [if_pos hpasses] at hgoes
        exact Or.inl (Or.inl ⟨first ++ [now], rest', vs ++ [v], rfl, hpassed.concat hv hpasses now, hplace ▸ hgoes, hrest⟩)
      · rw [if_neg hpasses] at hgoes
        exact Or.inl (Or.inr ⟨first ++ [now], rest', vs ++ [v], rfl, .intro rfl hpassed hv hpasses now, hgoes, hrest⟩)
    · rw [length_valuedLines] at hescapes
      exact Or.inr hescapes
  | true =>
    refine Or.inr ?_
    have hescapes := (hc.run_clause hready he hne hline (by rw [hspot]) hat hspan
      (by rw [length_valuedLines]; simp only [if_true] at hplace; omega)).resolve_left ?_
    · rwa [length_valuedLines] at hescapes
    -- nothing goes on from a tail call, and as it leaves no operands, no call comes back to the place after it
    rintro ⟨hentered, -⟩
    obtain ⟨ls, target, k, hls, hyields⟩ := (hreturns rfl).exists_lines (Handle.label M) d
    have hvalued : valuedLines (Handle.label M) d q.yields (q.lines (Handle.label M) d) =
        ls ++ [⟨⟨Handle.label M, d + k, none⟩, callTo true target, k⟩] := by
      rw [hyields, ← hls]
      rfl
    rw [hvalued] at hlines hentered
    have hcall := (prefix_drop_cons (prefix_drop_append hlines).2).1
    rcases hentered with ⟨pc, line', hpc, hline', hfalls⟩ | ⟨line', hline', hdepth⟩
    · rw [List.length_append, List.length_singleton] at hpc
      obtain rfl : pc = after start ps + ls.length := by omega
      cases hcall.symm.trans hline'
      cases hfalls
    · obtain ⟨next, hflow, -⟩ := hp.layout.flows _ _ hcall
      have hnone : d + k = k := hflow.depth_of_tailCall rfl
      obtain ⟨literal, hliteral, hdepth'⟩ := hliteral
      rw [hplace, ← length_valuedLines (Handle.label M) d q, hvalued, if_pos rfl, Nat.add_zero] at hliteral
      cases hline'.symm.trans hliteral
      omega

end

/-- **The value of `and` and `or` is the boolean that their clauses decide**, unless the lambda is left from within the
last clause. Take a source that compiles and an `and` or an `or` in it, whose code starts at some place. In any run that
evaluates the form to the end, the clauses are evaluated from left to right until one decides, and three moments later the
machine is at the end of the code, in the same closure and with the same calls under way, with the boolean on top of the
stack. Or else the form is in tail position, all clauses but the last have passed, and the last one is left by a tail
call. -/
theorem run_connective {source : String} (hp : Program.compile source = .ok p) (hmodest : registry.Modest) :
    ∃ t blocks stock image, (Tree.parse source >>= Tree.analyse) = .ok t ∧ t.blocks = .ok (blocks, stock) ∧
      p.code = (Program.codeOf blocks).toArray ∧ Image.ofProgram p = .ok image ∧
      ∀ (M h : Handle) (conjunction tail : Bool) (clauses : List Term) (q : Piece) (d start : Nat),
        Lowers t p.constants M tail
          (.application h .code (.atom (.keyword (if conjunction then "and" else "or")) :: clauses)) q →
        (tail = true → d = 0) → q.lines (Handle.label M) d <+: (Program.linesOf blocks).drop start →
        ∀ (settings : Settings) (pid : Nat) (before stretch : List Moment),
          let s := (run settings registry pid image before).machine
          s.state = .running → s.pc = start →
          Completes settings registry pid image s (Piece.spans start q.clauses) (start + q.code.length) before stretch →
          (∃ evaluated rest vs, stretch = evaluated ++ rest ∧ rest.length ≤ 3 ∧
            (Passed settings registry pid image s conjunction q.clauses start before evaluated vs ∨
              Stopped settings registry pid image s conjunction q.clauses start before evaluated vs) ∧
            s.IsAt (run settings registry pid image (before ++ stretch)).machine (start + q.code.length) ∧
            (run settings registry pid image (before ++ stretch)).machine.stack.head? =
              some (.boolean (connected conjunction vs))) ∨
          tail = true ∧ ∃ early last passed rest vs, q.clauses = early ++ [last] ∧ stretch = passed ++ rest ∧
            Passed settings registry pid image s conjunction early start before passed vs ∧
            Escapes settings registry pid image s (after start early) (after start early + last.value.length)
              (before ++ passed) rest := by
  obtain ⟨t, roots, blocks, ht, hcompiled⟩ := Program.compiled_compile hp
  obtain ⟨stock, hblocks⟩ := hcompiled.lowered
  obtain ⟨image, himage, -⟩ := (Program.Produced.compiled hp).exists_image
  refine ⟨t, blocks, stock, image, ht, hblocks, hcompiled.code, himage, ?_⟩
  intro M h conjunction tail clauses q d start hx hd hlines settings pid before stretch s hstate hpc hc
  have hready : ∀ moments, ∃ A, (run settings registry pid image moments).machine.Ready hcompiled.layout False A :=
    fun moments => (run_ready hcompiled hcompiled.layout False himage hmodest (fun _ => none) False.elim settings pid
      moments False.elim).1
  have hat : s.IsAt (run settings registry pid image before).machine start := ⟨hstate, rfl, rfl, hpc⟩
  rcases hx.of_connective with ⟨rfl, rfl⟩ | ⟨n, xs, x, ps, q, returns, rfl, rfl, hps, hq, hreturns⟩
  · -- without clauses the value is pushed at once
    obtain ⟨hpush, -⟩ := prefix_drop_cons hlines
    obtain ⟨now, rest, rfl, hat', hstack, hrest⟩ := hc.exists_push hready hat (Nat.ne_of_lt (Nat.lt_succ_self start))
      hpush rfl
    obtain rfl := hrest.eq_nil hat'
    refine Or.inl ⟨[], [now], [], rfl, by simp, Or.inl .none, hat', ?_⟩
    rw [hstack]
    cases conjunction <;> rfl
  · obtain ⟨hfirst, hlast, place, hplace, hjump, hliteral, hstop⟩ := layout_connective hlines
    obtain ⟨hpush, hafter⟩ := prefix_drop_cons hliteral
    have hsink := (prefix_drop_cons (prefix_drop_cons hafter).2).1
    rw [hstop] at hc ⊢
    rw [Piece.clauses] at hc ⊢
    -- from the literals on
    have hend {evaluated rest : List Moment} {vs : List Value}
        (h : Passed settings registry pid image s conjunction (ps ++ [q]) start before evaluated vs ∨
          Stopped settings registry pid image s conjunction (ps ++ [q]) start before evaluated vs)
        (hat : s.IsAt (run settings registry pid image (before ++ evaluated)).machine
          (if connected conjunction vs = conjunction then place else place + 2))
        (hc : Completes settings registry pid image s (Piece.spans start (ps ++ [q])) (place + 5) (before ++ evaluated)
          rest) :
        ∃ evaluated' rest' vs, evaluated ++ rest = evaluated' ++ rest' ∧ rest'.length ≤ 3 ∧
          (Passed settings registry pid image s conjunction (ps ++ [q]) start before evaluated' vs ∨
            Stopped settings registry pid image s conjunction (ps ++ [q]) start before evaluated' vs) ∧
          s.IsAt (run settings registry pid image (before ++ (evaluated ++ rest))).machine (place + 5) ∧
          (run settings registry pid image (before ++ (evaluated ++ rest))).machine.stack.head? =
            some (.boolean (connected conjunction vs)) := by
      obtain ⟨hthree, hend⟩ := hc.run_literal hready hliteral hat
      rw [List.append_assoc] at hend
      exact ⟨evaluated, rest, vs, rfl, Nat.le_of_eq hthree, h, hend⟩
    have hstopped {evaluated rest : List Moment} {vs : List Value}
        (h : Stopped settings registry pid image s conjunction (ps ++ [q]) start before evaluated vs)
        (hat : s.IsAt (run settings registry pid image (before ++ evaluated)).machine (place + 2))
        (hc : Completes settings registry pid image s (Piece.spans start (ps ++ [q])) (place + 5) (before ++ evaluated)
          rest) :=
      hend (Or.inr h) (by rwa [h.connected_eq, if_neg (by cases conjunction <;> decide)]) hc
    rcases hc.run_clauses hcompiled hready hsink rfl hps hfirst (spans_append start ps [q]) (by omega) hat with
      ⟨passed, rest, vs, rfl, hpassed, hat', hc'⟩ | ⟨stopped, rest, vs, rfl, hone, hat', hc'⟩
    · rcases hc'.run_last hcompiled hready hsink rfl hq hd hreturns hlast hplace hjump ⟨_, hpush, rfl⟩
        (List.Subset.refl _) (by omega) hpassed hat' with
        (⟨first, rest, vs, rfl, hall, hat'', hc''⟩ | ⟨first, rest, vs, rfl, hone, hat'', hc''⟩) | ⟨htail, hescapes⟩
      · rw [← List.append_assoc]
        exact Or.inl (hend (Or.inl hall) (by rwa [hall.connected_eq, if_pos rfl]) hc'')
      · rw [← List.append_assoc]
        exact Or.inl (hstopped hone hat'' hc'')
      · exact Or.inr ⟨htail, ps, q, passed, rest, vs, rfl, rfl, hpassed, hescapes⟩
    · exact Or.inl (hstopped (hone.append [q]) hat' hc')

/-! ### Runs that can be computed -/

/-- A form that is evaluated in moments that are all the same, with no continuation called. -/
theorem completes_replicate {now : Moment} {k n : Nat}
    (hgoing : ∀ i < n, ¬s.IsDone (run settings registry pid image (List.replicate (k + i) now)).machine stop ∧
      (run settings registry pid image (List.replicate (k + i) now)).machine.resumes (hostAt settings registry now) = false)
    (hdone : s.IsDone (run settings registry pid image (List.replicate (k + n) now)).machine stop) :
    Completes settings registry pid image s spans stop (List.replicate k now) (List.replicate n now) := by
  have hsame : ∀ early now', early ++ [now'] <+: List.replicate n now →
      now' = now ∧ early.length < n ∧ List.replicate k now ++ early = List.replicate (k + early.length) now := by
    intro early now' hinit
    obtain ⟨hlength, hsame⟩ := List.prefix_replicate_iff.mp hinit
    rw [List.length_append, List.length_singleton] at hlength hsame
    rw [List.replicate_succ'] at hsame
    obtain ⟨hearly, hnow⟩ := List.append_inj' hsame rfl
    exact ⟨(List.cons.inj hnow).1, hlength, by rw [← List.replicate_append_replicate, ← hearly]⟩
  refine ⟨fun early now' hinit => ?_, fun early now' hinit hresumes => ?_, ?_⟩
  · obtain ⟨-, hlt, hearly⟩ := hsame early now' hinit
    rw [hearly]
    exact (hgoing _ hlt).1
  · obtain ⟨rfl, hlt, hearly⟩ := hsame early now' hinit
    rw [hearly, (hgoing _ hlt).2] at hresumes
    cases hresumes
  · rwa [List.replicate_append_replicate]

/-- The code of a conjunction of a literal and a call. -/
theorem lowers_conjunction {t : Tree} (K : Table Handle Constant) (M : Handle) {tail : Bool} (h h' : Handle) (n : Nat)
    (name : String) (hmark : t.tailCalls.contains h' = tail) :
    Lowers t K M tail
      (.application h .code [.atom (.keyword "and"), .atom (.boolean true), .application h' .code [.atom (.variable name)]])
      (.connective true n [.push (.atom (.boolean true))] (.call tail (.atom (.variable name)) []) tail) := by
  have hcall : Lowers t K M tail (.application h' .code [.atom (.variable name)]) (.call tail (.atom (.variable name)) []) := by
    have hcall : Lowers t K M tail (.application h' .code [.atom (.variable name)])
        (.call (t.tailCalls.contains h') (.atom (.variable name)) []) := .call (fun h => hmark ▸ h) .nil
    rwa [hmark] at hcall
  have hclauses : LowersAll t K M [.atom (.boolean true)] [.push (.atom (.boolean true))] := .cons (.literal rfl) .nil
  refine @Lowers.connective t K M tail true tail h n [.atom (.boolean true)] _ _ _ hclauses hcall fun htail => ?_
  subst htail
  exact Or.inl ⟨_, _, rfl⟩

/-- A conjunction outside tail position, whose last clause gives a symbol. -/
theorem run_connective_display :
    ∃ p image before after vs, Program.compile "(define (g) 'a) (display (and #t (g)))" = .ok p ∧
      Image.ofProgram p = .ok image ∧ (run {} Registry.builtins 0 image before).machine.stack = [] ∧
      (run {} Registry.builtins 0 image after).machine.stack = [.boolean true] ∧ connected true vs = true := by
  let now : Moment := ⟨{}, .ok .nothing⟩
  -- the run is evaluated once, from the first clause to the line behind the form
  have hrun : (do
      let p ← (Program.compile "(define (g) 'a) (display (and #t (g)))").toOption
      let t ← (Tree.parse "(define (g) 'a) (display (and #t (g)))" >>= Tree.analyse).toOption
      let lowered ← t.blocks.toOption
      let image ← (Image.ofProgram p).toOption
      let at' := fun k => (run {} Registry.builtins 0 image (List.replicate k now)).machine
      return decide (
        t.tailCalls.contains 5 = false ∧
        (Piece.connective true 0 [.push (.atom (.boolean true))] (.call false (.atom (.variable "&0.g")) []) false).lines
          (Handle.label 0) 0 <+: (Program.linesOf lowered.1).drop 6 ∧
        (at' 4).state = .running ∧ (at' 4).pc = 6 ∧ (at' 4).stack = [] ∧ (at' 14).stack = [.boolean true] ∧
        (∀ i ∈ List.range 10, ¬(at' 4).IsDone (at' (4 + i)) 15 ∧
          (at' (4 + i)).resumes (hostAt {} Registry.builtins now) = false) ∧
        (at' 4).IsDone (at' 14) 15)) = some true := by
    decide +kernel
  cases hp : Program.compile "(define (g) 'a) (display (and #t (g)))" with
  | error e =>
    rw [hp] at hrun
    cases hrun
  | ok p =>
    obtain ⟨t, blocks, stock, image, ht, hblocks, -, himage, hconnective⟩ := run_connective hp Registry.modest_builtins
    rw [hp, ht] at hrun
    simp only [Except.toOption, Option.bind_eq_bind, Option.bind_some, hblocks, himage, Option.pure_def,
      Option.some.injEq, decide_eq_true_eq, List.mem_range] at hrun
    obtain ⟨hmark, hlines, hrunning, hplace, hbefore, hafter, hgoing, hdone⟩ := hrun
    obtain ⟨_, _, vs, -, -, -, -, htop⟩ := (hconnective 0 4 true false _ _ 0 6
      (lowers_conjunction p.constants 0 4 5 0 "&0.g" hmark) (by simp) hlines {} 0 (List.replicate 4 now)
      (List.replicate 10 now) hrunning hplace (completes_replicate hgoing hdone)).resolve_right fun h => Bool.false_ne_true h.1
    rw [List.replicate_append_replicate, hafter] at htop
    exact ⟨p, image, _, _, vs, rfl, himage, hbefore, hafter, (Value.boolean.inj (Option.some.inj htop)).symm⟩

/-- **A conjunction in tail position returns the value of its last clause** if that is a tail call: the lambda below
returns a symbol. -/
theorem run_connective_tail :
    ∃ p t blocks stock image M h clauses q d start before stretch,
      Program.compile "(define (g) 'a) (define (f) (and #t (g))) (display (f))" = .ok p ∧
      (Tree.parse "(define (g) 'a) (define (f) (and #t (g))) (display (f))" >>= Tree.analyse) = .ok t ∧
      t.blocks = .ok (blocks, stock) ∧ Image.ofProgram p = .ok image ∧
      Lowers t p.constants M true (.application h .code (.atom (.keyword "and") :: clauses)) q ∧
      q.lines (Handle.label M) d <+: (Program.linesOf blocks).drop start ∧
      (run {} Registry.builtins 0 image before).machine.state = .running ∧
      (run {} Registry.builtins 0 image before).machine.pc = start ∧
      Completes {} Registry.builtins 0 image (run {} Registry.builtins 0 image before).machine
        (Piece.spans start q.clauses) (start + q.code.length) before stretch ∧
      ∀ b, (run {} Registry.builtins 0 image (before ++ stretch)).machine.stack.head? ≠ some (.boolean b) := by
  let now : Moment := ⟨{}, .ok .nothing⟩
  -- the run is evaluated once: the last clause is a tail call, whose value is not a boolean
  have hrun : (do
      let p ← (Program.compile "(define (g) 'a) (define (f) (and #t (g))) (display (f))").toOption
      let t ← (Tree.parse "(define (g) 'a) (define (f) (and #t (g))) (display (f))" >>= Tree.analyse).toOption
      let lowered ← t.blocks.toOption
      let image ← (Image.ofProgram p).toOption
      let at' := fun k => (run {} Registry.builtins 0 image (List.replicate k now)).machine
      return decide (
        t.tailCalls.contains 6 = true ∧
        (Piece.connective true 0 [.push (.atom (.boolean true))] (.call true (.atom (.variable "&0.g")) []) true).lines
          (Handle.label 4) 0 <+: (Program.linesOf lowered.1).drop 18 ∧
        (at' 8).state = .running ∧ (at' 8).pc = 18 ∧ (at' 14).stack = [.symbol "a"] ∧
        (∀ i ∈ List.range 6, ¬(at' 8).IsDone (at' (8 + i)) 26 ∧
          (at' (8 + i)).resumes (hostAt {} Registry.builtins now) = false) ∧
        (at' 8).IsDone (at' 14) 26)) = some true := by
    decide +kernel
  have hok : ∀ {ε α : Type} {r : Except ε α} {a : α}, r.toOption = some a → r = .ok a := by
    intro ε α r a h
    cases r <;> cases h
    rfl
  simp only [Option.bind_eq_bind, Option.pure_def, Option.bind_eq_some_iff] at hrun
  obtain ⟨p, hp, t, ht, ⟨blocks, stock⟩, hblocks, image, himage, hrun⟩ := hrun
  simp only [Option.some.injEq, decide_eq_true_eq, List.mem_range] at hrun
  obtain ⟨hmark, hlines, hrunning, hplace, hafter, hgoing, hdone⟩ := hrun
  refine ⟨p, t, blocks, stock, image, 4, 5, _, _, 0, 18, List.replicate 8 now, List.replicate 6 now, hok hp, hok ht,
    hok hblocks, hok himage, lowers_conjunction p.constants 4 5 6 0 "&0.g" hmark, hlines, hrunning, hplace,
    completes_replicate hgoing hdone, fun b => ?_⟩
  rw [List.replicate_append_replicate, hafter]
  exact fun h => nomatch h

end Process

end SchemeMachine
