import SchemeMachine.Proofs.Operands.Evaluation

/-!
# An application leaves one value

A call cannot touch the operands that its caller has pending, as long as each call passes as many arguments as its target
takes: when an application comes back, the stack is what it was before, with one value on top. Nothing checks the number
of arguments, and a call that passes another number leaves the stack in disorder.

* `Machine.Within` is kept while an expression is evaluated, in its own code and in the code that it calls:
  `Machine.Within.step` and `Machine.Within.deliver`, and `Process.run_within` for a run.
* `Process.run_application` is the result, `Process.run_application_missing_parameter` a call that passes an argument too
  many. Every application that is evaluated has a place as it is asked for there (`Program.exists_place`).
-/

namespace SchemeMachine

open Lowering

/-! ### The evaluation of an expression -/

/-- The line after an expression that ends with a call. -/
theorem Layout.Expression.exists_after {p : Program} {L : Layout p} {o : String} {tail : Bool} {d start n : Nat}
    {ls ls' : List Line} (he : L.Expression o tail d start ls) {target : Operand}
    (hcall : ls = ls' ++ [⟨⟨o, d + n, none⟩, callTo false target, n⟩]) :
    ∃ line, L.lines[start + ls.length]? = some line ∧ line.spot = ⟨o, d + 1, none⟩ := by
  subst hcall
  have hline : L.lines[start + ls'.length]? = some ⟨⟨o, d + n, none⟩, callTo false target, n⟩ := by
    rw [he.getElem? (by simp)]
    simp
  obtain ⟨next, hflow, hnext⟩ := L.flows _ _ hline
  obtain ⟨e, hdepth, rfl⟩ := hflow.of_call rfl
  have hsame : d + n = e + n := hdepth
  obtain ⟨line, hline', hspot⟩ := hnext _ rfl
  refine ⟨line, by rw [List.length_append]; exact hline', ?_⟩
  rw [hspot, Nat.add_right_cancel hsame]

/-- **As many operands as there are** when an expression starts with `d` operands of its code, upon calls under way. -/
def Layout.Counts {p : Program} (L : Layout p) (o : String) (d : Nat) (s : Machine) : Prop :=
  ∃ A H b, Stacked L A H (some o) s.frames b ∧ s.stack.length = d + b

/-- **A machine that keeps the operands** which `s` had on the stack as it began to evaluate an expression. -/
inductive Machine.Within {p : Program} (L : Layout p) (o : String) (d start : Nat) (ls : List Line) (s m : Machine) :
    Prop
  | amid (hamid : Amid L o d start ls s m) (hstack : s.stack <:+ m.stack)
  | ended (hstate : m.state = .stopped ∨ m.state = .failed)

namespace Machine.Within

variable {p : Program} {L : Layout p} {A : Handle → Prop} {o : String} {d start : Nat}
  {ls : List Line} {s m : Machine} {host : Host} {parameters : String → Option Nat}

/-- What is below the operands that a line may take stays. -/
theorem suffix_of_drop {vs ws S : List Value} {k : Nat} (hvs : S <:+ vs) (hlength : S.length + k ≤ vs.length)
    (hws : vs.drop k <:+ ws) : S <:+ ws := by
  refine (List.suffix_of_suffix_length_le hvs (List.drop_suffix k vs) ?_).trans hws
  rw [List.length_drop]
  omega

/-- **A line amid an expression** takes only operands that have come on top since the expression was begun. -/
theorem taken_le {line : Line} (h : Amid L o d start ls s m) (he : L.Expression o false d start ls)
    (hcounts : L.Counts o d s) (hbefore : ¬s.IsBack m (start + ls.length)) (hstands : m.Stands L True A line.spot)
    (hline : L.lines[m.pc]? = some line) : s.stack.length + line.taken ≤ m.stack.length := by
  obtain ⟨A₀, H₀, b₀, hbase, hS⟩ := hcounts
  obtain ⟨b, hstacked, hlength⟩ := hstands.stacked
  have hlength := hlength trivial
  cases h with
  | inside hstate hframes _ hstart hstop hline' howner =>
    cases hline.symm.trans hline'
    have hlt : m.pc < start + ls.length :=
      Nat.lt_of_le_of_ne hstop fun hpc => hbefore ⟨hstate, hpc, by rw [hframes]⟩
    have htaken := (he.keeping line (he.mem_of_place hstart hlt hline) howner).1
    have hb : b = b₀ := (hframes ▸ hstacked).unique hbase
    omega
  | called hframes _ _ _ hline' hspot hd =>
    obtain ⟨next, hflow, -⟩ := L.flows m.pc line hline
    have hb := (hframes ▸ hstacked).le_of_append hbase hline' hspot
    have htaken := hflow.taken_le
    omega

/-- **A step in the middle of an expression**, before the end. -/
theorem step (h : Within L o d start ls s m) (hr : m.Ready L True A) (he : L.Expression o false d start ls)
    (hcounts : L.Counts o d s) (hcall : m.CallMatches L.lines parameters host) (hresumes : m.resumes host = false)
    (hbefore : ¬s.IsBack m (start + ls.length)) : Within L o d start ls s (Machine.step host m).machine := by
  cases hstate : m.state with
  | suspended =>
    -- a machine that keeps to its layout is never suspended
    have hkeeps := hr.keeps
    unfold Keeps at hkeeps
    rw [hstate] at hkeeps
    exact hkeeps.elim
  | running =>
    cases h with
    | ended hended =>
      rw [hstate] at hended
      simp at hended
    | amid hamid hstack =>
      have hkeeps := hr.keeps
      unfold Keeps at hkeeps
      rw [hstate] at hkeeps
      obtain ⟨_, hstands⟩ := hkeeps
      obtain ⟨line, hline, rfl⟩ := hstands.line
      rcases hr.goes_step hstate hline hcall hresumes with hfailed | ⟨hdrop, hway⟩
      · exact .ended (Or.inr hfailed)
      -- the step fails, leaves for good, or stays inside the expression
      rcases hamid.way hr.sound he hstate hline hway hbefore with hstopped | ⟨hamid', -⟩ | ⟨hfalse, -⟩
      · exact .ended (Or.inl hstopped)
      · exact .amid hamid' (suffix_of_drop hstack (taken_le hamid he hcounts hbefore hstands hline) hdrop)
      · cases hfalse
  | _ =>
    have hidle : (Machine.step host m).machine = m := by
      unfold Machine.step
      rw [hstate]
    rw [hidle]
    exact h

/-- **The result of a job** in the middle of an expression. -/
theorem deliver (h : Within L o d start ls s m) (hstate : m.state = .sleeping)
    (result : Except NativeError NativeOutput) :
    Within L o d start ls s ({ m with pending := none }.deliver result) := by
  cases h with
  | amid hamid hstack =>
    obtain ⟨hamid', -, hsuffix⟩ := hamid.deliver hstate result
    exact .amid hamid' (hstack.trans hsuffix)
  | ended hended =>
    rw [hstate] at hended
    simp at hended

/-- **The evaluation of an expression starts** where its first line is. -/
theorem start_of_line {line : Line} (ls : List Line) (hr : m.Ready L True A) (hstate : m.state = .running)
    (hpc : m.pc = start) (hline : L.lines[start]? = some line) (hspot : line.spot = ⟨o, d, none⟩) :
    Within L o d start ls m m ∧ L.Counts o d m := by
  subst hpc
  refine ⟨.amid (.inside hstate rfl rfl (Nat.le_refl _) (Nat.le_add_right _ _) hline (by rw [hspot]))
    List.suffix_rfl, ?_⟩
  have hkeeps := hr.keeps
  unfold Keeps at hkeeps
  rw [hstate] at hkeeps
  obtain ⟨_, ⟨line', hline', rfl⟩, -, ⟨b, hstacked, hlength⟩, -⟩ := hkeeps
  cases hline.symm.trans hline'
  rw [hspot] at hstacked hlength
  exact ⟨A, m.heap, b, hstacked, hlength trivial⟩

/-- **The evaluation of an expression ends** with one operand more, if this is what is known at the place after it. -/
theorem exists_value {line : Line} (h : Within L o d start ls s m) (hr : m.Ready L True A)
    (hcounts : L.Counts o d s) (hback : s.IsBack m (start + ls.length))
    (hline : L.lines[start + ls.length]? = some line) (hspot : line.spot = ⟨o, d + 1, none⟩) :
    (∃ v, m.stack = v :: s.stack) ∧ m.frames = s.frames := by
  obtain ⟨hstate, hpc, hframes⟩ := hback
  cases h with
  | ended hended =>
    rw [hstate] at hended
    simp at hended
  | amid hamid hstack =>
    -- inside a callee there is a frame more, so that this is not the line behind the expression
    cases hamid with
    | called hcalled =>
      rw [hcalled, List.length_append, List.length_cons] at hframes
      omega
    | inside _ hsame _ _ _ _ _ =>
      refine ⟨?_, hsame⟩
      obtain ⟨A₀, H₀, b₀, hbase, hS⟩ := hcounts
      have hkeeps := hr.keeps
      unfold Keeps at hkeeps
      rw [hstate] at hkeeps
      obtain ⟨_, ⟨line', hline', rfl⟩, -, ⟨b, hstacked, hlength⟩, -⟩ := hkeeps
      rw [hpc] at hline'
      cases hline.symm.trans hline'
      rw [hspot] at hlength
      have hlength := hlength trivial
      have hb : b = b₀ := (hsame ▸ hstacked).unique hbase
      obtain ⟨above, habove⟩ := hstack
      -- the two lines differ by one operand
      have hone : above.length = 1 := by
        have := congrArg List.length habove
        rw [List.length_append] at this
        dsimp only at hlength
        omega
      obtain ⟨v, rfl⟩ := List.length_eq_one_iff.mp hone
      exact ⟨v, habove.symm⟩

end Machine.Within

/-- Whether a term applies a procedure: what it starts with is no keyword. -/
def Term.isApplication : Term → Bool
  | .application _ .code (.atom (.keyword _) :: _) => false
  | .application _ .code (_ :: _) => true
  | _ => false

/-- The code of an application outside tail position ends with its call. -/
theorem Lowers.exists_call {t : Tree} {K : Table Handle Constant} {M : Handle} {x : Term} {q : Piece}
    (hx : Lowers t K M false x q) (happlication : x.isApplication = true) (d : Nat) :
    ∃ ls target n, q.lines (Handle.label M) d =
      ls ++ [⟨⟨Handle.label M, d + n, none⟩, callTo false target, n⟩] := by
  -- outside tail position the compiler marks no application
  have hmarked : ∀ h, (t.tailCalls.contains h = true → false = true) → t.tailCalls.contains h = false :=
    fun h hmark => Bool.eq_false_iff.mpr fun hc => Bool.false_ne_true (hmark hc)
  cases hx with
  | @call _ h name args ps hmark hargs =>
    rw [hmarked h hmark]
    exact ⟨_, _, _, rfl⟩
  | @lambdaCall _ h N parameters body args ps hmark hin hargs =>
    rw [hmarked h hmark]
    exact ⟨_, _, _, rfl⟩
  | @computedCall _ h h' n inner args ps hmark hargs =>
    rw [hmarked h hmark]
    exact ⟨_, _, _, rfl⟩
  | _ => cases happlication

namespace Process

/-- **A stretch of a run in which an expression is evaluated**, the code from one place to another: it ends as soon as
the machine is back, and no continuation is called on the way. -/
structure Evaluates (settings : Settings) (registry : Registry) (pid : Nat) (image : Image) (start stop : Nat)
    (before stretch : List Moment) : Prop where
  running : (run settings registry pid image before).machine.state = .running
  place : (run settings registry pid image before).machine.pc = start
  between : ∀ early now, early ++ [now] <+: stretch →
    ¬(run settings registry pid image before).machine.IsBack
        (run settings registry pid image (before ++ early)).machine stop ∧
      (run settings registry pid image (before ++ early)).machine.resumes (hostAt settings registry now) = false
  back : (run settings registry pid image before).machine.IsBack
    (run settings registry pid image (before ++ stretch)).machine stop

variable {p : Program} {t : Tree} {roots : List Term} {blocks : List Block} {image : Image} {registry : Registry}

/-- **A run stays in the middle of an expression** until it is back. -/
theorem run_within {L : Layout p} {o : String} {d start : Nat} {ls : List Line} {s : Machine}
    (he : L.Expression o false d start ls) (hcounts : L.Counts o d s) {settings : Settings} {pid : Nat}
    {before : List Moment} (hstart : s.Within L o d start ls (run settings registry pid image before).machine)
    (parameters : String → Option Nat) (stretch : List Moment)
    (hbetween : ∀ early now, early ++ [now] <+: stretch →
      let m := (run settings registry pid image (before ++ early)).machine
      (∃ A, m.Ready L True A) ∧ m.CallMatches L.lines parameters (hostAt settings registry now) ∧
        m.resumes (hostAt settings registry now) = false ∧
        ¬s.IsBack m (start + ls.length)) :
    s.Within L o d start ls (run settings registry pid image (before ++ stretch)).machine := by
  -- on the moments of the stretch, the last one first: each is a step of the middle of the expression, or a result
  induction stretch using List.reverseRecOn with
  | nil =>
    rw [List.append_nil]
    exact hstart
  | append_singleton stretch now ih =>
    have hwithin := ih fun early now' h => hbetween early now' (h.trans (List.prefix_append _ _))
    obtain ⟨⟨A, hready⟩, hcall, hresumes, hbefore⟩ := hbetween stretch now List.prefix_rfl
    rw [← List.append_assoc, run_append]
    have hstep := hwithin.step hready he hcounts hcall hresumes hbefore
    unfold next
    cases hstate : (run settings registry pid image (before ++ stretch)).machine.state with
    | sleeping => exact hwithin.deliver hstate now.result
    | _ => exact hstep

/-- **An application leaves one value.** Take a source that compiles and an application in it, outside tail position,
whose code starts at some place. In any run with the built-in libraries in which each call passes as many arguments as
its target takes: if the application is evaluated and no continuation is called on the way, the operands are what they
were before its first argument was pushed, with one value on top, and the same calls are under way. -/
theorem run_application {source : String} (hp : Program.compile source = .ok p) :
    ∃ t blocks stock image, (Tree.parse source >>= Tree.analyse) = .ok t ∧ t.blocks = .ok (blocks, stock) ∧
      p.code = (Program.codeOf blocks).toArray ∧ Image.ofProgram p = .ok image ∧
      ∀ (M : Handle) (x : Term) (q : Piece) (d start : Nat), Lowers t p.constants M false x q → x.isApplication = true →
        q.lines (Handle.label M) d <+: (Program.linesOf blocks).drop start →
        ∀ (settings : Settings) (pid : Nat) (before stretch : List Moment),
          CallsMatch settings Registry.builtins pid image (Program.linesOf blocks) t.parameterCount? (before ++ stretch) →
          Evaluates settings Registry.builtins pid image start (start + q.code.length) before stretch →
          (∃ v, (run settings Registry.builtins pid image (before ++ stretch)).machine.stack =
            v :: (run settings Registry.builtins pid image before).machine.stack) ∧
          (run settings Registry.builtins pid image (before ++ stretch)).machine.frames =
            (run settings Registry.builtins pid image before).machine.frames := by
  obtain ⟨t, roots, blocks, ht, hcompiled⟩ := Program.compiled_compile hp
  obtain ⟨stock, hblocks⟩ := hcompiled.lowered
  obtain ⟨image, himage, -⟩ := (Program.Produced.compiled hp).exists_image
  refine ⟨t, blocks, stock, image, ht, hblocks, hcompiled.code, himage, ?_⟩
  intro M x q d start hx happlication hlines settings pid before stretch hcalls heval
  -- every state on the way is one of a run in which calls match
  have hready : ∀ early, early <+: before ++ stretch → ∃ A,
      (run settings Registry.builtins pid image early).machine.Ready hcompiled.layout True A := by
    intro early hearly
    exact (run_ready hcompiled hcompiled.layout True himage Registry.modest_builtins t.parameterCount?
      (fun _ N k => hcompiled.parameterCount?) settings pid early
      fun _ before' now h => hcalls before' now (h.trans hearly)).1
  -- the lines of the application, from its first one to the one after its call
  have hsub : q.lines (Handle.label M) d ⊆ Program.linesOf blocks :=
    fun line hline => List.mem_of_mem_drop (hlines.subset hline)
  have hexpression : hcompiled.layout.Expression (Handle.label M) false d start (q.lines (Handle.label M) d) :=
    ⟨hlines, hx.keeping (by simp) d (List.Subset.refl _)⟩
  have hlength : (q.lines (Handle.label M) d).length = q.code.length := by
    rw [← Piece.map_lines (o := Handle.label M) q d, List.length_map]
  obtain ⟨ls, target, n, hcall⟩ := hx.exists_call happlication d
  obtain ⟨first, hfirst, hspot⟩ := hexpression.exists_first (hx.chain hcompiled d (by simp) hsub) (by simp [hcall])
  obtain ⟨after, hafter, hspot'⟩ := hexpression.exists_after hcall
  obtain ⟨A, hnow⟩ := hready before (List.prefix_append _ _)
  obtain ⟨A', hthen⟩ := hready (before ++ stretch) List.prefix_rfl
  -- at its first line the machine is in the middle of the application, and it stays there until it is back
  obtain ⟨hwithin, hcounts⟩ := Machine.Within.start_of_line (q.lines (Handle.label M) d) hnow heval.running heval.place
    hfirst hspot
  have hend := run_within hexpression hcounts hwithin t.parameterCount? stretch fun early now h => by
    have hinit : before ++ early ++ [now] <+: before ++ stretch := by
      rw [List.append_assoc]
      exact (List.prefix_append_right_inj before).mpr h
    obtain ⟨hbefore, hresumes⟩ := heval.between early now h
    rw [← hlength] at hbefore
    exact ⟨hready _ ((List.prefix_append _ _).trans hinit), hcalls _ now hinit, hresumes, hbefore⟩
  exact hend.exists_value hthen hcounts (hlength ▸ heval.back) hafter hspot'

/-! ### Runs that can be computed -/

/-- A stretch in which every moment is the same. -/
theorem evaluates_replicate {settings : Settings} {pid start stop : Nat} {now : Moment} {k n : Nat}
    (hrunning : (run settings registry pid image (List.replicate k now)).machine.state = .running)
    (hplace : (run settings registry pid image (List.replicate k now)).machine.pc = start)
    (hbetween : ∀ i < n, ¬(run settings registry pid image (List.replicate k now)).machine.IsBack
        (run settings registry pid image (List.replicate (k + i) now)).machine stop ∧
      (run settings registry pid image (List.replicate (k + i) now)).machine.resumes (hostAt settings registry now) = false)
    (hback : (run settings registry pid image (List.replicate k now)).machine.IsBack
      (run settings registry pid image (List.replicate (k + n) now)).machine stop) :
    Evaluates settings registry pid image start stop (List.replicate k now) (List.replicate n now) := by
  refine ⟨hrunning, hplace, fun early now' hinit => ?_, by rw [List.replicate_append_replicate]; exact hback⟩
  obtain ⟨hlength, hsame⟩ := List.prefix_replicate_iff.mp hinit
  rw [List.length_append, List.length_singleton] at hlength hsame
  rw [List.replicate_succ'] at hsame
  obtain ⟨hearly, hnow⟩ := List.append_inj' hsame rfl
  cases hnow
  rw [hearly, List.replicate_append_replicate]
  exact hbetween early.length hlength

/-- The code of a call that passes a symbol. -/
theorem lowers_symbolCall {t : Tree} (K : Table Handle Constant) (M : Handle) {h : Handle}
    (hmark : t.tailCalls.contains h = false) (name y : String) :
    Lowers t K M false (.application h .code [.atom (.variable name), .atom (.symbol y)])
      (.call false (.atom (.variable name)) [.push (.atom (.symbol y))]) := by
  have hcall : Lowers t K M false (.application h .code [.atom (.variable name), .atom (.symbol y)])
      (.call (t.tailCalls.contains h) (.atom (.variable name)) [.push (.atom (.symbol y))]) :=
    .call (by simp [hmark]) (.cons (.literal rfl) .nil)
  rwa [hmark] at hcall

/-- A program that calls a procedure while an operand is pending. -/
theorem run_application_cons :
    ∃ p image before after v, Program.compile "(define (f x) '()) (display (cons 'a (f 'b)))" = .ok p ∧
      Image.ofProgram p = .ok image ∧
      (run {} Registry.builtins 0 image before).machine.stack = [.symbol "a"] ∧
      (run {} Registry.builtins 0 image after).machine.stack = [v, .symbol "a"] := by
  let now : Moment := ⟨{}, .ok .nothing⟩
  -- the run is evaluated once, up to the end of the call
  have hrun : (do
      let p ← (Program.compile "(define (f x) '()) (display (cons 'a (f 'b)))").toOption
      let t ← (Tree.parse "(define (f x) '()) (display (cons 'a (f 'b)))" >>= Tree.analyse).toOption
      let lowered ← t.blocks.toOption
      let image ← (Image.ofProgram p).toOption
      return decide (
        t.tailCalls.contains 6 = false ∧
        (Piece.call false (.atom (.variable "&0.f")) [.push (.atom (.symbol "b"))]).lines (Handle.label 0) 1 <+:
          (Program.linesOf lowered.1).drop 7 ∧
        (∀ i ∈ List.range 11, (run {} Registry.builtins 0 image (List.replicate i now)).machine.CallMatches
          (Program.linesOf lowered.1) t.parameterCount? (hostAt {} Registry.builtins now)) ∧
        (run {} Registry.builtins 0 image (List.replicate 5 now)).machine.state = .running ∧
        (run {} Registry.builtins 0 image (List.replicate 5 now)).machine.pc = 7 ∧
        (run {} Registry.builtins 0 image (List.replicate 5 now)).machine.stack = [.symbol "a"] ∧
        (∀ i ∈ List.range 6, ¬(run {} Registry.builtins 0 image (List.replicate 5 now)).machine.IsBack
          (run {} Registry.builtins 0 image (List.replicate (5 + i) now)).machine 9 ∧
          (run {} Registry.builtins 0 image (List.replicate (5 + i) now)).machine.resumes
            (hostAt {} Registry.builtins now) = false) ∧
        (run {} Registry.builtins 0 image (List.replicate 5 now)).machine.IsBack
          (run {} Registry.builtins 0 image (List.replicate 11 now)).machine 9)) = some true := by
    decide +kernel
  cases hp : Program.compile "(define (f x) '()) (display (cons 'a (f 'b)))" with
  | error e =>
    rw [hp] at hrun
    cases hrun
  | ok p =>
    obtain ⟨t, blocks, stock, image, ht, hblocks, -, himage, happlication⟩ := Process.run_application hp
    rw [hp, ht] at hrun
    simp only [Except.toOption, Option.bind_eq_bind, Option.bind_some, hblocks, himage, Option.pure_def,
      Option.some.injEq, decide_eq_true_eq, List.mem_range] at hrun
    obtain ⟨hmark, hlines, hcalls, hrunning, hplace, hstack, hbetween, hback⟩ := hrun
    obtain ⟨⟨v, hv⟩, -⟩ := happlication 0 _ _ 1 7 (lowers_symbolCall p.constants 0 hmark "&0.f" "b") rfl hlines {} 0
      (List.replicate 5 now) (List.replicate 6 now) (callsMatch_replicate hcalls)
      (evaluates_replicate hrunning hplace hbetween hback)
    exact ⟨p, image, _, _, v, rfl, himage, hstack, by rw [hv, hstack]⟩

/-- **A procedure without parameters leaves its argument on the stack.** Nothing compares the arguments of a call with
the parameters of its target: the application below leaves two values, and `cons` takes the wrong ones. -/
theorem run_application_missing_parameter :
    ∃ p t blocks stock image M x q d start before stretch,
      Program.compile "(define (f) '()) (display (cons 'a (f 'b)))" = .ok p ∧
      (Tree.parse "(define (f) '()) (display (cons 'a (f 'b)))" >>= Tree.analyse) = .ok t ∧
      t.blocks = .ok (blocks, stock) ∧ Image.ofProgram p = .ok image ∧
      Lowers t p.constants M false x q ∧ x.isApplication = true ∧
      q.lines (Handle.label M) d <+: (Program.linesOf blocks).drop start ∧
      Evaluates {} Registry.builtins 0 image start (start + q.code.length) before stretch ∧
      ¬∃ v, (run {} Registry.builtins 0 image (before ++ stretch)).machine.stack =
        v :: (run {} Registry.builtins 0 image before).machine.stack := by
  let now : Moment := ⟨{}, .ok .nothing⟩
  -- the run is evaluated once: `b` is left under the result of the call
  have hrun : (do
      let p ← (Program.compile "(define (f) '()) (display (cons 'a (f 'b)))").toOption
      let t ← (Tree.parse "(define (f) '()) (display (cons 'a (f 'b)))" >>= Tree.analyse).toOption
      let lowered ← t.blocks.toOption
      let image ← (Image.ofProgram p).toOption
      return decide (
        t.tailCalls.contains 6 = false ∧
        (Piece.call false (.atom (.variable "&0.f")) [.push (.atom (.symbol "b"))]).lines (Handle.label 0) 1 <+:
          (Program.linesOf lowered.1).drop 7 ∧
        (run {} Registry.builtins 0 image (List.replicate 5 now)).machine.state = .running ∧
        (run {} Registry.builtins 0 image (List.replicate 5 now)).machine.pc = 7 ∧
        (∀ i ∈ List.range 5, ¬(run {} Registry.builtins 0 image (List.replicate 5 now)).machine.IsBack
          (run {} Registry.builtins 0 image (List.replicate (5 + i) now)).machine 9 ∧
          (run {} Registry.builtins 0 image (List.replicate (5 + i) now)).machine.resumes
            (hostAt {} Registry.builtins now) = false) ∧
        (run {} Registry.builtins 0 image (List.replicate 5 now)).machine.IsBack
          (run {} Registry.builtins 0 image (List.replicate 10 now)).machine 9 ∧
        (run {} Registry.builtins 0 image (List.replicate 5 now)).machine.stack.length = 1 ∧
        (run {} Registry.builtins 0 image (List.replicate 10 now)).machine.stack.length = 3)) = some true := by
    decide +kernel
  have hok : ∀ {ε α : Type} {r : Except ε α} {a : α}, r.toOption = some a → r = .ok a := by
    intro ε α r a h
    cases r <;> cases h
    rfl
  simp only [Option.bind_eq_bind, Option.pure_def, Option.bind_eq_some_iff] at hrun
  obtain ⟨p, hp, t, ht, ⟨blocks, stock⟩, hblocks, image, himage, hrun⟩ := hrun
  simp only [Option.some.injEq, decide_eq_true_eq, List.mem_range] at hrun
  obtain ⟨hmark, hlines, hrunning, hplace, hbetween, hback, hbefore, hafter⟩ := hrun
  refine ⟨p, t, blocks, stock, image, 0, _, _, 1, 7, List.replicate 5 now, List.replicate 5 now, hok hp, hok ht,
    hok hblocks, hok himage, lowers_symbolCall p.constants 0 hmark "&0.f" "b", rfl, hlines,
    evaluates_replicate hrunning hplace hbetween hback, ?_⟩
  rintro ⟨v, hv⟩
  rw [List.replicate_append_replicate] at hv
  rw [hv, List.length_cons, hbefore] at hafter
  omega

end Process

end SchemeMachine
