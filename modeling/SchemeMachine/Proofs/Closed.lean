import Mathlib.Data.List.Count
import SchemeMachine.Proofs.Layout.Compiled

/-!
# Compiled programs are closed

A program refers to places of its code, to constants and to the lambdas around lambdas. In a compiled program every
such reference leads somewhere, and following references comes to an end.

* `Program.Closed` collects what a closed program has.
* `Layout.exists_label` finds the labels that instructions name, from what `Layout.flows` says of each line.
* `Program.Compiled.renderFrom_eq`: a constant has one text, whatever the depth to which it is written, as soon as that
  is as large as the number of constants.
* `Tree.Analysed.lighter_or_top`: a lambda is smaller than the one around it, or that is the top lambda.
* `Tree.closed_compile` is the result: labels never clash, and every compiled program is closed.
-/

namespace SchemeMachine

open Lowering Term

namespace Program

/-- The constant list at the first handle holds the second handle. -/
def Refers (p : Program) (h j : Handle) : Prop := ∃ items, p.constants.find? h = some (.list items) ∧ .handle j ∈ items

/-- **A closed program.** -/
structure Closed (p : Program) : Prop where
  /-- No label is defined twice. -/
  nodup_labels : (labelsOf p.code.toList).Nodup
  /-- Every label that an instruction names is defined. -/
  labels : ∀ op name, .op op (some (.label name)) ∈ p.code → .label name ∈ p.code
  /-- A continuation is captured under the name of a label. -/
  captures : ∀ operand, .op .capture operand ∈ p.code →
    ∃ name, operand = some (.atom (.variable name)) ∧ .label name ∈ p.code
  /-- Every handle that an instruction names is a constant. -/
  handles : ∀ op h, .op op (some (.handle h)) ∈ p.code → p.constants.contains h = true
  /-- Every handle in a constant list is a constant. -/
  lists : ∀ h j, p.Refers h j → p.constants.contains j = true
  /-- No constant list holds itself, at any depth. -/
  lists_wellFounded : WellFounded fun j h => p.Refers h j
  /-- Every constant has a text, which more depth does not change. -/
  rendered : ∀ h, p.constants.contains h = true → (p.renderConstant h).isSome = true ∧
    ∀ fuel, p.constants.size < fuel → p.renderFrom fuel h = p.renderConstant h
  /-- The program knows of lambdas that there are. -/
  enclosing : ∀ l l', p.enclosing.find? l = some l' → .label l ∈ p.code ∧ .label l' ∈ p.code
  /-- No lambda is around itself. -/
  enclosing_wellFounded : WellFounded fun l' l => p.enclosing.find? l = some l'

end Program

variable {t : Tree} {roots : List Term} {blocks : List Block} {p : Program}

/-! ### Labels -/

namespace Layout

/-- Where a label stands, it is in the code. -/
theorem label_mem (L : Layout p) {name : String} {s : Spot} (h : L.At name s) : .label name ∈ p.code := by
  obtain ⟨line, hline, hi, -⟩ := h
  rw [← Array.mem_toList_iff, ← L.code, ← hi]
  exact List.mem_map_of_mem hline

theorem exists_line (L : Layout p) {i : Instruction} (hi : i ∈ p.code) :
    ∃ (pc : Nat) (line : Line), L.lines[pc]? = some line ∧ line.instruction = i := by
  rw [← Array.mem_toList_iff, ← L.code] at hi
  obtain ⟨line, hline, hinstruction⟩ := List.mem_map.mp hi
  obtain ⟨pc, hpc⟩ := List.getElem?_of_mem hline
  exact ⟨pc, line, hpc, hinstruction⟩

/-- **A label on the stack is soon stored**, and is that of a lambda. -/
theorem exists_waits (L : Layout p) {pc : Nat} {line : Line} {N : String} (hline : L.lines[pc]? = some line)
    (hpending : line.spot.pending = some N) : ∃ o, L.Waits p o N := by
  -- nothing but comments and labels can stand before the line that stores it
  induction hleft : L.lines.length - pc using Nat.strongRecOn generalizing pc line with
  | ind left ih =>
    have hlt : pc < L.lines.length := (List.getElem?_eq_some_iff.mp hline).1
    have hon : ∀ {s : Spot}, s.pending = some N → (∃ line', L.lines[pc + 1]? = some line' ∧ line'.spot = s) →
        ∃ o, L.Waits p o N := by
      rintro s hs ⟨line', hline', rfl⟩
      exact ih (L.lines.length - (pc + 1)) (by omega) hline' hs rfl
    obtain ⟨next, hflow, hnext⟩ := L.flows pc line hline
    cases hflow with
    | comment => exact hon hpending (hnext _ rfl)
    | label => exact hon hpending (hnext _ rfl)
    | store howns hwaits => exact ⟨_, hwaits N hpending⟩
    | set hwaits => exact ⟨_, hwaits N hpending⟩
    | _ => cases hpending

/-- **The labels that instructions name stand in the code.** -/
theorem exists_label (L : Layout p) {op : Opcode} {name : String} (hi : .op op (some (.label name)) ∈ p.code) :
    ∃ s, L.At name s := by
  obtain ⟨pc, line, hline, hinstruction⟩ := L.exists_line hi
  obtain ⟨next, hflow, hnext⟩ := L.flows pc line hline
  -- a label is an operand of few instructions, each of which has a place that it leads to
  cases hflow with
  | loadClosure hwaits =>
    cases hinstruction
    obtain ⟨n, hentry⟩ := hwaits.entry
    exact ⟨_, hentry⟩
  | pushLabel =>
    cases hinstruction
    obtain ⟨line', hline', hspot⟩ := hnext _ rfl
    obtain ⟨o, hwaits⟩ := L.exists_waits hline' (by rw [hspot])
    obtain ⟨n, hentry⟩ := hwaits.entry
    exact ⟨_, hentry⟩
  | push hv hlabel =>
    cases hinstruction
    cases hv
    exact absurd rfl (hlabel name)
  | start _ hentry =>
    cases hinstruction
    exact ⟨_, hentry⟩
  | callLabel _ hentry =>
    cases hinstruction
    exact ⟨_, hentry⟩
  | tailCallLabel _ hentry =>
    cases hinstruction
    exact ⟨_, hentry⟩
  | branch _ hat =>
    cases hinstruction
    exact ⟨_, hat⟩
  | goto hat =>
    cases hinstruction
    exact ⟨_, hat⟩
  | _ => cases hinstruction

/-- A continuation is captured under the name of a label. -/
theorem exists_capture (L : Layout p) {operand : Option Operand} (hi : .op .capture operand ∈ p.code) :
    ∃ name s, operand = some (.atom (.variable name)) ∧ L.At name s := by
  obtain ⟨pc, line, hline, hinstruction⟩ := L.exists_line hi
  obtain ⟨next, hflow, -⟩ := L.flows pc line hline
  cases hflow with
  | capture _ hat =>
    cases hinstruction
    exact ⟨_, _, rfl, hat⟩
  | branch hop => rcases hop with rfl | rfl <;> cases hinstruction
  | operation hop =>
    cases hinstruction
    cases hop
  | _ => cases hinstruction

end Layout

/-! ### Constants -/

namespace Program

/-- How many constants there are from a handle on. -/
def constantsFrom (p : Program) (h : Handle) : Nat := p.constants.keys.countP (h ≤ ·)

namespace Compiled

theorem constantsFrom_le (p : Program) (h : Handle) : p.constantsFrom h ≤ p.constants.size := by
  rw [constantsFrom, Table.size, ← List.length_map Prod.fst]
  exact List.countP_le_length

/-- **A constant list refers to later constants.** -/
theorem constantsFrom_lt (hp : p.Compiled t roots blocks) {h j : Handle} (hrefers : p.Refers h j) :
    p.constantsFrom j < p.constantsFrom h := by
  obtain ⟨items, hlist, hmem⟩ := hrefers
  obtain ⟨hlt, -⟩ := hp.lists h items hlist j hmem
  have hkey : h ∈ p.constants.keys := Table.contains_iff_mem_keys.mp (Table.contains_iff.mpr ⟨_, hlist⟩)
  obtain ⟨before, after, hkeys⟩ := List.append_of_mem hkey
  have hmono : ∀ ks : List Handle, ks.countP (j ≤ ·) ≤ ks.countP (h ≤ ·) := fun ks =>
    List.countP_mono_left fun k _ hk => decide_eq_true ((Nat.le_of_lt hlt).trans (of_decide_eq_true hk))
  have hbefore := hmono before
  have hafter := hmono after
  simp only [constantsFrom, hkeys, List.countP_append, List.countP_cons, Nat.le_refl, decide_true, if_true,
    decide_eq_true_eq, if_neg (Nat.not_le.mpr hlt)]
  omega

theorem lists_wellFounded (hp : p.Compiled t roots blocks) : WellFounded fun j h => p.Refers h j :=
  Subrelation.wf (fun hrefers => hp.constantsFrom_lt hrefers) (measure p.constantsFrom).wf

end Compiled

/-- Functions that answer alike for all members of a list. -/
theorem mapM_eq_of_isSome {α β γ : Type} {f g : α → Option β} {xs : List α}
    (h : ∀ x ∈ xs, f x = g x ∧ (f x).isSome = true) (k : List β → γ) :
    (do return k (← xs.mapM f) : Option γ) = (do return k (← xs.mapM g)) ∧
      (do return k (← xs.mapM f) : Option γ).isSome = true := by
  suffices hmap : xs.mapM f = xs.mapM g ∧ (xs.mapM f).isSome = true by
    obtain ⟨ys, hys⟩ := Option.isSome_iff_exists.mp hmap.2
    rw [← hmap.1, hys]
    exact ⟨rfl, rfl⟩
  induction xs with
  | nil => exact ⟨rfl, rfl⟩
  | cons x xs ih =>
    obtain ⟨heq, hsome⟩ := h x List.mem_cons_self
    obtain ⟨hrest, hrestSome⟩ := ih fun y hy => h y (List.mem_cons_of_mem x hy)
    obtain ⟨y, hy⟩ := Option.isSome_iff_exists.mp hsome
    obtain ⟨ys, hys⟩ := Option.isSome_iff_exists.mp hrestSome
    rw [List.mapM_cons, List.mapM_cons, ← heq, ← hrest, hy, hys]
    exact ⟨rfl, rfl⟩

/-- **The text of a constant** is there, and does not depend on the depth, if that is large enough. -/
theorem Compiled.renderFrom_eq (hp : p.Compiled t roots blocks) {fuel fuel' : Nat} {h : Handle}
    (hc : p.constants.contains h = true) (hfuel : p.constantsFrom h < fuel) (hfuel' : p.constantsFrom h < fuel') :
    p.renderFrom fuel h = p.renderFrom fuel' h ∧ (p.renderFrom fuel h).isSome = true := by
  induction fuel generalizing fuel' h with
  | zero => exact absurd hfuel (Nat.not_lt_zero _)
  | succ fuel ih =>
    obtain ⟨fuel', rfl⟩ := Nat.exists_eq_succ_of_ne_zero (Nat.ne_of_gt (Nat.zero_lt_of_lt hfuel'))
    obtain ⟨c, hfind⟩ := Table.contains_iff.mp hc
    unfold renderFrom
    rw [hfind]
    cases c with
    | string content => exact ⟨rfl, rfl⟩
    | list items =>
      refine mapM_eq_of_isSome (fun item hitem => ?_) _
      cases item with
      | label name => exact ⟨rfl, rfl⟩
      | atom a => cases a <;> exact ⟨rfl, rfl⟩
      | handle j =>
        have hlt : p.constantsFrom j < p.constantsFrom h := hp.constantsFrom_lt ⟨items, hfind, hitem⟩
        obtain ⟨-, hj⟩ := hp.lists h items hfind j hitem
        exact ih hj (Nat.lt_of_lt_of_le hlt (Nat.le_of_lt_succ hfuel))
          (Nat.lt_of_lt_of_le hlt (Nat.le_of_lt_succ hfuel'))

end Program

/-! ### Lambdas around lambdas -/

/-- A part of a term is as large as the term at most. -/
theorem Term.length_handles_le {x : Term} {xs : List Term} (hx : x ∈ xs) : x.handles.length ≤ (handlesAll xs).length :=
  (handles_sublist hx).length_le

/-- **A lambda in a term** is smaller than the lambda around it, or that is the top lambda, given that it is so for the
term as a whole. -/
theorem Term.Sub.lighter {x y : Term} (hsub : Sub x y) {N : Handle} {ps : List String} {body : List Term}
    (hx : x = .lambda N ps body) {M : Handle} {parent : Option Handle} {k : Nat} (hy : y.Placed t parent)
    (he : t.Encloses M parent k) (hk : k + y.handles.length ≤ t.size)
    (hl : M = Tree.top ∨ y.handles.length < t.weight M) {q : Handle} {ps' : List String} {cs : List Child}
    (hn : t.get? N = some (.lambda (some q) ps' cs)) :
    t.enclosingLambda q = Tree.top ∨ t.weight N < t.weight (t.enclosingLambda q) := by
  induction hsub generalizing M parent k with
  | refl =>
    subst hx
    cases hn.symm.trans hy.1
    rw [he.enclosingLambda (by omega), Tree.weight_eq hy rfl]
    exact hl
  | @body y h ps body hmem _ ih =>
    have hle := length_handles_le hmem
    rw [Term.handles, List.length_cons] at hk
    refine ih (k := 0) (placedAll_iff.mp hy.2 _ hmem) (Tree.encloses_lambda hy.1) (by omega) (Or.inr ?_)
    rw [Tree.weight_eq hy rfl, Term.handles, List.length_cons]
    exact Nat.lt_succ_of_le hle
  | @item y h quotation items hmem _ ih =>
    have hle := length_handles_le hmem
    rw [Term.handles, List.length_cons] at hk hl
    exact ih (k := k + 1) (placedAll_iff.mp hy.2 _ hmem) (he.application hy.1) (by omega)
      (hl.imp_right fun hl => by omega)

namespace Tree.Analysed

/-- **The lambda around a lambda** is larger, or the top lambda. -/
theorem lighter_or_top (ha : t.Analysed roots) {N q : Handle} {ps : List String} {cs : List Child}
    (hn : t.get? N = some (.lambda (some q) ps cs)) :
    t.enclosingLambda q = Tree.top ∨ t.weight N < t.weight (t.enclosingLambda q) := by
  obtain ⟨root, hroot, body, hsub, -⟩ := ha.holds.lambda hn
  have hlen := length_handles_le hroot
  rw [ha.holds.handles.length_eq, List.length_range] at hlen
  exact hsub.lighter rfl (placedAll_iff.mp ha.holds.placed root hroot) (k := 0) rfl (by omega) (Or.inl rfl) hn

theorem weight_le (ha : t.Analysed roots) {N : Handle} {parent : Option Handle} {ps : List String} {cs : List Child}
    (hn : t.get? N = some (.lambda parent ps cs)) : t.weight N ≤ t.size := by
  obtain ⟨root, hroot, body, hsub, rfl, hplaced, -⟩ := ha.holds.lambda hn
  have hlen := (hsub.handles.trans (handles_sublist hroot)).length_le
  rw [ha.holds.handles.length_eq, List.length_range] at hlen
  have hself : (Term.lambda N ps body).Placed t parent := ⟨hn, hplaced⟩
  rwa [Tree.weight_eq hself rfl]

end Tree.Analysed

namespace Program.Compiled

/-- Every lambda has its label in the code. -/
theorem label_mem (hp : p.Compiled t roots blocks) {N : Handle} {parent : Option Handle} {ps : List String}
    {cs : List Child} (hn : t.get? N = some (.lambda parent ps cs)) : .label (Handle.label N) ∈ p.code :=
  hp.layout.label_mem (exists_entry hp hn)

theorem enclosing_mem (hp : p.Compiled t roots blocks) {l l' : String} (h : p.enclosing.find? l = some l') :
    .label l ∈ p.code ∧ .label l' ∈ p.code := by
  obtain ⟨N, q, ps, cs, rfl, hn, rfl⟩ := hp.enclosing_eq_some.mp h
  obtain ⟨body, htop⟩ := hp.analysed.holds.top_node
  obtain ⟨parent, ps', cs', hn'⟩ := Tree.get?_enclosingFrom ⟨_, _, _, htop⟩ (t.size + 1) q
  exact ⟨hp.label_mem hn, hp.label_mem hn'⟩

/-- **Going outwards from lambda to lambda comes to an end.** -/
theorem enclosing_wellFounded (hp : p.Compiled t roots blocks) :
    WellFounded fun l' l => p.enclosing.find? l = some l' := by
  -- the top lambda is last, the others are the further in the smaller they are
  refine Subrelation.wf (r := InvImage (· < ·) fun l =>
    if l = Handle.label Tree.top then 0 else t.size + 2 - t.rank l) ?_ (InvImage.wf _ Nat.lt_wfRel.wf)
  intro l' l h
  obtain ⟨N, q, ps, cs, rfl, hn, rfl⟩ := hp.enclosing_eq_some.mp h
  obtain ⟨body, htop⟩ := hp.analysed.holds.top_node
  obtain ⟨parent, ps', cs', hn'⟩ := Tree.get?_enclosingFrom ⟨_, _, _, htop⟩ (t.size + 1) q
  have hne : Handle.label N ≠ Handle.label Tree.top := by
    intro he
    rw [Handle.label_injective he, htop] at hn
    cases hn
  have hN := hp.analysed.weight_le hn
  have hM : t.weight (t.enclosingLambda q) ≤ t.size := hp.analysed.weight_le hn'
  simp only [InvImage, if_neg hne, Tree.rank_label]
  rcases hp.analysed.lighter_or_top hn with hM' | hlt
  · rw [hM', if_pos rfl]
    omega
  · split
    · omega
    · omega

/-- **A compiled program is closed.** -/
theorem closed (hp : p.Compiled t roots blocks) : p.Closed where
  nodup_labels := by
    obtain ⟨stock, hblocks⟩ := hp.lowered
    rw [hp.code]
    exact nodup_labels_codeOf hblocks (hp.handles ▸ List.nodup_range.filter _)
  labels op name hi := by
    obtain ⟨s, hat⟩ := hp.layout.exists_label hi
    exact hp.layout.label_mem hat
  captures operand hi := by
    obtain ⟨name, s, hname, hat⟩ := hp.layout.exists_capture hi
    exact ⟨name, hname, hp.layout.label_mem hat⟩
  handles op h hi := hp.layout.grounded hi rfl
  lists h j hrefers := by
    obtain ⟨items, hlist, hmem⟩ := hrefers
    exact (hp.lists h items hlist j hmem).2
  lists_wellFounded := hp.lists_wellFounded
  rendered h hc := by
    have hlt : p.constantsFrom h < p.constants.size + 1 := Nat.lt_succ_of_le (constantsFrom_le p h)
    exact ⟨(hp.renderFrom_eq hc hlt hlt).2, fun fuel hfuel =>
      (hp.renderFrom_eq hc (Nat.lt_of_le_of_lt (constantsFrom_le p h) hfuel) hlt).1⟩
  enclosing l l' h := hp.enclosing_mem h
  enclosing_wellFounded := hp.enclosing_wellFounded

end Program.Compiled

/-! ### The result -/

/-- **Every compiled program is closed.** Take a source that can be parsed and analysed. Compiling it never fails for
the labels, and if it succeeds, the program is closed. -/
theorem Tree.closed_compile {source : String} (h : (Tree.parse source >>= Tree.analyse) = .ok t) :
    (∀ e, t.compile ≠ .error (.label e)) ∧ ∀ p, t.compile = .ok p → p.Closed := by
  obtain ⟨roots, ha⟩ := Tree.exists_analysed h
  refine ⟨fun e he => ?_, fun p hp => ?_⟩
  · -- labels are found whenever lowering succeeds, so that an error is one of lowering
    cases hprogram : Program.ofTree t with
    | error fault =>
      rw [Tree.compile, hprogram] at he
      cases he
    | ok program =>
      obtain ⟨blocks, hcompiled⟩ := ha.compiled_ofTree hprogram
      obtain ⟨labels, hlabels⟩ := hcompiled.labels
      have hok : t.compile = .ok program := by
        refine Except.bind_eq_ok.mpr ⟨program, Except.mapError_eq_ok.mpr hprogram, ?_⟩
        exact Except.bind_eq_ok.mpr ⟨labels, Except.mapError_eq_ok.mpr hlabels, rfl⟩
      cases he.symm.trans hok
  · obtain ⟨blocks, hcompiled⟩ := ha.compiled hp
    exact hcompiled.closed

/-- A program with labels and constants of every kind. -/
theorem Tree.closed_compile_forms :
    ∃ t p, (Tree.parse "(define (f x) (if (and x (or x #f)) `(a ,x (\"b\")) '(c (d))))
        (define g (lambda () f)) ((g) (call/cc (lambda (k) (fork '(a)) (k 1))))" >>= Tree.analyse) = .ok t ∧
      t.compile = .ok p ∧ (∀ e, t.compile ≠ .error (.label e)) ∧ p.Closed := by
  have hok : ((Tree.parse "(define (f x) (if (and x (or x #f)) `(a ,x (\"b\")) '(c (d))))
        (define g (lambda () f)) ((g) (call/cc (lambda (k) (fork '(a)) (k 1))))" >>= Tree.analyse) >>=
      Tree.compile).isOk = true := by
    decide +kernel
  cases ht : (Tree.parse "(define (f x) (if (and x (or x #f)) `(a ,x (\"b\")) '(c (d))))
        (define g (lambda () f)) ((g) (call/cc (lambda (k) (fork '(a)) (k 1))))" >>= Tree.analyse) with
  | error e =>
    rw [ht] at hok
    cases hok
  | ok t =>
    rw [ht] at hok
    change t.compile.isOk = true at hok
    obtain ⟨hlabel, hclosed⟩ := Tree.closed_compile ht
    cases hp : t.compile with
    | error e =>
      rw [hp] at hok
      cases hok
    | ok p =>
      rw [hp] at hlabel
      exact ⟨t, p, rfl, hp, hp ▸ hlabel, hclosed p hp⟩

end SchemeMachine
