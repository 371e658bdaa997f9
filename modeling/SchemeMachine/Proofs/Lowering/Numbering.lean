import SchemeMachine.Proofs.Lowering.Spec
import SchemeMachine.Proofs.Names

/-!
# The labels of lowered code

Each label of lowered code is made from the handle of a lambda or from a number that lowering has handed out once.
A name determines what it was made from, so the labels of a program are distinct.

* `Site` is a place that gets labels from one number, `Piece.sites` lists those of a piece.
* `Piece.count_labels`: the labels of the code of a piece are those of its sites.
* `Lowering.Numbers` says of a computation that it numbers the sites it makes afresh; the lemmas after it are about
  one function each.
* `Lowering.nodup_labels_codeOf`: the labels of a program are distinct.
-/

namespace SchemeMachine

open Lowering Piece

/-- **A place of the code that gets its labels from one number.** -/
inductive Site where
  /-- The block of a computed call. -/
  | block (n : Nat)
  /-- An `if`. -/
  | branch (n : Nat)
  /-- `and` (`conjunction`) or `or`. -/
  | decision (conjunction : Bool) (n : Nat)
  /-- A call with the continuation. -/
  | resumption (n : Nat)
deriving Repr, DecidableEq

namespace Site

/-- The number of a site. -/
def number : Site → Nat
  | .block n => n
  | .branch n => n
  | .decision _ n => n
  | .resumption n => n

/-- The labels of a site. -/
def labels : Site → List String
  | .block n => [blockLabel n, blockLabel n ++ "_end"]
  | .branch n => [thenLabel n, endLabel n]
  | .decision conjunction n => [sinkLabel conjunction n, sinkLabel conjunction n ++ "_end"]
  | .resumption n => [resumeLabel n]

/-- **A label is a word, a number and an end.** -/
theorem exists_word {site : Site} {name : String} (h : name ∈ site.labels) :
    ∃ word ending, (word.toList.head? = some '_' ∧ ∀ c ∈ word.toList, c.isDigit = false) ∧
      (∀ c ∈ ending.toList.head?, c.isDigit = false) ∧ name = word ++ toString site.number ++ ending := by
  cases site with
  | block n =>
    simp only [labels, List.mem_cons, List.not_mem_nil, or_false] at h
    rcases h with rfl | rfl
    · exact ⟨"_tmp", "", by simp, by simp, by simp [blockLabel, number]⟩
    · exact ⟨"_tmp", "_end", by simp, by simp, by simp [blockLabel, number]⟩
  | branch n =>
    simp only [labels, List.mem_cons, List.not_mem_nil, or_false] at h
    rcases h with rfl | rfl
    · exact ⟨"_if", "", by simp, by simp, by simp [thenLabel, number]⟩
    · exact ⟨"_endif", "", by simp, by simp, by simp [endLabel, number]⟩
  | decision conjunction n =>
    simp only [labels, List.mem_cons, List.not_mem_nil, or_false] at h
    cases conjunction <;> rcases h with rfl | rfl
    · exact ⟨"_or", "", by simp, by simp, by simp [sinkLabel, number]⟩
    · exact ⟨"_or", "_end", by simp, by simp, by simp [sinkLabel, number]⟩
    · exact ⟨"_and", "", by simp, by simp, by simp [sinkLabel, number]⟩
    · exact ⟨"_and", "_end", by simp, by simp, by simp [sinkLabel, number]⟩
  | resumption n =>
    obtain rfl := List.mem_singleton.mp h
    exact ⟨"_cont", "", by simp, by simp, by simp [resumeLabel, number]⟩

/-- A label determines the number of its site. -/
theorem number_eq {site site' : Site} {name : String} (h : name ∈ site.labels) (h' : name ∈ site'.labels) :
    site.number = site'.number := by
  obtain ⟨word, ending, hword, hending, rfl⟩ := exists_word h
  obtain ⟨word', ending', hword', hending', he⟩ := exists_word h'
  exact Names.number_eq hword.2 hword'.2 hending hending' he

/-- No site has the label of a lambda. -/
theorem label_not_mem (site : Site) (h : Handle) : Handle.label h ∉ site.labels := by
  intro hmem
  obtain ⟨word, ending, ⟨hhead, -⟩, -, he⟩ := exists_word hmem
  have hl := congrArg (fun w => w.toList.head?) he
  simp [Handle.label, hhead] at hl

/-- A name differs from itself with an end. -/
theorem ne_append_end (name : String) : name ≠ name ++ "_end" := by
  intro he
  have hl := congrArg (fun w => w.toList.length) he
  simp at hl

theorem nodup_labels (site : Site) : site.labels.Nodup := by
  cases site with
  | block n => simp [labels, ne_append_end]
  | branch n =>
    have hne : thenLabel n ≠ endLabel n := by
      intro he
      have hl := congrArg String.toList he
      simp [thenLabel, endLabel] at hl
    simp [labels, hne]
  | decision conjunction n => simp [labels, ne_append_end]
  | resumption n => simp [labels]

/-- **Sites with different numbers have different labels.** -/
theorem nodup_flatMap_labels {sites : List Site} (h : (sites.map number).Nodup) : (sites.flatMap labels).Nodup := by
  rw [List.nodup_flatMap]
  refine ⟨fun site _ => site.nodup_labels, (List.pairwise_map.mp h).imp fun hne name hname hname' => ?_⟩
  exact hne (number_eq hname hname')

end Site

/-- The label that an instruction is. -/
def Instruction.label? : Instruction → Option String
  | .label name => some name
  | _ => none

/-- The labels of code, in their order. -/
def Lowering.labelsOf (code : Code) : List String := code.filterMap Instruction.label?

namespace Piece

mutual

/-- **The sites of a piece**, in the order in which lowering numbers them. -/
def sites : Piece → List Site
  | .push _ => []
  | .load _ => []
  | .closure _ => []
  | .call _ _ args => sitesAll args
  | .computedCall _ n operands => .block n :: sitesAll operands
  | .assignment _ _ right => sites right
  | .conditional n test yes no => .branch n :: (sites test ++ sites no ++ sites yes)
  | .connective conjunction n clauses last _ => .decision conjunction n :: (sitesAll clauses ++ sites last)
  | .body forms last => sitesAll forms ++ sites last
  | .callWithContinuation n _ => [.resumption n]
  | .fork _ => []
  | .display shown => sites shown
  | .newline => []
  | .declaration => []
  | .primitive _ args => sitesAll args
  | .arithmetic _ first rest => sites first ++ sitesAll rest
  | .template items _ => sitesAll items

/-- The sites of several pieces. -/
def sitesAll : List Piece → List Site
  | [] => []
  | p :: ps => sites p ++ sitesAll ps

end

theorem sitesAll_eq (ps : List Piece) : sitesAll ps = ps.flatMap sites := by
  induction ps with
  | nil => rfl
  | cons p ps ih => simp [sitesAll, ih]

/-! ### Labels are the labels of sites -/

@[simp] theorem labelsOf_nil : labelsOf [] = [] := rfl

@[simp] theorem labelsOf_label (name : String) (code : Code) :
    labelsOf (.label name :: code) = name :: labelsOf code := rfl

@[simp] theorem labelsOf_op (op : Opcode) (operand : Option Operand) (code : Code) :
    labelsOf (.op op operand :: code) = labelsOf code := rfl

@[simp] theorem labelsOf_comment (text : String) (code : Code) :
    labelsOf (.comment text :: code) = labelsOf code := rfl

@[simp] theorem labelsOf_append (code code' : Code) : labelsOf (code ++ code') = labelsOf code ++ labelsOf code' :=
  List.filterMap_append

@[simp] theorem labelsOf_valued (yields : Bool) (code : Code) : labelsOf (valued yields code) = labelsOf code := by
  cases yields <;> simp [valued, pushBoolean, pushAtom]

@[simp] theorem labelsOf_dropped (yields : Bool) (code : Code) : labelsOf (dropped yields code) = labelsOf code := by
  cases yields <;> simp [dropped, plain]

@[simp] theorem labelsOf_onVariable (op : Opcode) (names : List String) :
    labelsOf (names.map (onVariable op)) = [] := by
  induction names with
  | nil => rfl
  | cons name names ih => simpa [onVariable] using ih

@[simp] theorem labelsOf_replicate (count : Nat) (op : Opcode) : labelsOf (List.replicate count (plain op)) = [] := by
  induction count with
  | zero => rfl
  | succ count ih => simpa [plain, List.replicate_succ] using ih

@[simp] theorem labelsOf_blockCode (n count : Nat) : labelsOf (blockCode n count) = [blockLabel n] := by
  simp only [blockCode, callTo, plain, labelsOf_label, labelsOf_append, labelsOf_onVariable, labelsOf_op, labelsOf_nil,
    List.append_nil]

mutual

/-- **The labels of the code of a piece are those of its sites**, in another order. -/
theorem count_labels (name : String) : (p : Piece) →
    (labelsOf p.code).count name = (p.sites.flatMap Site.labels).count name
  | .push _ => rfl
  | .load _ => rfl
  | .closure _ => rfl
  | .call _ _ args => by simp [code, sites, callTo, count_eachValue name args labelsOf_nil]
  | .computedCall _ n operands => by
    -- the labels of the form itself, and those of its parts
    simp only [code, sites, toLabel, callTo, labelsOf_append, labelsOf_op, labelsOf_label, labelsOf_blockCode,
      labelsOf_nil, List.cons_append, List.flatMap_cons, Site.labels, List.count_append, List.count_cons,
      List.count_nil, count_eachValue name operands labelsOf_nil]
    omega
  | .assignment _ _ right => by simp [code, sites, onVariable, count_labels name right]
  | .conditional n test yes no => by
    simp only [code, sites, toLabel, labelsOf_append, labelsOf_op, labelsOf_label, labelsOf_valued, labelsOf_nil,
      List.cons_append, List.flatMap_cons, List.flatMap_append, Site.labels, List.count_append, List.count_cons,
      List.count_nil, count_labels name test, count_labels name yes, count_labels name no]
    omega
  | .connective conjunction n clauses last returns => by
    have hjump : labelsOf [clauseJump conjunction n] = [] := rfl
    have hlast : labelsOf (if returns then [] else [clauseJump conjunction n]) = [] := by cases returns <;> rfl
    simp only [code, sites, toLabel, pushBoolean, pushAtom, labelsOf_append, labelsOf_op, labelsOf_label,
      labelsOf_valued, labelsOf_nil, hlast, List.flatMap_cons, List.flatMap_append, Site.labels,
      List.count_append, List.count_cons, List.count_nil, count_eachValue name clauses hjump, count_labels name last]
    omega
  | .body forms last => by simp [code, sites, count_eachForm name forms, count_labels name last]
  | .callWithContinuation _ _ => rfl
  | .fork _ => rfl
  | .display shown => by simp [code, sites, plain, count_labels name shown]
  | .newline => rfl
  | .declaration => rfl
  | .primitive _ args => by simp [code, sites, plain, count_eachValue name args labelsOf_nil]
  | .arithmetic op first rest => by
    have hop : labelsOf [plain op] = [] := rfl
    simp [code, sites, count_labels name first, count_eachValue name rest hop]
  | .template items _ => by simp [code, sites, pushHandle, count_eachValue name items labelsOf_nil]

theorem count_eachValue (name : String) : (ps : List Piece) → {suffix : Code} → labelsOf suffix = [] →
    (labelsOf (eachValue suffix ps)).count name = ((sitesAll ps).flatMap Site.labels).count name
  | [], _, _ => rfl
  | p :: ps, _, hsuffix => by
    simp [eachValue, sitesAll, hsuffix, count_labels name p, count_eachValue name ps hsuffix]

theorem count_eachForm (name : String) : (ps : List Piece) →
    (labelsOf (eachForm ps)).count name = ((sitesAll ps).flatMap Site.labels).count name
  | [] => rfl
  | p :: ps => by simp [eachForm, sitesAll, count_labels name p, count_eachForm name ps]

end

end Piece

namespace Lowering

/-! ### Numbering -/

/-- **Sites with different numbers**, all of which have been handed out. -/
structure Numbered (handedOut : Nat) (sites : List Site) : Prop where
  nodup : (sites.map Site.number).Nodup
  lt : ∀ site ∈ sites, site.number < handedOut

/-- **A computation numbers its sites afresh.** Whatever sites there were earlier, and the sites `before` after them:
whenever the computation ends, the sites `k` of its answer are in their place, and no two have one number. -/
def Numbers {α : Type} (before : List Site) (m : Lower α) (k : α → List Site) : Prop :=
  ∀ earlier s a s', Numbered s.labels (earlier ++ before) → m.run s = .ok (a, s') →
    Numbered s'.labels (earlier ++ k a)

section Rules

variable {α β : Type} {before : List Site} {m : Lower α} {f : α → Lower β} {k : α → List Site} {l : β → List Site}

theorem Numbers.pure {a : α} (h : k a = before) : Numbers before (pure a : Lower α) k := by
  intro earlier s b s' hs hrun
  cases hrun
  rwa [h]

theorem Numbers.throw (e : LowerError) : Numbers before (throw e : Lower α) k := by
  intro earlier s b s' _ hrun
  cases hrun

theorem Numbers.throw_bind (e : LowerError) : Numbers before ((MonadExcept.throw e : Lower α) >>= f) l := by
  intro earlier s b s' _ hrun
  cases hrun

/-- **One computation after the other.** -/
theorem Numbers.bind (hm : Numbers before m k) (hf : ∀ a, Numbers (k a) (f a) l) : Numbers before (m >>= f) l := by
  intro earlier s b s'' hs hrun
  rw [StateT.run_bind] at hrun
  obtain ⟨⟨a, s'⟩, hrun, hrun'⟩ := Except.bind_eq_ok.mp hrun
  exact hf a earlier s' b s'' (hm earlier s a s' hs hrun) hrun'

/-- Sites before a computation stay. -/
theorem Numbers.after (hm : Numbers [] m k) (before : List Site) : Numbers before m fun a => before ++ k a := by
  intro earlier s a s' hs hrun
  have h := hm (earlier ++ before) s a s' (by rwa [List.append_nil]) hrun
  rwa [List.append_assoc] at h

/-- A computation whose answer is wrapped up. -/
theorem Numbers.map {g : α → β} (hm : Numbers before m k) (h : ∀ a, l (g a) = k a) :
    Numbers before (do return g (← m)) l :=
  hm.bind fun a => .pure (h a)

theorem numbers_mapM {γ : Type} {g : γ → Lower α} (cs : List γ) (h : ∀ c, Numbers [] (g c) k) :
    Numbers [] (cs.mapM g) fun as => as.flatMap k := by
  induction cs with
  | nil => exact .pure rfl
  | cons c cs ih =>
    rw [List.mapM_cons]
    refine (h c).bind fun a => (ih.after (k a)).bind fun as => .pure ?_
    exact List.flatMap_cons

end Rules

theorem numbers_freshLabel (make : Nat → Site) (hmake : ∀ n, (make n).number = n) :
    Numbers [] freshLabel fun n => [make n] := by
  intro earlier s n s' hs hrun
  cases hrun
  rw [List.append_nil] at hs
  refine ⟨?_, fun site hsite => ?_⟩
  · rw [List.map_append, List.nodup_append]
    refine ⟨hs.nodup, List.nodup_singleton _, ?_⟩
    rintro a ha b hb rfl
    obtain ⟨site, hsite, rfl⟩ := List.mem_map.mp ha
    rw [List.map_singleton, hmake] at hb
    exact absurd (List.mem_singleton.mp hb) (Nat.ne_of_lt (hs.lt site hsite))
  · rcases List.mem_append.mp hsite with hsite | hsite
    · exact Nat.lt_succ_of_lt (hs.lt site hsite)
    · rw [List.mem_singleton.mp hsite, hmake]
      exact Nat.lt_succ_self _

theorem numbers_addConstant (h : Handle) (c : Constant) : Numbers [] (addConstant h c) fun _ => [] := by
  intro earlier s a s' hs hrun
  cases hrun
  exact hs

theorem numbers_freshConstant (c : Constant) : Numbers [] (freshConstant c) fun _ => [] := by
  intro earlier s a s' hs hrun
  cases hrun
  exact hs

/-- Quoted data have no labels. -/
theorem numbers_constantList (t : Tree) (fuel : Nat) (h : Handle) : Numbers [] (constantList t fuel h) fun _ => [] := by
  induction fuel generalizing h with
  | zero => exact .throw _
  | succ fuel ih =>
    unfold constantList
    split
    · next children hn =>
      refine Numbers.bind (k := fun ops => ops.flatMap fun _ : Operand => []) (numbers_mapM _ fun c => ?_) fun ops => ?_
      · cases c with
        | atom a => exact .pure rfl
        | node below =>
          dsimp only
          split
          · exact (numbers_addConstant _ _).bind fun _ => .pure rfl
          · split
            · exact .throw_bind _
            · exact (ih _).bind fun _ => .pure rfl
          · exact .throw_bind _
      · have hnone : (ops.flatMap fun _ : Operand => ([] : List Site)) = [] := by simp
        rw [hnone]
        exact numbers_addConstant _ _
    · exact .throw _

section Constructs

variable {t : Tree} {below : Handle → Lower Piece} (hb : ∀ h, Numbers [] (below h) sites)

include hb

theorem numbers_child (c : Child) : Numbers [] (child below c) sites := by
  cases c with
  | node h => exact hb h
  | atom a =>
    cases a with
    | keyword word =>
      simp only [child]
      split
      · exact .pure rfl
      · exact .throw _
    | _ => exact .pure rfl

theorem numbers_children (cs : List Child) : Numbers [] (children below cs) sitesAll := by
  induction cs with
  | nil => exact .pure rfl
  | cons c cs ih => exact (numbers_child hb c).bind fun p => (ih.after p.sites).bind fun ps => .pure rfl

theorem numbers_forms (cs : List Child) : Numbers [] (forms t below cs) fun r => sitesAll r.1 ++ r.2.sites := by
  induction cs with
  | nil => exact .pure rfl
  | cons c cs ih =>
    cases cs with
    | nil => exact (numbers_child hb c).map fun p => rfl
    | cons c' cs =>
      unfold forms
      split
      · exact ih
      · refine (numbers_child hb c).bind fun p => (ih.after p.sites).bind fun r => .pure ?_
        exact List.append_assoc _ _ _

theorem numbers_body (cs : List Child) : Numbers [] (body t below cs) sites :=
  (numbers_forms hb cs).bind fun _ => .pure rfl

theorem numbers_template (fuel : Nat) (h : Handle) : Numbers [] (template t below fuel h) sites := by
  induction fuel generalizing h with
  | zero => exact .throw _
  | succ fuel ih =>
    unfold template
    split
    · split
      · refine (numbers_mapM (k := sites) _ fun c => ?_).bind fun ps => ?_
        · cases c with
          | atom a => exact .pure rfl
          | node below' =>
            dsimp only
            split
            · split
              · split
                · exact numbers_child hb _
                · exact .throw _
              · exact ih _
            · exact (numbers_addConstant _ _).bind fun _ => .pure rfl
            · exact .pure rfl
        · refine ((numbers_freshConstant _).after _).bind fun e => .pure ?_
          rw [List.append_nil, sites, sitesAll_eq]
      · exact .throw _
    · exact (numbers_constantList t _ h).bind fun _ => .pure rfl

theorem numbers_rightSide (c : Child) : Numbers [] (rightSide t below c) sites := by
  cases c with
  | atom a => exact numbers_child hb _
  | node h =>
    unfold rightSide
    dsimp only
    split
    · exact .pure rfl
    · exact hb h

theorem numbers_assignment (op : Opcode) (fault : LowerError) (cs : List Child) :
    Numbers [] (assignment t below op fault cs) sites := by
  unfold assignment
  split
  · exact (numbers_rightSide hb _).map fun p => rfl
  · exact .throw _

theorem numbers_conditional (test yes : Child) (no : Option Child) :
    Numbers [] (conditional below test yes no) sites := by
  refine (numbers_freshLabel .branch fun n => rfl).bind fun n => ?_
  refine ((numbers_child hb test).after _).bind fun p => ?_
  have hrest {m : Lower Piece} (hm : Numbers [] m sites) :
      Numbers ([.branch n] ++ p.sites) (do let r ← m; let q ← child below yes; pure (.conditional n p q r)) sites := by
    refine (hm.after _).bind fun r => ((numbers_child hb yes).after _).bind fun q => .pure ?_
    simp [sites]
  cases no with
  | none => exact hrest (.pure rfl)
  | some c => exact hrest (numbers_child hb c)

theorem numbers_connective (conjunction : Bool) (clauses : List Child) :
    Numbers [] (connective t below conjunction clauses) sites := by
  unfold connective
  split
  · exact .pure rfl
  · refine (numbers_freshLabel (.decision conjunction) fun n => rfl).bind fun n => ?_
    refine ((numbers_children hb _).after _).bind fun ps => ((numbers_child hb _).after _).bind fun p => .pure ?_
    simp [sites]

omit hb in
theorem numbers_callWithContinuation (span : Option Span) (cs : List Child) :
    Numbers [] (callWithContinuation t span cs) sites := by
  unfold callWithContinuation
  split
  · exact (numbers_freshLabel .resumption fun n => rfl).map fun n => rfl
  · split
    · exact (numbers_freshLabel .resumption fun n => rfl).map fun n => rfl
    · exact .throw _
  · exact .throw _

omit hb in
theorem numbers_forking (span : Option Span) (cs : List Child) : Numbers [] (forking t span cs) sites := by
  unfold forking
  split
  · split
    · exact (numbers_constantList t _ _).bind fun _ => .pure rfl
    · exact (numbers_addConstant _ _).bind fun _ => .pure rfl
    · exact .throw_bind _
  · exact .throw _

theorem numbers_primitive (word : String) (op : Opcode) (expected : Nat) (span : Option Span) (args : List Child) :
    Numbers [] (primitive below word op expected span args) sites := by
  unfold primitive
  split
  · exact (numbers_children hb args).map fun ps => rfl
  · exact .throw _

theorem numbers_arithmetic (word : String) (op : Opcode) (span : Option Span) (args : List Child) :
    Numbers [] (arithmetic below word op span args) sites := by
  unfold arithmetic
  split
  · split
    · exact .pure rfl
    · exact .pure rfl
    · exact .throw _
    · exact .throw _
    · exact .throw _
  · have hchild := numbers_child hb
    split
    · exact (hchild _).map fun p => by simp [sites, sitesAll]
    · exact (hchild _).map fun p => by simp [sites, sitesAll]
    · exact (hchild _).map fun p => by simp [sites, sitesAll]
    · exact (hchild _).map fun p => by simp [sites, sitesAll]
    · exact .throw _
  · exact (numbers_child hb _).bind fun p => ((numbers_children hb _).after _).map fun ps => rfl

theorem numbers_form (h : Handle) (word : String) (args : List Child) :
    Numbers [] (form t below h word args) sites := by
  -- one keyword after the other, in the order of the table
  unfold form
  dsimp only
  split
  · exact numbers_assignment hb _ _ _
  · exact numbers_assignment hb _ _ _
  · split
    · exact numbers_conditional hb _ _ _
    · exact numbers_conditional hb _ _ _
    · exact .throw _
  · exact numbers_connective hb _ _
  · exact numbers_connective hb _ _
  · exact numbers_body hb _
  · exact numbers_callWithContinuation _ _
  · exact numbers_forking _ _
  · split
    · exact (numbers_child hb _).map fun p => rfl
    · exact .throw _
  · split
    · exact .pure rfl
    · exact .throw _
  · exact .pure rfl
  · exact .pure rfl
  · exact numbers_arithmetic hb _ _ _ _
  · exact numbers_arithmetic hb _ _ _ _
  · exact numbers_arithmetic hb _ _ _ _
  · exact numbers_arithmetic hb _ _ _ _
  · exact numbers_arithmetic hb _ _ _ _
  · exact numbers_arithmetic hb _ _ _ _
  · exact numbers_primitive hb _ _ _ _ _
  · exact numbers_primitive hb _ _ _ _ _
  · exact numbers_primitive hb _ _ _ _ _
  · exact numbers_primitive hb _ _ _ _ _
  · exact numbers_primitive hb _ _ _ _ _
  · exact numbers_primitive hb _ _ _ _ _
  · exact numbers_primitive hb _ _ _ _ _
  · exact numbers_primitive hb _ _ _ _ _
  · exact numbers_primitive hb _ _ _ _ _
  · exact .throw _

theorem numbers_application (h : Handle) (cs : List Child) : Numbers [] (application t below h cs) sites := by
  have hdirect (target : Operand) (args : List Child) : Numbers [] (directCall t below h target args) sites :=
    (numbers_children hb args).map fun ps => rfl
  unfold application
  split
  · exact .throw _
  · exact numbers_form hb h _ _
  · exact hdirect _ _
  · exact .throw _
  · split
    · exact hdirect _ _
    · refine (numbers_freshLabel .block fun n => rfl).bind fun n => ?_
      exact ((numbers_children hb _).after _).map fun ps => rfl
    · exact .throw _

theorem numbers_nodeWith (h : Handle) : Numbers [] (nodeWith t below h) sites := by
  unfold nodeWith
  split
  · exact .throw _
  · exact (numbers_addConstant _ _).bind fun _ => .pure rfl
  · exact .pure rfl
  · exact numbers_application hb h _
  · exact (numbers_constantList t _ _).bind fun _ => .pure rfl
  · exact numbers_template hb _ _
  · exact .throw _

end Constructs

theorem numbers_node (t : Tree) (fuel : Nat) (h : Handle) : Numbers [] (node t fuel h) sites := by
  induction fuel generalizing h with
  | zero => exact .throw _
  | succ fuel ih => exact numbers_nodeWith ih h

/-- **The sites of all blocks** are numbered afresh. -/
theorem numbers_lambdaBlocks (t : Tree) (hs : List Handle) :
    Numbers [] (lambdaBlocks t hs) fun bs => bs.flatMap fun b => b.body.sites := by
  induction hs with
  | nil => exact .pure rfl
  | cons h hs ih =>
    unfold lambdaBlocks
    split
    · refine (numbers_body (numbers_node t _) _).bind fun p => (ih.after p.sites).bind fun bs => .pure ?_
      exact List.flatMap_cons
    · exact ih

/-- **The labels of a program are distinct**, given that no lambda has two blocks. -/
theorem nodup_labels_codeOf {t : Tree} {blocks : List Block} {stock : Stock} (h : t.blocks = .ok (blocks, stock))
    (hhandles : (blocks.map Block.handle).Nodup) : (labelsOf (Program.codeOf blocks)).Nodup := by
  have hnumbered := numbers_lambdaBlocks t t.lambdas [] _ _ _ ⟨List.nodup_nil, by simp⟩ h
  rw [List.nil_append] at hnumbered
  -- up to their order, the labels are those of the lambdas and those of the sites
  have hcount : ∀ (name : String) (bs : List Block), (labelsOf (bs.flatMap Block.code)).count name =
      (bs.map fun b => Handle.label b.handle).count name +
        ((bs.flatMap fun b => b.body.sites).flatMap Site.labels).count name := by
    intro name bs
    induction bs with
    | nil => rfl
    | cons b bs ih =>
      simp only [List.flatMap_cons, List.flatMap_append, List.map_cons, Block.code, Piece.value, plain,
        labelsOf_append, labelsOf_comment, labelsOf_label, labelsOf_op, labelsOf_onVariable, labelsOf_valued,
        labelsOf_nil, List.cons_append, List.count_append, List.count_cons, List.count_nil, ih, count_labels]
      omega
  have hperm : (labelsOf (Program.codeOf blocks)).Perm ((blocks.map fun b => Handle.label b.handle) ++
      (blocks.flatMap fun b => b.body.sites).flatMap Site.labels) := by
    refine List.perm_iff_count.mpr fun name => ?_
    rw [List.count_append, ← hcount]
    rfl
  rw [hperm.nodup_iff, List.nodup_append]
  refine ⟨?_, Site.nodup_flatMap_labels hnumbered.nodup, ?_⟩
  · have hlabels := hhandles.map Handle.label_injective
    rwa [List.map_map] at hlabels
  · rintro name hname name' hname' rfl
    obtain ⟨b, -, rfl⟩ := List.mem_map.mp hname
    obtain ⟨site, -, hsite⟩ := List.mem_flatMap.mp hname'
    exact site.label_not_mem b.handle hsite

end Lowering

end SchemeMachine
