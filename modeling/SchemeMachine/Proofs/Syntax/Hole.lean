import SchemeMachine.Proofs.Syntax.Analysis
import SchemeMachine.Proofs.Syntax.Phrase

/-!
# Where holes stand

A comma in a template makes a hole. The parser takes one wherever it reads a template, which is anything after a backquote;
but only a list after a backquote becomes a template in the tree. A hole in anything else after a backquote is astray: the
tree does not show that it is in a template.

* `Tree.InTemplate` says of a node that its items stand in a template, `Tree.Astray` that a node is a hole outside of all
  templates.
* `Term.Holes` and `Form.Holes` say by recursion that no hole is astray.
* `Grammar.HolesAt` says of a fuel that what is read with it has no hole astray, if every backquote stands at a list or an
  atom.
* `Tree.not_astray_of_parse` is the result for a program, `Tree.Astray.of_analyse` says that the analysis keeps it.
-/

namespace SchemeMachine

open Term (Placed PlacedAll handles handlesAll)

/-- Whether the items of a group stand in a template, when the group itself is `inside` one or not. -/
def Quotation.Opens (inside : Prop) : Quotation → Prop
  | .quasiquote => True
  | .quote => inside
  | .code | .unquote => False

theorem Quotation.Opens.mono {inside outer : Prop} (h : inside → outer) :
    {quotation : Quotation} → quotation.Opens inside → quotation.Opens outer
  | .quasiquote, _ => trivial
  | .quote, hinside => h hinside

/-! ### Trees -/

namespace Tree

/-- **What stands below a node is in a template**: the node is a backquoted list, or a list nested in one. -/
inductive InTemplate (t : Tree) : Option Handle → Prop
  | list {h : Handle} {parent : Option Handle} {children : List Child}
      (hnode : t.get? h = some (.application parent .quasiquote children)) : InTemplate t (some h)
  | nested {h : Handle} {parent : Option Handle} {children : List Child}
      (hnode : t.get? h = some (.application parent .quote children)) (hparent : InTemplate t parent) :
      InTemplate t (some h)

/-- **A hole that stands in no template.** -/
def Astray (t : Tree) (h : Handle) : Prop :=
  ∃ parent children, t.get? h = some (.application parent .unquote children) ∧ ¬ t.InTemplate parent

variable {t t' : Tree} {h : Handle} {parent : Option Handle} {quotation : Quotation} {children : List Child}

theorem inTemplate_iff (hnode : t.get? h = some (.application parent quotation children)) :
    t.InTemplate (some h) ↔ quotation.Opens (t.InTemplate parent) := by
  constructor
  · intro hin
    cases hin with
    | list hlist => cases hnode.symm.trans hlist; trivial
    | nested hlist hparent => cases hnode.symm.trans hlist; exact hparent
  · intro hopens
    cases quotation with
    | quasiquote => exact .list hnode
    | quote => exact .nested hnode hopens
    | code => exact hopens.elim
    | unquote => exact hopens.elim

theorem not_inTemplate_of_lambda {parameters : List String} (hnode : t.get? h = some (.lambda parent parameters children)) :
    ¬ t.InTemplate (some h) := by
  intro hin
  cases hin with
  | list hlist => cases hnode.symm.trans hlist
  | nested hlist => cases hnode.symm.trans hlist

/-- Templates are found again in a tree whose applications stand where they did. -/
theorem InTemplate.congr (hkeep : ∀ h parent quotation children, t.get? h = some (.application parent quotation children) →
      ∃ children', t'.get? h = some (.application parent quotation children')) (hin : t.InTemplate parent) :
    t'.InTemplate parent := by
  induction hin with
  | list hnode =>
    obtain ⟨_, hnode'⟩ := hkeep _ _ _ _ hnode
    exact .list hnode'
  | nested hnode _ ih =>
    obtain ⟨_, hnode'⟩ := hkeep _ _ _ _ hnode
    exact .nested hnode' ih

end Tree

/-! ### Terms -/

namespace Term

mutual

/-- **No hole of a term is astray**, when the term itself is `inside` a template or not. -/
def Holes (inside : Prop) : Term → Prop
  | .atom _ => True
  | .string _ _ => True
  | .lambda _ _ body => HolesAll False body
  | .application _ quotation items => (quotation = .unquote → inside) ∧ HolesAll (quotation.Opens inside) items

/-- No hole of several terms is astray. -/
def HolesAll (inside : Prop) : List Term → Prop
  | [] => True
  | x :: xs => Holes inside x ∧ HolesAll inside xs

end

theorem holesAll_append {inside : Prop} {xs ys : List Term} :
    HolesAll inside (xs ++ ys) ↔ HolesAll inside xs ∧ HolesAll inside ys := by
  induction xs with
  | nil => simp [HolesAll]
  | cons x xs ih => simp [HolesAll, ih, and_assoc]

mutual

theorem Holes.mono {inside outer : Prop} (h : inside → outer) : (x : Term) → x.Holes inside → x.Holes outer
  | .atom _, _ => trivial
  | .string _ _, _ => trivial
  | .lambda _ _ _, hx => hx
  | .application _ _ items, hx => ⟨fun hq => h (hx.1 hq), HolesAll.mono (Quotation.Opens.mono h) items hx.2⟩

theorem HolesAll.mono {inside outer : Prop} (h : inside → outer) :
    (xs : List Term) → HolesAll inside xs → HolesAll outer xs
  | [], _ => trivial
  | x :: xs, hxs => ⟨Holes.mono h x hxs.1, HolesAll.mono h xs hxs.2⟩

end

mutual

theorem holes_blank {inside : Prop} : (x : Term) → (x.blank.Holes inside ↔ x.Holes inside)
  | .atom _ => Iff.rfl
  | .string _ _ => Iff.rfl
  | .lambda _ _ body => holesAll_blankAll body
  | .application _ _ items => and_congr Iff.rfl (holesAll_blankAll items)

/-- Handles do not matter to whether holes are astray. -/
theorem holesAll_blankAll {inside : Prop} : (xs : List Term) → (HolesAll inside (blankAll xs) ↔ HolesAll inside xs)
  | [] => Iff.rfl
  | x :: xs => and_congr (holes_blank x) (holesAll_blankAll xs)

end

mutual

/-- **A hole of a term is astray in the tree only if it is in the term.** -/
theorem Holes.not_astray {t : Tree} : (x : Term) → {parent : Option Handle} → x.Placed t parent →
    x.Holes (t.InTemplate parent) → ∀ h ∈ x.handles, ¬ t.Astray h
  | .atom _, _, _, _ => nofun
  | .string k content, _, hp, _ => by
    rintro h hh ⟨parent', children, hnode, -⟩
    rw [handles, List.mem_singleton] at hh
    subst hh
    cases hnode.symm.trans hp
  | .lambda k parameters body, _, hp, hx => by
    rintro h hh
    rcases List.mem_cons.mp hh with rfl | hh
    · rintro ⟨parent', children, hnode, -⟩
      cases hnode.symm.trans hp.1
    · exact HolesAll.not_astray body hp.2 (HolesAll.mono False.elim body hx) h hh
  | .application k quotation items, _, hp, hx => by
    rintro h hh
    rcases List.mem_cons.mp hh with rfl | hh
    -- the node itself is a hole only inside a template, which its parent shows
    · rintro ⟨parent', children, hnode, hout⟩
      cases hnode.symm.trans hp.1
      exact hout (hx.1 rfl)
    · exact HolesAll.not_astray items hp.2 (HolesAll.mono (Tree.inTemplate_iff hp.1).mpr items hx.2) h hh

theorem HolesAll.not_astray {t : Tree} : (xs : List Term) → {parent : Option Handle} → PlacedAll t parent xs →
    HolesAll (t.InTemplate parent) xs → ∀ h ∈ handlesAll xs, ¬ t.Astray h
  | [], _, _, _ => nofun
  | x :: xs, _, hp, hxs => by
    intro h hh
    rcases List.mem_append.mp hh with hh | hh
    · exact Holes.not_astray x hp.1 hxs.1 h hh
    · exact HolesAll.not_astray xs hp.2 hxs.2 h hh

end

end Term

/-! ### Forms -/

namespace Form

mutual

/-- **No hole of a form is astray**, also in the clauses that are dropped. -/
def Holes (inside : Prop) : Form → Prop
  | .atom _ => True
  | .string _ _ => True
  | .group quotation _ items => (quotation = .unquote → inside) ∧ HolesAll (quotation.Opens inside) items
  | .lambda _ _ body => HolesAll False body
  | .procedure _ _ _ _ body => HolesAll False body
  | .letIn _ _ _ _ initials body => HolesAll False initials ∧ HolesAll False body
  | .clause _ test body rest => HolesOption test ∧ HolesAll False body ∧ HolesOption rest

/-- No hole of several forms is astray. -/
def HolesAll (inside : Prop) : List Form → Prop
  | [] => True
  | f :: fs => Holes inside f ∧ HolesAll inside fs

/-- No hole of a form of code that may be missing is astray. -/
def HolesOption : Option Form → Prop
  | none => True
  | some f => Holes False f

end

mutual

theorem Holes.mono {inside outer : Prop} (h : inside → outer) : (f : Form) → f.Holes inside → f.Holes outer
  | .atom _, _ => trivial
  | .string _ _, _ => trivial
  | .group _ _ items, hf => ⟨fun hq => h (hf.1 hq), HolesAll.mono (Quotation.Opens.mono h) items hf.2⟩
  | .lambda _ _ _, hf => hf
  | .procedure _ _ _ _ _, hf => hf
  | .letIn _ _ _ _ _ _, hf => hf
  | .clause _ _ _ _, hf => hf

theorem HolesAll.mono {inside outer : Prop} (h : inside → outer) :
    (fs : List Form) → HolesAll inside fs → HolesAll outer fs
  | [], _ => trivial
  | f :: fs, hfs => ⟨Holes.mono h f hfs.1, HolesAll.mono h fs hfs.2⟩

end

theorem holes_sketchSequence {xs : List Term} (h : Term.HolesAll False xs) : (sketchSequence xs).Holes False := by
  unfold sketchSequence
  split
  · exact h.1
  · exact ⟨nofun, trivial, h⟩

theorem holes_sketchLet {name : Option String} {names : List String} {initials body : List Term}
    (hinitials : Term.HolesAll False initials) (hbody : Term.HolesAll False body) :
    (sketchLet name names initials body).Holes False := by
  cases name with
  | none => exact ⟨nofun, hbody, hinitials⟩
  | some name => exact ⟨nofun, ⟨⟨nofun, trivial, trivial, hbody, trivial⟩, ⟨nofun, trivial, hinitials⟩, trivial⟩, trivial⟩

mutual

/-- **The term that a form becomes** has no hole astray if the form has none, and so have the clauses that are dropped. -/
theorem holes_sketch {inside : Prop} : (f : Form) → f.Holes inside →
    f.sketch.Holes inside ∧ Term.HolesAll False (sketchAll f.dropped)
  | .atom _, _ => ⟨trivial, trivial⟩
  | .string _ _, _ => ⟨trivial, trivial⟩
  | .group _ _ items, hf =>
    have hitems := holesAll_sketchAll items hf.2
    ⟨⟨hf.1, hitems.1⟩, hitems.2⟩
  | .lambda _ _ body, hf => holesAll_sketchAll body hf
  | .procedure _ _ _ _ body, hf =>
    have hbody := holesAll_sketchAll body hf
    ⟨⟨nofun, trivial, trivial, hbody.1, trivial⟩, hbody.2⟩
  | .letIn _ _ _ _ initials body, hf => by
    have hinitials := holesAll_sketchAll initials hf.1
    have hbody := holesAll_sketchAll body hf.2
    refine ⟨Term.Holes.mono False.elim _ (holes_sketchLet hinitials.1 hbody.1), ?_⟩
    rw [dropped, sketchAll_append, Term.holesAll_append]
    exact ⟨hinitials.2, hbody.2⟩
  | .clause _ test body rest, hf => by
    have htest := holesOption_sketchOption test hf.1
    have hbody := holesAll_sketchAll body hf.2.1
    have hrest := holesOption_sketchOption rest hf.2.2
    constructor
    · cases test with
      | none => exact Term.Holes.mono False.elim _ (holes_sketchSequence hbody.1)
      | some test => exact ⟨nofun, trivial, htest.1.1, holes_sketchSequence hbody.1, hrest.1⟩
    · simp only [dropped, sketchAll_append, Term.holesAll_append]
      refine ⟨?_, htest.2, hbody.2, hrest.2⟩
      -- the clauses after an `else` clause
      cases test with
      | some test => trivial
      | none =>
        cases rest with
        | none => trivial
        | some rest => exact hrest.1

theorem holesAll_sketchAll {inside : Prop} : (fs : List Form) → HolesAll inside fs →
    Term.HolesAll inside (sketchAll fs) ∧ Term.HolesAll False (sketchAll (droppedAll fs))
  | [], _ => ⟨trivial, trivial⟩
  | f :: fs, hfs => by
    have hf := holes_sketch f hfs.1
    have hfs := holesAll_sketchAll fs hfs.2
    rw [droppedAll, sketchAll_append, Term.holesAll_append]
    exact ⟨⟨hf.1, hfs.1⟩, hf.2, hfs.2⟩

theorem holesOption_sketchOption : (o : Option Form) → HolesOption o →
    Term.HolesAll False (sketchOption o).toList ∧ Term.HolesAll False (sketchAll (droppedOption o))
  | none, _ => ⟨trivial, trivial⟩
  | some f, hf =>
    have hf := holes_sketch f hf
    ⟨⟨hf.1, trivial⟩, hf.2⟩

end

end Form

/-! ### Tokens -/

namespace Token

/-- The tokens that quote what comes after them. -/
def Kind.marks : List Kind := [.quote, .quasiquote, .unquote]

/-- **Every backquote stands at a list or an atom**, not before another mark. -/
def PlainTemplates (ks : List Kind) : Prop := ∀ k ∈ Kind.marks, ¬ [.quasiquote, k] <:+: ks

theorem PlainTemplates.of_append {before after : List Kind} (h : PlainTemplates (before ++ after)) : PlainTemplates after :=
  fun k hk hpair => h k hk (hpair.trans (List.suffix_append before after).isInfix)

end Token

namespace Grammar

open Form
open Token (Kind PlainTemplates)

/-- Whether a comma makes a hole. -/
def Mode.Holed : Mode → Prop
  | .template => True
  | .code | .quoted => False

variable {n : Nat} {ts ts' rest : List Token} {mode : Mode} {f : Form}

/-- Tokens in which every backquote stands at a list or an atom. -/
def Plainly (ts : List Token) : Prop := PlainTemplates (ts.map (·.kind))

/-- What stands behind some tokens. -/
theorem Plainly.of_append {before : List Kind} (h : Plainly ts) (hrest : ts.map (·.kind) = before ++ rest.map (·.kind)) :
    Plainly rest :=
  PlainTemplates.of_append (hrest ▸ h : PlainTemplates (before ++ rest.map (·.kind)))

theorem Plainly.of_cons {k : Kind} (h : Plainly ts) (hrest : ts.map (·.kind) = k :: rest.map (·.kind)) : Plainly rest :=
  h.of_append (hrest.trans List.singleton_append.symm)

theorem Plainly.tail (h : Plainly ts) : Plainly ts.tail := by
  cases ts with
  | nil => exact h
  | cons t ts => exact h.of_cons rfl

theorem Plainly.takes {C : List Kind → Prop} (h : Plainly ts) (htakes : Takes C ts rest) : Plainly rest := by
  obtain ⟨ks, hks, -⟩ := htakes
  exact h.of_append hks

theorem Plainly.takesUpTo {C : List Kind → Prop} (h : Plainly ts) (htakes : TakesUpTo C ts rest) : Plainly rest := by
  obtain ⟨ks, hks, -⟩ := htakes
  exact h.of_append (hks.trans (List.append_cons ks _ _))

theorem Plainly.expect {k : Kind} {s : Span} (h : Plainly ts) (hk : expect k ts = .ok (s, rest)) : Plainly rest :=
  h.of_cons (takes_expect hk)

theorem Plainly.expectSymbol {role name : String} (h : Plainly ts) (hname : expectSymbol role ts = .ok (name, rest)) :
    Plainly rest :=
  h.of_cons (takes_symbol hname)

theorem Plainly.parameters {names : List String} (h : Plainly ts) (hnames : parameters ts = .ok (names, rest)) :
    Plainly rest :=
  h.of_append ((takes_parameters hnames).trans (List.append_cons _ _ _))

/-- What a backquote stands at. -/
theorem Plainly.nextKind {s : Span} (h : Plainly (⟨.quasiquote, s⟩ :: ts)) : nextKind ts ∉ Kind.marks := by
  intro hmark
  cases ts with
  | nil => exact absurd hmark (by decide)
  | cons t ts => exact h t.kind hmark ⟨[], ts.map (·.kind), rfl⟩

/-- A template that is no list and starts with no mark is an atom. -/
theorem holes_of_atom {inside : Prop} (hopen : nextKind ts ≠ .open) (hmark : nextKind ts ∉ Kind.marks)
    (h : expr n mode ts = .ok (f, rest)) : f.Holes inside := by
  cases n with
  | zero => simp [Grammar.expr] at h
  | succ n =>
    cases ts with
    | nil => simp [Grammar.expr] at h
    | cons t ts =>
      obtain ⟨kind, span⟩ := t
      cases kind with
      | number x => cases h; trivial
      | boolean b => cases h; trivial
      | string content => cases h; trivial
      | symbol name => cases h; cases mode <;> trivial
      | quote => exact absurd (show Kind.quote ∈ Kind.marks by decide) hmark
      | quasiquote => exact absurd (show Kind.quasiquote ∈ Kind.marks by decide) hmark
      | unquote => exact absurd (show Kind.unquote ∈ Kind.marks by decide) hmark
      | «open» => exact absurd rfl hopen
      | close => cases h
      | endOfText => cases h

/-- A clause of `cond` in which no hole is astray. -/
def Clause.Holes (c : Clause) : Prop := HolesOption c.test ∧ HolesAll False c.body

theorem holes_chain {cs : List Clause} (hcs : ∀ c ∈ cs, c.Holes) : HolesOption (chain cs) := by
  induction cs with
  | nil => trivial
  | cons c cs ih =>
    obtain ⟨htest, hbody⟩ := hcs c List.mem_cons_self
    exact ⟨htest, hbody, ih fun d hd => hcs d (List.mem_cons_of_mem c hd)⟩

/-- **Whatever is read with this much fuel has no hole astray.** -/
structure HolesAt (n : Nat) : Prop where
  expr : ∀ {mode ts f rest}, Plainly ts → expr n mode ts = .ok (f, rest) → f.Holes mode.Holed
  datum : ∀ {quotation s ts f rest}, Plainly ts →
    quotation = .quote ∨ quotation = .quasiquote ∧ nextKind ts ∉ Kind.marks →
    datum n quotation s ts = .ok (f, rest) → f.Holes False
  nested : ∀ {mode name s ts f rest}, Plainly ts → nested n mode name s ts = .ok (f, rest) → f.Holes mode.Holed
  list : ∀ {quotation mode s ts f rest}, Plainly ts → list n quotation mode s ts = .ok (f, rest) →
    ∃ s' items, f = .group quotation s' items ∧ HolesAll mode.Holed items
  sequence : ∀ {mode ts items close rest}, Plainly ts → sequence n mode ts = .ok ((items, close), rest) →
    HolesAll mode.Holed items
  compound : ∀ {s ts f rest}, Plainly ts → compound n s ts = .ok (f, rest) → f.Holes False
  bindings : ∀ {ts pairs rest}, Plainly ts → bindings n ts = .ok (pairs, rest) → HolesAll False (pairs.map (·.2))
  clauses : ∀ {ts cs rest}, Plainly ts → clauses n ts = .ok (cs, rest) → ∀ c ∈ cs, c.Holes
  condition : ∀ {ts test rest}, Plainly ts → condition n ts = .ok (test, rest) → HolesOption test

theorem holesAt_zero : HolesAt 0 := by
  constructor
  case expr => intro mode ts f rest _ h; simp [Grammar.expr] at h
  case datum => intro q s ts f rest _ _ h; simp [Grammar.datum] at h
  case nested => intro mode name s ts f rest _ h; simp [Grammar.nested] at h
  case list => intro q mode s ts f rest _ h; simp [Grammar.list] at h
  case sequence => intro mode ts items close rest _ h; simp [Grammar.sequence] at h
  case compound => intro s ts f rest _ h; simp [Grammar.compound] at h
  case bindings => intro ts pairs rest _ h; simp [Grammar.bindings] at h
  case clauses => intro ts cs rest _ h; simp [Grammar.clauses] at h
  case condition => intro ts test rest _ h; simp [Grammar.condition] at h

namespace HolesAt

theorem expr_succ (ih : HolesAt n) (hts : Plainly ts) (h : Grammar.expr (n + 1) mode ts = .ok (f, rest)) :
    f.Holes mode.Holed := by
  cases ts with
  | nil => simp [Grammar.expr] at h
  | cons t ts =>
    obtain ⟨kind, span⟩ := t
    have hrest := hts.tail
    -- a list in a template or in quoted data
    have hlist : Grammar.list n .quote mode span ts = .ok (f, rest) → f.Holes mode.Holed := by
      intro h
      obtain ⟨s', items, rfl, hitems⟩ := ih.list hrest h
      exact ⟨nofun, hitems⟩
    cases kind with
    | number x => cases h; trivial
    | boolean b => cases h; trivial
    | string content => cases h; trivial
    | symbol name => cases h; cases mode <;> trivial
    | quote =>
      cases mode with
      | code => exact ih.datum hrest (Or.inl rfl) h
      | quoted => exact ih.nested hrest h
      | template => exact ih.nested hrest h
    | quasiquote =>
      cases mode with
      | code => exact ih.datum hrest (Or.inr ⟨rfl, hts.nextKind⟩) h
      | quoted => exact ih.nested hrest h
      | template => exact ih.nested hrest h
    | unquote =>
      cases mode with
      | code => cases h
      | quoted => exact ih.nested hrest h
      | template =>
        obtain ⟨⟨inner, ts'⟩, hinner, h⟩ := Except.bind_eq_ok.mp h
        cases h
        exact ⟨fun _ => trivial, ih.expr hrest hinner, trivial⟩
    | «open» =>
      cases mode with
      | code => exact ih.compound hrest h
      | quoted => exact hlist h
      | template => exact hlist h
    | close => cases h
    | endOfText => cases h

theorem datum_succ (ih : HolesAt n) {quotation : Quotation} {s : Span} (hts : Plainly ts)
    (hq : quotation = .quote ∨ quotation = .quasiquote ∧ nextKind ts ∉ Kind.marks)
    (h : Grammar.datum (n + 1) quotation s ts = .ok (f, rest)) : f.Holes False := by
  simp only [Grammar.datum] at h
  split at h
  · obtain ⟨s', items, rfl, hitems⟩ := ih.list hts.tail h
    rcases hq with rfl | ⟨rfl, -⟩
    · exact ⟨by simp, hitems⟩
    · exact ⟨by simp, hitems⟩
  -- what is no list loses the backquote, and must then have no hole
  · next hopen =>
    rcases hq with rfl | ⟨rfl, hmark⟩
    · exact ih.expr hts h
    · refine holes_of_atom (fun hnext => ?_) hmark h
      obtain ⟨s₀, hts₀⟩ := exists_of_nextKind hnext (by simp)
      exact hopen s₀ ts.tail hts₀

theorem nested_succ (ih : HolesAt n) {name : String} {s : Span} (hts : Plainly ts)
    (h : Grammar.nested (n + 1) mode name s ts = .ok (f, rest)) : f.Holes mode.Holed := by
  simp only [Grammar.nested] at h
  obtain ⟨⟨inner, ts'⟩, hinner, h⟩ := Except.bind_eq_ok.mp h
  cases h
  exact ⟨by simp, trivial, ih.expr hts hinner, trivial⟩

theorem list_succ (ih : HolesAt n) {quotation : Quotation} {s : Span} (hts : Plainly ts)
    (h : Grammar.list (n + 1) quotation mode s ts = .ok (f, rest)) :
    ∃ s' items, f = .group quotation s' items ∧ HolesAll mode.Holed items := by
  simp only [Grammar.list] at h
  obtain ⟨⟨⟨items, close⟩, ts'⟩, hitems, h⟩ := Except.bind_eq_ok.mp h
  cases h
  exact ⟨_, items, rfl, ih.sequence hts hitems⟩

theorem sequence_succ (ih : HolesAt n) {items : List Form} {close : Span} (hts : Plainly ts)
    (h : Grammar.sequence (n + 1) mode ts = .ok ((items, close), rest)) : HolesAll mode.Holed items := by
  simp only [Grammar.sequence] at h
  split at h
  · cases h; trivial
  · cases h
  · obtain ⟨⟨first, ts'⟩, hfirst, h⟩ := Except.bind_eq_ok.mp h
    obtain ⟨⟨⟨others, close'⟩, ts''⟩, hothers, h⟩ := Except.bind_eq_ok.mp h
    cases h
    exact ⟨ih.expr hts hfirst, ih.sequence (hts.takes ((takesAt n).expr hfirst)) hothers⟩

/-- A body that has been checked is what was read. -/
theorem body_of_bind (ih : HolesAt n) {form : String} {s : Span} (hts : Plainly ts) (make : List Form → Span → Form)
    (h : (do
      let read ← Grammar.sequence n .code ts
      requireBody form s read.1.1
      return (make read.1.1 read.1.2, read.2) : Except ParseError (Form × List Token)) = .ok (f, rest)) :
    ∃ body close, f = make body close ∧ HolesAll False body := by
  obtain ⟨⟨⟨body, close⟩, ts'⟩, hbody, h⟩ := Except.bind_eq_ok.mp h
  obtain ⟨_, -, h⟩ := Except.bind_eq_ok.mp h
  cases h
  exact ⟨body, close, rfl, ih.sequence hts hbody⟩

theorem compound_succ (ih : HolesAt n) {s : Span} (hts : Plainly ts)
    (h : Grammar.compound (n + 1) s ts = .ok (f, rest)) : f.Holes False := by
  simp only [Grammar.compound] at h
  split at h
  · split at h
    · obtain ⟨⟨names, ts₁⟩, hnames, h⟩ := Except.bind_eq_ok.mp h
      -- each form ends with a body, which is read behind all that it introduces
      obtain ⟨body, close, rfl, hbody⟩ := ih.body_of_bind (hts.tail.tail.parameters hnames)
        (fun body close => .lambda (s.merge close) names body) h
      exact hbody
    · cases h
  · split at h
    · obtain ⟨⟨name, ts₁⟩, hname, h⟩ := Except.bind_eq_ok.mp h
      obtain ⟨⟨names, ts₂⟩, hnames, h⟩ := Except.bind_eq_ok.mp h
      obtain ⟨body, close, rfl, hbody⟩ := ih.body_of_bind ((hts.tail.tail.expectSymbol hname).parameters hnames)
        (fun body close => .procedure s (s.merge close) name names body) h
      exact hbody
    · obtain ⟨⟨⟨items, close⟩, ts₁⟩, hitems, h⟩ := Except.bind_eq_ok.mp h
      cases h
      exact ⟨by simp, trivial, ih.sequence hts.tail hitems⟩
  · obtain ⟨⟨_, ts₁⟩, hopen, h⟩ := Except.bind_eq_ok.mp h
    obtain ⟨⟨pairs, ts₂⟩, hpairs, h⟩ := Except.bind_eq_ok.mp h
    -- a `let` may have a name in front of its bindings
    have hnamed : Plainly (if (nextSymbol? ts.tail).isSome then ts.tail.tail else ts.tail) := by
      split
      · exact hts.tail.tail
      · exact hts.tail
    have hts₁ := hnamed.expect hopen
    obtain ⟨body, close, rfl, hbody⟩ := ih.body_of_bind (hts₁.takesUpTo ((takesAt n).bindings hpairs))
      (fun body close => .letIn s (s.merge close) (nextSymbol? ts.tail) (pairs.map (·.1)) (pairs.map (·.2)) body) h
    exact ⟨ih.bindings hts₁ hpairs, hbody⟩
  · obtain ⟨⟨cs, ts₁⟩, hcs, h⟩ := Except.bind_eq_ok.mp h
    have hchain := holes_chain (ih.clauses hts.tail hcs)
    dsimp only at h
    split at h
    · cases h
    · next form hform =>
      cases h
      rw [hform] at hchain
      exact hchain
  · obtain ⟨⟨form, ts₁⟩, hform, h⟩ := Except.bind_eq_ok.mp h
    obtain ⟨⟨_, ts₂⟩, -, h⟩ := Except.bind_eq_ok.mp h
    cases h
    exact ih.datum hts.tail (Or.inl rfl) hform
  · obtain ⟨s', items, rfl, hitems⟩ := ih.list hts h
    exact ⟨by simp, hitems⟩

theorem bindings_succ (ih : HolesAt n) {pairs : List (String × Form)} (hts : Plainly ts)
    (h : Grammar.bindings (n + 1) ts = .ok (pairs, rest)) : HolesAll False (pairs.map (·.2)) := by
  simp only [Grammar.bindings] at h
  split at h
  · cases h; trivial
  · obtain ⟨⟨_, ts₁⟩, hopen, h⟩ := Except.bind_eq_ok.mp h
    obtain ⟨⟨name, ts₂⟩, hname, h⟩ := Except.bind_eq_ok.mp h
    obtain ⟨⟨initial, ts₃⟩, hinitial, h⟩ := Except.bind_eq_ok.mp h
    obtain ⟨⟨_, ts₄⟩, hclose, h⟩ := Except.bind_eq_ok.mp h
    obtain ⟨⟨others, ts₅⟩, hothers, h⟩ := Except.bind_eq_ok.mp h
    cases h
    have hts₂ := (hts.expect hopen).expectSymbol hname
    exact ⟨ih.expr hts₂ hinitial, ih.bindings ((hts₂.takes ((takesAt n).expr hinitial)).expect hclose) hothers⟩

theorem clauses_succ (ih : HolesAt n) {cs : List Clause} (hts : Plainly ts)
    (h : Grammar.clauses (n + 1) ts = .ok (cs, rest)) : ∀ c ∈ cs, c.Holes := by
  simp only [Grammar.clauses] at h
  split at h
  · cases h; simp
  · obtain ⟨⟨_, ts₁⟩, hopen, h⟩ := Except.bind_eq_ok.mp h
    obtain ⟨⟨test, ts₂⟩, htest, h⟩ := Except.bind_eq_ok.mp h
    obtain ⟨⟨⟨body, _⟩, ts₃⟩, hbody, h⟩ := Except.bind_eq_ok.mp h
    dsimp only at h
    split at h
    · cases h
    · obtain ⟨⟨others, ts₄⟩, hothers, h⟩ := Except.bind_eq_ok.mp h
      cases h
      have hts₁ := hts.expect hopen
      have hts₂ := hts₁.takes ((takesAt n).condition htest)
      have hts₃ := hts₂.takesUpTo ((takesAt n).sequence hbody)
      exact List.forall_mem_cons.mpr
        ⟨⟨ih.condition hts₁ htest, ih.sequence hts₂ hbody⟩, ih.clauses hts₃ hothers⟩

theorem condition_succ (ih : HolesAt n) {test : Option Form} (hts : Plainly ts)
    (h : Grammar.condition (n + 1) ts = .ok (test, rest)) : HolesOption test := by
  simp only [Grammar.condition] at h
  split at h
  · cases h; trivial
  · obtain ⟨⟨form, ts'⟩, hform, h⟩ := Except.bind_eq_ok.mp h
    cases h
    exact ih.expr hts hform

end HolesAt

theorem holesAt : (n : Nat) → HolesAt n
  | 0 => holesAt_zero
  | n + 1 =>
    have ih := holesAt n
    { expr := ih.expr_succ
      datum := ih.datum_succ
      nested := ih.nested_succ
      list := ih.list_succ
      sequence := ih.sequence_succ
      compound := ih.compound_succ
      bindings := ih.bindings_succ
      clauses := ih.clauses_succ
      condition := ih.condition_succ }

theorem holes_program {forms : List Form} (hts : Plainly ts) (h : program n ts = .ok forms) : HolesAll False forms := by
  induction n generalizing ts forms with
  | zero => cases h
  | succ n ih =>
    rw [program] at h
    split at h
    · cases h; trivial
    · obtain ⟨⟨first, ts'⟩, hfirst, h⟩ := Except.bind_eq_ok.mp h
      obtain ⟨others, hothers, h⟩ := Except.bind_eq_ok.mp h
      cases h
      exact ⟨(holesAt n).expr hts hfirst, ih (hts.takes ((takesAt n).expr hfirst)) hothers⟩

end Grammar

namespace Tree

/-- **No hole of a program is astray** if every backquote stands at a list or an atom. -/
theorem not_astray_of_parse {source : String} {tokens : List Token} {t : Tree} (hscan : Token.scan source = .ok tokens)
    (hparse : Tree.parse source = .ok t) (hplain : Token.PlainTemplates (tokens.map (·.kind))) (h : Handle) :
    ¬ t.Astray h := by
  obtain ⟨tokens', forms, hscan', hforms, rfl⟩ := parse_eq_ok.mp hparse
  cases hscan.symm.trans hscan'
  obtain ⟨body, strays, hholds, hbecome, -⟩ := holds_ofForms (Form.legal_parse hforms)
  obtain ⟨hsketch, hdropped⟩ := Form.holesAll_sketchAll forms (Grammar.holes_program hplain hforms)
  rw [← hbecome.sketch, Term.holesAll_blankAll] at hsketch
  rw [← hbecome.lost, Term.holesAll_blankAll] at hdropped
  have hroots : Term.HolesAll ((ofForms forms).InTemplate none) (.lambda top [] body :: strays) :=
    ⟨hsketch, Term.HolesAll.mono False.elim strays hdropped⟩
  rintro ⟨parent, children, hnode, hout⟩
  have hmem : h ∈ handlesAll (.lambda top [] body :: strays) :=
    hholds.handles.mem_iff.mpr (List.mem_range.mpr (lt_size_of_get? hnode))
  exact hroots.not_astray _ hholds.placed h hmem ⟨parent, children, hnode, hout⟩

/-- **The analysis leaves holes where they are**, in the tree and in the text. -/
theorem Astray.of_analyse {t t' : Tree} {roots : List Term} (hh : t.Holds roots) (ha : t.analysed = false)
    (hr : t.analyse = .ok t') {h : Handle} (hastray : t'.Astray h) : t.Astray h ∧ t'.spans.find? h = t.spans.find? h := by
  obtain ⟨u, hu, -, rfl⟩ := hh.analyse_eq_ok ha hr
  have hget : ∀ j, u.renameVariables.markTailCalls.get? j = (t.get? j).map (u.renameNode j) := by
    intro j
    rw [show t.get? j = u.get? j by rw [hu]; rfl]
    exact Term.get?_renameVariables u j
  -- an application stays one, with the node above it
  have hkeep : ∀ j parent quotation children, t.get? j = some (.application parent quotation children) →
      ∃ children', u.renameVariables.markTailCalls.get? j = some (.application parent quotation children') := by
    intro j parent quotation children hnode
    rw [hget, hnode, Option.map_some, renameNode]
    split
    · exact ⟨_, rfl⟩
    · exact ⟨_, rfl⟩
  obtain ⟨parent, children, hnode, hout⟩ := hastray
  refine ⟨?_, by rw [hu]; rfl⟩
  rw [hget] at hnode
  cases hold : t.get? h with
  | none => simp [hold] at hnode
  | some n =>
    rw [hold, Option.map_some, Option.some.injEq] at hnode
    cases n with
    | lambda p ps cs => cases hnode
    | string p content => cases hnode
    | application p quotation cs =>
      have hsame : p = parent ∧ quotation = .unquote := by
        rw [renameNode] at hnode
        split at hnode <;> cases hnode <;> exact ⟨rfl, rfl⟩
      obtain ⟨rfl, rfl⟩ := hsame
      exact ⟨p, cs, hold, fun hin => hout (hin.congr hkeep)⟩

end Tree

end SchemeMachine
