import SchemeMachine.Proofs.Syntax.Reading

/-!
# Tokens that are read again

The parser looks at the kinds of tokens and carries their places along. It takes tokens from the front and does not look at
what stands behind the last one that it takes. So what it reads from some tokens it also reads from others of the same kinds,
in other places, and with something else in the place of the end of the text.

* `Comparison` says how the places of two texts are compared, and `Form.mapSpans` is a form with something else made of its
  places.
* `Grammar.Follows` compares tokens, up to the end of the text in the first list.
* `Grammar.Again` says that what is read from some tokens is read again from others, and that what cannot be read from them
  fails for the same reason; there is one lemma for each function of the grammar.
* `Grammar.program_follows` and `Grammar.program_fault_follows` are the results for programs.
-/

namespace SchemeMachine

/-! ### Places -/

/-- **How the places of two texts are compared**: by what is made of each. -/
structure Comparison where
  left : Span → Span
  right : Span → Span
  /-- Stretches that cover the same ones are the same. -/
  merge : ∀ {a b c d : Span}, left a = right b → left c = right d → left (a.merge c) = right (b.merge d)

namespace Comparison

/-- Two places that are the same in this comparison. -/
def Same (κ : Comparison) (s s' : Span) : Prop := κ.left s = κ.right s'

/-- All places are the same. -/
def blind : Comparison where
  left := fun _ => .unplaced
  right := fun _ => .unplaced
  merge := fun _ _ => rfl

/-- Only the place itself is the same. -/
def exact : Comparison where
  left := id
  right := id
  merge := by
    rintro a b c d rfl rfl
    rfl

/-- **Faults that are the same** but for their places, and these compare. -/
inductive SameFault (κ : Comparison) : ParseError → ParseError → Prop
  | unexpected (found expected : String) {s s' : Span} (h : κ.Same s s') :
      SameFault κ (.unexpected found expected s.line s.col) (.unexpected found expected s'.line s'.col)
  | unexpectedEnd : SameFault κ .unexpectedEnd .unexpectedEnd
  | malformed (form reason : String) {s s' : Span} (h : κ.Same s s') :
      SameFault κ (.malformed form reason s.line s.col) (.malformed form reason s'.line s'.col)
  | unquoteOutsideQuasiquote {s s' : Span} (h : κ.Same s s') :
      SameFault κ (.unquoteOutsideQuasiquote s.line s.col) (.unquoteOutsideQuasiquote s'.line s'.col)

end Comparison

namespace Form

mutual

/-- **A form with its places changed.** -/
def mapSpans (φ : Span → Span) : Form → Form
  | .atom a => .atom a
  | .string s content => .string (φ s) content
  | .group quotation s items => .group quotation (φ s) (mapSpansAll φ items)
  | .lambda s parameters body => .lambda (φ s) parameters (mapSpansAll φ body)
  | .procedure s s' name parameters body => .procedure (φ s) (φ s') name parameters (mapSpansAll φ body)
  | .letIn s s' name names initials body =>
    .letIn (φ s) (φ s') name names (mapSpansAll φ initials) (mapSpansAll φ body)
  | .clause s test body rest => .clause (φ s) (mapSpansOption φ test) (mapSpansAll φ body) (mapSpansOption φ rest)

/-- Several forms with their places changed. -/
def mapSpansAll (φ : Span → Span) : List Form → List Form
  | [] => []
  | f :: fs => mapSpans φ f :: mapSpansAll φ fs

/-- A form that may be missing, with its places changed. -/
def mapSpansOption (φ : Span → Span) : Option Form → Option Form
  | none => none
  | some f => some (mapSpans φ f)

end

mutual

/-- Places that are left as they are. -/
theorem mapSpans_id : (f : Form) → f.mapSpans id = f
  | .atom _ => rfl
  | .string _ _ => rfl
  | .group _ _ items => by rw [mapSpans, mapSpansAll_id items, id]
  | .lambda _ _ body => by rw [mapSpans, mapSpansAll_id body, id]
  | .procedure _ _ _ _ body => by rw [mapSpans, mapSpansAll_id body, id, id]
  | .letIn _ _ _ _ initials body => by rw [mapSpans, mapSpansAll_id initials, mapSpansAll_id body, id, id]
  | .clause _ test body rest => by
    rw [mapSpans, mapSpansOption_id test, mapSpansAll_id body, mapSpansOption_id rest, id]

theorem mapSpansAll_id : (fs : List Form) → mapSpansAll id fs = fs
  | [] => rfl
  | f :: fs => by rw [mapSpansAll, mapSpans_id f, mapSpansAll_id fs]

theorem mapSpansOption_id : (o : Option Form) → mapSpansOption id o = o
  | none => rfl
  | some f => congrArg some (mapSpans_id f)

end

mutual

/-- A form without its places is one whose places are all the same. -/
theorem mapSpans_unplaced : (f : Form) → f.mapSpans (fun _ => .unplaced) = f.unplaced
  | .atom _ => rfl
  | .string _ _ => rfl
  | .group _ _ items => by rw [mapSpans, unplaced, mapSpansAll_unplaced items]
  | .lambda _ _ body => by rw [mapSpans, unplaced, mapSpansAll_unplaced body]
  | .procedure _ _ _ _ body => by rw [mapSpans, unplaced, mapSpansAll_unplaced body]
  | .letIn _ _ _ _ initials body => by
    rw [mapSpans, unplaced, mapSpansAll_unplaced initials, mapSpansAll_unplaced body]
  | .clause _ test body rest => by
    rw [mapSpans, unplaced, mapSpansOption_unplaced test, mapSpansAll_unplaced body, mapSpansOption_unplaced rest]

theorem mapSpansAll_unplaced : (fs : List Form) → mapSpansAll (fun _ => .unplaced) fs = unplacedAll fs
  | [] => rfl
  | f :: fs => by rw [mapSpansAll, unplacedAll, mapSpans_unplaced f, mapSpansAll_unplaced fs]

theorem mapSpansOption_unplaced : (o : Option Form) → mapSpansOption (fun _ => .unplaced) o = unplacedOption o
  | none => rfl
  | some f => congrArg some (mapSpans_unplaced f)

end

variable (φ : Span → Span)

mutual

/-- Forms whose places have been changed are the same but for their places. -/
theorem unplaced_mapSpans : (f : Form) → (f.mapSpans φ).unplaced = f.unplaced
  | .atom _ => rfl
  | .string _ _ => rfl
  | .group _ _ items => by rw [mapSpans, unplaced, unplaced, unplacedAll_mapSpansAll items]
  | .lambda _ _ body => by rw [mapSpans, unplaced, unplaced, unplacedAll_mapSpansAll body]
  | .procedure _ _ _ _ body => by rw [mapSpans, unplaced, unplaced, unplacedAll_mapSpansAll body]
  | .letIn _ _ _ _ initials body => by
    rw [mapSpans, unplaced, unplaced, unplacedAll_mapSpansAll initials, unplacedAll_mapSpansAll body]
  | .clause _ test body rest => by
    rw [mapSpans, unplaced, unplaced, unplacedOption_mapSpansOption test, unplacedAll_mapSpansAll body,
      unplacedOption_mapSpansOption rest]

theorem unplacedAll_mapSpansAll : (fs : List Form) → unplacedAll (mapSpansAll φ fs) = unplacedAll fs
  | [] => rfl
  | f :: fs => by rw [mapSpansAll, unplacedAll, unplacedAll, unplaced_mapSpans f, unplacedAll_mapSpansAll fs]

theorem unplacedOption_mapSpansOption : (o : Option Form) → unplacedOption (mapSpansOption φ o) = unplacedOption o
  | none => rfl
  | some f => congrArg some (unplaced_mapSpans f)

end

theorem isEmpty_mapSpansAll (fs : List Form) : (mapSpansAll φ fs).isEmpty = fs.isEmpty := by
  cases fs <;> rfl

end Form

namespace Grammar

open Form

/-! ### The end of the text -/

section AtEnd

variable {ts : List Token}

/-- **No token is left**, or the end of the text comes next. -/
def AtEnd (ts : List Token) : Prop := nextKind ts = .endOfText

theorem AtEnd.eq_or (h : AtEnd ts) : ts = [] ∨ ∃ t rest, ts = t :: rest ∧ t.kind = .endOfText := by
  cases ts with
  | nil => exact .inl rfl
  | cons t ts => exact .inr ⟨t, ts, rfl, h⟩

theorem AtEnd.nextSymbol? (h : AtEnd ts) : nextSymbol? ts = none := by
  rw [Grammar.nextSymbol?, h]

/-! Nothing is read from there. -/

theorem expect_atEnd (kind : Token.Kind) (hkind : kind ≠ .endOfText) (h : AtEnd ts) :
    expect kind ts = .error .unexpectedEnd := by
  obtain rfl | ⟨t, rest, rfl, ht⟩ := h.eq_or
  · rfl
  · rw [expect, ht, if_neg hkind.symm, unexpected, if_pos ht]

theorem expectSymbol_atEnd (role : String) (h : AtEnd ts) : expectSymbol role ts = .error .unexpectedEnd := by
  obtain rfl | ⟨t, rest, rfl, ht⟩ := h.eq_or
  · rfl
  · simp [expectSymbol, unexpected, ht]

theorem parameters_atEnd (h : AtEnd ts) : parameters ts = .error .unexpectedEnd := by
  obtain rfl | ⟨t, rest, rfl, ht⟩ := h.eq_or
  · rfl
  · simp [parameters, unexpected, ht]

theorem expr_atEnd (fuel : Nat) (mode : Mode) (h : AtEnd ts) : expr fuel mode ts = .error .unexpectedEnd := by
  cases fuel with
  | zero => rfl
  | succ fuel =>
    obtain rfl | ⟨t, rest, rfl, ht⟩ := h.eq_or
    · rfl
    · simp [expr, ht]

theorem datum_atEnd (fuel : Nat) (quotation : Quotation) (s : Span) (h : AtEnd ts) :
    datum fuel quotation s ts = .error .unexpectedEnd := by
  cases fuel with
  | zero => rfl
  | succ fuel =>
    obtain rfl | ⟨⟨kind, s'⟩, rest, rfl, rfl⟩ := h.eq_or
    · exact expr_atEnd fuel _ h
    · exact expr_atEnd fuel _ h

theorem sequence_atEnd (fuel : Nat) (mode : Mode) (h : AtEnd ts) : sequence fuel mode ts = .error .unexpectedEnd := by
  cases fuel with
  | zero => rfl
  | succ fuel => rw [sequence, show nextKind ts = .endOfText from h]

theorem list_atEnd (fuel : Nat) (quotation : Quotation) (mode : Mode) (s : Span) (h : AtEnd ts) :
    list fuel quotation mode s ts = .error .unexpectedEnd := by
  cases fuel with
  | zero => rfl
  | succ fuel =>
    rw [list, sequence_atEnd fuel mode h]
    rfl

theorem compound_atEnd (fuel : Nat) (s : Span) (h : AtEnd ts) : compound fuel s ts = .error .unexpectedEnd := by
  cases fuel with
  | zero => rfl
  | succ fuel =>
    rw [compound, h.nextSymbol?]
    exact list_atEnd fuel .code .code s h

theorem bindings_atEnd (fuel : Nat) (h : AtEnd ts) : bindings fuel ts = .error .unexpectedEnd := by
  cases fuel with
  | zero => rfl
  | succ fuel =>
    rw [bindings, show nextKind ts = .endOfText from h, if_neg (by simp), expect_atEnd .open (by simp) h]
    rfl

theorem clauses_atEnd (fuel : Nat) (h : AtEnd ts) : clauses fuel ts = .error .unexpectedEnd := by
  cases fuel with
  | zero => rfl
  | succ fuel =>
    rw [clauses, show nextKind ts = .endOfText from h, if_neg (by simp), expect_atEnd .open (by simp) h]
    rfl

theorem condition_atEnd (fuel : Nat) (h : AtEnd ts) : condition fuel ts = .error .unexpectedEnd := by
  cases fuel with
  | zero => rfl
  | succ fuel =>
    rw [condition, h.nextSymbol?, if_neg (by simp), expr_atEnd fuel .code h]
    rfl

end AtEnd

/-! ### Tokens that compare -/

variable (κ : Comparison) (more : List Token) (ends : Prop)

/-- **Tokens that are given again**: of the same kinds, in places that compare, up to the end of the text, where `more` comes
instead. If `ends` holds, that is an end of the text as well. -/
inductive Follows : List Token → List Token → Prop
  | stop {ts : List Token} (h : AtEnd ts) (hmore : ends → AtEnd more ∧ κ.Same (nextSpan ts) (nextSpan more)) :
    Follows ts more
  | cons {t t' : Token} {ts ts' : List Token} (hkind : t'.kind = t.kind) (hend : t.kind ≠ .endOfText)
      (hspan : κ.Same t.span t'.span) (h : Follows ts ts') : Follows (t :: ts) (t' :: ts')

/-- A form that is the same but for its places, and these compare. -/
def Corresponds (f g : Form) : Prop := f.mapSpans κ.left = g.mapSpans κ.right

/-- Forms that are the same but for their places, and these compare. -/
def CorrespondAll (fs gs : List Form) : Prop := mapSpansAll κ.left fs = mapSpansAll κ.right gs

/-- A form that may be missing, in the same way. -/
def CorrespondOption (o p : Option Form) : Prop := mapSpansOption κ.left o = mapSpansOption κ.right p

variable {κ more ends}

theorem CorrespondAll.nil : CorrespondAll κ [] [] := rfl

theorem CorrespondAll.cons {f g : Form} {fs gs : List Form} (h : Corresponds κ f g) (hs : CorrespondAll κ fs gs) :
    CorrespondAll κ (f :: fs) (g :: gs) := by
  rw [CorrespondAll, mapSpansAll, mapSpansAll, h, hs]

theorem CorrespondAll.isEmpty {fs gs : List Form} (h : CorrespondAll κ fs gs) : gs.isEmpty = fs.isEmpty := by
  rw [← isEmpty_mapSpansAll κ.right gs, ← isEmpty_mapSpansAll κ.left fs, h]

theorem Corresponds.group {quotation : Quotation} {s s' : Span} {fs gs : List Form} (hs : κ.Same s s')
    (h : CorrespondAll κ fs gs) : Corresponds κ (.group quotation s fs) (.group quotation s' gs) := by
  rw [Corresponds, mapSpans, mapSpans, h, hs]

namespace Follows

variable {ts ts' : List Token}

/-- At the end of the text, the other tokens go on as they may. -/
theorem eq_of_atEnd (h : Follows κ more ends ts ts') (hend : AtEnd ts) : ts' = more := by
  cases h with
  | stop => rfl
  | cons _ hne => exact absurd hend hne

/-- Before the end of the text, a token of the same kind comes next. -/
theorem exists_cons (h : Follows κ more ends ts ts') (hend : ¬ AtEnd ts) : ∃ t rest t' rest', ts = t :: rest ∧
    ts' = t' :: rest' ∧ t'.kind = t.kind ∧ κ.Same t.span t'.span ∧ Follows κ more ends rest rest' := by
  cases h with
  | stop h => exact absurd h hend
  | cons hkind _ hspan h => exact ⟨_, _, _, _, rfl, rfl, hkind, hspan, h⟩

theorem nextKind (h : Follows κ more ends ts ts') (hend : ¬ AtEnd ts) : nextKind ts' = nextKind ts := by
  obtain ⟨t, rest, t', rest', rfl, rfl, hkind, -⟩ := h.exists_cons hend
  exact hkind

theorem nextSymbol? (h : Follows κ more ends ts ts') (hend : ¬ AtEnd ts) : nextSymbol? ts' = nextSymbol? ts := by
  rw [Grammar.nextSymbol?, Grammar.nextSymbol?, h.nextKind hend]

theorem tail (h : Follows κ more ends ts ts') (hend : ¬ AtEnd ts) : Follows κ more ends ts.tail ts'.tail := by
  obtain ⟨t, rest, t', rest', rfl, rfl, -, -, hrest⟩ := h.exists_cons hend
  exact hrest

theorem nextSpan (h : Follows κ more ends ts ts') (hend : ¬ AtEnd ts) : κ.Same (nextSpan ts) (nextSpan ts') := by
  obtain ⟨t, rest, t', rest', rfl, rfl, -, hspan, -⟩ := h.exists_cons hend
  exact hspan

/-- Where the other tokens end as well, their ends compare. -/
theorem atEnd (h : Follows κ more ends ts ts') (hend : AtEnd ts) (hends : ends) :
    AtEnd ts' ∧ κ.Same (Grammar.nextSpan ts) (Grammar.nextSpan ts') := by
  cases h with
  | stop _ hmore => exact hmore hends
  | cons _ hne => exact absurd hend hne

end Follows

variable (κ more ends) in
/-- **What is read again** from tokens that compare: an answer as `R` says, and, if `strict` holds, no answer for the same
reason. -/
structure Again {α β : Type} (strict : Prop) (R : α → β → Prop) (result : Except ParseError (α × List Token))
    (result' : Except ParseError (β × List Token)) : Prop where
  read : ∀ a rest, result = .ok (a, rest) → ∃ b rest', result' = .ok (b, rest') ∧ R a b ∧ Follows κ more ends rest rest'
  fault : strict → ∀ e, result = .error e → ∃ e', result' = .error e' ∧ κ.SameFault e e'

section Rules

variable {α β γ δ : Type} {strict : Prop} {R : α → β → Prop} {S : γ → δ → Prop} {ts ts' : List Token}

theorem Again.ok {a : α} {b : β} (h : R a b) (hts : Follows κ more ends ts ts') :
    Again κ more ends strict R (.ok (a, ts)) (.ok (b, ts')) where
  read := by
    intro a rest heq
    cases heq
    exact ⟨b, ts', rfl, h, hts⟩
  fault := fun _ _ => nofun

theorem Again.error {e e' : ParseError} (h : κ.SameFault e e') : Again κ more ends strict R (.error e) (.error e') where
  read := fun _ _ => nofun
  fault := by
    intro _ e heq
    cases heq
    exact ⟨e', rfl, h⟩

/-- Where the text ends, or no fuel is left, nothing is read. -/
theorem Again.stop {result : Except ParseError (α × List Token)} {result' : Except ParseError (β × List Token)}
    (h : result = .error .unexpectedEnd) (h' : strict → result' = .error .unexpectedEnd) :
    Again κ more ends strict R result result' where
  read := by
    intro a rest heq
    cases h.symm.trans heq
  fault := by
    intro hstrict e heq
    cases h.symm.trans heq
    exact ⟨_, h' hstrict, .unexpectedEnd⟩

theorem Again.imp {strict' : Prop} {x : Except ParseError (α × List Token)} {y : Except ParseError (β × List Token)}
    (h : Again κ more ends strict R x y) (himp : strict' → strict) : Again κ more ends strict' R x y :=
  ⟨h.read, fun hstrict => h.fault (himp hstrict)⟩

/-- One reading after the other. -/
theorem Again.bind {x : Except ParseError (α × List Token)} {y : Except ParseError (β × List Token)}
    {k : α × List Token → Except ParseError (γ × List Token)} {l : β × List Token → Except ParseError (δ × List Token)}
    (hx : Again κ more ends strict R x y)
    (hk : ∀ a b ts ts', R a b → Follows κ more ends ts ts' → Again κ more ends strict S (k (a, ts)) (l (b, ts'))) :
    Again κ more ends strict S (x >>= k) (y >>= l) where
  read := by
    intro c rest h
    obtain ⟨⟨a, ts⟩, hfirst, hrest⟩ := Except.bind_eq_ok.mp h
    obtain ⟨b, ts', hb, hab, hts⟩ := hx.read a ts hfirst
    rw [hb]
    exact (hk a b ts ts' hab hts).read c rest hrest
  fault := by
    intro hstrict e h
    -- the first reading fails, or it answers and the second one fails
    rcases Except.bind_eq_error.mp h with hfirst | ⟨⟨a, ts⟩, hfirst, hrest⟩
    · obtain ⟨e', he', hsame⟩ := hx.fault hstrict e hfirst
      rw [he']
      exact ⟨e', rfl, hsame⟩
    · obtain ⟨b, ts', hb, hab, hts⟩ := hx.read a ts hfirst
      rw [hb]
      exact (hk a b ts ts' hab hts).fault hstrict e hrest

end Rules

/-! ### Single tokens -/

section Tokens

variable {strict : Prop} {ts ts' : List Token}

/-- The same fault, where a token of the same kind stands. -/
theorem sameFault_unexpected {t t' : Token} (hkind : t'.kind = t.kind) (hspan : κ.Same t.span t'.span)
    (expected : String) : κ.SameFault (unexpected t expected) (unexpected t' expected) := by
  unfold unexpected
  rw [hkind]
  split
  · exact .unexpectedEnd
  · exact .unexpected _ expected hspan

theorem again_expect (kind : Token.Kind) (hkind : kind ≠ .endOfText) (h : Follows κ more ends ts ts')
    (hstrict : strict → ends) : Again κ more ends strict κ.Same (expect kind ts) (expect kind ts') := by
  by_cases hend : AtEnd ts
  · exact .stop (expect_atEnd kind hkind hend) fun hs => expect_atEnd kind hkind (h.atEnd hend (hstrict hs)).1
  · obtain ⟨t, rest, t', rest', rfl, rfl, hkind', hspan, hrest⟩ := h.exists_cons hend
    rw [expect, expect, hkind']
    split
    · exact .ok hspan hrest
    · exact .error (sameFault_unexpected hkind' hspan _)

theorem again_expectSymbol (role : String) (h : Follows κ more ends ts ts') (hstrict : strict → ends) :
    Again κ more ends strict Eq (expectSymbol role ts) (expectSymbol role ts') := by
  by_cases hend : AtEnd ts
  · exact .stop (expectSymbol_atEnd role hend) fun hs => expectSymbol_atEnd role (h.atEnd hend (hstrict hs)).1
  · obtain ⟨t, rest, t', rest', rfl, rfl, hkind, hspan, hrest⟩ := h.exists_cons hend
    rw [expectSymbol, expectSymbol, hkind]
    split
    · exact .ok rfl hrest
    · exact .error (sameFault_unexpected hkind hspan _)

theorem again_parameters (h : Follows κ more ends ts ts') (hstrict : strict → ends) :
    Again κ more ends strict Eq (parameters ts) (parameters ts') := by
  induction h with
  | stop hend hmore => exact .stop (parameters_atEnd hend) fun hs => parameters_atEnd (hmore (hstrict hs)).1
  | cons hkind _ hspan hrest ih =>
    rw [parameters, parameters, hkind]
    split
    · exact .ok rfl hrest
    · refine ih.bind fun names names' ts ts' hnames hts => ?_
      rw [hnames]
      exact .ok rfl hts
    · exact .error (sameFault_unexpected hkind hspan _)

end Tokens

/-! ### Expressions -/

/-- A body that is not empty is not empty again. -/
theorem Again.requireBody {γ δ : Type} {strict : Prop} {S : γ → δ → Prop} {form : String} {s s' : Span} {fs gs : List Form}
    {x : Except ParseError (γ × List Token)} {y : Except ParseError (δ × List Token)} (hs : κ.Same s s')
    (hbody : CorrespondAll κ fs gs) (hxy : Again κ more ends strict S x y) :
    Again κ more ends strict S (Grammar.requireBody form s fs >>= fun _ => x)
      (Grammar.requireBody form s' gs >>= fun _ => y) := by
  unfold Grammar.requireBody
  rw [hbody.isEmpty]
  split
  · exact .error (.malformed form _ hs)
  · exact hxy

/-- What is answered after items: these, and the place of the closing parenthesis. -/
def CorrespondItems (κ : Comparison) (p q : List Form × Span) : Prop := CorrespondAll κ p.1 q.1 ∧ κ.Same p.2 q.2

/-- Bindings of the same names to forms that match. -/
def CorrespondPairs (κ : Comparison) (ps qs : List (String × Form)) : Prop :=
  qs.map Prod.fst = ps.map Prod.fst ∧ CorrespondAll κ (ps.map Prod.snd) (qs.map Prod.snd)

variable (κ more ends) in
/-- **What is read with this much fuel is read again** with more fuel from tokens that compare. -/
structure SameAt (fuel : Nat) : Prop where
  expr : ∀ {fuel' mode ts ts'}, fuel ≤ fuel' → Follows κ more ends ts ts' →
    Again κ more ends (ends ∧ fuel' = fuel) (Corresponds κ) (expr fuel mode ts) (expr fuel' mode ts')
  datum : ∀ {fuel' quotation s s' ts ts'}, fuel ≤ fuel' → κ.Same s s' → Follows κ more ends ts ts' →
    Again κ more ends (ends ∧ fuel' = fuel) (Corresponds κ) (datum fuel quotation s ts) (datum fuel' quotation s' ts')
  nested : ∀ {fuel' mode name s s' ts ts'}, fuel ≤ fuel' → κ.Same s s' → Follows κ more ends ts ts' →
    Again κ more ends (ends ∧ fuel' = fuel) (Corresponds κ) (nested fuel mode name s ts) (nested fuel' mode name s' ts')
  list : ∀ {fuel' quotation mode s s' ts ts'}, fuel ≤ fuel' → κ.Same s s' → Follows κ more ends ts ts' →
    Again κ more ends (ends ∧ fuel' = fuel) (Corresponds κ) (list fuel quotation mode s ts)
      (list fuel' quotation mode s' ts')
  sequence : ∀ {fuel' mode ts ts'}, fuel ≤ fuel' → Follows κ more ends ts ts' →
    Again κ more ends (ends ∧ fuel' = fuel) (CorrespondItems κ) (sequence fuel mode ts) (sequence fuel' mode ts')
  compound : ∀ {fuel' s s' ts ts'}, fuel ≤ fuel' → κ.Same s s' → Follows κ more ends ts ts' →
    Again κ more ends (ends ∧ fuel' = fuel) (Corresponds κ) (compound fuel s ts) (compound fuel' s' ts')
  bindings : ∀ {fuel' ts ts'}, fuel ≤ fuel' → Follows κ more ends ts ts' →
    Again κ more ends (ends ∧ fuel' = fuel) (CorrespondPairs κ) (bindings fuel ts) (bindings fuel' ts')
  clauses : ∀ {fuel' ts ts'}, fuel ≤ fuel' → Follows κ more ends ts ts' →
    Again κ more ends (ends ∧ fuel' = fuel) (fun cs ds => CorrespondOption κ (chain cs) (chain ds)) (clauses fuel ts)
      (clauses fuel' ts')
  condition : ∀ {fuel' ts ts'}, fuel ≤ fuel' → Follows κ more ends ts ts' →
    Again κ more ends (ends ∧ fuel' = fuel) (CorrespondOption κ) (condition fuel ts) (condition fuel' ts')

/-- Where as little fuel is left, all functions fail in the same way. -/
theorem sameAt_zero : SameAt κ more ends 0 := by
  constructor
  case expr => intro fuel' mode ts ts' _ _; exact .stop rfl fun hs => hs.2 ▸ rfl
  case datum => intro fuel' quotation s s' ts ts' _ _ _; exact .stop rfl fun hs => hs.2 ▸ rfl
  case nested => intro fuel' mode name s s' ts ts' _ _ _; exact .stop rfl fun hs => hs.2 ▸ rfl
  case list => intro fuel' quotation mode s s' ts ts' _ _ _; exact .stop rfl fun hs => hs.2 ▸ rfl
  case sequence => intro fuel' mode ts ts' _ _; exact .stop rfl fun hs => hs.2 ▸ rfl
  case compound => intro fuel' s s' ts ts' _ _ _; exact .stop rfl fun hs => hs.2 ▸ rfl
  case bindings => intro fuel' ts ts' _ _; exact .stop rfl fun hs => hs.2 ▸ rfl
  case clauses => intro fuel' ts ts' _ _; exact .stop rfl fun hs => hs.2 ▸ rfl
  case condition => intro fuel' ts ts' _ _; exact .stop rfl fun hs => hs.2 ▸ rfl

namespace SameAt

variable {fuel fuel' : Nat} {s s' : Span} {ts ts' : List Token} (ih : SameAt κ more ends fuel) (hfuel : fuel ≤ fuel')
  (h : Follows κ more ends ts ts')

include ih hfuel h

theorem expr_succ (mode : Mode) : Again κ more ends (ends ∧ fuel' = fuel) (Corresponds κ)
    (Grammar.expr (fuel + 1) mode ts) (Grammar.expr (fuel' + 1) mode ts') := by
  by_cases hend : AtEnd ts
  · exact .stop (expr_atEnd _ mode hend) fun hs => expr_atEnd _ mode (h.atEnd hend hs.1).1
  · obtain ⟨t, rest, t', rest', rfl, rfl, hkind, hspan, hrest⟩ := h.exists_cons hend
    simp only [Grammar.expr, hkind]
    split
    -- atoms
    · exact .ok rfl hrest
    · exact .ok rfl hrest
    · refine .ok ?_ hrest
      rw [Corresponds, Form.mapSpans, Form.mapSpans, hspan]
    · exact .ok (by cases mode <;> unfold word <;> rfl) hrest
    -- the marks of quotation: quote, backquote and comma
    · cases mode with
      | code => exact ih.datum hfuel hspan hrest
      | quoted => exact ih.nested hfuel hspan hrest
      | template => exact ih.nested hfuel hspan hrest
    · cases mode with
      | code => exact ih.datum hfuel hspan hrest
      | quoted => exact ih.nested hfuel hspan hrest
      | template => exact ih.nested hfuel hspan hrest
    · cases mode with
      | code => exact .error (.unquoteOutsideQuasiquote hspan)
      | quoted => exact ih.nested hfuel hspan hrest
      | template =>
        exact (ih.expr hfuel hrest).bind fun f g ts ts' hfg hts => .ok (.group hspan (.cons hfg .nil)) hts
    -- a parenthesis
    · cases mode with
      | code => exact ih.compound hfuel hspan hrest
      | quoted => exact ih.list hfuel hspan hrest
      | template => exact ih.list hfuel hspan hrest
    · exact .error (sameFault_unexpected hkind hspan _)
    · exact .error .unexpectedEnd

theorem datum_succ (quotation : Quotation) (hs : κ.Same s s') : Again κ more ends (ends ∧ fuel' = fuel) (Corresponds κ)
    (Grammar.datum (fuel + 1) quotation s ts) (Grammar.datum (fuel' + 1) quotation s' ts') := by
  by_cases hend : AtEnd ts
  · exact .stop (datum_atEnd _ quotation s hend) fun hs => datum_atEnd _ quotation s' (h.atEnd hend hs.1).1
  · obtain ⟨⟨kind, span⟩, rest, ⟨kind', span'⟩, rest', rfl, rfl, hkind, hspan, hrest⟩ := h.exists_cons hend
    dsimp only at hkind hspan
    subst hkind
    unfold Grammar.datum
    dsimp only
    cases kind' with
    | «open» => exact ih.list hfuel (κ.merge hspan hs) hrest
    | _ => exact ih.expr hfuel h

theorem nested_succ (mode : Mode) (name : String) (hs : κ.Same s s') :
    Again κ more ends (ends ∧ fuel' = fuel) (Corresponds κ) (Grammar.nested (fuel + 1) mode name s ts)
      (Grammar.nested (fuel' + 1) mode name s' ts') := by
  unfold Grammar.nested
  exact (ih.expr hfuel h).bind fun f g ts ts' hfg hts => .ok (.group hs (.cons rfl (.cons hfg .nil))) hts

theorem list_succ (quotation : Quotation) (mode : Mode) (hs : κ.Same s s') :
    Again κ more ends (ends ∧ fuel' = fuel) (Corresponds κ) (Grammar.list (fuel + 1) quotation mode s ts)
      (Grammar.list (fuel' + 1) quotation mode s' ts') := by
  unfold Grammar.list
  exact (ih.sequence hfuel h).bind fun p q ts ts' hpq hts => .ok (.group (κ.merge hs hpq.2) hpq.1) hts

theorem sequence_succ (mode : Mode) : Again κ more ends (ends ∧ fuel' = fuel) (CorrespondItems κ)
    (Grammar.sequence (fuel + 1) mode ts) (Grammar.sequence (fuel' + 1) mode ts') := by
  by_cases hend : AtEnd ts
  · exact .stop (sequence_atEnd _ mode hend) fun hs => sequence_atEnd _ mode (h.atEnd hend hs.1).1
  · unfold Grammar.sequence
    rw [h.nextKind hend]
    split
    · exact .ok ⟨.nil, h.nextSpan hend⟩ (h.tail hend)
    · exact .error .unexpectedEnd
    · exact (ih.expr hfuel h).bind fun f g ts ts' hfg hts => (ih.sequence hfuel hts).bind fun p q ts ts' hpq hts =>
        .ok ⟨.cons hfg hpq.1, hpq.2⟩ hts

theorem bindings_succ : Again κ more ends (ends ∧ fuel' = fuel) (CorrespondPairs κ)
    (Grammar.bindings (fuel + 1) ts) (Grammar.bindings (fuel' + 1) ts') := by
  by_cases hend : AtEnd ts
  · exact .stop (bindings_atEnd _ hend) fun hs => bindings_atEnd _ (h.atEnd hend hs.1).1
  · unfold Grammar.bindings
    rw [h.nextKind hend]
    split
    · exact .ok ⟨rfl, .nil⟩ (h.tail hend)
    · refine (again_expect .open (by simp) h And.left).bind fun _ _ ts ts' _ hts => ?_
      refine (again_expectSymbol _ hts And.left).bind fun name name' ts ts' hname hts => ?_
      refine (ih.expr hfuel hts).bind fun f g ts ts' hfg hts => ?_
      refine (again_expect .close (by simp) hts And.left).bind fun _ _ ts ts' _ hts => ?_
      refine (ih.bindings hfuel hts).bind fun ps qs ts ts' hpq hts => .ok ⟨?_, .cons hfg hpq.2⟩ hts
      rw [List.map_cons, List.map_cons, hname, hpq.1]

theorem condition_succ : Again κ more ends (ends ∧ fuel' = fuel) (CorrespondOption κ)
    (Grammar.condition (fuel + 1) ts) (Grammar.condition (fuel' + 1) ts') := by
  by_cases hend : AtEnd ts
  · exact .stop (condition_atEnd _ hend) fun hs => condition_atEnd _ (h.atEnd hend hs.1).1
  · unfold Grammar.condition
    rw [h.nextSymbol? hend]
    split
    · exact .ok rfl (h.tail hend)
    · exact (ih.expr hfuel h).bind fun f g ts ts' hfg hts => .ok (congrArg some hfg) hts

theorem clauses_succ : Again κ more ends (ends ∧ fuel' = fuel) (fun cs ds => CorrespondOption κ (chain cs) (chain ds))
    (Grammar.clauses (fuel + 1) ts) (Grammar.clauses (fuel' + 1) ts') := by
  by_cases hend : AtEnd ts
  · exact .stop (clauses_atEnd _ hend) fun hs => clauses_atEnd _ (h.atEnd hend hs.1).1
  · have hspan := h.nextSpan hend
    unfold Grammar.clauses
    rw [h.nextKind hend]
    split
    · exact .ok rfl (h.tail hend)
    · refine (again_expect .open (by simp) h And.left).bind fun _ _ ts ts' _ hts => ?_
      refine (ih.condition hfuel hts).bind fun test test' ts ts' htest hts => ?_
      refine (ih.sequence hfuel hts).bind fun p q ts ts' hpq hts => ?_
      dsimp only
      rw [hpq.1.isEmpty]
      split
      · exact .error (.malformed _ _ hspan)
      · refine (ih.clauses hfuel hts).bind fun cs ds ts ts' hcs hts => .ok ?_ hts
        rw [CorrespondOption, chain, chain, mapSpansOption, mapSpansOption, Form.mapSpans, Form.mapSpans, htest, hpq.1,
          hcs, hspan]

theorem compound_succ (hs : κ.Same s s') : Again κ more ends (ends ∧ fuel' = fuel) (Corresponds κ)
    (Grammar.compound (fuel + 1) s ts) (Grammar.compound (fuel' + 1) s' ts') := by
  by_cases hend : AtEnd ts
  · exact .stop (compound_atEnd _ s hend) fun hs => compound_atEnd _ s' (h.atEnd hend hs.1).1
  have htail := h.tail hend
  unfold Grammar.compound
  -- both come to the same form, as the next word is the same
  rw [h.nextSymbol? hend]
  split
  · by_cases hlast : AtEnd ts.tail
    · -- the text ends where the parameters were to be
      rw [if_neg (by simp [show nextKind ts.tail = .endOfText from hlast])]
      refine ⟨by simp, fun hstrict e he => ?_⟩
      obtain ⟨hlast', hspan⟩ := htail.atEnd hlast hstrict.1
      cases he
      rw [if_neg (by simp [show nextKind ts'.tail = .endOfText from hlast'])]
      exact ⟨_, rfl, .malformed _ _ hspan⟩
    · rw [htail.nextKind hlast]
      split
      · refine (again_parameters (htail.tail hlast) And.left).bind fun names names' ts ts' hnames hts => ?_
        refine (ih.sequence hfuel hts).bind fun p q ts ts' hpq hts => ?_
        refine .requireBody hs hpq.1 (.ok ?_ hts)
        rw [Corresponds, Form.mapSpans, Form.mapSpans, hnames, hpq.1, κ.merge hs hpq.2]
      · exact .error (.malformed _ _ (htail.nextSpan hlast))
  · by_cases hlast : AtEnd ts.tail
    · have hnone : ∀ {ts}, AtEnd ts → ¬ Grammar.nextKind ts = .open := fun h => by simp [show Grammar.nextKind _ = .endOfText from h]
      refine .stop ?_ fun hstrict => ?_
      · rw [if_neg (hnone hlast), sequence_atEnd fuel .code hlast]
        rfl
      · obtain ⟨hlast', -⟩ := htail.atEnd hlast hstrict.1
        rw [if_neg (hnone hlast'), sequence_atEnd fuel' .code hlast']
        rfl
    · rw [htail.nextKind hlast]
      split
      · refine (again_expectSymbol _ (htail.tail hlast) And.left).bind fun name name' ts ts' hname hts => ?_
        refine (again_parameters hts And.left).bind fun names names' ts ts' hnames hts => ?_
        refine (ih.sequence hfuel hts).bind fun p q ts ts' hpq hts => ?_
        refine .requireBody hs hpq.1 (.ok ?_ hts)
        rw [Corresponds, Form.mapSpans, Form.mapSpans, hname, hnames, hpq.1, κ.merge hs hpq.2, hs]
      · exact (ih.sequence hfuel htail).bind fun p q ts ts' hpq hts =>
          .ok (.group (κ.merge hs hpq.2) (.cons rfl hpq.1)) hts
  · dsimp only
    by_cases hlast : AtEnd ts.tail
    · have hnone : ∀ {ts}, AtEnd ts → expect .open (if (Grammar.nextSymbol? ts).isSome then ts.tail else ts) =
          .error .unexpectedEnd := by
        intro ts h
        rw [h.nextSymbol?]
        exact expect_atEnd .open (by simp) h
      refine .stop ?_ fun hstrict => ?_
      · rw [hnone hlast]
        rfl
      · rw [hnone (htail.atEnd hlast hstrict.1).1]
        rfl
    · rw [htail.nextSymbol? hlast]
      have hnext : Follows κ more ends (if (Grammar.nextSymbol? ts.tail).isSome then ts.tail.tail else ts.tail)
          (if (Grammar.nextSymbol? ts.tail).isSome then ts'.tail.tail else ts'.tail) := by
        split
        · exact htail.tail hlast
        · exact htail
      refine (again_expect .open (by simp) hnext And.left).bind fun _ _ ts ts' _ hts => ?_
      refine (ih.bindings hfuel hts).bind fun ps qs ts ts' hps hts => ?_
      refine (ih.sequence hfuel hts).bind fun p q ts ts' hpq hts => ?_
      refine .requireBody hs hpq.1 (.ok ?_ hts)
      rw [Corresponds, Form.mapSpans, Form.mapSpans, hps.1, hps.2, hpq.1, κ.merge hs hpq.2, hs]
  · refine (ih.clauses hfuel htail).bind fun cs ds ts ts' hcs hts => ?_
    -- both chains have a clause, or neither has
    cases cs with
    | nil =>
      cases ds with
      | nil => exact .error (.malformed _ _ hs)
      | cons d ds => cases hcs
    | cons c cs =>
      cases ds with
      | nil => cases hcs
      | cons d ds => exact .ok (Option.some.inj hcs) hts
  · exact (ih.datum hfuel hs htail).bind fun f g ts ts' hfg hts =>
      (again_expect .close (by simp) hts And.left).bind fun _ _ ts ts' _ hts => .ok hfg hts
  · exact ih.list hfuel hs h

end SameAt

theorem sameAt (fuel : Nat) : SameAt κ more ends fuel := by
  induction fuel with
  | zero => exact sameAt_zero
  | succ fuel ih =>
    -- more fuel than `fuel + 1` is one unit and more fuel than `fuel`
    have hsucc : ∀ {fuel' : Nat}, fuel + 1 ≤ fuel' → ∃ k, fuel' = k + 1 ∧ fuel ≤ k := fun {fuel'} hle =>
      ⟨fuel' - 1, by omega, by omega⟩
    have hstrict : ∀ {k : Nat}, ends ∧ k + 1 = fuel + 1 → ends ∧ k = fuel := And.imp_right Nat.succ.inj
    constructor
    case expr =>
      intro fuel' mode ts ts' hle h
      obtain ⟨k, rfl, hk⟩ := hsucc hle
      exact (ih.expr_succ hk h mode).imp hstrict
    case datum =>
      intro fuel' quotation s s' ts ts' hle hs h
      obtain ⟨k, rfl, hk⟩ := hsucc hle
      exact (ih.datum_succ hk h quotation hs).imp hstrict
    case nested =>
      intro fuel' mode name s s' ts ts' hle hs h
      obtain ⟨k, rfl, hk⟩ := hsucc hle
      exact (ih.nested_succ hk h mode name hs).imp hstrict
    case list =>
      intro fuel' quotation mode s s' ts ts' hle hs h
      obtain ⟨k, rfl, hk⟩ := hsucc hle
      exact (ih.list_succ hk h quotation mode hs).imp hstrict
    case sequence =>
      intro fuel' mode ts ts' hle h
      obtain ⟨k, rfl, hk⟩ := hsucc hle
      exact (ih.sequence_succ hk h mode).imp hstrict
    case compound =>
      intro fuel' s s' ts ts' hle hs h
      obtain ⟨k, rfl, hk⟩ := hsucc hle
      exact (ih.compound_succ hk h hs).imp hstrict
    case bindings =>
      intro fuel' ts ts' hle h
      obtain ⟨k, rfl, hk⟩ := hsucc hle
      exact (ih.bindings_succ hk h).imp hstrict
    case clauses =>
      intro fuel' ts ts' hle h
      obtain ⟨k, rfl, hk⟩ := hsucc hle
      exact (ih.clauses_succ hk h).imp hstrict
    case condition =>
      intro fuel' ts ts' hle h
      obtain ⟨k, rfl, hk⟩ := hsucc hle
      exact (ih.condition_succ hk h).imp hstrict

/-! ### Programs -/

/-- Each form uses up fuel, and so does the end of the text. -/
theorem length_lt_of_program {fuel : Nat} {ts : List Token} {forms : List Form} (h : program fuel ts = .ok forms) :
    forms.length < fuel := by
  induction fuel generalizing ts forms with
  | zero => cases h
  | succ fuel ih =>
    unfold program at h
    split at h
    · cases h
      exact Nat.succ_pos fuel
    · obtain ⟨⟨f, rest⟩, -, h⟩ := Except.bind_eq_ok.mp h
      obtain ⟨fs, hfs, h⟩ := Except.bind_eq_ok.mp h
      cases h
      exact Nat.succ_lt_succ (ih hfs)

theorem program_of_atEnd {fuel : Nat} {ts : List Token} (h : AtEnd ts) : program (fuel + 1) ts = .ok [] := if_pos h

/-- **A program is read again**, and then what comes in the place of its end. -/
theorem program_follows {fuel extra : Nat} {ts ts' : List Token} {forms : List Form} (h : Follows κ more ends ts ts')
    (hforms : program fuel ts = .ok forms) (hextra : fuel ≤ extra + forms.length) : ∃ forms', CorrespondAll κ forms forms' ∧
      program (extra + forms.length) ts' = (program extra more).map (forms' ++ ·) := by
  induction fuel generalizing ts ts' forms with
  | zero => cases hforms
  | succ fuel ih =>
    unfold program at hforms
    split at hforms
    · next hend =>
      cases hforms
      refine ⟨[], .nil, ?_⟩
      rw [h.eq_of_atEnd hend, List.length_nil, Nat.add_zero]
      cases program extra more <;> rfl
    · next hend =>
      obtain ⟨⟨f, rest⟩, hf, hforms⟩ := Except.bind_eq_ok.mp hforms
      obtain ⟨fs, hfs, hforms⟩ := Except.bind_eq_ok.mp hforms
      cases hforms
      rw [List.length_cons] at hextra
      have hfuel : fuel ≤ extra + fs.length := by omega
      obtain ⟨g, rest', hg, hfg, hrest⟩ := ((sameAt fuel).expr hfuel h).read f rest hf
      obtain ⟨gs, hfgs, hgs⟩ := ih hrest hfs hfuel
      refine ⟨g :: gs, .cons hfg hfgs, ?_⟩
      rw [List.length_cons, ← Nat.add_assoc, program, h.nextKind hend, if_neg hend, hg]
      dsimp only [bind, Except.bind]
      rw [hgs]
      cases program extra more <;> rfl

/-- **A program that is not read** is not read from tokens that compare either, for the same reason. -/
theorem program_fault_follows {fuel : Nat} {ts ts' : List Token} {e : ParseError} (h : Follows κ more ends ts ts')
    (hends : ends) (he : program fuel ts = .error e) :
    ∃ e', program fuel ts' = .error e' ∧ κ.SameFault e e' := by
  induction fuel generalizing ts ts' with
  | zero =>
    cases he
    exact ⟨_, rfl, .unexpectedEnd⟩
  | succ fuel ih =>
    unfold program at he ⊢
    split at he
    · cases he
    · next hend =>
      rw [h.nextKind hend, if_neg hend]
      have hagain : Again κ more ends (ends ∧ fuel = fuel) _ (expr fuel .code ts) (expr fuel .code ts') :=
        (sameAt fuel).expr (Nat.le_refl fuel) h
      rcases Except.bind_eq_error.mp he with hf | ⟨⟨f, rest⟩, hf, he⟩
      · obtain ⟨e', he', hsame⟩ := hagain.fault ⟨hends, rfl⟩ e hf
        exact ⟨e', Except.bind_eq_error.mpr (.inl he'), hsame⟩
      · obtain ⟨g, rest', hg, -, hrest⟩ := hagain.read f rest hf
        rcases Except.bind_eq_error.mp he with hothers | ⟨_, -, hpure⟩
        · obtain ⟨e', he', hsame⟩ := ih hrest hothers
          refine ⟨e', Except.bind_eq_error.mpr (.inr ⟨_, hg, ?_⟩), hsame⟩
          exact Except.bind_eq_error.mpr (.inl he')
        · cases hpure

end Grammar

end SchemeMachine
