import SchemeMachine.Proofs.Syntax.Analysis
import SchemeMachine.Proofs.Syntax.Spelling

/-!
# What is written can be read again

The parser gives back the syntax that was written: from the tokens of a readable term it makes a form with the sketch of
the term. Numbers and strings come back as they were shown, which `Term.echo` takes into account.

* `Term.reread` is a term that has been written and read again, `Term.echo` its sketch.
* `Grammar.expr_kinds` reads one term off the front of some tokens, `Grammar.sequence_kinds` several up to a closing
  parenthesis. Four steps for each token are enough.
* `Tree.parse_spelled` is the result for a program: the tree that is read holds the terms that were written, under new
  handles.
-/

namespace SchemeMachine

open Grammar (Mode)
open Token (Kind)

namespace Term

mutual

/-- **A term that has been written and read again**: numbers and strings are what they are read as. -/
def reread : Term → Term
  | .atom a =>
    match a with
    | .number x => .atom (.number (Number.reread x))
    | other => .atom other
  | .string h content => .string h (Text.reread content)
  | .lambda h parameters body => .lambda h parameters (rereadAll body)
  | .application h quotation items => .application h quotation (rereadAll items)

/-- Several terms that have been written and read again. -/
def rereadAll : List Term → List Term
  | [] => []
  | x :: xs => reread x :: rereadAll xs

end

theorem rereadAll_eq (xs : List Term) : rereadAll xs = xs.map reread := by
  induction xs with
  | nil => rfl
  | cons x xs ih => rw [rereadAll, ih, List.map_cons]

@[simp] theorem rereadAll_append (xs ys : List Term) : rereadAll (xs ++ ys) = rereadAll xs ++ rereadAll ys := by
  simp only [rereadAll_eq, List.map_append]

mutual

@[simp] theorem handles_reread : (x : Term) → x.reread.handles = x.handles
  | .atom a => by cases a <;> rfl
  | .string _ _ => rfl
  | .lambda h _ body => by rw [reread, handles, handles, handlesAll_rereadAll body]
  | .application h _ items => by rw [reread, handles, handles, handlesAll_rereadAll items]

@[simp] theorem handlesAll_rereadAll : (xs : List Term) → handlesAll (rereadAll xs) = handlesAll xs
  | [] => rfl
  | x :: xs => by rw [rereadAll, handlesAll, handlesAll, handles_reread x, handlesAll_rereadAll xs]

end

/-- The sketch of a term that has been written and read again. -/
def echo (x : Term) : Term := x.reread.blank

/-- The sketches of several terms that have been written and read again. -/
def echoAll (xs : List Term) : List Term := blankAll (rereadAll xs)

theorem echoAll_cons (x : Term) (xs : List Term) : echoAll (x :: xs) = x.echo :: echoAll xs := rfl

@[simp] theorem echoAll_append (xs ys : List Term) : echoAll (xs ++ ys) = echoAll xs ++ echoAll ys := by
  simp only [echoAll, rereadAll_append, blankAll_append]

/-- What is written begins with a token of its own. -/
theorem exists_kinds (x : Term) (quoted : Bool) :
    ∃ kind others, x.kinds quoted = kind :: others ∧ kind ≠ .close ∧ kind ≠ .endOfText := by
  cases x with
  | atom a =>
    cases a with
    | symbol s => cases quoted <;> exact ⟨_, _, rfl, nofun, nofun⟩
    | _ => exact ⟨_, _, rfl, nofun, nofun⟩
  | string h content => exact ⟨_, _, rfl, nofun, nofun⟩
  | lambda h parameters body => exact ⟨_, _, rfl, nofun, nofun⟩
  | application h quotation items =>
    cases quotation with
    | quote => cases quoted <;> exact ⟨_, _, rfl, nofun, nofun⟩
    | _ => exact ⟨_, _, rfl, nofun, nofun⟩

end Term

namespace Form

/-- Different names are taken on as they are. -/
theorem distinct_eq {names : List String} (h : names.Nodup) : distinct names = names := by
  have hfold : ∀ seen : List String, (seen ++ names).Nodup →
      names.foldl (fun seen name => if name ∈ seen then seen else seen ++ [name]) seen = seen ++ names := by
    clear h
    induction names with
    | nil => exact fun seen _ => (List.append_nil seen).symm
    | cons name names ih =>
      intro seen hnodup
      have hnew : name ∉ seen := fun hmem =>
        (List.nodup_append.mp hnodup).2.2 name hmem name List.mem_cons_self rfl
      rw [List.append_cons] at hnodup
      rw [List.foldl_cons, if_neg hnew, ih _ hnodup, ← List.append_cons]
  exact hfold [] h

end Form

namespace Grammar

open Term (isQuotedMode quotedMode Readable ReadableAll Headed)

variable {ts : List Token} {more : List Kind}

/-- The first of some tokens whose kinds are known. -/
theorem exists_token {kind : Kind} {others : List Kind} (h : ts.map (·.kind) = kind :: others) :
    ∃ span rest, ts = ⟨kind, span⟩ :: rest ∧ rest.map (·.kind) = others := by
  cases ts with
  | nil => cases h
  | cons t rest =>
    obtain ⟨hkind, hrest⟩ := List.cons.inj h
    obtain ⟨kind', span⟩ := t
    exact ⟨span, rest, by rw [← hkind], hrest⟩

/-- A form in code that starts with no word of its own is an application. -/
theorem compound_eq {fuel : Nat} {s : Span}
    (h : ∀ word ∈ ["lambda", "define", "let", "cond", "quote"], nextSymbol? ts ≠ some word) :
    compound (fuel + 1) s ts = list fuel .code .code s ts := by
  rw [compound]
  split
  · next heq => exact absurd heq (h _ (by decide))
  · next heq => exact absurd heq (h _ (by decide))
  · next heq => exact absurd heq (h _ (by decide))
  · next heq => exact absurd heq (h _ (by decide))
  · next heq => exact absurd heq (h _ (by decide))
  · rfl

theorem nextSymbol?_of_kind {t : Token} {rest : List Token} (h : ∀ name, t.kind ≠ .symbol name) :
    nextSymbol? (t :: rest) = none := by
  simp only [nextSymbol?, nextKind, List.head?_cons, Option.map_some, Option.getD_some]

/-- The head of an application is not read as the start of another form. -/
theorem nextSymbol?_headed {items : List Term} (hheaded : Headed items) (hitems : ReadableAll .code items)
    (hdefine : items.head? ≠ some (.atom (.keyword "define")))
    (hts : ts.map (·.kind) = Term.kindsAll false items ++ .close :: more) :
    ∀ word ∈ ["lambda", "define", "let", "cond", "quote"], nextSymbol? ts ≠ some word := by
  intro word hword
  -- no symbol comes first unless the first item is one
  have hother : ∀ {kind others}, ts.map (·.kind) = kind :: others → (∀ name, kind ≠ .symbol name) →
      nextSymbol? ts ≠ some word := by
    intro kind others hts hkind
    obtain ⟨span, rest, rfl, -⟩ := exists_token hts
    rw [nextSymbol?_of_kind hkind]
    exact nofun
  cases items with
  | nil => exact hother hts nofun
  | cons x xs =>
    have hsymbol : ∀ {name others}, ts.map (·.kind) = .symbol name :: others → name ≠ word →
        nextSymbol? ts ≠ some word := by
      intro name others hts hname
      obtain ⟨span, rest, rfl, -⟩ := exists_token hts
      exact fun heq => hname (Option.some.inj heq)
    cases x with
    | atom a =>
      cases a with
      | number x => exact hother hts nofun
      | boolean b => exact hother hts nofun
      | symbol s => exact hother hts nofun
      | «variable» v =>
        refine hsymbol hts fun heq => ?_
        have hkeyword : ∀ w ∈ ["lambda", "define", "let", "cond", "quote"], isKeyword w = true := by decide
        have hv := hitems.1.2.2
        rw [heq, hkeyword word hword] at hv
        cases hv
      | keyword k =>
        refine hsymbol hts fun heq => ?_
        subst heq
        obtain ⟨hlambda, hlet, hcond, hquote, -⟩ := hheaded
        have hnot : k ≠ "define" := fun heq => hdefine (by rw [heq]; rfl)
        simp [hlambda, hlet, hcond, hquote, hnot] at hword
    | string h content => exact hother hts nofun
    | lambda h parameters body => exact hother hts nofun
    | application h quotation items => cases quotation <;> exact hother hts nofun

/-- The parameters of a lambda are read up to the closing parenthesis. -/
theorem parameters_kinds {names : List String} (hts : ts.map (·.kind) = names.map .symbol ++ .close :: more) :
    ∃ rest, parameters ts = .ok (names, rest) ∧ rest.map (·.kind) = more := by
  induction names generalizing ts with
  | nil =>
    obtain ⟨span, rest, rfl, hrest⟩ := exists_token hts
    exact ⟨rest, rfl, hrest⟩
  | cons name names ih =>
    obtain ⟨span, rest, rfl, hrest⟩ := exists_token hts
    obtain ⟨rest', hnames, hrest'⟩ := ih hrest
    refine ⟨rest', ?_, hrest'⟩
    rw [parameters, hnames]
    rfl

/-- What reading a term gives: a form with its sketch, and the tokens after it. -/
def Gives (result : Except ParseError (Form × List Token)) (x : Term) (more : List Kind) : Prop :=
  ∃ f rest, result = .ok (f, rest) ∧ rest.map (·.kind) = more ∧ f.sketch = x ∧ f.Plain

/-- What reading several terms up to a closing parenthesis gives. -/
def GivesAll (result : Except ParseError ((List Form × Span) × List Token)) (xs : List Term) (more : List Kind) : Prop :=
  ∃ fs close rest, result = .ok ((fs, close), rest) ∧ rest.map (·.kind) = more ∧ Form.sketchAll fs = xs ∧
    Form.PlainAll fs

/-- A list whose items are read. -/
theorem gives_list {fuel : Nat} {quotation : Quotation} {mode : Mode} {s : Span} {xs : List Term}
    (h : GivesAll (sequence fuel mode ts) xs more) :
    Gives (list (fuel + 1) quotation mode s ts) (.application 0 quotation xs) more := by
  obtain ⟨fs, close, rest, hsequence, hrest, hsketch, hplain⟩ := h
  refine ⟨.group quotation (s.merge close) fs, rest, ?_, hrest, by rw [Form.sketch, hsketch], hplain⟩
  rw [list, hsequence]
  rfl

/-- A form that does not begin with a parenthesis is written without one. -/
theorem nextKind_ne_open {xs : List Term} (hopens : ∀ x ∈ xs.head?, x.opens = false) (hxs : ReadableAll .code xs)
    (hts : ts.map (·.kind) = Term.kindsAll false xs ++ .close :: more) : nextKind ts ≠ .open := by
  have hnext : ∀ {kind others}, ts.map (·.kind) = kind :: others → kind ≠ .open → nextKind ts ≠ .open := by
    intro kind others hts hkind
    obtain ⟨span, rest, rfl, -⟩ := exists_token hts
    exact hkind
  cases xs with
  | nil => exact hnext hts nofun
  | cons x xs =>
    cases x with
    | atom a => cases a <;> exact hnext hts nofun
    | string h content => exact hnext hts nofun
    | lambda h parameters body => cases hopens _ rfl
    | application h quotation items =>
      cases quotation with
      | code => cases hopens _ rfl
      | quote => exact hnext hts nofun
      | quasiquote => exact hnext hts nofun
      | unquote => cases hxs.1.1

/-- A definition whose items are read. -/
theorem gives_define {fuel : Nat} {s : Span} {items : List Term}
    (hdefine : items.head? = some (.atom (.keyword "define"))) (hheaded : Headed items)
    (hitems : ReadableAll .code items) (hts : ts.map (·.kind) = Term.kindsAll false items ++ .close :: more)
    (hread : ∀ xs, items = .atom (.keyword "define") :: xs → ReadableAll .code xs →
      ts.tail.map (·.kind) = Term.kindsAll false xs ++ .close :: more →
      GivesAll (sequence fuel .code ts.tail) (Term.echoAll xs) more) :
    Gives (compound (fuel + 1) s ts) (.application 0 .code (Term.echoAll items)) more := by
  obtain ⟨xs, rfl⟩ := List.head?_eq_some_iff.mp hdefine
  obtain ⟨span, rest, rfl, hrest⟩ := exists_token hts
  obtain ⟨fs, close, rest', hsequence, hrest', hsketch, hplain⟩ := hread xs rfl hitems.2 hrest
  refine ⟨.group .code (s.merge close) (.atom (.keyword "define") :: fs), rest', ?_, hrest', ?_, trivial, hplain⟩
  · have hopen := nextKind_ne_open (hheaded.2.2.2.2 rfl) hitems.2 hrest
    rw [List.tail_cons] at hsequence
    rw [compound]
    simp [nextSymbol?, show nextKind (⟨.symbol "define", span⟩ :: rest) = .symbol "define" from rfl, hopen, hsequence,
      bind, Except.bind, pure, Except.pure]
  · rw [Form.sketch, Form.sketchAll, Form.sketch, hsketch, Term.echoAll_cons]
    rfl

mutual

/-- **A term that was written is read again.** -/
theorem expr_kinds : (x : Term) → {mode : Mode} → {fuel : Nat} → {ts : List Token} → {more : List Kind} →
    x.Readable mode → ts.map (·.kind) = x.kinds (isQuotedMode mode) ++ more → 4 * (x.kinds (isQuotedMode mode)).length ≤ fuel →
    Gives (expr fuel mode ts) x.echo more
  | x, mode, 0, ts, _, _, _, hfuel => by
    obtain ⟨kind, others, hkinds, -, -⟩ := x.exists_kinds (isQuotedMode mode)
    rw [hkinds, List.length_cons] at hfuel
    omega
  | .atom a, mode, fuel + 1, ts, more, h, hts, hfuel => by
    cases a with
    | number x =>
      obtain ⟨span, rest, rfl, hrest⟩ := exists_token hts
      exact ⟨_, rest, rfl, hrest, rfl, trivial⟩
    | boolean b =>
      obtain ⟨span, rest, rfl, hrest⟩ := exists_token hts
      exact ⟨_, rest, rfl, hrest, rfl, trivial⟩
    | symbol s =>
      cases mode with
      | code =>
        obtain ⟨span, rest, rfl, hrest⟩ := exists_token hts
        obtain ⟨span', rest', rfl, hrest'⟩ := exists_token hrest
        obtain ⟨fuel, rfl⟩ : ∃ k, fuel = k + 2 := ⟨fuel - 2, by simp [Term.kinds, isQuotedMode] at hfuel; omega⟩
        exact ⟨_, rest', rfl, hrest', rfl, trivial⟩
      | quoted =>
        obtain ⟨span, rest, rfl, hrest⟩ := exists_token hts
        exact ⟨_, rest, rfl, hrest, rfl, trivial⟩
      | template =>
        obtain ⟨span, rest, rfl, hrest⟩ := exists_token hts
        exact ⟨_, rest, rfl, hrest, rfl, trivial⟩
    | «variable» v =>
      obtain ⟨rfl, -, hkeyword⟩ := h
      obtain ⟨span, rest, rfl, hrest⟩ := exists_token hts
      refine ⟨word .code v, rest, rfl, hrest, ?_, ?_⟩
      · simp [word, hkeyword, Form.sketch, Term.echo, Term.reread, Term.blank]
      · simp [word, Form.Plain]
    | keyword k =>
      obtain ⟨rfl, hkeyword⟩ := h
      obtain ⟨span, rest, rfl, hrest⟩ := exists_token hts
      refine ⟨word .code k, rest, rfl, hrest, ?_, ?_⟩
      · simp [word, hkeyword, Form.sketch, Term.echo, Term.reread, Term.blank]
      · simp [word, Form.Plain]
  | .string k content, mode, fuel + 1, ts, more, h, hts, hfuel => by
    obtain ⟨span, rest, rfl, hrest⟩ := exists_token hts
    exact ⟨_, rest, rfl, hrest, rfl, trivial⟩
  | .lambda k names body, mode, fuel + 1, ts, more, h, hts, hfuel => by
    obtain ⟨rfl, hnodup, -, hne, hbody⟩ := h
    simp only [Term.kinds, List.length_cons, List.length_append, List.length_map, List.length_nil] at hfuel
    obtain ⟨fuel, rfl⟩ : ∃ k, fuel = k + 1 := ⟨fuel - 1, by omega⟩
    simp only [Term.kinds, List.cons_append, List.append_assoc, List.nil_append] at hts
    obtain ⟨span, rest, rfl, hrest⟩ := exists_token hts
    obtain ⟨span₁, rest₁, rfl, hrest₁⟩ := exists_token hrest
    obtain ⟨span₂, rest₂, rfl, hrest₂⟩ := exists_token hrest₁
    obtain ⟨rest₃, hnames, hrest₃⟩ := parameters_kinds hrest₂
    have hsequence : GivesAll (sequence fuel .code rest₃) (Term.echoAll body) more :=
      sequence_kinds body hbody hrest₃ (by simp only [isQuotedMode]; omega)
    obtain ⟨fs, close, rest₄, hread, hrest₄, hsketch, hplain⟩ := hsequence
    have hfull : fs.isEmpty = false := by
      cases fs with
      | nil =>
        cases body with
        | nil => exact absurd rfl hne
        | cons x xs => cases hsketch
      | cons f fs => rfl
    refine ⟨.lambda (span.merge close) names fs, rest₄, ?_, hrest₄, ?_, hplain⟩
    · change compound (fuel + 1) span (⟨.symbol "lambda", span₁⟩ :: ⟨.open, span₂⟩ :: rest₂) = _
      rw [compound]
      simp [nextSymbol?, nextKind, hnames, hread, requireBody, hfull, bind, Except.bind, pure, Except.pure]
    · rw [Form.sketch, Form.distinct_eq hnodup, hsketch]
      rfl
  | .application k quotation items, mode, fuel + 1, ts, more, h, hts, hfuel => by
    -- the items of a list whose tokens end with a closing parenthesis
    have hitems : ∀ {inner : Mode} {quoted : Bool} {fuel' : Nat} {rest : List Token}, ReadableAll inner items →
        isQuotedMode inner = quoted → rest.map (·.kind) = Term.kindsAll quoted items ++ .close :: more →
        4 * (Term.kindsAll quoted items).length < fuel' →
        GivesAll (sequence fuel' inner rest) (Term.echoAll items) more := by
      rintro inner quoted fuel' rest hreadable rfl hrest hlength
      exact sequence_kinds items hreadable hrest hlength
    cases quotation with
    | code =>
      obtain ⟨rfl, hheaded, hreadable⟩ := h
      simp only [Term.kinds, List.length_cons, List.length_append, List.length_nil] at hfuel
      obtain ⟨fuel, rfl⟩ : ∃ k, fuel = k + 2 := ⟨fuel - 2, by omega⟩
      simp only [Term.kinds, List.cons_append, List.append_assoc, List.nil_append] at hts
      obtain ⟨span, rest, rfl, hrest⟩ := exists_token hts
      change Gives (compound (fuel + 2) span rest) _ more
      by_cases hdefine : items.head? = some (.atom (.keyword "define"))
      · exact gives_define hdefine hheaded hreadable hrest fun xs hxs hread hrest' =>
          sequence_kinds xs hread hrest' (by simp [hxs, Term.kindsAll, Term.kinds, isQuotedMode] at hfuel ⊢; omega)
      · rw [compound_eq (nextSymbol?_headed hheaded hreadable hdefine hrest)]
        exact gives_list (hitems hreadable rfl hrest (by simp only [isQuotedMode] at hfuel ⊢; omega))
    | quote =>
      cases mode with
      | code =>
        simp only [Term.kinds, isQuotedMode, Bool.false_eq_true, if_false, List.length_cons, List.length_append,
          List.length_nil] at hfuel
        obtain ⟨fuel, rfl⟩ : ∃ k, fuel = k + 2 := ⟨fuel - 2, by omega⟩
        simp only [Term.kinds, isQuotedMode, Bool.false_eq_true, if_false, List.cons_append, List.append_assoc,
          List.nil_append] at hts
        obtain ⟨span, rest, rfl, hrest⟩ := exists_token hts
        obtain ⟨span₁, rest₁, rfl, hrest₁⟩ := exists_token hrest
        exact gives_list (hitems h (show isQuotedMode _ = true from rfl) hrest₁ (by omega))
      | quoted =>
        simp only [Term.kinds, isQuotedMode, if_true, List.length_cons, List.length_append, List.length_nil] at hfuel
        obtain ⟨fuel, rfl⟩ : ∃ k, fuel = k + 1 := ⟨fuel - 1, by omega⟩
        simp only [Term.kinds, isQuotedMode, if_true, List.cons_append, List.append_assoc, List.nil_append] at hts
        obtain ⟨span, rest, rfl, hrest⟩ := exists_token hts
        exact gives_list (hitems h (show isQuotedMode _ = true from rfl) hrest (by omega))
      | template =>
        simp only [Term.kinds, isQuotedMode, if_true, List.length_cons, List.length_append, List.length_nil] at hfuel
        obtain ⟨fuel, rfl⟩ : ∃ k, fuel = k + 1 := ⟨fuel - 1, by omega⟩
        simp only [Term.kinds, isQuotedMode, if_true, List.cons_append, List.append_assoc, List.nil_append] at hts
        obtain ⟨span, rest, rfl, hrest⟩ := exists_token hts
        exact gives_list (hitems h (show isQuotedMode _ = true from rfl) hrest (by omega))
    | quasiquote =>
      obtain ⟨rfl, hreadable⟩ := h
      simp only [Term.kinds, List.length_cons, List.length_append, List.length_nil] at hfuel
      obtain ⟨fuel, rfl⟩ : ∃ k, fuel = k + 2 := ⟨fuel - 2, by omega⟩
      simp only [Term.kinds, List.cons_append, List.append_assoc, List.nil_append] at hts
      obtain ⟨span, rest, rfl, hrest⟩ := exists_token hts
      obtain ⟨span₁, rest₁, rfl, hrest₁⟩ := exists_token hrest
      exact gives_list (hitems hreadable (show isQuotedMode _ = true from rfl) hrest₁ (by omega))
    | unquote =>
      obtain ⟨rfl, hlength, hreadable⟩ := h
      obtain ⟨x, rfl⟩ := List.length_eq_one_iff.mp hlength
      simp only [Term.kinds, Term.kindsAll, List.append_nil, List.length_cons, List.cons_append] at hfuel hts
      obtain ⟨span, rest, rfl, hrest⟩ := exists_token hts
      have hinner : Gives (expr fuel .code rest) x.echo more :=
        expr_kinds x hreadable.1 hrest (by simp only [isQuotedMode]; omega)
      obtain ⟨f, rest', hread, hrest', hsketch, hplain⟩ := hinner
      refine ⟨.group .unquote span [f], rest', ?_, hrest', ?_, hplain, trivial⟩
      · simp only [expr, hread]
        rfl
      · rw [Form.sketch, Form.sketchAll, Form.sketchAll, hsketch]
        rfl

/-- Terms that were written are read again up to a closing parenthesis. -/
theorem sequence_kinds : (xs : List Term) → {mode : Mode} → {fuel : Nat} → {ts : List Token} → {more : List Kind} →
    ReadableAll mode xs → ts.map (·.kind) = Term.kindsAll (isQuotedMode mode) xs ++ .close :: more →
    4 * (Term.kindsAll (isQuotedMode mode) xs).length < fuel → GivesAll (sequence fuel mode ts) (Term.echoAll xs) more
  | _, _, 0, _, _, _, _, hfuel => absurd hfuel (Nat.not_lt_zero _)
  | [], mode, fuel + 1, ts, _, _, hts, hfuel => by
    obtain ⟨span, rest, rfl, hrest⟩ := exists_token hts
    exact ⟨[], span, rest, rfl, hrest, rfl, trivial⟩
  | x :: xs, mode, fuel + 1, ts, more, h, hts, hfuel => by
    obtain ⟨kind, others, hkinds, hclose, hend⟩ := x.exists_kinds (isQuotedMode mode)
    simp only [Term.kindsAll, List.length_append, List.append_assoc] at hts hfuel
    have hpositive : 0 < (x.kinds (isQuotedMode mode)).length := by
      rw [hkinds]
      exact Nat.succ_pos _
    have hfirst : Gives (expr fuel mode ts) x.echo _ := expr_kinds x h.1 hts (by omega)
    obtain ⟨f, rest, hexpr, hrest, hsketch, hplain⟩ := hfirst
    have hothers : GivesAll (sequence fuel mode rest) (Term.echoAll xs) more := sequence_kinds xs h.2 hrest (by omega)
    obtain ⟨fs, close, rest', hsequence, hrest', hsketches, hplains⟩ := hothers
    refine ⟨f :: fs, close, rest', ?_, hrest', by rw [Form.sketchAll, hsketch, hsketches, Term.echoAll_cons], hplain, hplains⟩
    rw [sequence]
    have hnext : nextKind ts = kind := by
      rw [hkinds] at hts
      obtain ⟨span, tail, rfl, -⟩ := exists_token hts
      rfl
    split
    · next heq => exact absurd (hnext.symm.trans heq) hclose
    · next heq => exact absurd (hnext.symm.trans heq) hend
    · simp only [hexpr, hsequence, bind, Except.bind, pure, Except.pure]

end

/-- Terms that were written are read again up to the end of the text. -/
theorem program_kinds {xs : List Term} {fuel : Nat} {ts : List Token} (h : ReadableAll .code xs)
    (hts : ts.map (·.kind) = Term.kindsAll false xs ++ [.endOfText]) (hfuel : 4 * (Term.kindsAll false xs).length < fuel) :
    ∃ fs, program fuel ts = .ok fs ∧ Form.sketchAll fs = Term.echoAll xs ∧ Form.PlainAll fs := by
  induction xs generalizing ts fuel with
  | nil =>
    obtain ⟨span, rest, rfl, -⟩ := exists_token hts
    obtain ⟨fuel, rfl⟩ : ∃ k, fuel = k + 1 := ⟨fuel - 1, by omega⟩
    exact ⟨[], rfl, rfl, trivial⟩
  | cons x xs ih =>
    obtain ⟨kind, others, hkinds, -, hend⟩ := x.exists_kinds false
    have hpositive : 0 < (x.kinds false).length := by
      rw [hkinds]
      exact Nat.succ_pos _
    simp only [Term.kindsAll, List.length_append, List.append_assoc] at hts hfuel
    obtain ⟨fuel, rfl⟩ : ∃ k, fuel = k + 1 := ⟨fuel - 1, by omega⟩
    have hfirst : Gives (expr fuel .code ts) x.echo _ := expr_kinds x h.1 hts (by simp only [isQuotedMode]; omega)
    obtain ⟨f, rest, hexpr, hrest, hsketch, hplain⟩ := hfirst
    obtain ⟨fs, hprogram, hsketches, hplains⟩ := @ih fuel rest h.2 hrest (by omega)
    refine ⟨f :: fs, ?_, by rw [Form.sketchAll, hsketch, hsketches, Term.echoAll_cons], hplain, hplains⟩
    have hnext : nextKind ts ≠ .endOfText := by
      rw [hkinds] at hts
      obtain ⟨span, tail, rfl, -⟩ := exists_token hts
      exact hend
    rw [program, if_neg hnext]
    simp only [hexpr, hprogram, bind, Except.bind, pure, Except.pure]

end Grammar

/-- **A program that was written is read again**: its forms have the sketches of the terms that were written. -/
theorem Tree.parse_spelled_forms {source : String} {xs : List Term} (hxs : Term.ReadableAll .code xs)
    (h : Token.Reads source.toList (Term.kindsAll false xs ++ [.endOfText])) :
    ∃ forms, Tree.parse source = .ok (ofForms forms) ∧ Form.sketchAll forms = Term.echoAll xs ∧ Form.PlainAll forms ∧
      Form.LegalAll .code forms := by
  obtain ⟨tokens, hscan, hkinds⟩ := h {}
  have hlength : tokens.length = (Term.kindsAll false xs).length + 1 := by
    have hlengths := congrArg List.length hkinds
    simpa using hlengths
  have hfuel : 4 * (Term.kindsAll false xs).length < 4 * tokens.length + 4 := by omega
  obtain ⟨forms, hforms, hsketch, hplain⟩ := Grammar.program_kinds hxs hkinds hfuel
  exact ⟨forms, parse_eq_ok.mpr ⟨tokens, forms, hscan, hforms, rfl⟩, hsketch, hplain, Form.legal_parse hforms⟩

/-- The tree of a program that was written holds the terms that were written, and nothing else. -/
theorem Tree.parse_spelled {source : String} {xs : List Term} (hxs : Term.ReadableAll .code xs)
    (h : Token.Reads source.toList (Term.kindsAll false xs ++ [.endOfText])) :
    ∃ t body, Tree.parse source = .ok t ∧ t.Holds [.lambda Tree.top [] body] ∧ Term.blankAll body = Term.echoAll xs ∧
      t.analysed = false := by
  obtain ⟨forms, hparse, hsketch, hplain, hlegal⟩ := parse_spelled_forms hxs h
  obtain ⟨body, strays, hholds, hbecome, hanalysed⟩ := holds_ofForms hlegal
  obtain rfl := hbecome.trim (Form.PlainAll.trimAll forms hplain)
  exact ⟨ofForms forms, body, hparse, hholds, hbecome.sketch.trans hsketch, hanalysed⟩

end SchemeMachine
