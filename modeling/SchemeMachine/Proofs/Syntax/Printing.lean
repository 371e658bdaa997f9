import SchemeMachine.Proofs.Number.Text
import SchemeMachine.Proofs.Syntax.Declaration
import SchemeMachine.Proofs.Syntax.Wording

/-!
# A program that is printed is read as itself

A tree is printed in core forms: `let`, `cond` and the short form of `define` are gone from it, quotes are dropped inside
quoted data, and numbers and strings are shown as a reader writes them. The text that comes out is read as the same tree
again, as long as nothing in it looks like what it is not.

* `Form.Printable` says what may go wrong. A number may be infinite, a string may hold a character with an escape that is
  not known, a keyword may be the name of a procedure, a hole may stand outside a template, and a word such as `lambda`
  may come to the head of an application as the value of an `else` clause.
* `Child.Same` says that two trees hold the same syntax under different handles.
* `Form.readable_sketch` and `Term.text_reread` say that what is printed can be read, and is printed the same again.
* `Tree.parse_renderProgram` puts them together for a program.
-/

namespace SchemeMachine

open Grammar (Mode reserved)
open Token (IsSymbol Reads)

/-! ### The same syntax in two trees -/

/-- **Two trees have the same below two of their children**: the same lambdas with the same parameters, the same
applications with the same quotation, strings with the same content, and atoms that are the same. -/
inductive Child.Same (t t' : Tree) : Child → Child → Prop
  | atom {a b : Atom} (h : a.same b = true) : Same t t' (.atom a) (.atom b)
  | string {h h' : Handle} {parent parent' : Option Handle} {content : String}
      (hnode : t.get? h = some (.string parent content)) (hnode' : t'.get? h' = some (.string parent' content)) :
      Same t t' (.node h) (.node h')
  | lambda {h h' : Handle} {parent parent' : Option Handle} {parameters : List String} {body body' : List Child}
      (hnode : t.get? h = some (.lambda parent parameters body))
      (hnode' : t'.get? h' = some (.lambda parent' parameters body')) (hbody : List.Forall₂ (Same t t') body body') :
      Same t t' (.node h) (.node h')
  | application {h h' : Handle} {parent parent' : Option Handle} {quotation : Quotation} {items items' : List Child}
      (hnode : t.get? h = some (.application parent quotation items))
      (hnode' : t'.get? h' = some (.application parent' quotation items'))
      (hitems : List.Forall₂ (Same t t') items items') : Same t t' (.node h) (.node h')

namespace Form

/-! ### Forms that can be printed -/

/-- **What comes to the head of an application was written there**, if it is a word that starts a form of its own. -/
def HeadWritten (items : List Form) : Prop :=
  ∀ f ∈ items.head?, ∀ word ∈ reserved, f.sketch = .atom (.keyword word) → f = .atom (.keyword word)

mutual

/-- **A form that can be printed** where it is read in a mode. A clause after an `else` clause is not printed at all. -/
def Printable (mode : Mode) : Form → Prop
  | .atom a =>
    match a with
    | .number x => Number.IsFinite x
    | _ => True
  | .string _ content => Text.Survives content
  | .group quotation _ items =>
    match quotation with
    | .code => HeadWritten items ∧ PrintableAll .code items
    | .quote => PrintableAll (Term.quotedMode mode) items
    | .quasiquote => PrintableAll .template items
    | .unquote => mode = .template ∧ PrintableAll .code items
  | .lambda _ _ body => PrintableAll .code body
  | .procedure _ _ name _ body => isKeyword name = false ∧ PrintableAll .code body
  | .letIn _ _ name _ initials body =>
    (∀ n ∈ name, isKeyword n = false) ∧ PrintableAll .code initials ∧ PrintableAll .code body
  | .clause _ test body rest => PrintableOption test ∧ PrintableAll .code body ∧ (test.isSome → PrintableOption rest)

/-- Several forms that can be printed. -/
def PrintableAll (mode : Mode) : List Form → Prop
  | [] => True
  | f :: fs => Printable mode f ∧ PrintableAll mode fs

/-- A form that may be missing and can be printed. -/
def PrintableOption : Option Form → Prop
  | none => True
  | some f => Printable .code f

end

theorem nodup_distinct (names : List String) : (distinct names).Nodup :=
  Tree.Made.nodup_addNames List.nodup_nil names

/-- The head of an application that can be printed. -/
theorem headed_sketchAll {items : List Form} (hhead : HeadSpelt items) (hwritten : HeadWritten items) :
    Term.Headed (sketchAll items) := by
  cases items with
  | nil => trivial
  | cons f fs =>
    simp only [sketchAll, Term.Headed]
    split
    · next word rest heq =>
      obtain ⟨hsketch, rfl⟩ := List.cons.inj heq
      by_cases hreserved : word ∈ reserved
      · obtain rfl := hwritten f rfl word hreserved hsketch
        obtain ⟨hlambda, hlet, hcond, hquote, hdefine⟩ := hhead
        refine ⟨hlambda, hlet, hcond, hquote, fun heq x hx => ?_⟩
        rw [sketchAll_eq, List.head?_map] at hx
        obtain ⟨g, hg, rfl⟩ := Option.map_eq_some_iff.mp hx
        exact hdefine heq g hg
      · have hne : ∀ w ∈ reserved, word ≠ w := fun w hw heq => hreserved (heq ▸ hw)
        exact ⟨hne _ (by decide), hne _ (by decide), hne _ (by decide), hne _ (by decide),
          fun heq => absurd heq (hne _ (by decide))⟩
    · trivial

theorem Mode.eq_code_of_layer {mode : Mode} (h : mode.layer = .code) : mode = .code := by
  cases mode with
  | code => rfl
  | quoted => cases h
  | template => cases h

theorem readable_sketchSequence {body : List Term} (h : Term.ReadableAll .code body) :
    (sketchSequence body).Readable .code := by
  unfold sketchSequence
  split
  · exact h.1
  · exact ⟨rfl, ⟨by decide, by decide, by decide, by decide, nofun⟩, ⟨rfl, rfl⟩, h⟩

theorem readable_keyword {word : String} (h : isKeyword word = true) : (Term.atom (.keyword word)).Readable .code := ⟨rfl, h⟩

theorem sketchAll_ne_nil {fs : List Form} (h : fs ≠ []) : sketchAll fs ≠ [] := by
  rw [sketchAll_eq]
  exact fun heq => h (List.map_eq_nil_iff.mp heq)

theorem readable_lambda {parameters : List String} {body : List Form} (hparameters : ∀ p ∈ parameters, IsSymbol p)
    (hne : body ≠ []) (hbody : Term.ReadableAll .code (sketchAll body)) :
    (Term.lambda 0 (distinct parameters) (sketchAll body)).Readable .code :=
  ⟨rfl, nodup_distinct parameters, fun p hp => hparameters p (mem_of_mem_distinct hp), sketchAll_ne_nil hne, hbody⟩

/-- The definition of a name by a lambda. -/
theorem readable_define {name : String} {x : Term} (hsymbol : IsSymbol name) (hkeyword : isKeyword name = false)
    (hx : x.Readable .code) :
    (Term.application 0 .code [.atom (.keyword "define"), .atom (.variable name), x]).Readable .code := by
  refine ⟨rfl, ⟨by decide, by decide, by decide, by decide, fun _ y hy => ?_⟩, readable_keyword rfl,
    ⟨rfl, hsymbol, hkeyword⟩, hx, trivial⟩
  cases hy
  rfl

mutual

/-- **The sketch of a form that can be printed can be read again.** -/
theorem readable_sketch : (f : Form) → (mode : Mode) → f.Legal mode.layer → f.Spelt IsSymbol → f.Printable mode →
    f.sketch.Readable mode
  | .atom a, mode, hlegal, hspelt, hprintable => by
    -- an atom that is no datum stands in code only
    have hcode : a.isDatum = false → mode = .code := by
      intro hdatum
      rcases hlegal with h | h
      · exact Mode.eq_code_of_layer h
      · rw [hdatum] at h
        cases h
    cases a with
    | number x => exact hprintable
    | boolean b => trivial
    | symbol s => exact hspelt
    | «variable» v => exact ⟨hcode rfl, hspelt⟩
    | keyword k => exact ⟨hcode rfl, hspelt⟩
  | .string _ _, _, _, _, _ => trivial
  | .group quotation _ items, mode, hlegal, hspelt, hprintable => by
    cases quotation with
    | code =>
      exact ⟨Mode.eq_code_of_layer hlegal.1, headed_sketchAll (hspelt.1 rfl) hprintable.1,
        readable_sketchAll items .code hlegal.2 hspelt.2 hprintable.2⟩
    | quote =>
      refine readable_sketchAll items (Term.quotedMode mode) ?_ hspelt.2 hprintable
      cases mode <;> exact hlegal
    | quasiquote =>
      exact ⟨Mode.eq_code_of_layer hlegal.1, readable_sketchAll items .template hlegal.2 hspelt.2 hprintable⟩
    | unquote =>
      refine ⟨hprintable.1, ?_, readable_sketchAll items .code hlegal.2 hspelt.2 hprintable.2⟩
      rw [sketchAll_eq, List.length_map]
      exact hlegal.1
  | .lambda _ parameters body, mode, hlegal, hspelt, hprintable => by
    obtain rfl := Mode.eq_code_of_layer hlegal.1
    exact readable_lambda hspelt.1 hspelt.2.1 (readable_sketchAll body .code hlegal.2 hspelt.2.2 hprintable)
  | .procedure _ _ name parameters body, mode, hlegal, hspelt, hprintable => by
    obtain rfl := Mode.eq_code_of_layer hlegal.1
    obtain ⟨hname, hparameters, hne, hbody⟩ := hspelt
    exact readable_define hname hprintable.1
      (readable_lambda hparameters hne (readable_sketchAll body .code hlegal.2 hbody hprintable.2))
  | .letIn _ _ name names initials body, mode, hlegal, hspelt, hprintable => by
    obtain rfl := Mode.eq_code_of_layer hlegal.1
    obtain ⟨hname, hnames, hinitials, hne, hbody⟩ := hspelt
    have hvalues := readable_sketchAll initials .code hlegal.2.1 hinitials hprintable.2.1
    have hlambda := readable_lambda hnames hne (readable_sketchAll body .code hlegal.2.2 hbody hprintable.2.2)
    cases name with
    | none => exact ⟨rfl, trivial, hlambda, hvalues⟩
    | some name =>
      have hdefine := readable_define (hname name rfl) (hprintable.1 name rfl) hlambda
      refine ⟨rfl, trivial, ⟨rfl, List.nodup_nil, nofun, List.cons_ne_nil _ _, hdefine, ?_, trivial⟩, trivial⟩
      exact ⟨rfl, trivial, ⟨rfl, hname name rfl, hprintable.1 name rfl⟩, hvalues⟩
  | .clause _ test body rest, mode, hlegal, hspelt, hprintable => by
    obtain rfl := Mode.eq_code_of_layer hlegal.1
    have hsequence := readable_sketchSequence (readable_sketchAll body .code hlegal.2.2.1 hspelt.2.1 hprintable.2.1)
    cases test with
    | none => exact hsequence
    | some test =>
      have htest := readable_sketch test .code hlegal.2.1 hspelt.1 hprintable.1
      have hrest : Term.ReadableAll .code (sketchOption rest).toList := by
        cases rest with
        | none => trivial
        | some rest =>
          exact ⟨readable_sketch rest .code hlegal.2.2.2 hspelt.2.2 (hprintable.2.2 rfl), trivial⟩
      exact ⟨rfl, ⟨by decide, by decide, by decide, by decide, nofun⟩, readable_keyword rfl, htest, hsequence, hrest⟩

theorem readable_sketchAll : (fs : List Form) → (mode : Mode) → LegalAll mode.layer fs → SpeltAll IsSymbol fs →
    PrintableAll mode fs → Term.ReadableAll mode (sketchAll fs)
  | [], _, _, _, _ => trivial
  | f :: fs, mode, hlegal, hspelt, hprintable =>
    ⟨readable_sketch f mode hlegal.1 hspelt.1 hprintable.1, readable_sketchAll fs mode hlegal.2 hspelt.2 hprintable.2⟩

end

end Form

namespace Term

/-! ### What comes back -/

mutual

/-- **A term that survives being printed**: its numbers are finite, and its strings survive. -/
def Survives : Term → Prop
  | .atom a =>
    match a with
    | .number x => Number.IsFinite x
    | _ => True
  | .string _ content => Text.Survives content
  | .lambda _ _ body => SurviveAll body
  | .application _ _ items => SurviveAll items

/-- Several terms that survive being printed. -/
def SurviveAll : List Term → Prop
  | [] => True
  | x :: xs => Survives x ∧ SurviveAll xs

end

mutual

theorem survives_blank : (x : Term) → (x.blank.Survives ↔ x.Survives)
  | .atom _ => Iff.rfl
  | .string _ _ => Iff.rfl
  | .lambda _ _ body => surviveAll_blankAll body
  | .application _ _ items => surviveAll_blankAll items

theorem surviveAll_blankAll : (xs : List Term) → (SurviveAll (blankAll xs) ↔ SurviveAll xs)
  | [] => Iff.rfl
  | x :: xs => and_congr (survives_blank x) (surviveAll_blankAll xs)

end

mutual

/-- Handles are not printed. -/
theorem text_blank : (x : Term) → (quoted : Bool) → x.blank.text quoted = x.text quoted
  | .atom _, _ => rfl
  | .string _ _, _ => rfl
  | .lambda _ _ body, _ => by rw [blank, text, text, textAll_blankAll body]
  | .application _ _ items, _ => by rw [blank, text, text, textAll_blankAll items]

theorem textAll_blankAll : (xs : List Term) → (quoted : Bool) → textAll quoted (blankAll xs) = textAll quoted xs
  | [], _ => rfl
  | x :: xs, quoted => by rw [blankAll, textAll, textAll, text_blank x, textAll_blankAll xs]

end

mutual

/-- **What survives is printed the same again.** -/
theorem text_reread : (x : Term) → x.Survives → (quoted : Bool) → x.reread.text quoted = x.text quoted
  | .atom a, h, quoted => by
    cases a with
    | number x => exact Number.display_reread h
    | _ => rfl
  | .string _ content, h, _ => by rw [reread, text, text, Text.Survives.reread h]
  | .lambda _ _ body, h, _ => by rw [reread, text, text, textAll_rereadAll body h]
  | .application _ _ items, h, _ => by rw [reread, text, text, textAll_rereadAll items h]

theorem textAll_rereadAll : (xs : List Term) → SurviveAll xs → (quoted : Bool) →
    textAll quoted (rereadAll xs) = textAll quoted xs
  | [], _, _ => rfl
  | x :: xs, h, quoted => by rw [rereadAll, textAll, textAll, text_reread x h.1, textAll_rereadAll xs h.2]

end

theorem textAll_echoAll {xs : List Term} (h : SurviveAll xs) (quoted : Bool) :
    textAll quoted (echoAll xs) = textAll quoted xs := by
  rw [echoAll, textAll_blankAll, textAll_rereadAll xs h]

mutual

/-- **What survives comes back the same**, wherever the two trees hold it. -/
theorem same_of_echo {t t' : Tree} : (x y : Term) → {parent parent' : Option Handle} → x.Survives → y.blank = x.echo →
    x.Placed t parent → y.Placed t' parent' → Child.Same t' t y.child x.child
  | .atom a, y, _, _, hx, hy, _, _ => by
    cases a with
    | number x =>
      obtain rfl := eq_atom_of_blank hy
      exact .atom (Number.reread_beq hx)
    | boolean b => obtain rfl := eq_atom_of_blank hy; exact .atom (by simp [Atom.same])
    | symbol s => obtain rfl := eq_atom_of_blank hy; exact .atom (by simp [Atom.same])
    | «variable» v => obtain rfl := eq_atom_of_blank hy; exact .atom (by simp [Atom.same])
    | keyword k => obtain rfl := eq_atom_of_blank hy; exact .atom (by simp [Atom.same])
  | .string h content, .string k content', _, _, hx, hy, hp, hp' => by
    obtain rfl : content' = content := by
      simpa [blank, echo, reread, Text.Survives.reread hx] using hy
    exact .string hp' hp
  | .lambda h parameters body, .lambda k parameters' body', _, _, hx, hy, hp, hp' => by
    simp only [blank, echo, reread, Term.lambda.injEq, true_and] at hy
    obtain ⟨rfl, hbody⟩ := hy
    exact .lambda hp'.1 hp.1 (sameAll_of_echoAll body body' hx hbody hp.2 hp'.2)
  | .application h quotation items, .application k quotation' items', _, _, hx, hy, hp, hp' => by
    simp only [blank, echo, reread, Term.application.injEq, true_and] at hy
    obtain ⟨rfl, hitems⟩ := hy
    exact .application hp'.1 hp.1 (sameAll_of_echoAll items items' hx hitems hp.2 hp'.2)

theorem sameAll_of_echoAll {t t' : Tree} : (xs ys : List Term) → {parent parent' : Option Handle} → SurviveAll xs →
    blankAll ys = echoAll xs → PlacedAll t parent xs → PlacedAll t' parent' ys →
    List.Forall₂ (Child.Same t' t) (ys.map child) (xs.map child)
  | [], [], _, _, _, _, _, _ => .nil
  | x :: xs, y :: ys, _, _, hx, hy, hp, hp' => by
    obtain ⟨hfirst, hothers⟩ := List.cons.inj hy
    exact .cons (same_of_echo x y hx.1 hfirst hp.1 hp'.1) (sameAll_of_echoAll xs ys hx.2 hothers hp.2 hp'.2)

end

mutual

theorem rename_self {M : Handle} : (x : Term) → x.rename (fun _ => id) M = x
  | .atom a => by cases a <;> rfl
  | .string _ _ => rfl
  | .lambda _ _ body => by rw [rename, renameAll_self body, List.map_id]
  | .application _ _ items => by rw [rename, renameAll_self items]

theorem renameAll_self {M : Handle} : (xs : List Term) → renameAll (fun _ => id) M xs = xs
  | [] => rfl
  | x :: xs => by rw [renameAll, rename_self x, renameAll_self xs]

end

/-- Terms that are written on lines of their own. -/
theorem reads_intercalate {xs : List Term} (hxs : ReadableAll .code xs) :
    Reads (String.intercalate "\n" (textAll false xs)).toList (kindsAll false xs ++ [.endOfText]) := by
  induction xs with
  | nil => simpa [textAll, kindsAll] using Reads.nil
  | cons x xs ih =>
    cases xs with
    | nil =>
      have hlast : Reads ((x.text false).toList ++ []) (x.kinds false ++ [.endOfText]) :=
        spells_text x hxs.1 [] _ nofun Reads.nil
      simpa [textAll, kindsAll] using hlast
    | cons y ys =>
      have hline : Reads ((x.text false).toList ++ '\n' :: (String.intercalate "\n" (textAll false (y :: ys))).toList)
          (x.kinds false ++ (kindsAll false (y :: ys) ++ [.endOfText])) :=
        spells_text x hxs.1 _ _ (fun c hc => by cases hc; rfl) (ih hxs.2).newline
      rw [kindsAll, List.append_assoc]
      simpa [textAll, String.intercalate_cons_cons] using hline

end Term

namespace Form

theorem survives_sketchSequence {body : List Term} (h : Term.SurviveAll body) : (sketchSequence body).Survives := by
  unfold sketchSequence
  split
  · exact h.1
  · exact ⟨trivial, h⟩

mutual

theorem survives_sketch : (f : Form) → {mode : Mode} → f.Printable mode → f.sketch.Survives
  | .atom a, _, h => by
    cases a with
    | number x => exact h
    | _ => trivial
  | .string _ _, _, h => h
  | .group quotation _ items, _, h => by
    cases quotation with
    | code => exact survives_sketchAll items h.2
    | quote => exact survives_sketchAll items h
    | quasiquote => exact survives_sketchAll items h
    | unquote => exact survives_sketchAll items h.2
  | .lambda _ _ body, _, h => survives_sketchAll body h
  | .procedure _ _ _ _ body, _, h => ⟨trivial, trivial, survives_sketchAll body h.2, trivial⟩
  | .letIn _ _ name _ initials body, _, h => by
    have hinitials := survives_sketchAll initials h.2.1
    have hbody := survives_sketchAll body h.2.2
    cases name with
    | none => exact ⟨hbody, hinitials⟩
    | some name => exact ⟨⟨⟨trivial, trivial, hbody, trivial⟩, ⟨trivial, hinitials⟩, trivial⟩, trivial⟩
  | .clause _ test body rest, _, h => by
    have hsequence := survives_sketchSequence (survives_sketchAll body h.2.1)
    cases test with
    | none => exact hsequence
    | some test =>
      refine ⟨trivial, survives_sketch test h.1, hsequence, ?_⟩
      cases rest with
      | none => trivial
      | some rest => exact ⟨survives_sketch rest (h.2.2 rfl), trivial⟩

theorem survives_sketchAll : (fs : List Form) → {mode : Mode} → PrintableAll mode fs → Term.SurviveAll (sketchAll fs)
  | [], _, _ => trivial
  | f :: fs, _, h => ⟨survives_sketch f h.1, survives_sketchAll fs h.2⟩

end

end Form

namespace Tree

open Term

/-- **A program is printed as its terms**, one to a line, with its variables named by `nameOf`. -/
theorem Holds.renderProgram_rename {t : Tree} {body strays : List Term} (h : t.Holds (.lambda Tree.top [] body :: strays))
    (nameOf : String → String) :
    t.renderProgram nameOf = String.intercalate "\n" (textAll false (renameAll (fun _ => nameOf) Tree.top body)) := by
  have hsize := h.handles.length_eq
  simp only [handlesAll, Term.handles, List.length_append, List.length_cons, List.length_range] at hsize
  have hitems := renderNode_eq_all nameOf Tree.top body h.placed.1.2 false (t.size + 1) (by omega)
  rw [renderProgram, ← hitems, bodyOf, h.placed.1.1]
  refine congrArg (String.intercalate "\n") (List.map_congr_left fun c _ => ?_)
  cases c <;> rfl

theorem Holds.renderProgram_eq {t : Tree} {body strays : List Term} (h : t.Holds (.lambda Tree.top [] body :: strays)) :
    t.renderProgram id = String.intercalate "\n" (textAll false body) := by
  rw [h.renderProgram_rename, renameAll_self]

/-- **Printing and parsing are inverse.** A program that can be printed is read again as the same syntax under other
handles, and printed the same again. -/
theorem parse_renderProgram {source : String} {tokens : List Token} {forms : List Form}
    (hscan : Token.scan source = .ok tokens) (hparse : Form.parse tokens = .ok forms)
    (hprintable : Form.PrintableAll .code forms) :
    ∃ t', parse ((ofForms forms).renderProgram id) = .ok t' ∧
      List.Forall₂ (Child.Same t' (ofForms forms)) (t'.bodyOf top) ((ofForms forms).bodyOf top) ∧
      t'.renderProgram id = (ofForms forms).renderProgram id := by
  have hlegal := Form.legal_parse hparse
  -- the terms that the forms become can be read, and stay the same when read
  obtain ⟨body, strays, hholds, hbecome, -⟩ := holds_ofForms hlegal
  have hreadable : ReadableAll .code body := by
    rw [← readableAll_blankAll, hbecome.sketch]
    exact Form.readable_sketchAll forms .code hlegal (Form.spelt_parse hscan hparse) hprintable
  have hsurvive : SurviveAll body := by
    rw [← surviveAll_blankAll, hbecome.sketch]
    exact Form.survives_sketchAll forms hprintable
  -- so what is printed is read as those terms, but for their handles
  have hreads := reads_intercalate hreadable
  rw [← hholds.renderProgram_eq] at hreads
  obtain ⟨t', body', hparse', hholds', hblank, -⟩ := parse_spelled hreadable hreads
  refine ⟨t', hparse', ?_, ?_⟩
  · have hsame := sameAll_of_echoAll body body' hsurvive hblank hholds.placed.1.2 hholds'.placed.1.2
    rwa [bodyOf, bodyOf, hholds'.placed.1.1, hholds.placed.1.1]
  · rw [hholds.renderProgram_eq, hholds'.renderProgram_eq, ← textAll_blankAll, hblank, textAll_echoAll hsurvive]

/-- A choice between a template and a symbol, as it is written. -/
def choiceText : String := "(cond (x `(,x \"\\n\" 0.5)) (else 'b))"

/-- The words of the choice. -/
def choiceTokens : List Token :=
  [⟨.open, 0, 1, 1, 1⟩, ⟨.symbol "cond", 1, 5, 1, 2⟩, ⟨.open, 6, 7, 1, 7⟩, ⟨.symbol "x", 7, 8, 1, 8⟩,
    ⟨.quasiquote, 9, 10, 1, 10⟩, ⟨.open, 10, 11, 1, 11⟩, ⟨.unquote, 11, 12, 1, 12⟩, ⟨.symbol "x", 12, 13, 1, 13⟩,
    ⟨.string "\n", 14, 18, 1, 15⟩, ⟨.number 0.5, 19, 22, 1, 20⟩, ⟨.close, 22, 23, 1, 23⟩, ⟨.close, 23, 24, 1, 24⟩,
    ⟨.open, 25, 26, 1, 26⟩, ⟨.symbol "else", 26, 30, 1, 27⟩, ⟨.quote, 31, 32, 1, 32⟩, ⟨.symbol "b", 32, 33, 1, 33⟩,
    ⟨.close, 33, 34, 1, 34⟩, ⟨.close, 34, 35, 1, 35⟩, ⟨.endOfText, 35, 35, 1, 36⟩]

/-- The form that the choice is read as. -/
def choiceForms : List Form :=
  [.clause ⟨6, 7, 1, 7⟩ (some (.atom (.variable "x")))
    [.group .quasiquote ⟨9, 23, 1, 11⟩ [.group .unquote ⟨11, 12, 1, 12⟩ [.atom (.variable "x")],
      .string ⟨14, 18, 1, 15⟩ "\n", .atom (.number 0.5)]]
    (some (.clause ⟨25, 26, 1, 26⟩ none [.atom (.symbol "b")] none))]

/-- A template with a hole, a string with an escape and a fraction, in a `cond`. -/
theorem parse_renderProgram_choice :
    ∃ t', parse ((ofForms choiceForms).renderProgram id) = .ok t' ∧
      List.Forall₂ (Child.Same t' (ofForms choiceForms)) (t'.bodyOf top) ((ofForms choiceForms).bodyOf top) ∧
      t'.renderProgram id = (ofForms choiceForms).renderProgram id := by
  have hscan : Token.scan choiceText = .ok choiceTokens := by decide +kernel
  have hfinite : Number.IsFinite 0.5 := by
    have hvalue : Binary.ofFloat 0.5 = .finite false 4503599627370496 (-53) := by decide
    exact ⟨_, _, _, hvalue⟩
  have hsurvives : ∀ c ∈ "\n".toList, Text.rereadChar c = [c] := by decide
  exact parse_renderProgram hscan rfl
    ⟨⟨trivial, ⟨⟨⟨rfl, trivial, trivial⟩, hsurvives, hfinite, trivial⟩, trivial⟩,
      fun _ => ⟨trivial, ⟨trivial, trivial⟩, fun h => by cases h⟩⟩, trivial⟩

/-- **A word can come to the head of an application that starts a form of its own.** The value of the `else` clause is the
word `lambda`; printed, the application is a lambda. -/
theorem renderProgram_else :
    ∃ t t', parse "((cond (else lambda)) (x) x)" = .ok t ∧ parse (t.renderProgram id) = .ok t' ∧
      ¬List.Forall₂ (Child.Same t' t) (t'.bodyOf top) (t.bodyOf top) := by
  have hall : (parse "((cond (else lambda)) (x) x)").toOption.map (fun t =>
      (t.bodyOf top, t.get? 1, (parse (t.renderProgram id)).toOption.map fun t' => (t'.bodyOf top, t'.get? 1))) =
      some ([.node 1], some (.application (some 0) .code [.atom (.keyword "lambda"), .node 2, .atom (.variable "x")]),
        some ([.node 1], some (.lambda (some 0) ["x"] [.atom (.variable "x")]))) := by
    decide +kernel
  have hread : ∀ {source : String} {t : Tree}, (parse source).toOption = some t → parse source = .ok t := by
    intro source t h
    cases hparse : parse source with
    | error e => rw [hparse] at h; cases h
    | ok t => rw [hparse] at h; cases h; rfl
  obtain ⟨t, ht, hall⟩ := Option.map_eq_some_iff.mp hall
  simp only [Prod.mk.injEq] at hall
  obtain ⟨hbody, hnode, hprinted⟩ := hall
  obtain ⟨t', ht', hall⟩ := Option.map_eq_some_iff.mp hprinted
  simp only [Prod.mk.injEq] at hall
  obtain ⟨hbody', hnode'⟩ := hall
  refine ⟨t, t', hread ht, hread ht', ?_⟩
  rw [hbody, hbody']
  rintro (_ | ⟨hsame, -⟩)
  cases hsame with
  | string h h' => cases hnode'.symm.trans h
  | lambda h h' => cases hnode.symm.trans h'
  | application h h' => cases hnode'.symm.trans h

end Tree

end SchemeMachine
