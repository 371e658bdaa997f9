import SchemeMachine.Grammar
import SchemeMachine.Proofs.Syntax.Lexing
import SchemeMachine.Proofs.Syntax.Scope

/-!
# What a written term is read as

A node is written as source text from the term that stands under its handle. Which tokens come back when the text is
read again can be told from the term, as long as its numbers are finite and its words are words.

* `Term.text` is the text of a term; `Tree.renderNode` writes that of the term under a handle (`Term.renderNode_eq`).
* `Term.Readable` says of a term that what it is written as can be read again, as code, as quoted data or in a template.
* `Term.kinds` are the tokens of the text, `Term.spells_text` is the proof.
-/

namespace SchemeMachine

open Grammar (Mode)
open Token (Kind Reads Delimits IsSymbol)

namespace Term

/-! ### The text of a term -/

mutual

/-- **A term as source text**, inside quoted data or not. -/
def text (quoted : Bool) : Term → String
  | .atom a => a.render id quoted
  | .string _ content => Text.quote content
  | .lambda _ parameters body =>
    "(lambda (" ++ String.intercalate " " parameters ++ ") " ++ String.intercalate " " (textAll false body) ++ ")"
  | .application _ quotation items =>
    Tree.wrap quotation quoted (textAll (Tree.quotesInside quotation quoted) items)

/-- The texts of several terms. -/
def textAll (quoted : Bool) : List Term → List String
  | [] => []
  | x :: xs => text quoted x :: textAll quoted xs

end

/-- Write a child, to a depth of `fuel` nodes. -/
def renderItem (t : Tree) (nameOf : String → String) (fuel : Nat) (quoted : Bool) : Child → String
  | .node h => t.renderNode nameOf fuel quoted h
  | .atom a => a.render nameOf quoted

theorem Atom.render_rename (nameOf : String → String) (M : Handle) (quoted : Bool) (a : Atom) :
    a.render nameOf quoted = ((Term.atom a).rename (fun _ => nameOf) M).text quoted := by
  cases a <;> rfl

mutual

/-- **A node is written as the term under its handle**, its variables named by `nameOf`. -/
theorem renderNode_eq {t : Tree} (nameOf : String → String) (M : Handle) :
    (x : Term) → {parent : Option Handle} → x.Placed t parent → (quoted : Bool) → (fuel : Nat) →
      x.handles.length ≤ fuel → renderItem t nameOf fuel quoted x.child = (x.rename (fun _ => nameOf) M).text quoted
  | .atom a, _, _, quoted, _, _ => Atom.render_rename nameOf M quoted a
  | .string h content, _, hp, quoted, 0, hf => by simp [handles] at hf
  | .string h content, _, hp, quoted, fuel + 1, _ => by
    simp only [Placed] at hp
    simp only [child, renderItem, Tree.renderNode, hp, rename, text]
  | .lambda h parameters body, _, hp, quoted, 0, hf => by simp [handles] at hf
  | .lambda h parameters body, _, hp, quoted, fuel + 1, hf => by
    simp only [handles, List.length_cons] at hf
    have hbody := renderNode_eq_all nameOf h body hp.2 false fuel (by omega)
    simp only [child, renderItem, Tree.renderNode, hp.1, rename, text]
    rw [← hbody]
    rfl
  | .application h quotation items, _, hp, quoted, 0, hf => by simp [handles] at hf
  | .application h quotation items, _, hp, quoted, fuel + 1, hf => by
    simp only [handles, List.length_cons] at hf
    have hitems := renderNode_eq_all nameOf M items hp.2 (Tree.quotesInside quotation quoted) fuel (by omega)
    simp only [child, renderItem, Tree.renderNode, hp.1, rename, text]
    rw [← hitems]
    rfl

theorem renderNode_eq_all {t : Tree} (nameOf : String → String) (M : Handle) :
    (xs : List Term) → {parent : Option Handle} → PlacedAll t parent xs → (quoted : Bool) → (fuel : Nat) →
      (handlesAll xs).length ≤ fuel →
      (xs.map child).map (renderItem t nameOf fuel quoted) = textAll quoted (renameAll (fun _ => nameOf) M xs)
  | [], _, _, _, _, _ => rfl
  | x :: xs, _, hp, quoted, fuel, hf => by
    simp only [handlesAll, List.length_append] at hf
    rw [List.map_cons, List.map_cons, renderNode_eq nameOf M x hp.1 quoted fuel (by omega),
      renderNode_eq_all nameOf M xs hp.2 quoted fuel (by omega), renameAll, textAll]

end

/-! ### Terms that can be read again -/

/-- Whether the text of a term in code begins with a parenthesis. -/
def opens : Term → Bool
  | .lambda .. => true
  | .application _ .code _ => true
  | _ => false

/-- **An application that is read as one.** A keyword that starts another form is not its head, and what follows
`define` does not begin with a parenthesis. -/
def Headed : List Term → Prop
  | .atom (.keyword word) :: rest =>
    word ≠ "lambda" ∧ word ≠ "let" ∧ word ≠ "cond" ∧ word ≠ "quote" ∧
      (word = "define" → ∀ x ∈ rest.head?, x.opens = false)
  | _ => True

/-- How quoted data are read inside what is read in a mode: a template goes on inside lists. -/
def quotedMode : Mode → Mode
  | .template => .template
  | _ => .quoted

mutual

/-- **A term that can be written and read again**, in a mode. -/
def Readable (mode : Mode) : Term → Prop
  | .atom a =>
    match a with
    | .number x => Number.IsFinite x
    | .boolean _ => True
    | .symbol s => IsSymbol s
    | .variable v => mode = .code ∧ IsSymbol v ∧ isKeyword v = false
    | .keyword k => mode = .code ∧ isKeyword k = true
  | .string _ _ => True
  | .lambda _ parameters body =>
    mode = .code ∧ parameters.Nodup ∧ (∀ p ∈ parameters, IsSymbol p) ∧ body ≠ [] ∧ ReadableAll .code body
  | .application _ quotation items =>
    match quotation with
    | .code => mode = .code ∧ Headed items ∧ ReadableAll .code items
    | .quote => ReadableAll (quotedMode mode) items
    | .quasiquote => mode = .code ∧ ReadableAll .template items
    | .unquote => mode = .template ∧ items.length = 1 ∧ ReadableAll .code items

/-- Several terms that can be written and read again. -/
def ReadableAll (mode : Mode) : List Term → Prop
  | [] => True
  | x :: xs => Readable mode x ∧ ReadableAll mode xs

end

theorem readableAll_iff {mode : Mode} {xs : List Term} : ReadableAll mode xs ↔ ∀ x ∈ xs, x.Readable mode := by
  induction xs with
  | nil => simp [ReadableAll]
  | cons x xs ih => simp [ReadableAll, ih]

/-! ### The tokens of a term -/

mutual

/-- **The tokens that a term is read as**, once it has been written. -/
def kinds (quoted : Bool) : Term → List Kind
  | .atom a =>
    match a with
    | .number x => [.number (Number.reread x)]
    | .boolean b => [.boolean b]
    | .symbol s => if quoted then [.symbol s] else [.quote, .symbol s]
    | .variable v => [.symbol v]
    | .keyword k => [.symbol k]
  | .string _ content => [.string (Text.reread content)]
  | .lambda _ parameters body =>
    .open :: .symbol "lambda" :: .open :: (parameters.map .symbol ++ .close :: (kindsAll false body ++ [.close]))
  | .application _ quotation items =>
    match quotation with
    | .code => .open :: (kindsAll quoted items ++ [.close])
    | .quote =>
      if quoted then .open :: (kindsAll true items ++ [.close]) else .quote :: .open :: (kindsAll true items ++ [.close])
    | .quasiquote => .quasiquote :: .open :: (kindsAll true items ++ [.close])
    | .unquote => .unquote :: kindsAll false items

/-- The tokens of several terms. -/
def kindsAll (quoted : Bool) : List Term → List Kind
  | [] => []
  | x :: xs => kinds quoted x ++ kindsAll quoted xs

end

end Term

namespace Token

/-- **A text stands for tokens** before anything that ends a word. -/
def Spells (s : String) (kinds : List Kind) : Prop :=
  ∀ rest more, Delimits rest → Reads rest more → Reads (s.toList ++ rest) (kinds ++ more)

namespace Spells

variable {s : String} {kinds : List Kind}

theorem symbol (hs : IsSymbol s) : Spells s [.symbol s] := fun _ _ hrest hreads => hreads.symbol hs hrest

/-- A closing parenthesis and a blank end a word. -/
theorem delimits_close (rest : List Char) : Delimits (')' :: rest) := fun c hc => by
  cases hc
  rfl

theorem delimits_space (rest : List Char) : Delimits (' ' :: rest) := fun c hc => by
  cases hc
  rfl

theorem parenthesised (h : Spells s kinds) : Spells ("(" ++ s ++ ")") (.open :: (kinds ++ [.close])) := by
  intro rest more _ hreads
  have hclosed := (h _ _ (delimits_close rest) hreads.close).open
  simpa using hclosed

theorem quoted (h : Spells s kinds) : Spells ("'" ++ s) (.quote :: kinds) := by
  intro rest more hrest hreads
  simpa using (h rest more hrest hreads).quote

theorem quasiquoted (h : Spells s kinds) : Spells ("\x60" ++ s) (.quasiquote :: kinds) := by
  intro rest more hrest hreads
  simpa [backquote] using (h rest more hrest hreads).quasiquote

theorem unquoted (h : Spells s kinds) : Spells ("," ++ s) (.unquote :: kinds) := by
  intro rest more hrest hreads
  simpa using (h rest more hrest hreads).unquote

theorem spaced {r : String} {others : List Kind} (h : Spells s kinds) (hr : Spells r others) :
    Spells (s ++ " " ++ r) (kinds ++ others) := by
  intro rest more hrest hreads
  have hboth := h _ _ (delimits_space _) (hr rest more hrest hreads).space
  simpa using hboth

/-- Texts with blanks between them. -/
theorem intercalate {texts : List String} {kindsOf : List (List Kind)} (h : List.Forall₂ Spells texts kindsOf) :
    Spells (String.intercalate " " texts) kindsOf.flatten := by
  induction h with
  | nil => exact fun _ _ _ hreads => by simpa using hreads
  | @cons s kinds texts kindsOf hs hall ih =>
    cases hall with
    | nil => simpa using hs
    | @cons r others texts kindsOf hr hall =>
      have hspaced := hs.spaced ih
      rw [List.flatten_cons, String.intercalate_cons_cons]
      exact hspaced

end Spells

end Token

namespace Term

open Token (Spells)

theorem kindsAll_eq (quoted : Bool) (xs : List Term) : kindsAll quoted xs = (xs.map (kinds quoted)).flatten := by
  induction xs with
  | nil => rfl
  | cons x xs ih => rw [kindsAll, ih, List.map_cons, List.flatten_cons]

theorem kindsAll_append (quoted : Bool) (xs ys : List Term) :
    kindsAll quoted (xs ++ ys) = kindsAll quoted xs ++ kindsAll quoted ys := by
  simp only [kindsAll_eq, List.map_append, List.flatten_append]

theorem spells_parameters {parameters : List String} (h : ∀ p ∈ parameters, IsSymbol p) :
    Spells (String.intercalate " " parameters) (parameters.map .symbol) := by
  have hall : List.Forall₂ Spells parameters (parameters.map fun p => [Kind.symbol p]) := by
    rw [List.forall₂_map_right_iff]
    exact List.forall₂_same.mpr fun p hp => Spells.symbol (h p hp)
  have hspells := Spells.intercalate hall
  rwa [← List.flatMap_def, ← List.map_eq_flatMap] at hspells

/-- Whether what is read in a mode is quoted. -/
def isQuotedMode : Mode → Bool
  | .code => false
  | _ => true

mutual

/-- **The text of a readable term stands for its tokens.** -/
theorem spells_text : (x : Term) → {mode : Mode} → x.Readable mode →
    Spells (x.text (isQuotedMode mode)) (x.kinds (isQuotedMode mode))
  | .atom a, mode, h => by
    cases a with
    | number x => exact fun _ _ hrest hreads => hreads.number h hrest
    | boolean b =>
      intro rest more hrest hreads
      cases b with
      | true => exact hreads.word (w := "#t") ⟨by decide, '#', ['t'], by decide, by decide⟩ rfl hrest
      | false => exact hreads.word (w := "#f") ⟨by decide, '#', ['f'], by decide, by decide⟩ rfl hrest
    | symbol s =>
      have hs : Spells s [.symbol s] := Spells.symbol h
      -- within a quotation the mark is not written again
      cases mode with
      | code => exact hs.quoted
      | quoted => exact hs
      | template => exact hs
    | «variable» v => exact Spells.symbol h.2.1
    | keyword k => exact Spells.symbol (Token.isSymbol_of_isKeyword h.2)
  | .string _ content, _, _ => fun _ _ _ hreads => hreads.string content
  | .lambda k parameters body, mode, h => by
    obtain ⟨rfl, -, hparameters, -, hbody⟩ := h
    have hlist := (spells_parameters hparameters).parenthesised
    have hitems := Spells.intercalate (spells_textAll body hbody)
    have hword : IsSymbol "lambda" := Token.isSymbol_of_isKeyword rfl
    have hall := ((Spells.symbol hword).spaced hlist).spaced hitems
    -- the text is written in one piece, and is told apart here
    have htext : text false (.lambda k parameters body) = "(" ++ ("lambda" ++ " " ++
        ("(" ++ String.intercalate " " parameters ++ ")") ++ " " ++ String.intercalate " " (textAll false body)) ++ ")" := by
      refine String.toList_inj.mp ?_
      simp [text]
    have hlambda := hall.parenthesised
    rw [← kindsAll_eq, isQuotedMode, ← htext] at hlambda
    simpa [kinds, isQuotedMode] using hlambda
  | .application _ quotation items, mode, h => by
    cases quotation with
    | code =>
      obtain ⟨rfl, -, hitems⟩ := h
      have hlist := (Spells.intercalate (spells_textAll items hitems)).parenthesised
      rw [← kindsAll_eq] at hlist
      exact hlist
    | quote =>
      have hitems : ∀ inner : Mode, ReadableAll inner items → isQuotedMode inner = true →
          Spells ("(" ++ String.intercalate " " (textAll true items) ++ ")") (.open :: (kindsAll true items ++ [.close])) := by
        intro inner hinner hquoted
        have hlist := (Spells.intercalate (spells_textAll items hinner)).parenthesised
        rw [hquoted, ← kindsAll_eq] at hlist
        exact hlist
      cases mode with
      | code => exact (hitems .quoted h rfl).quoted
      | quoted => exact hitems .quoted h rfl
      | template => exact hitems .template h rfl
    | quasiquote =>
      obtain ⟨rfl, hitems⟩ := h
      have hlist := (Spells.intercalate (spells_textAll items hitems)).parenthesised.quasiquoted
      rw [← kindsAll_eq] at hlist
      exact hlist
    | unquote =>
      obtain ⟨rfl, hlength, hitems⟩ := h
      obtain ⟨x, rfl⟩ := List.length_eq_one_iff.mp hlength
      have hhole := (spells_text x hitems.1).unquoted
      simp only [kinds, kindsAll, List.append_nil]
      exact hhole

theorem spells_textAll : (xs : List Term) → {mode : Mode} → ReadableAll mode xs →
    List.Forall₂ Spells (textAll (isQuotedMode mode) xs) (xs.map (kinds (isQuotedMode mode)))
  | [], _, _ => .nil
  | x :: xs, _, h => .cons (spells_text x h.1) (spells_textAll xs h.2)

end

end Term

end SchemeMachine
