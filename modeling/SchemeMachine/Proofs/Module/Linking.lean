import SchemeMachine.Proofs.Module.Discovery
import SchemeMachine.Proofs.Syntax.Respelling

/-!
# The linked source

A module is written into the linked source term by term, with its names respelled: what its top level defines gets the
name of the module in front, what is written with an alias the name of the module behind it, and all other names stay.

* `Module.topName` is the name of a top-level definition in the linked program, `Module.qualified?` what a name that is
  written with an alias stands for.
* `Module.spelled` is how a name is written that no lambda of the module binds, the top one apart.
* `Module.linkedTerms` are the terms that a module contributes, `Module.linkedSource_eq` that their texts are what is
  written.
* `Module.reads_link` says what the linked source is read as.
-/

namespace SchemeMachine.Module

open Term
open Token (Reads Spells IsSymbol)

variable {modules : Array Module}

/-! ### Names in the linked program -/

/-- **The name of a top-level definition** in the linked program. Those of the root keep their names. -/
def topName (i : Nat) (m : Module) (w : String) : String := if i = 0 then w else m.name ++ "." ++ w

/-- **What a name that is written with an alias stands for**: the module behind the alias and the member of it. -/
def qualified? (modules : Array Module) (m : Module) (w : String) : Option (Nat × Module × String) :=
  match Text.splitAtChar '.' w.toList with
  | none => none
  | some (before, after) =>
    (m.imports.find? (String.ofList before)).bind fun j => (modules[j]?).map fun target => (j, target, String.ofList after)

theorem qualified?_eq_some {m target : Module} {w member : String} {j : Nat}
    (h : qualified? modules m w = some (j, target, member)) :
    modules[j]? = some target ∧ ∃ name, m.imports.find? name = some j := by
  unfold qualified? at h
  split at h
  · cases h
  · next before after _ =>
    obtain ⟨k, hk, h⟩ := Option.bind_eq_some_iff.mp h
    obtain ⟨target', htarget, heq⟩ := Option.map_eq_some_iff.mp h
    cases heq
    exact ⟨htarget, String.ofList before, hk⟩

/-- How a name is written that is bound nowhere in its module. -/
def spelledFree (modules : Array Module) (m : Module) (w : String) : String :=
  match qualified? modules m w with
  | some (_, target, member) => target.name ++ "." ++ member
  | none => w

/-- **How a name is written that no lambda of its module binds**, the top one apart; `tops` is what that one binds. -/
def spelled (modules : Array Module) (i : Nat) (m : Module) (tops : List String) (w : String) : String :=
  if w ∈ tops then topName i m w else spelledFree modules m w

/-- **A module was read from a text that holds the terms** `body`. There may be terms that hang nowhere, but they define
nothing. -/
def Of (m : Module) (body : List Term) : Prop :=
  ∃ source t strays, Tree.parse source = .ok t ∧ t.Holds (.lambda Tree.top [] body :: strays) ∧
    definedAll strays = [] ∧ t.analyse = .ok m.tree

/-- **No name of a module looks like one that the analysis gives.** -/
def Unscoped (body : List Term) : Prop := EachAll (fun _ w => ∀ N x, w ≠ Tree.scopedName N x) Tree.top body

/-- How a bound name is written. -/
def spelledBound (i : Nat) (m : Module) (N : Handle) (w : String) : String := if N = Tree.top then topName i m w else w

theorem linkedName_bound {i : Nat} {m : Module} {N : Handle} {w : String}
    (h : m.tree.renamings.find? (Tree.scopedName N w) = some ⟨N, w⟩) :
    linkedName modules (i = 0) m (Tree.scopedName N w) = spelledBound i m N w := by
  simp only [linkedName, h, spelledBound, topName]
  by_cases hN : N = Tree.top <;> by_cases hi : i = 0 <;> simp [hN, hi]

theorem linkedName_free {i : Nat} {m : Module} {w : String} (h : m.tree.renamings.find? w = none) :
    linkedName modules (i = 0) m w = spelledFree modules m w := by
  simp only [linkedName, h, spelledFree, qualified?]
  cases Text.splitAtChar '.' w.toList with
  | none => rfl
  | some parts =>
    obtain ⟨before, after⟩ := parts
    dsimp only
    cases m.imports.find? (String.ofList before) with
    | none => rfl
    | some j =>
      rw [Option.bind_some, Option.bind_some]
      cases modules[j]? <;> rfl

/-! ### The terms of a module -/

/-- Whether a top-level term of a module stands in the linked source: it is neither an atom nor a declaration. -/
def keeps : Term → Bool
  | .atom _ => false
  | .application _ _ (.atom (.keyword word) :: _) => word ≠ "import" && word ≠ "native"
  | _ => true

/-- **The terms of a module in the linked source**, its names respelled. -/
def linkedTerms (modules : Array Module) (i : Nat) (m : Module) (body : List Term) : List Term :=
  respellAll asWritten (spelled modules i m (definedAll body)) [] (body.filter keeps)

theorem keeps_rename {new : Handle → String → String} {M : Handle} (x : Term) : keeps (x.rename new M) = keeps x := by
  match x with
  | .atom a => cases a <;> rfl
  | .string .. | .lambda .. | .application _ _ [] => rfl
  | .application _ _ (.atom a :: _) => cases a <;> rfl
  | .application _ _ (.string .. :: _) | .application _ _ (.lambda .. :: _)
  | .application _ _ (.application .. :: _) => rfl

theorem keeps_respell {inner : Handle → String → String} {outer : String → String} {chain : Chain} (x : Term) :
    keeps (x.respell inner outer chain) = keeps x := by
  match x with
  | .atom a => cases a <;> rfl
  | .string .. | .lambda .. | .application _ _ [] => rfl
  | .application _ _ (.atom a :: _) => cases a <;> rfl
  | .application _ _ (.string .. :: _) | .application _ _ (.lambda .. :: _)
  | .application _ _ (.application .. :: _) => rfl

theorem linkedTerms_eq (i : Nat) (m : Module) (body : List Term) :
    linkedTerms modules i m body =
      (respellAll asWritten (spelled modules i m (definedAll body)) [] body).filter keeps := by
  rw [linkedTerms, respellAll_eq, respellAll_eq, List.filter_map]
  congr 1
  exact List.filter_congr fun x _ => (keeps_respell x).symm

/-- **The terms that a module's tree holds**, and what they are respelled to in the linked source. -/
theorem Of.analysed {m : Module} {body : List Term} (h : m.Of body) (hunscoped : Unscoped body) (i : Nat) :
    ∃ ys strays, m.tree.Holds (.lambda Tree.top [] ys :: strays) ∧
      renameAll (fun _ => linkedName modules (i = 0) m) Tree.top ys =
        respellAll asWritten (spelled modules i m (definedAll body)) [] body := by
  obtain ⟨source, t, strays, hparse, hholds, hstrays, hanalyse⟩ := h
  obtain ⟨tokens, forms, -, hforms, rfl⟩ := Tree.parse_eq_ok.mp hparse
  have hlegal := Form.legal_parse hforms
  obtain ⟨-, -, -, -, hanalysed⟩ := Tree.holds_ofForms hlegal
  obtain ⟨u, hu, hs, htree⟩ := hholds.analyse_eq_ok hanalysed hanalyse
  have hheld := hholds.of_scopes hu
  have hnone : u.renamings = {} := by
    rw [hu]
    exact congrArg Tree.renamings (Tree.notes_ofForms hlegal)
  have hrenamings : m.tree.renamings = u.renameVariables.renamings := by rw [htree]; rfl
  refine ⟨renameAll u.newName Tree.top body, renameAll u.newName Tree.top strays, ?_, ?_⟩
  · obtain ⟨hrenamed, -⟩ := hheld.renameVariables hs
    rw [htree]
    exact ⟨hrenamed.top, hrenamed.placed.congr fun _ _ => rfl, hrenamed.legal, hrenamed.handles⟩
  -- every name that occurs is found in the table of renamings, or is no key of it
  have heach : EachAll (fun M w => linkedName modules (i = 0) m (u.newName M w) =
      u.spelling (spelledBound i m) (spelledFree modules m) M w) Tree.top body := by
    refine EachAll.imp (fun M w hw => ?_) body (EachAll.and body hheld.occurs hunscoped)
    rw [Tree.newName, Tree.spelling]
    cases hresolve : u.resolve M w with
    | none =>
      refine linkedName_free (Option.eq_none_iff_forall_ne_some.mpr fun info hinfo => ?_)
      rw [hrenamings] at hinfo
      exact hw.2 _ _ ((Tree.find?_renamings hnone).mp hinfo).1
    | some N =>
      refine linkedName_bound ?_
      rw [hrenamings]
      exact (Tree.find?_renamings hnone).mpr ⟨rfl, M, hw.1, hresolve⟩
  rw [renameAll_renameAll, hheld.renameAll_eq hs heach, hstrays, List.append_nil]
  have hbound : ∀ h, h ∈ ([] : Chain).map Prod.fst ∨ h ∈ handlesAll body →
      ∀ w, spelledBound i m h w = asWritten h w := by
    rintro h (hmem | hmem) w
    · cases hmem
    · have hne : h ≠ Tree.top := by
        rintro rfl
        exact (List.nodup_cons.mp hheld.nodup).1 (List.mem_append_left _ hmem)
      rw [spelledBound, if_neg hne, asWritten]
  rw [respellAll_congr body hbound]
  rfl

/-! ### The text of a module -/

/-- Whether a term is kept can be told from its node. -/
theorem isDeclaration_eq {t : Tree} {parent : Option Handle} {x : Term} {h : Handle} (hp : x.Placed t parent)
    (hx : x.child = .node h) : isDeclaration t h = !keeps x := by
  match x, hx with
  | .string _ _, rfl =>
    simp only [Placed] at hp
    simp [isDeclaration, hp, keeps]
  | .lambda .., rfl => simp [isDeclaration, hp.1, keeps]
  | .application _ _ [], rfl => simp [isDeclaration, hp.1, keeps]
  | .application _ _ (.atom a :: _), rfl =>
    cases a with
    | keyword word =>
      simp only [isDeclaration, hp.1, keeps, List.map_cons, child, Child.isKeyword]
      by_cases himport : word = "import" <;> by_cases hnative : word = "native" <;> simp [himport, hnative]
    | _ => simp [isDeclaration, hp.1, keeps, child, Child.isKeyword]
  | .application _ _ (.string .. :: _), rfl | .application _ _ (.lambda .. :: _), rfl
  | .application _ _ (.application .. :: _), rfl => simp [isDeclaration, hp.1, keeps, child, Child.isKeyword]

/-- What stands in the linked source for a term at the top level. -/
def linkedText? (t : Tree) (nameOf : String → String) (c : Child) : Option String :=
  match c with
  | .node h => if isDeclaration t h then none else some (t.renderWith nameOf h ++ "\n")
  | .atom _ => none

theorem filterMap_linkedText? {t : Tree} {nameOf : String → String} {parent : Option Handle} {xs : List Term}
    (hp : PlacedAll t parent xs) (hsize : (handlesAll xs).length ≤ t.size) :
    (xs.map child).filterMap (linkedText? t nameOf) =
      ((renameAll (fun _ => nameOf) Tree.top xs).filter keeps).map fun y => y.text false ++ "\n" := by
  induction xs with
  | nil => rfl
  | cons x xs ih =>
    simp only [handlesAll, List.length_append] at hsize
    have hrest := ih hp.2 (by omega)
    have htext := renderNode_eq nameOf Tree.top x hp.1 false (t.size + 1) (by omega)
    rw [List.map_cons, List.filterMap_cons, hrest, renameAll, List.filter_cons, keeps_rename]
    cases hx : x.child with
    | atom a =>
      rw [eq_atom_of_child hx]
      rfl
    | node h =>
      rw [hx] at htext
      simp only [linkedText?, isDeclaration_eq hp.1 hx, Tree.renderWith]
      cases hkeeps : keeps x with
      | true =>
        simp only [Bool.not_true, Bool.false_eq_true, if_false, if_true, List.map_cons]
        rw [← htext]
        rfl
      | false => rfl

/-- **The source of a module** in the linked program: a line with its name, and its terms, one to a line. -/
theorem Of.linkedSource_eq {m : Module} {body : List Term} (h : m.Of body) (hunscoped : Unscoped body) (i : Nat) :
    linkedSource modules i m = "; module " ++ m.name ++ " (" ++ m.path.text ++ ")\n" ++
      String.join ((linkedTerms modules i m body).map fun y => y.text false ++ "\n") := by
  obtain ⟨ys, strays, hholds, hys⟩ := @Of.analysed modules m body h hunscoped i
  have hbody : m.tree.bodyOf Tree.top = ys.map child := by rw [Tree.bodyOf, hholds.placed.1.1]
  have hsize := hholds.handles.length_eq
  simp only [handlesAll, Term.handles, List.length_append, List.length_cons, List.length_range] at hsize
  have hforms : _ = ((renameAll (fun _ => linkedName modules (i = 0) m) Tree.top ys).filter keeps).map _ :=
    filterMap_linkedText? hholds.placed.1.2 (by omega)
  rw [hys, ← linkedTerms_eq] at hforms
  rw [← hforms, ← hbody]
  rfl

/-! ### What the linked source is read as -/

/-- Terms that are written one to a line. -/
theorem reads_lines {ys : List Term} (hys : ReadableAll .code ys) {rest : List Char} {more : List Token.Kind}
    (hrest : Reads rest more) :
    Reads ((String.join (ys.map fun y => y.text false ++ "\n")).toList ++ rest) (kindsAll false ys ++ more) := by
  induction ys with
  | nil => simpa [String.join, kindsAll] using hrest
  | cons y ys ih =>
    have hline := spells_text y hys.1 _ _ (fun c hc => by cases hc; rfl) (ih hys.2).newline
    have hjoin : (String.join ((y :: ys).map fun y => y.text false ++ "\n")).toList ++ rest =
        (y.text false).toList ++ '\n' :: ((String.join (ys.map fun y => y.text false ++ "\n")).toList ++ rest) := by
      simp [String.join_cons]
    rw [hjoin, kindsAll, List.append_assoc]
    exact hline

/-- **A module in the linked source** is read as its terms. -/
theorem reads_linkedSource {i : Nat} {m : Module} {body : List Term} (h : m.Of body) (hunscoped : Unscoped body)
    (hname : PlainName m.name) (hpath : '\n' ∉ m.path.text.toList)
    (hreadable : ReadableAll .code (linkedTerms modules i m body)) {rest : List Char} {more : List Token.Kind}
    (hrest : Reads rest more) :
    Reads ((linkedSource modules i m).toList ++ rest) (kindsAll false (linkedTerms modules i m body) ++ more) := by
  have hlines := reads_lines hreadable hrest
  have hline : '\n' ∉ (" module " ++ m.name ++ " (" ++ m.path.text ++ ")").toList := by
    simp only [String.toList_append, List.mem_append, not_or]
    exact ⟨⟨⟨⟨by decide, fun hmem => (hname _ hmem).2 rfl⟩, by decide⟩, hpath⟩, by decide⟩
  have hcomment := hlines.comment hline
  rw [h.linkedSource_eq hunscoped]
  have htext : ("; module " ++ m.name ++ " (" ++ m.path.text ++ ")\n" ++
      String.join ((linkedTerms modules i m body).map fun y => y.text false ++ "\n")).toList ++ rest =
      ';' :: ((" module " ++ m.name ++ " (" ++ m.path.text ++ ")").toList ++ '\n' ::
        ((String.join ((linkedTerms modules i m body).map fun y => y.text false ++ "\n")).toList ++ rest)) := by
    simp
  rw [htext]
  exact hcomment

/-- The declaration of a native library. -/
def declaration (library : String) : Term := .application 0 .code [.atom (.keyword "native"), .atom (.variable library)]

/-- The terms of the module with a number. -/
def linkedModule (modules : Array Module) (bodies : Nat → List Term) (i : Nat) : List Term :=
  match modules[i]? with
  | some m => linkedTerms modules i m (bodies i)
  | none => []

/-- **Modules that can be written into one source and read again.** Each was read from the terms given for it, its path
fits on a line, and what it contributes can be read. -/
structure Legible (modules : Array Module) (natives : Names) (bodies : Nat → List Term) : Prop where
  of : ∀ (i : Nat) (m : Module), modules[i]? = some m → m.Of (bodies i)
  unscoped : ∀ (i : Nat), i < modules.size → Unscoped (bodies i)
  line : ∀ (i : Nat) (m : Module), modules[i]? = some m → '\n' ∉ m.path.text.toList
  readable : ∀ (i : Nat) (m : Module), modules[i]? = some m → ReadableAll .code (linkedTerms modules i m (bodies i))
  natives : ∀ library ∈ natives.keys, (declaration library).Readable .code

/-- **What the linked source is read as**: the declarations of the native libraries, and the terms of the modules. -/
theorem reads_link {natives : Names} {bodies : Nat → List Term} (h : Legible modules natives bodies)
    (hplain : ∀ (i : Nat) (m : Module), modules[i]? = some m → PlainName m.name) (sorted : List Nat) :
    Reads (link modules sorted natives).toList
      (kindsAll false (natives.keys.map declaration ++ sorted.flatMap (linkedModule modules bodies)) ++ [.endOfText]) := by
  have hmodules : Reads (String.join (sorted.map fun id => match modules[id]? with
      | some m => linkedSource modules id m
      | none => "")).toList (kindsAll false (sorted.flatMap (linkedModule modules bodies)) ++ [.endOfText]) := by
    induction sorted with
    | nil => simpa [String.join, kindsAll] using Reads.nil
    | cons i sorted ih =>
      rw [List.map_cons, String.join_cons, String.toList_append, List.flatMap_cons, kindsAll_append, List.append_assoc,
        linkedModule]
      cases hm : modules[i]? with
      | none => simpa [kindsAll] using ih
      | some m =>
        exact reads_linkedSource (h.of i m hm) (h.unscoped i (Array.getElem?_eq_some_iff.mp hm).1) (hplain i m hm)
          (h.line i m hm) (h.readable i m hm) ih
  have htext : ∀ library, "(native " ++ library ++ ")\n" = (declaration library).text false ++ "\n" := by
    intro library
    refine String.toList_inj.mp ?_
    simp [declaration, text, textAll, Tree.wrap, Atom.render]
  have hdeclarations : ReadableAll .code (natives.keys.map declaration) :=
    readableAll_iff.mpr fun x hx => by
      obtain ⟨library, hlibrary, rfl⟩ := List.mem_map.mp hx
      exact h.natives library hlibrary
  have hall := reads_lines hdeclarations hmodules
  rw [link, String.toList_append, kindsAll_append, List.append_assoc]
  simp only [htext, List.map_map, Function.comp_def] at hall ⊢
  exact hall

end SchemeMachine.Module
