import SchemeMachine.Proofs.Syntax.Instead
import SchemeMachine.Proofs.Syntax.Lexical

/-!
# Names in the initial values of a `let`

The variables of a `let` are bound in its body only. A name in an initial value refers to what it refers to where the `let`
stands, with one exception: a named `let` puts its initial values into a lambda of its own, in which its name is bound, and
what they define.

* `Tree.Stand.exists_bound` compares the names of a term with those of a copy of it that stands elsewhere.
* `Term.Agree` compares the names that two chains bind, and `Term.Instead.stand` goes down to the place where one term
  stands instead of another.
* `Term.IsLet` is the term of a `let`, `Term.IsLet.stand` says in which lambda its initial values are.
* `Tree.Holds.exists_place` finds the place in two programs, also in a clause that is dropped.
* `Tree.analyse_letIn` is the result, and `Tree.analyse_letIn_caught` a name that a named `let` catches.
-/

namespace SchemeMachine

open Term

namespace Term

/-! ### Moved terms -/

mutual

theorem blank_carry (f : Handle → Handle) : (x : Term) → (x.carry f).blank = x.blank
  | .atom _ => rfl
  | .string _ _ => rfl
  | .lambda _ _ body => by rw [carry, blank, blank, blankAll_carryAll f body]
  | .application _ _ items => by rw [carry, blank, blank, blankAll_carryAll f items]

theorem blankAll_carryAll (f : Handle → Handle) : (xs : List Term) → blankAll (carryAll f xs) = blankAll xs
  | [] => rfl
  | x :: xs => by rw [carryAll, blankAll, blankAll, blank_carry f x, blankAll_carryAll f xs]

end

@[simp] theorem defined_carry (f : Handle → Handle) (x : Term) : (x.carry f).defined = x.defined := by
  rw [← defined_blank, blank_carry, defined_blank]

@[simp] theorem definedAll_carryAll (f : Handle → Handle) (xs : List Term) :
    definedAll (carryAll f xs) = definedAll xs := by
  rw [← definedAll_blankAll, blankAll_carryAll, definedAll_blankAll]

/-! ### Names in a chain -/

namespace Chain

variable {chain : Chain} {tops : List String} {w : String} {h : Handle}

/-- **The lambda that binds a name**: the nearest one of the chain, or else the top one, which binds `tops`. -/
def resolve (tops : List String) (chain : Chain) (w : String) : Option Handle :=
  (chain.binder? w).or (if w ∈ tops then some Tree.top else none)

theorem binder?_append (inner chain : Chain) (w : String) :
    (inner ++ chain).binder? w = (inner.binder? w).or (chain.binder? w) := by
  induction inner with
  | nil => rfl
  | cons frame inner ih =>
    rw [List.cons_append, binder?, binder?]
    split
    · rfl
    · exact ih

theorem resolve_append (inner chain : Chain) (w : String) :
    (inner ++ chain).resolve tops w = (inner.binder? w).or (chain.resolve tops w) := by
  rw [resolve, resolve, binder?_append, Option.or_assoc]

theorem resolve_enter (h : Handle) (parameters : List String) (body : List Term) :
    (chain.enter h parameters body).resolve tops w =
      if w ∈ parameters ++ definedAll body then some h else chain.resolve tops w := by
  rw [enter, resolve, binder?]
  split
  · rfl
  · rfl

theorem enter_carry (f : Handle → Handle) (h : Handle) (parameters : List String) (body : List Term) :
    (chain.carry f).enter (f h) parameters (carryAll f body) = (chain.enter h parameters body).carry f := by
  rw [enter, enter, definedAll_carryAll]
  rfl

theorem mem_of_resolve (hw : chain.resolve tops w = some h) : h = Tree.top ∨ h ∈ chain.map Prod.fst := by
  rcases Option.or_eq_some_iff.mp hw with hw | ⟨-, hw⟩
  · exact Or.inr (mem_of_binder? hw)
  · split at hw
    · cases hw
      exact Or.inl rfl
    · cases hw

end Chain

end Term

namespace Tree

/-! ### The names of a copy -/

section

variable {t t' : Tree} {tops tops' : List String} {f g : Handle → Handle} {c c' : Chain}

/-- Names are looked up along the chain. -/
theorem Stand.resolve {xs : List Term} {M : Handle} (hx : t.Stand tops xs M c) (w : String) :
    t.resolve M w = c.resolve tops w :=
  hx.around.resolve hx.nodup_chain w

mutual

/-- **The names of a term and of its copy.** `inner` are the lambdas that have been entered. A name that is bound in the
term is bound in the copy in the same way, any other name is looked up in the lambda around the term or the copy. -/
theorem resolve_copy (hs : t.ScopesAre t.Defines t.scopes) (hs' : t'.ScopesAre t'.Defines t'.scopes) :
    (x : Term) → {M : Handle} → {inner : Chain} →
    t'.Stand tops' [x] M (inner ++ c') → t.Stand tops [x.carry f] (g M) (inner.carry f ++ c) →
    (∀ h ∈ x.handles, g h = f h) → ∀ u ∈ x.uses M, ∃ bound : Chain,
      (∀ h ∈ bound.map Prod.fst, h ∈ inner.map Prod.fst ∨ h ∈ x.handles) ∧
      t'.resolve u.1 u.2 = (bound.binder? u.2).or (c'.resolve tops' u.2) ∧
      t.resolve (g u.1) u.2 = ((bound.binder? u.2).map f).or (c.resolve tops u.2)
  | .atom a, M, inner, hx, hcopy, _, u, hu => by
    cases a with
    | «variable» w =>
      obtain rfl := List.mem_singleton.mp hu
      exact ⟨inner, fun h hh => Or.inl hh, by rw [hx.resolve, Chain.resolve_append],
        by rw [hcopy.resolve, Chain.resolve_append, Chain.binder?_carry]⟩
    | _ => cases hu
  | .string _ _, _, _, _, _, _, _, hu => nomatch hu
  | .lambda h parameters body, M, inner, hx, hcopy, hg, u, hu => by
    have hbody : t'.Stand tops' body h (inner.enter h parameters body ++ c') := hx.body hs'
    have hbody' : t.Stand tops (carryAll f body) (g h) ((inner.enter h parameters body).carry f ++ c) := by
      rw [hg h (by simp [Term.handles]), ← Chain.enter_carry]
      exact hcopy.body hs
    -- a parameter of the lambda, or a name in its body
    rcases List.mem_append.mp hu with hu | hu
    · obtain ⟨w, -, rfl⟩ := List.mem_map.mp hu
      refine ⟨inner.enter h parameters body, fun k hk => ?_, by rw [hbody.resolve, Chain.resolve_append],
        by rw [hbody'.resolve, Chain.resolve_append, Chain.binder?_carry]⟩
      rcases List.mem_cons.mp hk with rfl | hk
      · exact Or.inr (by simp [Term.handles])
      · exact Or.inl hk
    · obtain ⟨bound, hbound, hresolve, hresolve'⟩ :=
        resolve_copyAll hs hs' body hbody hbody' (fun k hk => hg k (by simp [Term.handles, hk])) u hu
      refine ⟨bound, fun k hk => ?_, hresolve, hresolve'⟩
      rcases hbound k hk with hk | hk
      · rcases List.mem_cons.mp hk with rfl | hk
        · exact Or.inr (by simp [Term.handles])
        · exact Or.inl hk
      · exact Or.inr (by simp [Term.handles, hk])
  | .application h quotation items, M, inner, hx, hcopy, hg, u, hu => by
    obtain ⟨bound, hbound, hresolve, hresolve'⟩ :=
      resolve_copyAll hs hs' items hx.items hcopy.items (fun k hk => hg k (by simp [Term.handles, hk])) u hu
    exact ⟨bound, fun k hk => (hbound k hk).imp_right fun hk => by simp [Term.handles, hk], hresolve, hresolve'⟩

/-- The names of several terms and of their copies. -/
theorem resolve_copyAll (hs : t.ScopesAre t.Defines t.scopes) (hs' : t'.ScopesAre t'.Defines t'.scopes) :
    (xs : List Term) → {M : Handle} → {inner : Chain} →
    t'.Stand tops' xs M (inner ++ c') → t.Stand tops (carryAll f xs) (g M) (inner.carry f ++ c) →
    (∀ h ∈ handlesAll xs, g h = f h) → ∀ u ∈ usesAll M xs, ∃ bound : Chain,
      (∀ h ∈ bound.map Prod.fst, h ∈ inner.map Prod.fst ∨ h ∈ handlesAll xs) ∧
      t'.resolve u.1 u.2 = (bound.binder? u.2).or (c'.resolve tops' u.2) ∧
      t.resolve (g u.1) u.2 = ((bound.binder? u.2).map f).or (c.resolve tops u.2)
  | [], _, _, _, _, _, _, hu => nomatch hu
  | x :: xs, M, inner, hx, hcopy, hg, u, hu => by
    rcases List.mem_append.mp hu with hu | hu
    · obtain ⟨bound, hbound, hresolve, hresolve'⟩ :=
        resolve_copy hs hs' x hx.head hcopy.head (fun k hk => hg k (by simp [handlesAll, hk])) u hu
      exact ⟨bound, fun k hk => (hbound k hk).imp_right fun hk => by simp [handlesAll, hk], hresolve, hresolve'⟩
    · obtain ⟨bound, hbound, hresolve, hresolve'⟩ :=
        resolve_copyAll hs hs' xs hx.tail hcopy.tail (fun k hk => hg k (by simp [handlesAll, hk])) u hu
      exact ⟨bound, fun k hk => (hbound k hk).imp_right fun hk => by simp [handlesAll, hk], hresolve, hresolve'⟩

end

/-- **The names of a term and of its copy**, the term in the lambda `M` and the copy in `O`. -/
theorem Stand.exists_bound (hs : t.ScopesAre t.Defines t.scopes) (hs' : t'.ScopesAre t'.Defines t'.scopes) {v : Term}
    {M O : Handle} (hv : t'.Stand tops' [v] M c') (hcopy : t.Stand tops [v.carry f] O c) {u : Handle × String}
    (hu : u ∈ v.uses M) :
    ∃ bound : Chain, (∀ h, bound.binder? u.2 = some h → h ∈ v.handles) ∧
      t'.resolve u.1 u.2 = (bound.binder? u.2).or (c'.resolve tops' u.2) ∧
      t.resolve (redirect f M O u.1) u.2 = ((bound.binder? u.2).map f).or (c.resolve tops u.2) := by
  have hv' : t'.Stand tops' [v] M ([] ++ c') := hv
  have hcopy' : t.Stand tops [v.carry f] (redirect f M O M) (Chain.carry f [] ++ c) := by rwa [redirect_self]
  have hg : ∀ h ∈ v.handles, redirect f M O h = f h := fun h hh =>
    redirect_of_ne (hv.not_mem (h := h) (by simpa [handlesAll] using hh)).2.2
  obtain ⟨bound, hbound, hthere, hhere⟩ := resolve_copy hs hs' v hv' hcopy' hg u hu
  exact ⟨bound, fun h hh => (hbound h (Chain.mem_of_binder? hh)).resolve_left nofun, hthere, hhere⟩

end

end Tree

namespace Term

/-! ### The place where one term stands instead of another -/

section

variable {x y X Y : Term} {N M : Handle} {before after : List Term} {quotation : Quotation}

/-- Two terms that differ in a place are compound, or differ as a whole. -/
theorem Instead.compound (h : Instead x y N M X Y) (hx : ∀ a, x ≠ .atom a) (hy : y ≠ .atom (.keyword "define")) :
    (∀ a, X ≠ .atom a) ∧ Y ≠ .atom (.keyword "define") := by
  cases h with
  | here => exact ⟨hx, hy⟩
  | body => exact ⟨nofun, nofun⟩
  | item => exact ⟨nofun, nofun⟩

/-- **An application defines the same** with another item in it, unless the item is a name that it defines or the word for
definitions. -/
theorem mem_definition_instead (hX : ∀ a, X ≠ .atom a) (hY : Y ≠ .atom (.keyword "define"))
    (htargets : Targets quotation (before ++ X :: after)) {z : String} :
    z ∈ definition quotation (before ++ X :: after) ↔ z ∈ definition quotation (before ++ Y :: after) := by
  rw [mem_definition, mem_definition]
  refine and_congr_right fun hcode => ?_
  match before with
  | [] =>
    constructor
    · rintro ⟨rest, heq⟩
      exact absurd (List.cons.inj heq).1 (hX _)
    · rintro ⟨rest, heq⟩
      exact absurd (List.cons.inj heq).1 hY
  | [b] =>
    constructor
    · rintro ⟨rest, heq⟩
      exact absurd (List.cons.inj (List.cons.inj heq).2).1 (hX _)
    · rintro ⟨rest, heq⟩
      obtain ⟨name, hname⟩ := htargets hcode (congrArg some (List.cons.inj heq).1)
      exact absurd (Option.some.inj hname) (hX _)
  | b :: b' :: before => simp

theorem targets_instead (hX : ∀ a, X ≠ .atom a) (hY : Y ≠ .atom (.keyword "define"))
    (htargets : Targets quotation (before ++ X :: after)) : Targets quotation (before ++ Y :: after) := by
  intro hcode hhead
  match before with
  | [] => exact absurd (Option.some.inj hhead) hY
  | [b] =>
    obtain ⟨name, hname⟩ := htargets hcode hhead
    exact absurd (Option.some.inj hname) (hX _)
  | b :: b' :: before => exact htargets hcode hhead

/-- What takes the place of a term is to be definite there. -/
theorem Instead.definite (h : Instead x y N M X Y) (hx : ∀ a, x ≠ .atom a) (hy : y ≠ .atom (.keyword "define"))
    (hdefinite : y.Definite) (hX : X.Definite) : Y.Definite := by
  induction h with
  | here => exact hdefinite
  | body before after h ih =>
    obtain ⟨hbefore, hmiddle, hafter⟩ := definiteAll_append.mp hX
    exact definiteAll_append.mpr ⟨hbefore, ih hmiddle, hafter⟩
  | item before after h ih =>
    obtain ⟨hcompound, hdefine⟩ := h.compound hx hy
    obtain ⟨hbefore, hmiddle, hafter⟩ := definiteAll_append.mp hX.2
    exact ⟨targets_instead hcompound hdefine hX.1, definiteAll_append.mpr ⟨hbefore, ih hmiddle, hafter⟩⟩

end

/-- **Chains that bind the same names** but for those that one of two terms defines and the other does not. The first chain
binds what the first term defines in its lambda; handles of the second come under `f`. -/
structure Agree (concerned : String → Prop) (f : Handle → Handle) (tops tops' : List String) (X Y : Term) (M : Handle)
    (c c' : Chain) : Prop where
  same : ∀ z, concerned z → (z ∈ X.defined ↔ z ∈ Y.defined) → c.resolve tops z = (c'.resolve tops' z).map f
  own : ∀ z ∈ X.defined, c.resolve tops z = some M

section

variable {concerned : String → Prop} {f : Handle → Handle} {tops tops' : List String} {X Y : Term} {M : Handle}
  {c c' : Chain} {before after : List Term}

/-- At the top level. -/
theorem Agree.top (htop : f Tree.top = Tree.top)
    (hsame : ∀ z, concerned z → (z ∈ X.defined ↔ z ∈ Y.defined) → (z ∈ tops ↔ z ∈ tops'))
    (hown : ∀ z ∈ X.defined, z ∈ tops) : Agree concerned f tops tops' X Y Tree.top [] [] where
  same z hz hdefined := by
    simp only [Chain.resolve, Chain.binder?, Option.none_or, hsame z hz hdefined]
    split
    · rw [Option.map_some, htop]
    · rfl
  own z hz := by
    simp only [Chain.resolve, Chain.binder?, Option.none_or, if_pos (hown z hz)]

/-- Nowhere: no name is bound around two lambdas that hang nowhere. -/
theorem Agree.nowhere {k : Handle} {parameters : List String} {items items' : List Term} :
    Agree concerned f [] [] (.lambda k parameters items) (.lambda k parameters items') Tree.top [] [] where
  same _ _ _ := rfl
  own _ hz := absurd hz List.not_mem_nil

theorem Agree.item {quotation : Quotation} {h : Handle} (hX : ∀ a, X ≠ .atom a) (hY : Y ≠ .atom (.keyword "define"))
    (htargets : Targets quotation (before ++ X :: after))
    (ha : Agree concerned f tops tops' (.application h quotation (before ++ X :: after))
      (.application h quotation (before ++ Y :: after)) M c c') : Agree concerned f tops tops' X Y M c c' where
  same z hz hsame := by
    refine ha.same z hz ?_
    simp only [defined, definedAll_eq, List.flatMap_append, List.flatMap_cons, List.mem_append, hsame,
      mem_definition_instead hX hY htargets]
  own z hz := by
    refine ha.own z ?_
    simp only [defined, definedAll_eq, List.flatMap_append, List.flatMap_cons, List.mem_append, hz, true_or, or_true]

theorem Agree.body {h h' : Handle} {parameters : List String} {body : List Term} (hh : f h' = h)
    (hbody : definedAll body = definedAll (before ++ Y :: after))
    (ha : Agree concerned f tops tops' (.lambda h parameters (before ++ X :: after))
      (.lambda h parameters (before ++ Y :: after)) M c c') :
    Agree concerned f tops tops' X Y h (c.enter h parameters (before ++ X :: after)) (c'.enter h' parameters body) where
  same z hz hsame := by
    have houter := ha.same z hz (by simp [defined])
    have hiff : z ∈ parameters ++ definedAll (before ++ X :: after) ↔ z ∈ parameters ++ definedAll body := by
      rw [hbody]
      simp only [definedAll_eq, List.flatMap_append, List.flatMap_cons, List.mem_append, hsame]
    rw [Chain.resolve_enter, Chain.resolve_enter, houter]
    by_cases hmem : z ∈ parameters ++ definedAll body
    · rw [if_pos (hiff.mpr hmem), if_pos hmem, Option.map_some, hh]
    · rw [if_neg fun h => hmem (hiff.mp h), if_neg hmem]
  own z hz := by
    rw [Chain.resolve_enter, if_pos]
    simp only [definedAll_eq, List.flatMap_append, List.flatMap_cons, List.mem_append, hz, true_or, or_true]

end

theorem carryAll_eq_middle {f : Handle → Handle} {xs before after : List Term} {y : Term}
    (h : carryAll f xs = before ++ y :: after) :
    ∃ ys x zs, xs = ys ++ x :: zs ∧ carryAll f ys = before ∧ x.carry f = y ∧ carryAll f zs = after := by
  rw [carryAll_eq] at h
  obtain ⟨ys, zs', rfl, hys, hzs⟩ := List.map_eq_append_iff.mp h
  obtain ⟨x, zs, rfl, hx, hzs⟩ := List.map_eq_cons_iff.mp hzs
  exact ⟨ys, x, zs, rfl, by rw [carryAll_eq, hys], hx, by rw [carryAll_eq, hzs]⟩

/-- **Down to the place where one term stands instead of another.** The terms `X` and `Y` differ in that place, and `X'` is
`Y` in another tree. -/
theorem Instead.stand {t t' : Tree} (hs : t.ScopesAre t.Defines t.scopes) (hs' : t'.ScopesAre t'.Defines t'.scopes)
    {concerned : String → Prop} {f : Handle → Handle} {tops tops' : List String} {x y X Y : Term} {N M : Handle}
    (h : Instead x y N M X Y) (hx : ∀ a, x ≠ .atom a) (hy : y ≠ .atom (.keyword "define")) (hdefinite : X.Definite)
    {X' : Term} (hX' : X'.carry f = Y) {M' : Handle} (hM' : f M' = M) {c c' : Chain} (hstand : t.Stand tops [X] M c)
    (hstand' : t'.Stand tops' [X'] M' c') (hagree : Agree concerned f tops tops' X Y M c c') :
    ∃ y' N' d d', y'.carry f = y ∧ f N' = N ∧ t.Stand tops [x] N d ∧ t'.Stand tops' [y'] N' d' ∧
      Agree concerned f tops tops' x y N d d' := by
  induction h generalizing X' M' c c' with
  | here => exact ⟨X', M', c, c', hX', hM', hstand, hstand', hagree⟩
  | @body M k parameters before after X Y h ih =>
    cases X' with
    | lambda k' parameters' body' =>
      rw [carry, Term.lambda.injEq] at hX'
      obtain ⟨hk, rfl, hbody⟩ := hX'
      obtain ⟨ys, Z, zs, rfl, hys, hZ, hzs⟩ := carryAll_eq_middle hbody
      refine ih (definiteAll_append.mp hdefinite).2.1 hZ hk ((hstand.body hs).mem (by simp))
        ((hstand'.body hs').mem (by simp)) (hagree.body hk ?_)
      rw [← hbody, definedAll_carryAll]
    | _ => cases hX'
  | @item M k quotation before after X Y h ih =>
    cases X' with
    | application k' quotation' items' =>
      rw [carry, Term.application.injEq] at hX'
      obtain ⟨-, rfl, hitems⟩ := hX'
      obtain ⟨ys, Z, zs, rfl, hys, hZ, hzs⟩ := carryAll_eq_middle hitems
      obtain ⟨hcompound, hdefine⟩ := h.compound hx hy
      exact ih (definiteAll_append.mp hdefinite.2).2.1 hZ hM' (hstand.items.mem (by simp))
        (hstand'.items.mem (by simp)) (hagree.item hcompound hdefine hdefinite.1)
    | _ => cases hX'

/-! ### The term of a `let` -/

/-- **The term of a `let`** in the lambda `M`, with the given initial values. The lambda `k` binds its variables, and the
initial values are in the lambda `O`: in `M`, or in the one that a named `let` makes. -/
inductive IsLet (M k : Handle) (values : List Term) : Option String → (O : Handle) → Term → Prop
  | plain {h : Handle} {parameters : List String} {body : List Term} :
      IsLet M k values none M (.application h .code (.lambda k parameters body :: values))
  | named {h O define call : Handle} {name : String} {parameters : List String} {body : List Term} :
      IsLet M k values (some name) O (.application h .code [.lambda O []
        [.application define .code [.atom (.keyword "define"), .atom (.variable name), .lambda k parameters body],
          .application call .code (.atom (.variable name) :: values)]])

section

variable {M k O : Handle} {values : List Term} {name : Option String} {x : Term}

/-- A term with the sketch of a `let` is one. -/
theorem exists_isLet {names : List String} {initials body : List Term}
    (hx : x.blank = Form.sketchLet name names initials body) (M : Handle) :
    ∃ k O values, x.IsLet M k values name O ∧ blankAll values = initials := by
  cases name with
  | none =>
    obtain ⟨h, items, -, rfl, hitems⟩ := eq_application_of_blank hx
    obtain ⟨procedure, values, rfl, hprocedure, hvalues⟩ := blankAll_eq_cons hitems
    obtain ⟨k, body', -, rfl, -⟩ := eq_lambda_of_blank hprocedure
    exact ⟨k, M, values, .plain, hvalues⟩
  | some name =>
    obtain ⟨h, items, -, rfl, hitems⟩ := eq_application_of_blank hx
    obtain ⟨wrapper, others, rfl, hwrapper, hothers⟩ := blankAll_eq_cons hitems
    obtain ⟨O, inside, -, rfl, hinside⟩ := eq_lambda_of_blank hwrapper
    obtain ⟨define, rest, rfl, hdefine, hrest⟩ := blankAll_eq_cons hinside
    obtain ⟨call, rest', rfl, hcall, hrest'⟩ := blankAll_eq_cons hrest
    obtain ⟨i, definition, -, rfl, hdefinition⟩ := eq_application_of_blank hdefine
    obtain ⟨word, words, rfl, hword, hwords⟩ := blankAll_eq_cons hdefinition
    obtain ⟨word', words', rfl, hword', hwords'⟩ := blankAll_eq_cons hwords
    obtain ⟨procedure, words'', rfl, hprocedure, hwords''⟩ := blankAll_eq_cons hwords'
    obtain ⟨k, body', -, rfl, -⟩ := eq_lambda_of_blank hprocedure
    obtain ⟨j, items', -, rfl, hitems'⟩ := eq_application_of_blank hcall
    obtain ⟨callee, values, rfl, hcallee, hvalues⟩ := blankAll_eq_cons hitems'
    rw [blankAll_eq_nil hothers, blankAll_eq_nil hrest', blankAll_eq_nil hwords'', eq_atom_of_blank hword,
      eq_atom_of_blank hword', eq_atom_of_blank hcallee]
    exact ⟨k, O, values, .named, hvalues⟩

/-- What a `let` defines is defined in its initial values. -/
theorem IsLet.mem_definedAll (hlet : x.IsLet M k values name O) {z : String} (hz : z ∈ x.defined) : z ∈ definedAll values := by
  cases hlet with
  | plain => simpa [defined, definedAll, definition] using hz
  | named => simp [defined, definedAll, definition] at hz

/-- **Where the initial values of a `let` are**: what they define, and the name of the `let`, is bound in their lambda, and
any other name is looked up where the `let` stands. Its variables are bound in neither. -/
theorem IsLet.stand {t : Tree} (hs : t.ScopesAre t.Defines t.scopes) {tops : List String} {chain : Chain}
    (hlet : x.IsLet M k values name O) (hx : t.Stand tops [x] M chain)
    (hown : ∀ z ∈ x.defined, chain.resolve tops z = some M) :
    ∃ d, t.Stand tops values O d ∧ k ∉ handlesAll values ∧ (∀ z, d.resolve tops z ≠ some k) ∧
      ∀ z, d.resolve tops z = if z ∈ name.toList ++ definedAll values then some O else chain.resolve tops z := by
  have hbound {xs : List Term} {O : Handle} {d : Chain} (h : t.Stand tops xs O d) (hk : k ∈ handlesAll xs) (z : String) :
      d.resolve tops z ≠ some k := fun hz =>
    (Chain.mem_of_resolve hz).elim (h.not_mem hk).1 (h.not_mem hk).2.1
  cases hlet with
  | @plain h parameters body =>
    have hdisjoint := (List.nodup_append.mp (List.nodup_cons.mp hx.items.nodup).2).2.1
    refine ⟨chain, hx.items.tail, fun hk => ?_, hbound hx.items (by simp [handlesAll, handles]), fun z => ?_⟩
    · rw [handlesAll] at hdisjoint
      exact (List.nodup_append.mp hdisjoint).2.2 k (by simp [handles]) k hk rfl
    · split
      · next hmem => exact hown z (by simpa [defined, definedAll, definition] using hmem)
      · rfl
  | @named h O define call name parameters body =>
    have hinside := hx.items.body hs
    have hdisjoint := (List.nodup_append.mp (List.nodup_cons.mp hinside.nodup).2).2.1
    refine ⟨_, hinside.tail.items.tail, fun hk => ?_, hbound hinside (by simp [handlesAll, handles]), fun z => ?_⟩
    · simp [handlesAll, handles, hk] at hdisjoint
    · rw [Chain.resolve_enter]
      simp [definedAll, defined, definition]

/-- **A name in an initial value**, here and in the place of the `let`. What is bound in the value is bound there in the same
way; of the other names, those that are bound with the initial values are caught, and the rest is the same. -/
theorem IsLet.resolve_initial {t t' : Tree} (hs : t.ScopesAre t.Defines t.scopes)
    (hs' : t'.ScopesAre t'.Defines t'.scopes) {concerned : String → Prop} {f : Handle → Handle} {tops tops' : List String}
    {d d' : Chain} {v : Term} (hlet : x.IsLet (f M) k values name O) (hv : v.carry f ∈ values)
    (hx : t.Stand tops [x] (f M) d) (hstand : t'.Stand tops' [v] M d')
    (hagree : Agree concerned f tops tops' x (v.carry f) (f M) d d') :
    (∀ w ∈ name.toList ++ definedAll values, t.resolve O w = some O) ∧
      ∀ u ∈ v.uses M, t.resolve (redirect f M O u.1) u.2 ≠ some k ∧
        (concerned u.2 → t.resolve (redirect f M O u.1) u.2 =
          if u.2 ∈ name.toList ++ definedAll values ∧ ∀ h ∈ v.handles, t'.resolve u.1 u.2 ≠ some h then some O
          else (t'.resolve u.1 u.2).map f) := by
  obtain ⟨e, hvalues, hk, hnever, hcaught⟩ := hlet.stand hs hx hagree.own
  refine ⟨fun w hw => by rw [hvalues.resolve, hcaught, if_pos hw], fun u hu => ?_⟩
  obtain ⟨bound, hinside, hthere, hhere⟩ := hstand.exists_bound hs hs' (hvalues.mem hv) hu
  rw [hthere, hhere]
  -- the name is bound within the value, or is looked up from its place
  cases hbinder : bound.binder? u.2 with
  | some h =>
    have hmem := hinside h hbinder
    have hcarried : f h ∈ handlesAll values :=
      (handles_sublist hv).subset (by rw [handles_carry]; exact List.mem_map_of_mem hmem)
    refine ⟨fun heq => hk (Option.some.inj heq ▸ hcarried), fun _ => ?_⟩
    rw [if_neg fun hall => hall.2 h hmem rfl]
    rfl
  | none =>
    rw [Option.map_none, Option.none_or, Option.none_or, hcaught]
    refine ⟨hcaught u.2 ▸ hnever u.2, fun hconcerned => ?_⟩
    -- what binds it out there is no lambda of the value
    have houtside : ∀ h ∈ v.handles, d'.resolve tops' u.2 ≠ some h := fun h hh heq =>
      have hnot := hstand.not_mem (h := h) (by simpa [handlesAll] using hh)
      (Chain.mem_of_resolve heq).elim hnot.1 hnot.2.1
    by_cases hmem : u.2 ∈ name.toList ++ definedAll values
    · rw [if_pos hmem, if_pos ⟨hmem, houtside⟩]
    · rw [if_neg hmem, if_neg fun hall => hmem hall.1]
      have hvalue : u.2 ∉ definedAll values := fun h => hmem (List.mem_append_right _ h)
      have hdefined : u.2 ∉ (v.carry f).defined := fun h => hvalue (by rw [definedAll_eq]; exact List.mem_flatMap_of_mem hv h)
      refine hagree.same u.2 hconcerned (iff_of_false ?_ hdefined)
      exact fun h => hvalue (hlet.mem_definedAll h)

/-- An initial value is a part of its `let`. -/
theorem IsLet.sub (hlet : x.IsLet M k values name O) {v : Term} (hv : v ∈ values) : Sub v x := by
  cases hlet with
  | plain => exact .item (List.mem_cons_of_mem _ hv) (.refl v)
  | named =>
    refine .item List.mem_cons_self (.body (List.mem_cons_of_mem _ List.mem_cons_self) ?_)
    exact .item (List.mem_cons_of_mem _ hv) (.refl v)

end

theorem Sub.definite {x y : Term} (h : Sub x y) (hy : y.Definite) : x.Definite := by
  induction h with
  | refl => exact hy
  | body hmem _ ih => exact ih (definiteAll_iff.mp hy _ hmem)
  | item hmem _ ih => exact ih (definiteAll_iff.mp hy.2 _ hmem)

theorem Instead.sub {x y X Y : Term} {N M : Handle} (h : Instead x y N M X Y) : Sub x X := by
  induction h with
  | here => exact .refl x
  | body before after _ ih => exact .body (by simp) ih
  | item before after _ ih => exact .item (by simp) ih

end Term

namespace Tree

/-- The scopes of an analysed program. -/
theorem Holds.exists_scopes {t₀ t : Tree} {roots : List Term} (hh : t₀.Holds roots) (hfresh : t₀.analysed = false)
    (hanalyse : t₀.analyse = .ok t) :
    ∃ u : Tree, u.Holds roots ∧ u.ScopesAre u.Defines u.scopes ∧ ∀ M w, t.resolve M w = u.resolve M w := by
  obtain ⟨u, hu, hs, rfl⟩ := hh.analyse_eq_ok hfresh hanalyse
  refine ⟨u, hh.of_scopes hu, hs, fun M w => ?_⟩
  have hfrom : ∀ fuel M, u.renameVariables.markTailCalls.resolveFrom w fuel M = u.resolveFrom w fuel M := by
    intro fuel
    induction fuel with
    | zero => exact fun _ => rfl
    | succ fuel ih =>
      intro M
      simp only [resolveFrom, ih]
      rfl
  exact hfrom _ M

/-- **Where one term stands instead of another**, in two programs whose terms are the same elsewhere: in the body of the top
lambda, or in a term that hangs nowhere. -/
theorem Holds.exists_place {t t' : Tree} {body strays body' strays' before after after' : List Term} {x y X Y : Term}
    {N : Handle} {f : Handle → Handle} {concerned : String → Prop} (hh : t.Holds (.lambda Tree.top [] body :: strays))
    (hh' : t'.Holds (.lambda Tree.top [] body' :: strays')) (hs : t.ScopesAre t.Defines t.scopes)
    (hs' : t'.ScopesAre t'.Defines t'.scopes) (hXY : Term.Instead x y N Tree.top X Y) (hx : ∀ a, x ≠ .atom a)
    (hlambda : ∀ h parameters items, x ≠ .lambda h parameters items) (hy : y ≠ .atom (.keyword "define"))
    (hX : X.Definite) (htop : f Tree.top = Tree.top)
    (hbare : ∀ h parameters items, Y = .lambda h parameters items → ∃ k ps xs, X = .lambda k ps xs)
    (hroots : .lambda Tree.top [] body :: strays = before ++ X :: after)
    (hroots' : carryAll f (.lambda Tree.top [] body' :: strays') = before ++ Y :: after')
    (hnames : ∀ z, concerned z → (z ∈ definedAll after ↔ z ∈ definedAll after')) :
    ∃ tops tops' y' N' d d', y'.carry f = y ∧ f N' = N ∧ t.Stand tops [x] N d ∧ t'.Stand tops' [y'] N' d' ∧
      Agree concerned f tops tops' x y N d d' := by
  rw [carryAll, carry, htop] at hroots'
  cases before with
  | nil =>
    -- in the body of the top lambda
    obtain ⟨rfl, rfl⟩ := List.cons.inj hroots
    obtain ⟨hbody', hstrays'⟩ := List.cons.inj hroots'
    cases hXY with
    | here => exact absurd rfl (hlambda _ _ _)
    | @body _ _ _ first last X Y hXY =>
      obtain ⟨-, -, hbody'⟩ := Term.lambda.inj hbody'
      obtain ⟨ys, Z, zs, rfl, hys, rfl, hzs⟩ := carryAll_eq_middle hbody'
      refine ⟨_, _, hXY.stand hs hs' hx hy (definiteAll_append.mp hX).2.1 rfl htop ((hh.stand hs).mem (by simp))
        ((hh'.stand hs').mem (by simp)) (Agree.top htop (fun z hz hsame => ?_) fun z hz => ?_)⟩
      · rw [← definedAll_carryAll f strays', hstrays', ← definedAll_carryAll f (ys ++ Z :: zs), hbody', List.mem_append,
          List.mem_append, hnames z hz]
        simp only [definedAll_eq, List.flatMap_append, List.flatMap_cons, List.mem_append, hsame]
      · simp only [definedAll_eq, List.flatMap_append, List.flatMap_cons, List.mem_append, hz, true_or, or_true]
  | cons _ before =>
    -- in a term that hangs nowhere
    rw [List.cons_append] at hroots hroots'
    obtain ⟨rfl, rfl⟩ := List.cons.inj hroots
    obtain ⟨hbody', hstrays'⟩ := List.cons.inj hroots'
    obtain ⟨-, -, hbody'⟩ := Term.lambda.inj hbody'
    obtain ⟨ys, Z, zs, rfl, hys, hZ, hzs⟩ := carryAll_eq_middle hstrays'
    by_cases hcut : ∃ k ps xs, X = .lambda k ps xs
    · obtain ⟨k, ps, xs, rfl⟩ := hcut
      cases hXY with
      | here => exact absurd rfl (hlambda _ _ _)
      | @body _ _ _ first last X Y hXY =>
        cases Z with
        | lambda k' ps' xs' =>
          obtain ⟨hk, rfl, hbody⟩ := Term.lambda.inj hZ
          obtain ⟨us, W, vs, rfl, hus, hW, hvs⟩ := carryAll_eq_middle hbody
          refine ⟨_, _, hXY.stand hs hs' hx hy (definiteAll_append.mp hX).2.1 hW hk
            ((hh.stand_stray_lambda hs (List.mem_append_right _ List.mem_cons_self)).mem (by simp))
            ((hh'.stand_stray_lambda hs' (List.mem_append_right _ List.mem_cons_self)).mem (by simp))
            (Agree.body hk ?_ Agree.nowhere)⟩
          rw [← hbody, definedAll_carryAll]
        | _ => cases hZ
    · have hcut' : ∀ h ps xs, Z ≠ .lambda h ps xs := by
        rintro h ps xs rfl
        exact hcut (hbare _ _ _ hZ.symm)
      refine ⟨_, _, hXY.stand hs hs' hx hy hX hZ htop
        (hh.stand_stray hs (List.mem_append_right _ List.mem_cons_self) fun h ps xs heq => hcut ⟨h, ps, xs, heq⟩)
        (hh'.stand_stray hs' (List.mem_append_right _ List.mem_cons_self) hcut')
        (Agree.top htop (fun z hz hsame => ?_) fun z hz => ?_)⟩
      · rw [← definedAll_carryAll f body', hbody', ← definedAll_carryAll f (ys ++ Z :: zs), hstrays']
        simp only [definedAll_eq, List.flatMap_append, List.flatMap_cons, List.mem_append, hsame] at hnames ⊢
        rw [hnames z hz]
      · simp only [definedAll_eq, List.flatMap_append, List.flatMap_cons, List.mem_append, hz, true_or, or_true]

/-- **What the initial values of a `let` refer to.** Take a program that is analysed and a `let` in it, be it in a clause that
is dropped, and put one of the initial values in the place of the whole `let`, unless it is the bare word `define`. That is a
program which can be analysed too. The terms of the two programs are the same but in that place, and `f` takes the handles of
the second to those of the first. Then a name in the initial value refers to the same lambda in both. There is one exception:
what an initial value defines, and the name that the `let` may have, is bound in the lambda `O` in which the initial values
are, and is caught there. This is the lambda around the `let`, or the one that a named `let` makes. The variables of the `let`
are never referred to. Nothing is said here of names that are defined in a dropped clause within the `let`. -/
theorem analyse_letIn {tokens : List Token} {forms forms' : List Form} {t : Tree} {s bodySpan : Span}
    {name : Option String} {names : List String} {early late body : List Form} {initial : Form}
    (hparse : Form.parse tokens = .ok forms) (hanalyse : (ofForms forms).analyse = .ok t)
    (hinstead : Form.InsteadAll (.letIn s bodySpan name names (early ++ initial :: late) body) initial forms forms')
    (hinitial : initial.sketch ≠ .atom (.keyword "define")) :
    ∃ (t' : Tree) (roots roots' : List Term) (f : Handle → Handle) (x v : Term) (M O k : Handle) (before after : List Term),
      (ofForms forms').analyse = .ok t' ∧ (ofForms forms).Holds roots ∧ (ofForms forms').Holds roots' ∧
      InsteadAll x (v.carry f) (f M) roots (carryAll f roots') ∧
      x.blank = (Form.letIn s bodySpan name names (early ++ initial :: late) body).sketch ∧ v.blank = initial.sketch ∧
      before.length = early.length ∧ x.IsLet (f M) k (before ++ v.carry f :: after) name O ∧
      (∀ w ∈ name.toList ++ definedAll (before ++ v.carry f :: after), t.resolve O w = some O) ∧
      ∀ u ∈ v.uses M, t.resolve (redirect f M O u.1) u.2 ≠ some k ∧
        (u.2 ∉ definedAll
            (Form.sketchAll (Form.letIn s bodySpan name names (early ++ initial :: late) body).dropped) →
          t.resolve (redirect f M O u.1) u.2 =
            if u.2 ∈ name.toList ++ definedAll (before ++ v.carry f :: after) ∧
                ∀ h ∈ v.handles, t'.resolve u.1 u.2 ≠ some h then some O
            else (t'.resolve u.1 u.2).map f) := by
  have hlegal := Form.legal_parse hparse
  have hlegal' : Form.LegalAll .code forms' := by
    refine hinstead.legal (fun layer hl => ?_) hlegal
    obtain ⟨rfl, hinitials, -⟩ := hl
    exact ((Form.legalAll_append _ _).mp hinitials).2.1
  obtain ⟨top, strays, hholds, hbecome, hfresh⟩ := holds_ofForms hlegal
  obtain ⟨top', strays', hholds', hbecome', hfresh'⟩ := holds_ofForms hlegal'
  have hpart : ∃ first last, (Form.letIn s bodySpan name names (early ++ initial :: late) body).dropped =
      first ++ initial.dropped ++ last :=
    ⟨Form.droppedAll early, Form.droppedAll late ++ Form.droppedAll body,
      by simp [Form.dropped, Form.droppedAll_append, Form.droppedAll]⟩
  have hlambda : ∀ parameters items,
      (Form.letIn s bodySpan name names (early ++ initial :: late) body).sketch ≠ .lambda 0 parameters items := by
    cases name <;> exact nofun
  obtain ⟨first, X, last, x, N, hroots, hx, hall⟩ :=
    hinstead.exists_carry hlambda hpart hbecome hbecome' hholds'.handles_nodup
  -- the term of the `let`, and the initial value in it
  have hsketch := hx
  rw [Form.sketch, Form.sketchAll_append, Form.sketchAll] at hsketch
  obtain ⟨k, O, values, hlet, hvalues⟩ := exists_isLet hsketch N
  obtain ⟨before, y, after, rfl, hbefore, hy, hafter⟩ := blankAll_eq_middle hvalues
  obtain ⟨Y, last', f, hXY, htop, hbare, hroots', hsub, hnames⟩ := hall y hy
  have hcompound : ∀ a, x ≠ .atom a := by cases hlet <;> exact nofun
  have hcall : ∀ h parameters items, x ≠ .lambda h parameters items := by cases hlet <;> exact nofun
  have hdefine : y ≠ .atom (.keyword "define") := by
    rintro rfl
    exact hinitial hy.symm
  -- the other program is analysed as well
  have hdefinite := (hholds.exists_analyse_iff hfresh).mp ⟨t, hanalyse⟩
  rw [hroots] at hdefinite
  obtain ⟨hfirst, hX, hlast⟩ := definiteAll_append.mp hdefinite
  have hY : Y.Definite := hXY.definite hcompound hdefine ((hlet.sub (by simp)).definite (hXY.sub.definite hX)) hX
  obtain ⟨t', hanalyse'⟩ : ∃ t', (ofForms forms').analyse = .ok t' := by
    refine (hholds'.exists_analyse_iff hfresh').mpr ?_
    rw [← definiteAll_blankAll, ← blankAll_carryAll f, definiteAll_blankAll, hroots']
    exact definiteAll_append.mpr ⟨hfirst, hY, definiteAll_iff.mpr fun z hz => definiteAll_iff.mp hlast z (hsub.subset hz)⟩
  obtain ⟨u, hu, hs, hresolve⟩ := hholds.exists_scopes hfresh hanalyse
  obtain ⟨u', hu', hs', hresolve'⟩ := hholds'.exists_scopes hfresh' hanalyse'
  obtain ⟨_, _, v, M, d, d', rfl, rfl, hlets, hvalue, hplace⟩ :=
    hu.exists_place hu' hs hs' hXY hcompound hcall hdefine hX htop hbare hroots hroots' hnames
  obtain ⟨hown, hnames⟩ := hlet.resolve_initial hs hs' (by simp) hlets hvalue hplace
  refine ⟨t', _, _, f, x, v, M, O, k, before, after, hanalyse', hholds, hholds',
    ⟨first, X, Y, last, last', hXY, hsub, hroots, hroots'⟩, hx, by rw [← hy, blank_carry], ?_, hlet, ?_, ?_⟩
  · rw [← length_blankAll, hbefore, Form.sketchAll_eq, List.length_map]
  · simpa only [hresolve] using hown
  · simpa only [hresolve, hresolve'] using hnames

/-- The words of `(let loop ((x loop)) x)`. -/
def loopTokens : List Token :=
  [⟨.open, 0, 1, 1, 1⟩, ⟨.symbol "let", 1, 4, 1, 2⟩, ⟨.symbol "loop", 5, 9, 1, 6⟩, ⟨.open, 10, 11, 1, 11⟩,
    ⟨.open, 11, 12, 1, 12⟩, ⟨.symbol "x", 12, 13, 1, 13⟩, ⟨.symbol "loop", 14, 18, 1, 15⟩, ⟨.close, 18, 19, 1, 19⟩,
    ⟨.close, 19, 20, 1, 20⟩, ⟨.symbol "x", 21, 22, 1, 22⟩, ⟨.close, 22, 23, 1, 23⟩, ⟨.endOfText, 23, 23, 1, 24⟩]

/-- The form that they are read as. -/
def loopForms : List Form :=
  [.letIn ⟨0, 1, 1, 1⟩ ⟨0, 23, 1, 1⟩ (some "loop") ["x"] [.atom (.variable "loop")] [.atom (.variable "x")]]

/-- In the initial value, `loop` is the lambda that is defined around it. -/
theorem analyse_letIn_loop :
    ∃ (t : Tree) (x : Term) (M O k : Handle) (values : List Term), (ofForms loopForms).analyse = .ok t ∧
      x.IsLet M k values (some "loop") O ∧ t.resolve O "loop" = some O := by
  have hanalysed : ((ofForms loopForms).analyse).toOption.isSome = true := by decide
  cases hanalyse : (ofForms loopForms).analyse with
  | error e => rw [hanalyse] at hanalysed; cases hanalysed
  | ok t =>
    have hinstead : Form.InsteadAll (.letIn ⟨0, 1, 1, 1⟩ ⟨0, 23, 1, 1⟩ (some "loop") ["x"] ([] ++ [.atom (.variable "loop")])
        [.atom (.variable "x")]) (.atom (.variable "loop")) loopForms [.atom (.variable "loop")] :=
      .kept [] [] .here
    have hparse : Form.parse loopTokens = .ok loopForms := rfl
    obtain ⟨_, _, _, f, x, v, M, O, k, before, after, -, -, -, -, -, -, -, hlet, hown, -⟩ :=
      analyse_letIn hparse hanalyse hinstead nofun
    exact ⟨t, x, f M, O, k, _, rfl, hlet, hown "loop" List.mem_cons_self⟩

/-- **A named `let` catches its name in its initial values**, and any `let` what another one of them defines. In each pair
of programs the second has an initial value in the place of the `let`. -/
theorem analyse_letIn_caught :
    ∃ t t' u u', (Tree.parse "(define loop #t) (let loop ((x loop)) x)" >>= Tree.analyse) = .ok t ∧
      (Tree.parse "(define loop #t) loop" >>= Tree.analyse) = .ok t' ∧
      t.renderProgram id =
        "(define &0.loop #t)\n((lambda () (define &4.loop (lambda (&3.x) &3.x)) (&4.loop &4.loop)))" ∧
      t'.renderProgram id = "(define &0.loop #t)\n&0.loop" ∧
      (Tree.parse "(let ((x (define z #t)) (y z)) y)" >>= Tree.analyse) = .ok u ∧
      (Tree.parse "z" >>= Tree.analyse) = .ok u' ∧
      u.renderProgram id = "((lambda (&3.x &3.y) &3.y) (define &0.z #t) &0.z)" ∧ u'.renderProgram id = "z" := by
  have hrun : (do
      let t ← (Tree.parse "(define loop #t) (let loop ((x loop)) x)" >>= Tree.analyse).toOption
      let t' ← (Tree.parse "(define loop #t) loop" >>= Tree.analyse).toOption
      let u ← (Tree.parse "(let ((x (define z #t)) (y z)) y)" >>= Tree.analyse).toOption
      let u' ← (Tree.parse "z" >>= Tree.analyse).toOption
      return decide (
        t.renderProgram id =
          "(define &0.loop #t)\n((lambda () (define &4.loop (lambda (&3.x) &3.x)) (&4.loop &4.loop)))" ∧
        t'.renderProgram id = "(define &0.loop #t)\n&0.loop" ∧
        u.renderProgram id = "((lambda (&3.x &3.y) &3.y) (define &0.z #t) &0.z)" ∧
        u'.renderProgram id = "z")) = some true := by
    decide +kernel
  simp only [Option.bind_eq_bind, Option.pure_def, Option.bind_eq_some_iff, Except.toOption_eq_some, Option.some.injEq,
    decide_eq_true_eq] at hrun
  obtain ⟨t, ht, t', ht', u, hu, u', hu', h1, h2, h3, h4⟩ := hrun
  exact ⟨t, t', u, u', ht, ht', h1, h2, hu, hu', h3, h4⟩

end Tree

end SchemeMachine
