import SchemeMachine.Proofs.Syntax.Term

/-!
# Sketches

The same syntax can stand in a tree under different handles. A *sketch* is a term with all its handles erased, and what
a text means is given by sketches alone: spans and handles say where something stands, not what it is.

* `Term.blank` erases the handles of a term, `Form.sketch` is the sketch of the term that a form becomes.
* `Term.carry` moves a term to other handles. Terms with the same sketch are copies of each other: each is the other one
  moved (`Term.exists_carry`).
* `Form.dropped` are the clauses that stand after an `else` clause; `Form.Trim` says that there are none.
* `Form.unplaced` is a form without its places; two forms are the same but for their places if they agree without them.
-/

namespace SchemeMachine

namespace Term

mutual

/-- **The sketch of a term**: all handles are erased. -/
def blank : Term → Term
  | .atom a => .atom a
  | .string _ content => .string 0 content
  | .lambda _ parameters body => .lambda 0 parameters (blankAll body)
  | .application _ quotation items => .application 0 quotation (blankAll items)

/-- The sketches of several terms. -/
def blankAll : List Term → List Term
  | [] => []
  | x :: xs => blank x :: blankAll xs

end

theorem blankAll_eq (xs : List Term) : blankAll xs = xs.map blank := by
  induction xs with
  | nil => rfl
  | cons x xs ih => rw [blankAll, ih, List.map_cons]

@[simp] theorem blankAll_append (xs ys : List Term) : blankAll (xs ++ ys) = blankAll xs ++ blankAll ys := by
  simp only [blankAll_eq, List.map_append]

@[simp] theorem length_blankAll (xs : List Term) : (blankAll xs).length = xs.length := by
  rw [blankAll_eq, List.length_map]

theorem blankAll_eq_cons {xs : List Term} {y : Term} {ys : List Term} (h : blankAll xs = y :: ys) :
    ∃ x xs', xs = x :: xs' ∧ x.blank = y ∧ blankAll xs' = ys := by
  cases xs with
  | nil => cases h
  | cons x xs => exact ⟨x, xs, rfl, List.cons.inj h⟩

theorem blankAll_eq_nil {xs : List Term} (h : blankAll xs = []) : xs = [] := by
  cases xs with
  | nil => rfl
  | cons x xs => cases h

theorem blankAll_eq_append {xs before after : List Term} (h : blankAll xs = before ++ after) :
    ∃ ys zs, xs = ys ++ zs ∧ blankAll ys = before ∧ blankAll zs = after := by
  rw [blankAll_eq] at h
  obtain ⟨ys, zs, rfl, hys, hzs⟩ := List.map_eq_append_iff.mp h
  exact ⟨ys, zs, rfl, by rw [blankAll_eq, hys], by rw [blankAll_eq, hzs]⟩

theorem blankAll_eq_middle {xs before after : List Term} {x : Term} (h : blankAll xs = before ++ x :: after) :
    ∃ ys y zs, xs = ys ++ y :: zs ∧ blankAll ys = before ∧ y.blank = x ∧ blankAll zs = after := by
  obtain ⟨ys, rest, rfl, hys, hrest⟩ := blankAll_eq_append h
  obtain ⟨y, zs, rfl, hy, hzs⟩ := blankAll_eq_cons hrest
  exact ⟨ys, y, zs, rfl, hys, hy, hzs⟩

/-! ### Moving a term -/

mutual

/-- **A term under other handles.** -/
def carry (f : Handle → Handle) : Term → Term
  | .atom a => .atom a
  | .string h content => .string (f h) content
  | .lambda h parameters body => .lambda (f h) parameters (carryAll f body)
  | .application h quotation items => .application (f h) quotation (carryAll f items)

/-- Several terms under other handles. -/
def carryAll (f : Handle → Handle) : List Term → List Term
  | [] => []
  | x :: xs => carry f x :: carryAll f xs

end

theorem carryAll_eq (f : Handle → Handle) (xs : List Term) : carryAll f xs = xs.map (carry f) := by
  induction xs with
  | nil => rfl
  | cons x xs ih => rw [carryAll, ih, List.map_cons]

@[simp] theorem carryAll_append (f : Handle → Handle) (xs ys : List Term) :
    carryAll f (xs ++ ys) = carryAll f xs ++ carryAll f ys := by
  simp only [carryAll_eq, List.map_append]

mutual

/-- Only the handles of a term matter to where it goes. -/
theorem carry_congr {f g : Handle → Handle} : (x : Term) → (∀ h ∈ x.handles, f h = g h) → x.carry f = x.carry g
  | .atom _, _ => rfl
  | .string h _, hfg => by rw [carry, carry, hfg h (by simp [handles])]
  | .lambda h _ body, hfg => by
    rw [carry, carry, hfg h (by simp [handles]), carryAll_congr body fun j hj => hfg j (by simp [handles, hj])]
  | .application h _ items, hfg => by
    rw [carry, carry, hfg h (by simp [handles]), carryAll_congr items fun j hj => hfg j (by simp [handles, hj])]

theorem carryAll_congr {f g : Handle → Handle} :
    (xs : List Term) → (∀ h ∈ handlesAll xs, f h = g h) → carryAll f xs = carryAll g xs
  | [], _ => rfl
  | x :: xs, hfg => by
    rw [carryAll, carryAll, carry_congr x fun j hj => hfg j (by simp [handlesAll, hj]),
      carryAll_congr xs fun j hj => hfg j (by simp [handlesAll, hj])]

end

mutual

theorem handles_carry (f : Handle → Handle) : (x : Term) → (x.carry f).handles = x.handles.map f
  | .atom _ => rfl
  | .string _ _ => rfl
  | .lambda h _ body => by rw [carry, handles, handles, handlesAll_carryAll f body, List.map_cons]
  | .application h _ items => by rw [carry, handles, handles, handlesAll_carryAll f items, List.map_cons]

theorem handlesAll_carryAll (f : Handle → Handle) :
    (xs : List Term) → handlesAll (carryAll f xs) = (handlesAll xs).map f
  | [] => rfl
  | x :: xs => by
    rw [carryAll, handlesAll, handlesAll, handles_carry f x, handlesAll_carryAll f xs, List.map_append]

end

/-- Send one handle somewhere, the others where `f` sends them. -/
def redirect (f : Handle → Handle) (h k : Handle) : Handle → Handle := fun j => if j = h then k else f j

theorem redirect_of_ne {f : Handle → Handle} {h k j : Handle} (hj : j ≠ h) : redirect f h k j = f j := if_neg hj

theorem redirect_self (f : Handle → Handle) (h k : Handle) : redirect f h k h = k := if_pos rfl

mutual

/-- **Terms with the same sketch are copies of each other.** -/
theorem exists_carry : {x y : Term} → x.blank = y.blank → x.handles.Nodup → ∃ f, x.carry f = y
  | .atom a, .atom b, h, _ => ⟨id, h⟩
  | .string h content, .string k content', heq, _ => by
    cases heq
    exact ⟨redirect id h k, by rw [carry, redirect_self]⟩
  | .lambda h parameters body, .lambda k parameters' body', heq, hn => by
    simp only [blank, Term.lambda.injEq, true_and] at heq
    obtain ⟨rfl, heq⟩ := heq
    simp only [handles, List.nodup_cons] at hn
    obtain ⟨f, hf⟩ := exists_carryAll heq hn.2
    have hothers : carryAll (redirect f h k) body = carryAll f body :=
      carryAll_congr body fun j hj => redirect_of_ne fun hjh => hn.1 (hjh ▸ hj)
    exact ⟨redirect f h k, by rw [carry, redirect_self, hothers, hf]⟩
  | .application h quotation items, .application k quotation' items', heq, hn => by
    simp only [blank, Term.application.injEq, true_and] at heq
    obtain ⟨rfl, heq⟩ := heq
    simp only [handles, List.nodup_cons] at hn
    obtain ⟨f, hf⟩ := exists_carryAll heq hn.2
    have hothers : carryAll (redirect f h k) items = carryAll f items :=
      carryAll_congr items fun j hj => redirect_of_ne fun hjh => hn.1 (hjh ▸ hj)
    exact ⟨redirect f h k, by rw [carry, redirect_self, hothers, hf]⟩

/-- Several terms with the same sketches. -/
theorem exists_carryAll : {xs ys : List Term} → blankAll xs = blankAll ys → (handlesAll xs).Nodup →
    ∃ f, carryAll f xs = ys
  | [], [], _, _ => ⟨id, rfl⟩
  | x :: xs, y :: ys, heq, hn => by
    simp only [blankAll, List.cons.injEq] at heq
    simp only [handlesAll, List.nodup_append] at hn
    obtain ⟨hx, hxs, hdisjoint⟩ := hn
    obtain ⟨f, hf⟩ := exists_carry heq.1 hx
    obtain ⟨g, hg⟩ := exists_carryAll heq.2 hxs
    -- on the handles of the first term as for it, on all others as for the rest
    refine ⟨fun j => if j ∈ x.handles then f j else g j, ?_⟩
    rw [carryAll, ← hf, ← hg]
    rw [carry_congr x fun j hj => if_pos hj,
      carryAll_congr xs fun j hj => if_neg fun hjx => hdisjoint j hjx j hj rfl]

end

end Term

/-! ### Forms -/

namespace Form

/-- Names without repetitions, as a lambda takes them on. -/
def distinct (names : List String) : List String :=
  names.foldl (fun seen name => if name ∈ seen then seen else seen ++ [name]) []

/-- The sketch of the body of a clause. -/
def sketchSequence : List Term → Term
  | [single] => single
  | several => .application 0 .code (.atom (.keyword "begin") :: several)

/-- The sketch of a `let`: an application of its lambda, or of a lambda that defines its name and calls it. -/
def sketchLet (name : Option String) (names : List String) (initials body : List Term) : Term :=
  let procedure := Term.lambda 0 (distinct names) body
  match name with
  | none => .application 0 .code (procedure :: initials)
  | some name =>
    .application 0 .code [.lambda 0 []
      [.application 0 .code [.atom (.keyword "define"), .atom (.variable name), procedure],
        .application 0 .code (.atom (.variable name) :: initials)]]

/-- The sketch of a clause of `cond`. -/
def sketchClause (test : Option Term) (body : List Term) (rest : Option Term) : Term :=
  match test with
  | none => sketchSequence body
  | some test => .application 0 .code (.atom (.keyword "if") :: test :: sketchSequence body :: rest.toList)

mutual

/-- **The sketch of the term that a form becomes.** -/
def sketch : Form → Term
  | .atom a => .atom a
  | .string _ content => .string 0 content
  | .group quotation _ items => .application 0 quotation (sketchAll items)
  | .lambda _ parameters body => .lambda 0 (distinct parameters) (sketchAll body)
  | .procedure _ _ name parameters body =>
    .application 0 .code [.atom (.keyword "define"), .atom (.variable name),
      .lambda 0 (distinct parameters) (sketchAll body)]
  | .letIn _ _ name names initials body => sketchLet name names (sketchAll initials) (sketchAll body)
  | .clause _ test body rest => sketchClause (sketchOption test) (sketchAll body) (sketchOption rest)

/-- The sketches of several forms. -/
def sketchAll : List Form → List Term
  | [] => []
  | f :: fs => sketch f :: sketchAll fs

/-- The sketch of a form that may be missing. -/
def sketchOption : Option Form → Option Term
  | none => none
  | some f => some (sketch f)

end

theorem sketchAll_eq (fs : List Form) : sketchAll fs = fs.map sketch := by
  induction fs with
  | nil => rfl
  | cons f fs ih => rw [sketchAll, ih, List.map_cons]

@[simp] theorem sketchAll_append (fs gs : List Form) : sketchAll (fs ++ gs) = sketchAll fs ++ sketchAll gs := by
  simp only [sketchAll_eq, List.map_append]

mutual

/-- **No clause is dropped**: an `else` clause has no clauses after it. -/
def Trim : Form → Prop
  | .atom _ => True
  | .string _ _ => True
  | .group _ _ items => TrimAll items
  | .lambda _ _ body => TrimAll body
  | .procedure _ _ _ _ body => TrimAll body
  | .letIn _ _ _ _ initials body => TrimAll initials ∧ TrimAll body
  | .clause _ test body rest => TrimOption test ∧ TrimAll body ∧ TrimOption rest ∧ (test.isNone → rest.isNone)

/-- No clause is dropped in any of several forms. -/
def TrimAll : List Form → Prop
  | [] => True
  | f :: fs => Trim f ∧ TrimAll fs

/-- No clause is dropped in a form that may be missing. -/
def TrimOption : Option Form → Prop
  | none => True
  | some f => Trim f

end

mutual

/-- **The clauses that are dropped**, each with those after it: they stand after an `else` clause. -/
def dropped : Form → List Form
  | .atom _ => []
  | .string _ _ => []
  | .group _ _ items => droppedAll items
  | .lambda _ _ body => droppedAll body
  | .procedure _ _ _ _ body => droppedAll body
  | .letIn _ _ _ _ initials body => droppedAll initials ++ droppedAll body
  | .clause _ test body rest =>
    (if test.isNone then rest.toList else []) ++ (droppedOption test ++ (droppedAll body ++ droppedOption rest))

/-- The clauses that are dropped in any of several forms. -/
def droppedAll : List Form → List Form
  | [] => []
  | f :: fs => dropped f ++ droppedAll fs

/-- The clauses that are dropped in a form that may be missing. -/
def droppedOption : Option Form → List Form
  | none => []
  | some f => dropped f

end

mutual

theorem Trim.dropped : (f : Form) → f.Trim → f.dropped = []
  | .atom _, _ => rfl
  | .string _ _, _ => rfl
  | .group _ _ items, h => TrimAll.dropped items h
  | .lambda _ _ body, h => TrimAll.dropped body h
  | .procedure _ _ _ _ body, h => TrimAll.dropped body h
  | .letIn _ _ _ _ initials body, h => by
    rw [Form.dropped, TrimAll.dropped initials h.1, TrimAll.dropped body h.2, List.append_nil]
  | .clause _ test body rest, ⟨htest, hbody, hrest, hlast⟩ => by
    have hnone : (if test.isNone then rest.toList else []) = [] := by
      split
      · next hmissing => rw [Option.isNone_iff_eq_none.mp (hlast hmissing)]; rfl
      · rfl
    rw [Form.dropped, hnone, TrimOption.dropped test htest, TrimAll.dropped body hbody, TrimOption.dropped rest hrest]
    rfl

theorem TrimAll.dropped : (fs : List Form) → TrimAll fs → droppedAll fs = []
  | [], _ => rfl
  | f :: fs, h => by rw [droppedAll, Trim.dropped f h.1, TrimAll.dropped fs h.2, List.append_nil]

theorem TrimOption.dropped : (o : Option Form) → TrimOption o → droppedOption o = []
  | none, _ => rfl
  | some f, h => Trim.dropped f h

end

mutual

/-- **A form whose nodes come in the order of the text.** As the nodes of initial values come before the lambda of a `let`, and
those in a clause before its `if`, there are to be none: these forms are to become atoms. -/
def Plain : Form → Prop
  | .atom _ => True
  | .string _ _ => True
  | .group _ _ items => PlainAll items
  | .lambda _ _ body => PlainAll body
  | .procedure _ _ _ _ body => PlainAll body
  | .letIn _ _ name _ initials body =>
    name = none ∧ (TrimAll initials ∧ ∃ atoms : List Atom, sketchAll initials = atoms.map .atom) ∧ PlainAll body
  | .clause s test body rest =>
    test.isSome ∧ Trim (.clause s test body rest) ∧
      ∃ atoms : List Atom, sketch (.clause s test body rest) = .application 0 .code (atoms.map .atom)

/-- Several forms whose nodes come in the order of the text. -/
def PlainAll : List Form → Prop
  | [] => True
  | f :: fs => Plain f ∧ PlainAll fs

end

mutual

theorem Plain.trim : (f : Form) → f.Plain → f.Trim
  | .atom _, _ => trivial
  | .string _ _, _ => trivial
  | .group _ _ items, h => PlainAll.trimAll items h
  | .lambda _ _ body, h => PlainAll.trimAll body h
  | .procedure _ _ _ _ body, h => PlainAll.trimAll body h
  | .letIn _ _ _ _ _ body, h => ⟨h.2.1.1, PlainAll.trimAll body h.2.2⟩
  | .clause _ _ _ _, h => h.2.1

theorem PlainAll.trimAll : (fs : List Form) → PlainAll fs → TrimAll fs
  | [], _ => trivial
  | f :: fs, h => ⟨Plain.trim f h.1, PlainAll.trimAll fs h.2⟩

end

/-! ### Places -/

mutual

/-- **A form without its places.** -/
def unplaced : Form → Form
  | .atom a => .atom a
  | .string _ content => .string .unplaced content
  | .group quotation _ items => .group quotation .unplaced (unplacedAll items)
  | .lambda _ parameters body => .lambda .unplaced parameters (unplacedAll body)
  | .procedure _ _ name parameters body => .procedure .unplaced .unplaced name parameters (unplacedAll body)
  | .letIn _ _ name names initials body =>
    .letIn .unplaced .unplaced name names (unplacedAll initials) (unplacedAll body)
  | .clause _ test body rest => .clause .unplaced (unplacedOption test) (unplacedAll body) (unplacedOption rest)

/-- Several forms without their places. -/
def unplacedAll : List Form → List Form
  | [] => []
  | f :: fs => unplaced f :: unplacedAll fs

/-- A form that may be missing, without its places. -/
def unplacedOption : Option Form → Option Form
  | none => none
  | some f => some (unplaced f)

end

theorem isNone_unplacedOption (o : Option Form) : (unplacedOption o).isNone = o.isNone := by
  cases o <;> rfl

theorem isEmpty_of_unplacedAll {fs gs : List Form} (h : unplacedAll gs = unplacedAll fs) : gs.isEmpty = fs.isEmpty := by
  cases fs <;> cases gs <;> first | rfl | cases h

mutual

/-- Places do not matter to the sketch of a form. -/
theorem sketch_unplaced : (f : Form) → f.unplaced.sketch = f.sketch
  | .atom _ => rfl
  | .string _ _ => rfl
  | .group _ _ items => by rw [unplaced, sketch, sketch, sketchAll_unplacedAll items]
  | .lambda _ _ body => by rw [unplaced, sketch, sketch, sketchAll_unplacedAll body]
  | .procedure _ _ _ _ body => by rw [unplaced, sketch, sketch, sketchAll_unplacedAll body]
  | .letIn _ _ _ _ initials body => by
    rw [unplaced, sketch, sketch, sketchAll_unplacedAll initials, sketchAll_unplacedAll body]
  | .clause _ test body rest => by
    rw [unplaced, sketch, sketch, sketchOption_unplacedOption test, sketchAll_unplacedAll body,
      sketchOption_unplacedOption rest]

theorem sketchAll_unplacedAll : (fs : List Form) → sketchAll (unplacedAll fs) = sketchAll fs
  | [] => rfl
  | f :: fs => by rw [unplacedAll, sketchAll, sketchAll, sketch_unplaced f, sketchAll_unplacedAll fs]

theorem sketchOption_unplacedOption : (o : Option Form) → sketchOption (unplacedOption o) = sketchOption o
  | none => rfl
  | some f => congrArg some (sketch_unplaced f)

end

mutual

/-- Places do not matter to what is dropped. -/
theorem trim_unplaced : (f : Form) → (f.unplaced.Trim ↔ f.Trim)
  | .atom _ => Iff.rfl
  | .string _ _ => Iff.rfl
  | .group _ _ items => trimAll_unplacedAll items
  | .lambda _ _ body => trimAll_unplacedAll body
  | .procedure _ _ _ _ body => trimAll_unplacedAll body
  | .letIn _ _ _ _ initials body => and_congr (trimAll_unplacedAll initials) (trimAll_unplacedAll body)
  | .clause _ test body rest => by
    have hlast : ((unplacedOption test).isNone → (unplacedOption rest).isNone) ↔ (test.isNone → rest.isNone) := by
      rw [isNone_unplacedOption, isNone_unplacedOption]
    exact and_congr (trimOption_unplacedOption test) (and_congr (trimAll_unplacedAll body)
      (and_congr (trimOption_unplacedOption rest) hlast))

theorem trimAll_unplacedAll : (fs : List Form) → (TrimAll (unplacedAll fs) ↔ TrimAll fs)
  | [] => Iff.rfl
  | f :: fs => and_congr (trim_unplaced f) (trimAll_unplacedAll fs)

theorem trimOption_unplacedOption : (o : Option Form) → (TrimOption (unplacedOption o) ↔ TrimOption o)
  | none => Iff.rfl
  | some f => trim_unplaced f

end

mutual

/-- Places do not matter to the order of nodes. -/
theorem plain_unplaced : (f : Form) → (f.unplaced.Plain ↔ f.Plain)
  | .atom _ => Iff.rfl
  | .string _ _ => Iff.rfl
  | .group _ _ items => plainAll_unplacedAll items
  | .lambda _ _ body => plainAll_unplacedAll body
  | .procedure _ _ _ _ body => plainAll_unplacedAll body
  | .letIn _ _ _ _ initials body => by
    rw [unplaced, Plain, Plain, sketchAll_unplacedAll, trimAll_unplacedAll, plainAll_unplacedAll body]
  | .clause s test body rest => by
    have hsome : (unplacedOption test).isSome = test.isSome := by cases test <;> rfl
    have htrim := trim_unplaced (.clause s test body rest)
    have hsketch := sketch_unplaced (.clause s test body rest)
    rw [unplaced] at htrim hsketch
    rw [unplaced, Plain, Plain, hsome, htrim, hsketch]

theorem plainAll_unplacedAll : (fs : List Form) → (PlainAll (unplacedAll fs) ↔ PlainAll fs)
  | [] => Iff.rfl
  | f :: fs => and_congr (plain_unplaced f) (plainAll_unplacedAll fs)

end

/-- Forms that are the same but for their places have the same sketches. -/
theorem sketchAll_of_unplacedAll {fs gs : List Form} (h : unplacedAll gs = unplacedAll fs) : sketchAll gs = sketchAll fs := by
  rw [← sketchAll_unplacedAll gs, h, sketchAll_unplacedAll]

theorem PlainAll.of_unplacedAll {fs gs : List Form} (h : unplacedAll gs = unplacedAll fs) (hplain : PlainAll fs) :
    PlainAll gs := by
  rwa [← plainAll_unplacedAll gs, h, plainAll_unplacedAll]

end Form

end SchemeMachine
