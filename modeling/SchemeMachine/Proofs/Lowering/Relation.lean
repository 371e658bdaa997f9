import SchemeMachine.Proofs.Syntax.Analysis

/-!
# The pieces of a term

`Lowers` relates a term of an analysed tree to its piece, construct by construct. It says what lowering does
without the state that lowering threads through: label numbers are arbitrary, and the constants are those
that the whole program ends up with.

* `Term.Kept` says that a program has the constants of quoted data.
* `Lowers` is about code, `LowersItem` about the items of a template, `LowersForms` about bodies.
-/

namespace SchemeMachine

namespace Tree

open Classical in
/-- How many nodes a part of a tree has. -/
noncomputable def weight (t : Tree) (h : Handle) : Nat :=
  if hx : ∃ x : Term, x.child = .node h ∧ ∃ parent, x.Placed t parent then hx.choose.handles.length else 0

theorem weight_eq {t : Tree} {x : Term} {h : Handle} {parent : Option Handle} (hx : x.Placed t parent)
    (hc : x.child = .node h) : t.weight h = x.handles.length := by
  have hex : ∃ y : Term, y.child = .node h ∧ ∃ parent, y.Placed t parent := ⟨x, hc, parent, hx⟩
  obtain ⟨hchild, q, hplaced⟩ := hex.choose_spec
  rw [weight, dif_pos hex, hplaced.unique hx (hchild.trans hc.symm)]

/-- **The lambda `N` stands in the lambda `M`**, outside lambdas nested in `M`. -/
structure Inside (t : Tree) (M N : Handle) : Prop where
  enclosing : ∃ p ps cs, t.get? N = some (.lambda (some p) ps cs) ∧ t.enclosingLambda p = M
  lighter : t.weight N < t.weight M

end Tree

/-- What stands for a child in a constant list. -/
def Child.operand : Child → Operand
  | .atom a => .atom (Lowering.quotedAtom a)
  | .node h => .handle h

namespace Term

mutual

/-- **The constants of quoted data** are among those of a program. -/
def Kept (K : Table Handle Constant) : Term → Prop
  | .atom _ => True
  | .string h content => K.find? h = some (.string content)
  | .lambda .. => False
  | .application h _ items => K.find? h = some (.list ((items.map child).map Child.operand)) ∧ KeptAll K items

/-- The constants of several pieces of quoted data are among those of a program. -/
def KeptAll (K : Table Handle Constant) : List Term → Prop
  | [] => True
  | x :: xs => Kept K x ∧ KeptAll K xs

end

/-- Whether a term has no effect and is left out of a body. -/
def isLiteral : Term → Bool
  | .atom (.variable _) => false
  | .atom _ => true
  | .string .. => true
  | .application _ .quote _ => true
  | _ => false

/-- Whether a term is a lambda. -/
def isLambda : Term → Bool
  | .lambda .. => true
  | _ => false

end Term

/-- The operation of an arithmetic keyword. -/
def arithmeticOf? : String → Option Opcode
  | "+" => some .add | "-" => some .sub | "*" => some .mul | "/" => some .div | "%" => some .mod
  | "pow" => some .pow
  | _ => none

/-- The operation of a primitive keyword with a fixed number of operands, and that number. -/
def fixedOf? : String → Option (Opcode × Nat)
  | "=" => some (.eqn, 2) | "<" => some (.lt, 2) | ">" => some (.gt, 2) | "<=" => some (.le, 2)
  | ">=" => some (.ge, 2) | "cons" => some (.cons, 2)
  | "not" => some (.not, 1) | "car" => some (.car, 1) | "cdr" => some (.cdr, 1)
  | _ => none

/-- What arithmetic starts from when it has one operand: `-` and `/` have a neutral element to their left. -/
def neutralOf? : Opcode → Option Float
  | .sub => some 0.0
  | .div => some 1.0
  | _ => none

/-- A piece that calls and does not come back. -/
def Piece.IsTailCall (p : Piece) : Prop :=
  (∃ target args, p = .call true target args) ∨ ∃ n operands, p = .computedCall true n operands

section

variable (t : Tree) (K : Table Handle Constant) (M : Handle)

mutual

/-- **The piece of a term in the lambda `M`**; the flag says whether the term is in tail position. Calls may be
marked as tail calls in tail position only. -/
inductive Lowers : Bool → Term → Piece → Prop
  | variable {tail : Bool} (name : String) : Lowers tail (.atom (.variable name)) (.load name)
  | keyword {tail : Bool} {word : String} (h : (Opcode.ofPrimitive? word).isSome) :
      Lowers tail (.atom (.keyword word)) (.push (.atom (.keyword word)))
  | literal {tail : Bool} {a : Atom} (h : a.isDatum) : Lowers tail (.atom a) (.push (.atom a))
  | string {tail : Bool} {h : Handle} {content : String} (hk : K.find? h = some (.string content)) :
      Lowers tail (.string h content) (.push (.handle h))
  | lambda {tail : Bool} {N : Handle} {parameters : List String} {body : List Term} (hin : t.Inside M N) :
      Lowers tail (.lambda N parameters body) (.closure N)
  | quote {tail : Bool} {h : Handle} {items : List Term} (hk : (Term.application h .quote items).Kept K) :
      Lowers tail (.application h .quote items) (.push (.handle h))
  | template {tail : Bool} {h : Handle} {items : List Term} {p : Piece}
      (hp : LowersItem (.application h .quasiquote items) p) :
      Lowers tail (.application h .quasiquote items) p
  | call {tail : Bool} {h : Handle} {name : String} {args : List Term} {ps : List Piece}
      (hmark : t.tailCalls.contains h = true → tail = true) (hargs : LowersAll args ps) :
      Lowers tail (.application h .code (.atom (.variable name) :: args))
        (.call (t.tailCalls.contains h) (.atom (.variable name)) ps)
  | lambdaCall {tail : Bool} {h N : Handle} {parameters : List String} {body args : List Term} {ps : List Piece}
      (hmark : t.tailCalls.contains h = true → tail = true) (hin : t.Inside M N) (hargs : LowersAll args ps) :
      Lowers tail (.application h .code (.lambda N parameters body :: args))
        (.call (t.tailCalls.contains h) (.label (Handle.label N)) ps)
  | computedCall {tail : Bool} {h h' : Handle} {n : Nat} {inner args : List Term} {ps : List Piece}
      (hmark : t.tailCalls.contains h = true → tail = true)
      (hargs : LowersAll (.application h' .code inner :: args) ps) :
      Lowers tail (.application h .code (.application h' .code inner :: args))
        (.computedCall (t.tailCalls.contains h) n ps)
  | define {tail : Bool} {h : Handle} {x : String} {right : Term} {p : Piece} (hright : LowersRight right p) :
      Lowers tail (.application h .code [.atom (.keyword "define"), .atom (.variable (Tree.scopedName M x)), right])
        (.assignment .store (Tree.scopedName M x) p)
  | assign {tail : Bool} {h : Handle} {name : String} {right : Term} {p : Piece} (hright : LowersRight right p) :
      Lowers tail (.application h .code [.atom (.keyword "set!"), .atom (.variable name), right])
        (.assignment .set name p)
  | conditional {tail : Bool} {h : Handle} {n : Nat} {test yes no : Term} {p q r : Piece}
      (htest : Lowers false test p) (hyes : Lowers tail yes q) (hno : Lowers tail no r) :
      Lowers tail (.application h .code [.atom (.keyword "if"), test, yes, no]) (.conditional n p q r)
  | conditionalShort {tail : Bool} {h : Handle} {n : Nat} {test yes : Term} {p q : Piece}
      (htest : Lowers false test p) (hyes : Lowers tail yes q) :
      Lowers tail (.application h .code [.atom (.keyword "if"), test, yes])
        (.conditional n p q (.push (.atom (.boolean false))))
  | connectiveNone {tail conjunction : Bool} {h : Handle} :
      Lowers tail (.application h .code [.atom (.keyword (if conjunction then "and" else "or"))])
        (.push (.atom (.boolean conjunction)))
  | connective {tail conjunction returns : Bool} {h : Handle} {n : Nat} {clauses : List Term} {last : Term}
      {ps : List Piece} {p : Piece} (hclauses : LowersAll clauses ps) (hlast : Lowers tail last p)
      (hreturns : returns = true → p.IsTailCall) :
      Lowers tail
        (.application h .code (.atom (.keyword (if conjunction then "and" else "or")) :: (clauses ++ [last])))
        (.connective conjunction n ps p returns)
  | sequence {tail : Bool} {h : Handle} {forms : List Term} {ps : List Piece} {p : Piece}
      (hforms : LowersForms tail forms ps p) :
      Lowers tail (.application h .code (.atom (.keyword "begin") :: forms)) (.body ps p)
  | callWithContinuation {tail : Bool} {h : Handle} {n : Nat} {name : String} :
      Lowers tail (.application h .code [.atom (.keyword "call/cc"), .atom (.variable name)])
        (.callWithContinuation n (.atom (.variable name)))
  | callLambdaWithContinuation {tail : Bool} {h N : Handle} {n : Nat} {parameters : List String} {body : List Term}
      (hin : t.Inside M N) :
      Lowers tail (.application h .code [.atom (.keyword "call/cc"), .lambda N parameters body])
        (.callWithContinuation n (.label (Handle.label N)))
  | fork {tail : Bool} {h k : Handle} {forked : Term} (hk : forked.Kept K) (hchild : forked.child = .node k) :
      Lowers tail (.application h .code [.atom (.keyword "fork"), forked]) (.fork k)
  | display {tail : Bool} {h : Handle} {x : Term} {p : Piece} (hx : Lowers false x p) :
      Lowers tail (.application h .code [.atom (.keyword "display"), x]) (.display p)
  | newline {tail : Bool} {h : Handle} :
      Lowers tail (.application h .code [.atom (.keyword "newline")]) .newline
  | declaration {tail : Bool} {h : Handle} {word : String} {args : List Term}
      (hword : word = "native" ∨ word = "import") :
      Lowers tail (.application h .code (.atom (.keyword word) :: args)) .declaration
  | arithmeticNone {tail : Bool} {h : Handle} {word : String} {x : Float}
      (hword : word = "+" ∧ x = 0.0 ∨ word = "*" ∧ x = 1.0) :
      Lowers tail (.application h .code [.atom (.keyword word)]) (.push (.atom (.number x)))
  | arithmeticNeutral {tail : Bool} {h : Handle} {word : String} {op : Opcode} {x : Float} {operand : Term} {p : Piece}
      (hop : arithmeticOf? word = some op) (hneutral : neutralOf? op = some x) (hp : Lowers false operand p) :
      Lowers tail (.application h .code [.atom (.keyword word), operand])
        (.arithmetic op (.push (.atom (.number x))) [p])
  | arithmetic {tail : Bool} {h : Handle} {word : String} {op : Opcode} {first : Term} {rest : List Term} {p : Piece}
      {ps : List Piece} (hop : arithmeticOf? word = some op) (hsingle : rest = [] → op = .add ∨ op = .mul)
      (hp : Lowers false first p) (hps : LowersAll rest ps) :
      Lowers tail (.application h .code (.atom (.keyword word) :: first :: rest)) (.arithmetic op p ps)
  | primitive {tail : Bool} {h : Handle} {word : String} {op : Opcode} {args : List Term} {ps : List Piece}
      (hop : fixedOf? word = some (op, args.length)) (hps : LowersAll args ps) :
      Lowers tail (.application h .code (.atom (.keyword word) :: args)) (.primitive op ps)

/-- Terms in no tail position and their pieces. -/
inductive LowersAll : List Term → List Piece → Prop
  | nil : LowersAll [] []
  | cons {x : Term} {xs : List Term} {p : Piece} {ps : List Piece} (hx : Lowers false x p)
      (hxs : LowersAll xs ps) : LowersAll (x :: xs) (p :: ps)

/-- The right side of a definition or an assignment: a lambda stays a label. -/
inductive LowersRight : Term → Piece → Prop
  | lambda {N : Handle} {parameters : List String} {body : List Term} (hin : t.Inside M N) :
      LowersRight (.lambda N parameters body) (.push (.label (Handle.label N)))
  | other {x : Term} {p : Piece} (hx : x.isLambda = false) (hp : Lowers false x p) : LowersRight x p

/-- **The pieces of a body**, the last one apart. -/
inductive LowersForms : Bool → List Term → List Piece → Piece → Prop
  | empty {tail : Bool} : LowersForms tail [] [] (.push (.atom (.boolean false)))
  | last {tail : Bool} {x : Term} {p : Piece} (hx : Lowers tail x p) : LowersForms tail [x] [] p
  | skip {tail : Bool} {x y : Term} {xs : List Term} {ps : List Piece} {p : Piece} (hx : x.isLiteral = true)
      (hxs : LowersForms tail (y :: xs) ps p) : LowersForms tail (x :: y :: xs) ps p
  | form {tail : Bool} {x y : Term} {xs : List Term} {q : Piece} {ps : List Piece} {p : Piece}
      (hx : x.isLiteral = false) (hq : Lowers false x q) (hxs : LowersForms tail (y :: xs) ps p) :
      LowersForms tail (x :: y :: xs) (q :: ps) p

/-- **The pieces of a template.** A list without holes is a constant. -/
inductive LowersItem : Term → Piece → Prop
  | atom {a : Atom} (ha : a.isDatum) : LowersItem (.atom a) (.push (.atom a))
  | string {h : Handle} {content : String} (hk : K.find? h = some (.string content)) :
      LowersItem (.string h content) (.push (.handle h))
  | hole {h : Handle} {x : Term} {p : Piece} (hx : Lowers false x p) :
      LowersItem (.application h .unquote [x]) p
  | constant {h : Handle} {quotation : Quotation} {items : List Term} (hq : quotation ≠ .unquote)
      (hk : (Term.application h quotation items).Kept K) :
      LowersItem (.application h quotation items) (.push (.handle h))
  | list {h empty : Handle} {quotation : Quotation} {items : List Term} {ps : List Piece} (hq : quotation ≠ .unquote)
      (hitems : LowersItems items ps) (hk : K.find? empty = some (.list [])) :
      LowersItem (.application h quotation items) (.template ps empty)

/-- Items of a template and their pieces. -/
inductive LowersItems : List Term → List Piece → Prop
  | nil : LowersItems [] []
  | cons {x : Term} {xs : List Term} {p : Piece} {ps : List Piece} (hx : LowersItem x p)
      (hxs : LowersItems xs ps) : LowersItems (x :: xs) (p :: ps)

end

end

/-- Terms have as many pieces. -/
theorem LowersAll.length_eq {t : Tree} {K : Table Handle Constant} {M : Handle} : {xs : List Term} → {ps : List Piece} →
    LowersAll t K M xs ps → xs.length = ps.length
  | _, _, .nil => rfl
  | _, _, .cons _ hxs => congrArg (· + 1) hxs.length_eq

end SchemeMachine
