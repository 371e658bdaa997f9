import SchemeMachine.Table

/-!
# TOML documents

A TOML document is a list of statements, each of which adds to one table: a header names the table that
the bindings after it belong to, and a dotted key leads from there to a table below. What may be added
to a table depends on how it came about.

* `Toml` is a value, `Toml.Origin` how a table came about.
* `Toml.define`, `Toml.openTable` and `Toml.appendTable` carry out the three kinds of statements.
* `Toml.ofStatements?` is the document that statements describe, if they do not contradict each other.
-/

namespace SchemeMachine

/-- How a table came about. -/
inductive Toml.Origin where
  /-- Written in braces. -/
  | braces
  /-- Named by a header. The document itself counts as such a table. -/
  | header
  /-- On the way to a table named by a header. -/
  | onTheWay
  /-- On the way of a dotted key. -/
  | dotted
deriving Repr, DecidableEq, Inhabited

/-- **A value of a document.** Floating-point numbers and points in time are told apart from other values
and not looked into. -/
inductive Toml where
  | string (content : String)
  | integer (value : Int)
  | float
  | boolean (value : Bool)
  | moment
  | array (items : List Toml)
  | table (origin : Toml.Origin) (members : Table String Toml)
  /-- The tables made by a repeated double header, first one first. -/
  | tables (elements : List Toml)
deriving Repr, Inhabited

namespace Toml

/-- A table without members. -/
def emptyTable (origin : Origin) : Toml := .table origin {}

/-- Whether a table may be entered, by a dotted key if `byKey` and by a header if not. What is written in
braces is complete, and a dotted key does not reach into what a header named. -/
def Origin.isOpen (byKey : Bool) : Origin → Bool
  | .braces => false
  | .header => !byKey
  | .onTheWay | .dotted => true

/-- **Change the value that a path leads to**, making the tables on the way. Of the tables under a double
header the last one is meant. -/
def update (byKey : Bool) (change : Toml → Option Toml) : List String → Toml → Option Toml
  | [], t => change t
  | key :: path, .table origin members =>
    let put (t : Toml) : Toml := .table origin (members.insert key t)
    match members.find? key with
    | none =>
      (update byKey change path (emptyTable (if byKey then .dotted else .onTheWay))).map put
    | some (.table inner below) =>
      if inner.isOpen byKey then (update byKey change path (.table inner below)).map put else none
    | some (.tables elements) =>
      match elements.getLast? with
      | some last =>
        (update byKey change path last).map fun t => put (.tables (elements.dropLast ++ [t]))
      | none => none
    | some _ => none
  | _ :: _, _ => none

/-- Bind a key in a table that has no such key. A dotted key must end in a table that dotted keys made,
and any other key in a table that they did not make. -/
def bindKey (byKey : Bool) (key : String) (value : Toml) : Toml → Option Toml
  | .table origin members =>
    if members.contains key || byKey != (origin == .dotted) then none
    else some (.table origin (members.insert key value))
  | _ => none

/-- **Bind a key**, given by its parts, in a table. -/
def define (keys : List String) (value : Toml) (t : Toml) : Option Toml :=
  let path := keys.dropLast
  update true (bindKey (!path.isEmpty) (keys.getLast?.getD "") value) path t

/-- **Carry out a header.** A table that was only on the way to another is now named itself. -/
def openTable (keys : List String) (document : Toml) : Option Toml :=
  let key := keys.getLast?.getD ""
  let enter : Toml → Option Toml
    | .table origin members =>
      match members.find? key with
      | none => some (.table origin (members.insert key (emptyTable .header)))
      | some (.table .onTheWay below) => some (.table origin (members.insert key (.table .header below)))
      | some _ => none
    | _ => none
  update false enter keys.dropLast document

/-- **Carry out a double header**, which starts one more table. -/
def appendTable (keys : List String) (document : Toml) : Option Toml :=
  let key := keys.getLast?.getD ""
  let enter : Toml → Option Toml
    | .table origin members =>
      match members.find? key with
      | none => some (.table origin (members.insert key (.tables [emptyTable .header])))
      | some (.tables elements) =>
        some (.table origin (members.insert key (.tables (elements ++ [emptyTable .header]))))
      | some _ => none
    | _ => none
  update false enter keys.dropLast document

/-- A statement of a document; keys are given by their parts. -/
inductive Statement where
  | header (keys : List String)
  | doubleHeader (keys : List String)
  | binding (keys : List String) (value : Toml)
deriving Repr, Inhabited

/-- Carry out a statement on a document and the keys of its current table. -/
def Statement.apply (state : Toml × List String) : Statement → Option (Toml × List String)
  | .header keys => (openTable keys state.1).map fun t => (t, keys)
  | .doubleHeader keys => (appendTable keys state.1).map fun t => (t, keys)
  | .binding keys value => (update false (define keys value) state.2 state.1).map fun t => (t, state.2)

/-- **The document that statements describe.** -/
def ofStatements? (statements : List Statement) : Option Toml :=
  (statements.foldlM Statement.apply (emptyTable .header, [])).map (·.1)

/-- The table in braces that bindings describe. -/
def ofBindings? (bindings : List (List String × Toml)) : Option Toml :=
  bindings.foldlM (fun t b => define b.1 b.2 t) (emptyTable .braces)

/-! ### Parts of documents -/

/-- The natural number that a value is. -/
def natural? : Toml → Option Nat
  | .integer (.ofNat n) => some n
  | _ => none

/-- The boolean that a value is. -/
def boolean? : Toml → Option Bool
  | .boolean b => some b
  | _ => none

/-- The string that a value is. -/
def string? : Toml → Option String
  | .string s => some s
  | _ => none

/-- The items of an array. -/
def items? : Toml → Option (List Toml)
  | .array items => some items
  | .tables elements => some elements
  | _ => none

/-- **The fields of a record**: found by their names in a table, by their places in an array. A point
in time is a record of other fields. -/
def fields? (names : List String) : Toml → Option (List (Option Toml))
  | .table _ members => some (names.map members.find?)
  | .moment => some (names.map fun _ => none)
  | value => value.items?.map fun items => (List.range names.length).map fun i => items[i]?

end Toml

end SchemeMachine
