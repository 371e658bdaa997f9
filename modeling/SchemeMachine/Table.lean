/-!
# Ordered tables

A finite map kept as the list of its bindings in ascending key order. Two tables with the same
bindings are then the same list, so equality of tables is equality of their contents, and every
enumeration of a table comes out in key order.

* `Table.find?` reads a binding, `Table.insert` adds or replaces one.
* `Table.find?_insert` says what a table holds after an insertion; it does not need the order of the
  entries.
* `Names` is the set of strings obtained with trivial values.
-/

namespace SchemeMachine

universe u v w

/-- **A finite map** from `κ` to `α`, as its bindings in ascending key order. -/
structure Table (κ : Type u) (α : Type v) where
  /-- The bindings, in ascending key order. -/
  entries : List (κ × α)
deriving Repr, DecidableEq, Inhabited

namespace Table

variable {κ : Type u} {α : Type v} {β : Type w}

/-- The table without bindings. -/
def empty : Table κ α := ⟨[]⟩

instance : EmptyCollection (Table κ α) := ⟨empty⟩

/-- The keys, in ascending order. -/
def keys (t : Table κ α) : List κ := t.entries.map (·.1)

/-- The values, in the order of their keys. -/
def values (t : Table κ α) : List α := t.entries.map (·.2)

/-- How many keys are bound. -/
def size (t : Table κ α) : Nat := t.entries.length

/-- Apply a function to every value, keeping the keys. -/
def map (f : α → β) (t : Table κ α) : Table κ β := ⟨t.entries.map fun e => (e.1, f e.2)⟩

section Lookup

variable [DecidableEq κ]

/-- The value of the first entry with key `k`. -/
def lookupEntry (k : κ) : List (κ × α) → Option α
  | [] => none
  | (k', v) :: rest => if k = k' then some v else lookupEntry k rest

/-- The value bound to a key. -/
def find? (t : Table κ α) (k : κ) : Option α := lookupEntry k t.entries

/-- Whether a key is bound. -/
def contains (t : Table κ α) (k : κ) : Bool := (t.find? k).isSome

variable [LT κ] [DecidableLT κ]

/-- Bind `k` in an ascending list of entries: in its place if it is new, over the old value if not. -/
def insertEntry (k : κ) (v : α) : List (κ × α) → List (κ × α)
  | [] => [(k, v)]
  | (k', v') :: rest =>
    if k = k' then (k, v) :: rest
    else if k < k' then (k, v) :: (k', v') :: rest
    else (k', v') :: insertEntry k v rest

/-- Bind a key, replacing the value that it had. -/
def insert (t : Table κ α) (k : κ) (v : α) : Table κ α := ⟨insertEntry k v t.entries⟩

/-- Insert pairs one after the other, so that the last value given for a key stays. -/
def insertAll (t : Table κ α) (pairs : List (κ × α)) : Table κ α :=
  pairs.foldl (fun t e => t.insert e.1 e.2) t

/-- The table of a list of pairs; the last value given for a key stays. -/
def ofList (pairs : List (κ × α)) : Table κ α := (empty : Table κ α).insertAll pairs

/-- The bindings of both tables, those of the second where both bind a key. -/
def union (s t : Table κ α) : Table κ α := s.insertAll t.entries

/-- Drop the binding of a key. -/
def erase (t : Table κ α) (k : κ) : Table κ α := ⟨t.entries.filter fun e => e.1 ≠ k⟩

end Lookup

/-! ### What an insertion changes -/

section Lemmas

variable [DecidableEq κ]

@[simp] theorem find?_empty (k : κ) : (empty : Table κ α).find? k = none := rfl

variable [LT κ] [DecidableLT κ]

private theorem lookupEntry_insertEntry_self (k : κ) (v : α) (es : List (κ × α)) :
    lookupEntry k (insertEntry k v es) = some v := by
  induction es with
  | nil => simp [insertEntry, lookupEntry]
  | cons e es ih =>
    obtain ⟨k', v'⟩ := e
    by_cases hk : k = k'
    · simp [insertEntry, lookupEntry, hk]
    · by_cases hlt : k < k' <;> simp [insertEntry, lookupEntry, hk, hlt, ih]

private theorem lookupEntry_insertEntry_of_ne {j k : κ} (h : j ≠ k) (v : α) (es : List (κ × α)) :
    lookupEntry j (insertEntry k v es) = lookupEntry j es := by
  induction es with
  | nil => simp [insertEntry, lookupEntry, h]
  | cons e es ih =>
    obtain ⟨k', v'⟩ := e
    by_cases hk : k = k'
    · subst hk; simp [insertEntry, lookupEntry, h]
    · by_cases hlt : k < k' <;> by_cases hj : j = k' <;>
        simp [insertEntry, lookupEntry, hk, hlt, hj, ih, h]
      intro hjk; exact absurd hjk.symm hk

@[simp] theorem find?_insert_self (t : Table κ α) (k : κ) (v : α) :
    (t.insert k v).find? k = some v :=
  lookupEntry_insertEntry_self k v t.entries

theorem find?_insert_of_ne (t : Table κ α) {j k : κ} (h : j ≠ k) (v : α) :
    (t.insert k v).find? j = t.find? j :=
  lookupEntry_insertEntry_of_ne h v t.entries

/-- **An insertion changes one binding**: the inserted key has the new value, every other key what it had. -/
theorem find?_insert (t : Table κ α) (j k : κ) (v : α) :
    (t.insert k v).find? j = if j = k then some v else t.find? j := by
  by_cases h : j = k
  · subst h; simp
  · simp [h, find?_insert_of_ne]

end Lemmas

end Table

/-! ### Sets -/

/-- **A finite set**, as a table of trivial values. -/
abbrev OrderedSet (κ : Type u) := Table κ Unit

namespace OrderedSet

variable {κ : Type u} [DecidableEq κ] [LT κ] [DecidableLT κ]

/-- Add a member. -/
def add (s : OrderedSet κ) (k : κ) : OrderedSet κ := Table.insert s k ()

/-- Add every member of a list. -/
def addAll (s : OrderedSet κ) (ks : List κ) : OrderedSet κ := ks.foldl add s

/-- The set of the members of a list. -/
def ofMembers (ks : List κ) : OrderedSet κ := addAll Table.empty ks

end OrderedSet

/-- A finite set of names. -/
abbrev Names := OrderedSet String

end SchemeMachine
