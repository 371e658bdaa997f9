import SchemeMachine.Proofs.Alike.Machine

/-!
# The built-in libraries

The native functions that every program may declare see their arguments and what these refer to, not the
numbers of handles.

* `Registry.lookup_builtins` lists the built-in functions.
* `Registry.uniform_builtins`: the built-in functions do not see handles.
-/

namespace SchemeMachine

/-! ### What is there -/

theorem Table.find?_ofList_mem {α : Type} {pairs : List (String × α)} {k : String} {v : α}
    (h : (Table.ofList pairs).find? k = some v) : (k, v) ∈ pairs := by
  suffices hall : ∀ (t : Table String α), (t.insertAll pairs).find? k = some v →
      t.find? k = some v ∨ (k, v) ∈ pairs by
    rcases hall Table.empty h with hnone | hmem
    · cases hnone
    · exact hmem
  clear h
  induction pairs with
  | nil => exact fun t ht => Or.inl ht
  | cons e pairs ih =>
    intro t ht
    rcases ih (t.insert e.1 e.2) ht with hins | hmem
    · rw [Table.find?_insert] at hins
      split at hins
      · next he =>
        cases hins
        exact Or.inr (he ▸ List.mem_cons_self)
      · exact Or.inl hins
    · exact Or.inr (List.mem_cons_of_mem e hmem)

/-- **The built-in functions**, by what they are made of. -/
inductive NativeFunction.Builtin : NativeFunction → Prop
  | unary (f : Float → Float) : Builtin (.ofUnary f)
  | binary (f : Float → Float → Float) : Builtin (.ofBinary f)
  | text (f : String → String) : Builtin (.ofText f)
  | length : Builtin Registry.stringLength
  | concat : Builtin Registry.stringConcat
  | fromNumber : Builtin Registry.stringFromNumber
  | read : Builtin Registry.fileRead
  | write : Builtin Registry.fileWrite

theorem Registry.lookup_builtins {library function : String} {f : NativeFunction}
    (h : builtins.lookup library function = some f) : f.Builtin := by
  unfold Registry.lookup builtins at h
  obtain ⟨functions, hlibrary, hfunction⟩ := Option.bind_eq_some_iff.mp h
  have hmem := Table.find?_ofList_mem hlibrary
  simp only [List.mem_cons, Prod.mk.injEq, List.not_mem_nil, or_false] at hmem
  rcases hmem with ⟨-, rfl⟩ | ⟨-, rfl⟩ | ⟨-, rfl⟩
  · have hmem := Table.find?_ofList_mem hfunction
    simp only [List.mem_cons, Prod.mk.injEq, List.not_mem_nil, or_false] at hmem
    rcases hmem with ⟨-, rfl⟩ | ⟨-, rfl⟩ | ⟨-, rfl⟩ | ⟨-, rfl⟩ | ⟨-, rfl⟩ | ⟨-, rfl⟩ | ⟨-, rfl⟩
    all_goals first
      | exact .unary _
      | exact .binary _
  · have hmem := Table.find?_ofList_mem hfunction
    simp only [List.mem_cons, Prod.mk.injEq, List.not_mem_nil, or_false] at hmem
    rcases hmem with ⟨-, rfl⟩ | ⟨-, rfl⟩ | ⟨-, rfl⟩ | ⟨-, rfl⟩ | ⟨-, rfl⟩
    · exact .length
    · exact .concat
    · exact .text _
    · exact .text _
    · exact .fromNumber
  · have hmem := Table.find?_ofList_mem hfunction
    simp only [List.mem_cons, Prod.mk.injEq, List.not_mem_nil, or_false] at hmem
    rcases hmem with ⟨-, rfl⟩ | ⟨-, rfl⟩
    · exact .read
    · exact .write

/-! ### Arguments that are alike -/

namespace NativeCall

variable {ps : Pairing} {H G : Heap} {pid : Nat} {library function : String} {args args' : List Value}

theorem argument_alike (h : List.Forall₂ (Value.Alike ps) args args') (i : Nat) :
    Value.Alike ps (argument ⟨pid, library, function, args⟩ i) (argument ⟨pid, library, function, args'⟩ i) := by
  unfold argument
  induction h generalizing i with
  | nil => exact .plain rfl
  | cons hv _ ih =>
    cases i with
    | zero => exact hv
    | succ i => exact ih i

theorem string?_alike (ha : H.Alike ps G) (h : List.Forall₂ (Value.Alike ps) args args') (i : Nat) :
    string? ⟨pid, library, function, args⟩ H i = string? ⟨pid, library, function, args'⟩ G i := by
  have hv : Value.Alike ps (argument ⟨pid, library, function, args⟩ i) (argument ⟨pid, library, function, args'⟩ i) :=
    argument_alike h i
  unfold string?
  generalize argument ⟨pid, library, function, args⟩ i = v at hv ⊢
  generalize argument ⟨pid, library, function, args'⟩ i = w at hv ⊢
  cases hv with
  | handle hm => exact ha.string? hm
  | plain hv => simp [hv]

theorem string_alike (ha : H.Alike ps G) (h : List.Forall₂ (Value.Alike ps) args args') (i : Nat) :
    string ⟨pid, library, function, args⟩ H i = string ⟨pid, library, function, args'⟩ G i := by
  have hv : Value.Alike ps (argument ⟨pid, library, function, args⟩ i) (argument ⟨pid, library, function, args'⟩ i) :=
    argument_alike h i
  unfold string
  rw [string?_alike ha h, hv.typeName]
  rfl

theorem numbers_alike (h : List.Forall₂ (Value.Alike ps) args args') :
    numbers ⟨pid, library, function, args⟩ = numbers ⟨pid, library, function, args'⟩ := by
  unfold numbers
  induction h with
  | nil => rfl
  | cons hv _ ih =>
    rw [List.mapM_cons, List.mapM_cons, hv.number?, hv.typeName]
    exact bind_congr fun x => congrArg (· >>= fun xs => pure (x :: xs)) ih

end NativeCall

/-- A function that computes the same answer from alike arguments, one without handles, does not see handles. -/
theorem NativeFunction.uniform_of_eq {f : NativeFunction}
    (heq : ∀ (ps : Pairing) (H G : Heap) (pid : Nat) (library function : String) (args args' : List Value),
      H.Alike ps G → List.Forall₂ (Value.Alike ps) args args' →
      f.invoke H ⟨pid, library, function, args⟩ = f.invoke G ⟨pid, library, function, args'⟩)
    (hplain : ∀ H call v, f.invoke H call = .ok (.value v) → v.handle? = none) : f.Uniform := by
  intro ps H G pid library function args args' ha hargs
  have he := heq ps H G pid library function args args' ha hargs
  cases hf : f.invoke H ⟨pid, library, function, args⟩ with
  | error e => exact Or.inl ⟨e, rfl, he ▸ hf⟩
  | ok a =>
    refine Or.inr ⟨a, a, rfl, he ▸ hf, ?_⟩
    cases a with
    | value v => exact .value (.plain (hplain _ _ v hf))
    | newString content => exact .newString content
    | pending job => exact .pending job

theorem NativeFunction.Builtin.eq_of_alike {f : NativeFunction} (hf : f.Builtin) (ps : Pairing) (H G : Heap)
    (pid : Nat) (library function : String) (args args' : List Value) (ha : H.Alike ps G)
    (hargs : List.Forall₂ (Value.Alike ps) args args') :
    f.invoke H ⟨pid, library, function, args⟩ = f.invoke G ⟨pid, library, function, args'⟩ := by
  cases hf with
  | unary g => simp only [ofUnary, NativeCall.numbers_alike hargs]
  | binary g => simp only [ofBinary, NativeCall.numbers_alike hargs]
  | text g => simp only [ofText, NativeCall.string_alike ha hargs]
  | length => simp only [Registry.stringLength, NativeCall.string_alike ha hargs]
  | concat => simp only [Registry.stringConcat, NativeCall.string_alike ha hargs]
  | fromNumber =>
    have hv : Value.Alike ps (NativeCall.argument ⟨pid, library, function, args⟩ 0)
      (NativeCall.argument ⟨pid, library, function, args'⟩ 0) := NativeCall.argument_alike hargs 0
    simp only [Registry.stringFromNumber, hv.number?]
    rfl
  | read =>
    simp only [Registry.fileRead, NativeCall.path, NativeCall.string?_alike ha hargs]
    rfl
  | write =>
    have hv : Value.Alike ps (NativeCall.argument ⟨pid, library, function, args⟩ 1)
      (NativeCall.argument ⟨pid, library, function, args'⟩ 1) := NativeCall.argument_alike hargs 1
    simp only [Registry.fileWrite, NativeCall.path, NativeCall.string?_alike ha hargs, ha.display hv]
    rfl

/-- What a built-in function answers holds no handle. -/
theorem NativeFunction.Builtin.plain {f : NativeFunction} (hf : f.Builtin) {H : Heap} {call : NativeCall} {v : Value}
    (h : f.invoke H call = .ok (.value v)) : ∃ x, v = .number x := by
  -- a computation that ends in a number, after something that may fail
  have number : ∀ {α : Type} {x : Except NativeError α} {g : α → Float},
      (x >>= fun a => pure (NativeAnswer.value (.number (g a)))) = .ok (.value v) → ∃ y, v = .number y := by
    intro α x g hx
    cases x with
    | error e => cases hx
    | ok a =>
      cases hx
      exact ⟨_, rfl⟩
  -- a computation that ends in something other than a value
  have other : ∀ {α : Type} {x : Except NativeError α} {g : α → NativeAnswer}, (∀ a w, g a ≠ .value w) →
      (x >>= fun a => pure (g a)) ≠ .ok (.value v) := by
    intro α x g hg hx
    cases x with
    | error e => cases hx
    | ok a => exact hg a v (Except.ok.inj hx)
  cases hf with
  | unary g => exact number h
  | binary g => exact number h
  | length => exact number h
  | text g => exact absurd h (other (by simp))
  | read => exact absurd h (other (by simp))
  | concat =>
    simp only [Registry.stringConcat] at h
    cases hs : call.string H 0 with
    | error e => simp only [hs] at h; cases h
    | ok s =>
      simp only [hs] at h
      exact absurd h (other (by simp))
  | fromNumber =>
    simp only [Registry.stringFromNumber] at h
    split at h <;> cases h
  | write => exact absurd h (other (by simp))

/-- **The built-in functions do not see handles.** -/
theorem Registry.uniform_builtins : builtins.Uniform := by
  intro library function f h
  have hf := lookup_builtins h
  refine NativeFunction.uniform_of_eq (fun ps H G pid library function args args' => hf.eq_of_alike ps H G pid _ _ _ _) ?_
  intro H call v hv
  obtain ⟨x, rfl⟩ := hf.plain hv
  rfl

end SchemeMachine
