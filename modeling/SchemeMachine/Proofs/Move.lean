import SchemeMachine.Machine.Step

/-!
# Running a move

What a sequence of moves does to a machine, in terms of what each of them does. A move that fails ends the
sequence; the machine stays as the failing move left it.
-/

namespace SchemeMachine.Machine

variable {α β : Type}

@[simp] theorem run_pure (a : α) (m : Machine) :
    (pure a : Move α).run m = (Except.ok a, m) := rfl

@[simp] theorem run_throw (e : Fault) (m : Machine) :
    (throw e : Move α).run m = (Except.error e, m) := rfl

/-- One move after the other. -/
theorem run_bind (x : Move α) (f : α → Move β) (m : Machine) :
    (x >>= f).run m =
      match x.run m with
      | (.ok a, m') => (f a).run m'
      | (.error e, m') => (.error e, m') := by
  change (StateT.bind x.run (ExceptT.bindCont f)) m = _
  unfold StateT.bind
  change (match (x.run m : Except Fault α × Machine) with | (a, s) => _) = _
  generalize (x.run m : Except Fault α × Machine) = r
  obtain ⟨(e | a), m'⟩ := r <;> rfl

theorem run_bind_ok {x : Move α} {f : α → Move β} {m m' : Machine} {a : α}
    (h : x.run m = (.ok a, m')) : (x >>= f).run m = (f a).run m' := by
  rw [run_bind, h]

theorem run_bind_error {x : Move α} {f : α → Move β} {m m' : Machine} {e : Fault}
    (h : x.run m = (.error e, m')) : (x >>= f).run m = (.error e, m') := by
  rw [run_bind, h]

@[simp] theorem run_get (m : Machine) : (get : Move Machine).run m = (.ok m, m) := rfl

@[simp] theorem run_modify (f : Machine → Machine) (m : Machine) :
    (modify f : Move Unit).run m = (.ok (), f m) := rfl

@[simp] theorem run_modifyGet (f : Machine → α × Machine) (m : Machine) :
    (modifyGet f : Move α).run m = (.ok (f m).1, (f m).2) := rfl

/-- A look at the machine before a move. -/
@[simp] theorem run_get_bind (f : Machine → Move β) (m : Machine) :
    (get >>= f).run m = (f m).run m := rfl

@[simp] theorem run_modify_bind (g : Machine → Machine) (f : Unit → Move β) (m : Machine) :
    ((modify g : Move Unit) >>= f).run m = (f ()).run (g m) := rfl

@[simp] theorem run_pure_bind (a : α) (f : α → Move β) (m : Machine) :
    ((pure a : Move α) >>= f).run m = (f a).run m := rfl

@[simp] theorem run_advance (m : Machine) :
    advance.run m = (.ok (), { m with pc := m.pc + 1 }) := rfl

@[simp] theorem run_push (v : Value) (m : Machine) :
    (push v).run m = (.ok (), { m with stack := v :: m.stack }) := rfl

theorem run_pop_cons {m : Machine} {v : Value} {stack : List Value} (h : m.stack = v :: stack) :
    pop.run m = (.ok v, { m with stack }) := by
  unfold pop
  rw [run_get_bind, h]
  rfl

theorem run_pop_nil {m : Machine} (h : m.stack = []) : pop.run m = (.error .stackUnderflow, m) := by
  unfold pop
  rw [run_get_bind, h]
  rfl

theorem run_require {x : Except Fault α} (m : Machine) : (require x : Move α).run m = (x, m) := by
  cases x <;> rfl

/-- A native target is a function of the registry in a library that the program declares. -/
theorem nativeTarget?_eq_some {host : Host} {m : Machine} {name library function : String} {native : NativeFunction}
    (h : nativeTarget? host m name = some (library, function, native)) :
    m.image.program.natives.contains library ∧ host.registry.lookup library function = some native := by
  simp only [nativeTarget?, Option.bind_eq_bind, Option.bind_eq_some_iff] at h
  obtain ⟨⟨before, after⟩, -, h⟩ := h
  by_cases hdeclared : m.image.program.natives.contains (String.ofList before)
  · rw [if_pos hdeclared, Option.bind_eq_some_iff] at h
    obtain ⟨found, hfound, h⟩ := h
    obtain ⟨rfl, rfl, rfl⟩ : _ ∧ _ ∧ _ := by simpa using h
    exact ⟨hdeclared, hfound⟩
  · rw [if_neg hdeclared] at h
    cases h

end SchemeMachine.Machine
