import Mathlib.Data.String.Basic
import SchemeMachine.Proofs.Layout.Flow
import SchemeMachine.Proofs.Lineage

/-!
# Sound machines

What holds of every machine that runs laid out code. A closure is an activation if it was made by a call; which
closures are is kept beside the heap, as a predicate `A` on handles.

* Activations bind names, other closures do not; programs can name the others only (`Value.Settled`).
* A closure hangs below an activation of the code around its own, or it is an activation of the closure above it
  (`Closure.Placed`).
* What a closure has copied is what the nearest binder further out binds, unless that is dirty (`Closure.Copies`).
* `Stacked` says of calls under way that each returns to a spot of the code it was made from, and counts the
  operands below; `Machine.Stands` says that a machine is at a spot.
* `Heap.Grows` is what all changes of a heap have in common, and what is said of values and calls survives it.

The count of operands is right only as long as every call passes as many arguments as its target takes. The
parameter `strict` says whether to keep it.
-/

namespace SchemeMachine

/-- A fault that no source text asks for: it shows that code and machine do not fit together. -/
def Fault.isStructural : Fault → Bool
  | .undefinedLabel _ | .stackUnderflow | .invalidHandle _ | .invalidProgram _ | .placeOutOfRange _ => true
  | _ => false

variable {p : Program} (L : Layout p) (strict : Prop) (A : Handle → Prop) (H : Heap)

/-! ### Values -/

/-- **A value that programs compute with**: what it refers to is there, and is no activation. -/
def Value.Settled : Value → Prop
  | .handle h => (H.get? h).isSome ∧ ¬A h
  | .label _ => False
  | _ => True

/-- What an activation of the code at `o` may bind to a name: also a lambda of its own that is not closed yet. -/
def Value.Held (o : String) (v : Value) : Prop := v.Settled A H ∨ ∃ N, v = .label N ∧ L.Waits p o N

/-- The operands on the stack, of which the top one may still be a label. -/
def Operands : Option String → List Value → Prop
  | none, vs => ∀ v ∈ vs, v.Settled A H
  | some N, v :: vs => v = .label N ∧ ∀ v ∈ vs, v.Settled A H
  | some _, [] => False

/-! ### Calls under way -/

/-- The current closure runs the code at a label; at the start there is neither. -/
inductive Runs : Option Handle → Option String → Prop
  | start : Runs none none
  | code {h : Handle} {c : Closure} (hact : A h) (hc : H.closure? h = some c) : Runs (some h) (some c.label)

/-- **Calls under way** upon which the code at a label runs, and the number of operands that belong to them. -/
inductive Stacked : Option String → List Frame → Nat → Prop
  | start : Stacked none [] 0
  | frame {o : String} {below : Option String} {f : Frame} {fs : List Frame} {line : Line} {d b : Nat}
      (hline : L.lines[f.returnAddress]? = some line) (hspot : line.spot = ⟨below, d + 1, none⟩)
      (hruns : Runs A H f.closure below) (hrest : Stacked below fs b) : Stacked (some o) (f :: fs) (d + b)

/-- A continuation that can be resumed with one value. -/
def Continuation.Sound (k : Continuation) : Prop :=
  ∃ o d b, L.At k.resume ⟨some o, d + 1, none⟩ ∧ Runs A H k.closure (some o) ∧
    Stacked L A H (some o) k.frames b ∧ (∀ v ∈ k.stack, v.Settled A H) ∧ (strict → k.stack.length = d + b)

/-! ### Closures -/

/-- **The place of a closure** among the others: the first one has no parent, others hang below an activation
of the code around theirs, or are activations of the closure above them. -/
inductive Closure.Placed (h : Handle) (c : Closure) : Prop
  | top (hact : A h) (hparent : c.parent = none)
  | nested {g : Handle} {c' : Closure} (hparent : c.parent = some g) (hc : H.closure? g = some c') (hact : A g)
      (hin : L.inside c.label c'.label)
  | called {g : Handle} {c' : Closure} (hparent : c.parent = some g) (hc : H.closure? g = some c') (hact : A h)
      (hnot : ¬A g) (hlabel : c'.label = c.label)

/-- **A copy is up to date or known not to be**: the nearest binder further out binds the name to the same value, or
to another one that is dirty. -/
def Closure.Copies (c : Closure) : Prop :=
  ∀ l name v, H.Lineage c.parent l → c.free.find? name = some v →
    ∃ e w, l.binder? name = some e ∧ e.2.bound.find? name = some w ∧
      (v = w ∨ v.same w = true ∨ e.2.isDirty name = true) ∧ v.Held L A H e.2.label

/-- A closure that runs code of the program. -/
structure Closure.Sound (h : Handle) (c : Closure) : Prop where
  entry : ∃ line n, L.lines[c.address]? = some line ∧ line.instruction = .label c.label ∧
    line.spot = ⟨c.label, n, none⟩
  placed : c.Placed L A H h
  lineage : ∃ l, H.Lineage c.parent l
  sorted : c.bound.Sorted
  still : ¬A h → c.bound = {} ∧ (p.enclosing.find? c.label).isSome
  owned : ∀ name v, c.bound.find? name = some v → L.owns c.label name ∧ v.Held L A H c.label
  copies : c.Copies L A H

/-! ### Heaps and machines -/

/-- What holds of an object of each kind. -/
def Object.Sound (h : Handle) : Object → Prop
  | .string _ => True
  | .list items => ∀ v ∈ items, v.Settled A H
  | .closure c => c.Sound L A H h
  | .continuation k => k.Sound L strict A H

/-- **A sound heap.** -/
structure Heap.Sound : Prop where
  tidy : H.Tidy
  acts : ∀ h, A h → ∃ c, H.closure? h = some c
  changeable : ∀ h c, H.closure? h = some c → H.isMutable h
  objects : ∀ h o, H.get? h = some o → o.Sound L strict A H h
  constants : ∀ h, p.constants.contains h → H.IsConstant h

/-- **A sound machine**, whether it goes on or not. -/
structure Machine.Sound (m : Machine) : Prop where
  program : m.image.program = p
  labels : LabelTable.ofCode p.code = .ok m.image.labels
  heap : m.heap.Sound L strict A
  current : ∃ owner, Runs A m.heap m.current owner

/-- **A machine at a spot** of the code. -/
structure Machine.Stands (m : Machine) (s : Spot) : Prop where
  line : ∃ line, L.lines[m.pc]? = some line ∧ line.spot = s
  runs : Runs A m.heap m.current s.owner
  stacked : ∃ b, Stacked L A m.heap s.owner m.frames b ∧ (strict → m.stack.length = s.depth + b)
  operands : Operands A m.heap s.pending m.stack

/-- **What holds of a machine in each state.** One that sleeps returns from the call that put it to sleep; none is
ever suspended, as no line asks for it. -/
def Machine.Keeps (m : Machine) : Prop :=
  match m.state with
  | .running => ∃ s, m.Stands L strict A s
  | .suspended => False
  | .sleeping => ∃ o b, Stacked L A m.heap (some o) m.frames b ∧ Operands A m.heap none m.stack ∧
      (strict → m.stack.length = b)
  | .stopped => m.frames = [] ∧ (strict → m.stack.length = 1)
  | .failed => True

/-- A sound machine that can go on, unless it is over. -/
structure Machine.Ready (m : Machine) : Prop where
  sound : m.Sound L strict A
  keeps : m.Keeps L strict A

/-- Machines that differ in their books only: counters, forked programs and the job they sleep on. -/
structure Machine.SameRegisters (m n : Machine) : Prop where
  image : n.image = m.image
  pc : n.pc = m.pc
  stack : n.stack = m.stack
  frames : n.frames = m.frames
  current : n.current = m.current
  heap : n.heap = m.heap
  state : n.state = m.state

variable {L strict A H} in
theorem Machine.Ready.congr {m n : Machine} (hr : m.Ready L strict A) (h : m.SameRegisters n) :
    n.Ready L strict A := by
  obtain ⟨_, image, pc, stack, frames, current, heap, state, _, _, _, _, _⟩ := m
  obtain ⟨_, image', pc', stack', frames', current', heap', state', _, _, _, _, _⟩ := n
  obtain ⟨rfl, rfl, rfl, rfl, rfl, rfl, rfl⟩ := h
  obtain ⟨⟨hprogram, hlabels, hheap, hcurrent⟩, hkeeps⟩ := hr
  refine ⟨⟨hprogram, hlabels, hheap, hcurrent⟩, ?_⟩
  unfold Machine.Keeps at hkeeps ⊢
  dsimp only at hkeeps ⊢
  split
  all_goals first
    | exact hkeeps
    | (obtain ⟨s, hline, hruns, hstacked, hoperands⟩ := hkeeps
       exact ⟨s, hline, hruns, hstacked, hoperands⟩)

variable {L strict A H} in
theorem Heap.Sound.closure (hs : H.Sound L strict A) {h : Handle} {c : Closure} (hc : H.closure? h = some c) :
    c.Sound L A H h :=
  hs.objects h _ (Heap.closure?_eq_some.mp hc)

variable {A H} in
/-- The operand on top of the stack, and those below. -/
theorem Operands.cons {pending : Option String} {v : Value} {rest : List Value}
    (h : Operands A H pending (v :: rest)) :
    (∀ w ∈ rest, w.Settled A H) ∧ (v.Settled A H ∨ ∃ N ∈ pending, v = .label N) := by
  cases pending with
  | none => exact ⟨fun w hw => h w (List.mem_cons_of_mem _ hw), Or.inl (h v List.mem_cons_self)⟩
  | some N => exact ⟨h.2, Or.inr ⟨N, rfl, h.1⟩⟩

variable {A H} in
theorem Operands.push {v : Value} {rest : List Value} (hv : v.Settled A H) (h : ∀ w ∈ rest, w.Settled A H) :
    Operands A H none (v :: rest) := by
  intro w hw
  rcases List.mem_cons.mp hw with rfl | hw
  · exact hv
  · exact h w hw

/-! ### What survives a change -/

/-- An object after a change: a closure keeps its code and its parent, everything else stays as it is. -/
inductive Object.Grows : Object → Object → Prop
  | same (o : Object) : Grows o o
  | closure {c c' : Closure} (hlabel : c'.label = c.label) (haddress : c'.address = c.address)
      (hparent : c'.parent = c.parent) : Grows (.closure c) (.closure c')

/-- **What all changes have in common**: every object is still there, and an activation if it was one. -/
structure Heap.Grows (A : Handle → Prop) (H : Heap) (A' : Handle → Prop) (H' : Heap) : Prop where
  objects : ∀ h o, H.get? h = some o → ∃ o', H'.get? h = some o' ∧ o.Grows o'
  acts : ∀ h o, H.get? h = some o → (A' h ↔ A h)

variable {L strict A H} {A' A'' : Handle → Prop} {H' H'' : Heap}

namespace Heap.Grows

theorem refl : Heap.Grows A H A H := ⟨fun _ o ho => ⟨o, ho, .same o⟩, fun _ _ _ => Iff.rfl⟩

theorem trans (h : Heap.Grows A H A' H') (h' : Heap.Grows A' H' A'' H'') : Heap.Grows A H A'' H'' := by
  refine ⟨fun j o ho => ?_, fun j o ho => ?_⟩
  · obtain ⟨o', ho', hgrows⟩ := h.objects j o ho
    obtain ⟨o'', ho'', hgrows'⟩ := h'.objects j o' ho'
    refine ⟨o'', ho'', ?_⟩
    cases hgrows with
    | same => exact hgrows'
    | closure hlabel haddress hparent =>
      cases hgrows' with
      | same => exact .closure hlabel haddress hparent
      | closure hlabel' haddress' hparent' =>
        exact .closure (hlabel'.trans hlabel) (haddress'.trans haddress) (hparent'.trans hparent)
  · obtain ⟨o', ho', -⟩ := h.objects j o ho
    exact (h'.acts j o' ho').trans (h.acts j o ho)

theorem closure? (hg : Heap.Grows A H A' H') {h : Handle} {c : Closure} (hc : H.closure? h = some c) :
    ∃ c', H'.closure? h = some c' ∧ c'.label = c.label ∧ c'.parent = c.parent := by
  obtain ⟨o, ho, hgrows⟩ := hg.objects h _ (Heap.closure?_eq_some.mp hc)
  cases hgrows with
  | same => exact ⟨c, Heap.closure?_eq_some.mpr ho, rfl, rfl⟩
  | @closure _ c' hlabel _ hparent => exact ⟨c', Heap.closure?_eq_some.mpr ho, hlabel, hparent⟩

theorem act (hg : Heap.Grows A H A' H') {h : Handle} {c : Closure} (hc : H.closure? h = some c) : A' h ↔ A h :=
  hg.acts h _ (Heap.closure?_eq_some.mp hc)

theorem settled (hg : Heap.Grows A H A' H') {v : Value} (hv : v.Settled A H) : v.Settled A' H' := by
  cases v with
  | handle h =>
    obtain ⟨hsome, hnot⟩ := hv
    obtain ⟨o, ho⟩ := Option.isSome_iff_exists.mp hsome
    obtain ⟨o', ho', -⟩ := hg.objects h o ho
    exact ⟨by simp [ho'], fun hact => hnot ((hg.acts h o ho).mp hact)⟩
  | label N => exact hv
  | _ => trivial

theorem held (hg : Heap.Grows A H A' H') {o : String} {v : Value} (hv : v.Held L A H o) : v.Held L A' H' o :=
  hv.imp_left hg.settled

theorem runs (hg : Heap.Grows A H A' H') {current : Option Handle} {owner : Option String}
    (hr : Runs A H current owner) : Runs A' H' current owner := by
  cases hr with
  | start => exact .start
  | code hact hc =>
    obtain ⟨c', hc', hlabel, -⟩ := hg.closure? hc
    exact hlabel ▸ .code ((hg.act hc).mpr hact) hc'

theorem stacked (hg : Heap.Grows A H A' H') {owner : Option String} {fs : List Frame} {b : Nat}
    (hs : Stacked L A H owner fs b) : Stacked L A' H' owner fs b := by
  induction hs with
  | start => exact .start
  | frame hline hspot hruns _ ih => exact .frame hline hspot (hg.runs hruns) ih

theorem continuation (hg : Heap.Grows A H A' H') {k : Continuation} (hk : k.Sound L strict A H) :
    k.Sound L strict A' H' := by
  obtain ⟨o, d, b, hat, hruns, hstacked, hstack, hlength⟩ := hk
  exact ⟨o, d, b, hat, hg.runs hruns, hg.stacked hstacked, fun v hv => hg.settled (hstack v hv), hlength⟩

theorem placed (hg : Heap.Grows A H A' H') {h : Handle} {c c' : Closure} (hc : H.closure? h = some c)
    (hlabel : c'.label = c.label) (hparent : c'.parent = c.parent) (hp : c.Placed L A H h) :
    c'.Placed L A' H' h := by
  cases hp with
  | top hact hnone => exact .top ((hg.act hc).mpr hact) (hparent.trans hnone)
  | @nested g d hg' hd hact hin =>
    obtain ⟨d', hd', hdlabel, -⟩ := hg.closure? hd
    exact .nested (hparent.trans hg') hd' ((hg.act hd).mpr hact) (by rw [hlabel, hdlabel]; exact hin)
  | @called g d hg' hd hact hnot hsame =>
    obtain ⟨d', hd', hdlabel, -⟩ := hg.closure? hd
    exact .called (hparent.trans hg') hd' ((hg.act hc).mpr hact) (fun hact' => hnot ((hg.act hd).mp hact'))
      (by rw [hlabel, hdlabel]; exact hsame)

end Heap.Grows

end SchemeMachine
