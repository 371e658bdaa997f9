import SchemeMachine.Proofs.Continuation
import SchemeMachine.Proofs.Lookup
import SchemeMachine.Proofs.Syntax.Quotation

/-!
# Forks of quoted code

A fork of quoted code writes the data as source text, compiles the text and starts the program. Whatever the process has
done before, the program is the one that the code would have been compiled to.

* `Heap.HasConstants` says that a heap holds the constants of a program. It does so all along a run
  (`Process.run_constants`), as nothing changes a constant.
* `Heap.source?_datum` is what a heap writes of data among the constants of a program.
* `Process.run_fork` is the result. A template does not survive, see `Process.run_fork_template`.
-/

namespace SchemeMachine

open Lowering

variable {p : Program} {t : Tree} {roots : List Term} {blocks : List Block} {K : Table Handle Constant} {H : Heap}

/-! ### Constants -/

/-- **A heap that holds the constants of a program.** -/
def Heap.HasConstants (H : Heap) (K : Table Handle Constant) : Prop :=
  ∀ h c, K.find? h = some c → H.get? h = some (Object.ofConstant c)

/-- A constant is no closure. -/
theorem Object.Grows.ofConstant {c : Constant} {o : Object} (h : (Object.ofConstant c).Grows o) :
    o = Object.ofConstant c := by
  generalize hc : Object.ofConstant c = o' at h
  cases h with
  | same => rfl
  | closure => cases c <;> cases hc

/-- **A process holds its constants** in every state that it can reach. -/
theorem Process.run_constants (hp : p.Compiled t roots blocks) {image : Image} (himage : Image.ofProgram p = .ok image)
    {registry : Registry} (hmodest : registry.Modest) (settings : Settings) (pid : Nat) (moments : List Moment) :
    (run settings registry pid image moments).machine.heap.HasConstants p.constants := by
  have hready := fun moments => (run_ready hp hp.layout False himage hmodest (fun _ => none) False.elim settings pid
    moments False.elim).1
  induction moments using List.reverseRecOn with
  | nil =>
    intro h c hc
    have himage' : image.program = p := by
      obtain ⟨A, hr⟩ := hready []
      exact hr.sound.program
    show (Heap.ofConstants image.program.constants).get? h = _
    rw [himage', Heap.get?, Heap.slot?_ofConstants hp.sorted.nodup, hc]
    rfl
  | append_singleton moments now ih =>
    intro h c hc
    obtain ⟨A, hr⟩ := hready moments
    obtain ⟨A', hr'⟩ := hready (moments ++ [now])
    obtain ⟨s, hs, -⟩ := hr'.sound.heap.constants h (Table.contains_iff.mpr ⟨c, hc⟩)
    have hfollows := follows_next settings registry (run settings registry pid image moments) now hr.sound.heap.tidy
    rw [← run_append] at hfollows
    rcases hfollows.objects h _ (ih h c hc) with ⟨o, ho, hgrows⟩ | ⟨hlost, -⟩
    · rw [ho, hgrows.ofConstant]
    · rw [Heap.get?, hs] at hlost
      cases hlost

/-! ### Data as source text -/

/-- **The items of a constant list come after the list.** -/
def Program.Ordered (K : Table Handle Constant) : Prop :=
  ∀ h items, K.find? h = some (.list items) → ∀ j, .handle j ∈ items → h < j

namespace Heap

open Term

mutual

/-- **What a heap writes of data.** Below a list there are only later slots, so the slots suffice for the depth. -/
theorem sourceFrom?_datum (hH : H.HasConstants K) (hK : Program.Ordered K) : (x : Term) → x.Kept K →
    x.Readable .quoted → {fuel : Nat} → 0 < fuel → (∀ h, x.child = .node h → H.slots.size < fuel + h) →
    ∃ v, Value.ofOperand? x.child.operand = some v ∧ H.sourceFrom? fuel v = some (x.text true)
  | .atom a, _, hx, fuel, hfuel, _ => by
    obtain ⟨fuel, rfl⟩ : ∃ n, fuel = n + 1 := ⟨fuel - 1, by omega⟩
    cases a with
    | number x => exact ⟨_, rfl, rfl⟩
    | boolean b => exact ⟨_, rfl, rfl⟩
    | symbol s => exact ⟨_, rfl, rfl⟩
    | «variable» v => cases hx.1
    | keyword k => cases hx.1
  | .string h content, hkept, _, fuel, hfuel, _ => by
    obtain ⟨fuel, rfl⟩ : ∃ n, fuel = n + 1 := ⟨fuel - 1, by omega⟩
    refine ⟨.handle h, rfl, ?_⟩
    rw [sourceFrom?]
    simp only [hH h _ hkept]
    rfl
  | .application h quotation items, hkept, hx, fuel, hfuel, hsize => by
    obtain ⟨fuel, rfl⟩ : ∃ n, fuel = n + 1 := ⟨fuel - 1, by omega⟩
    -- a list is deeper than its items, whose handles come after its own
    cases quotation with
    | quote =>
      have hget := hH h _ hkept.1
      obtain ⟨s, hs, -⟩ := get?_eq_some.mp hget
      have hfuel' : ∀ {size fuel h : Nat}, h < size → size < fuel + 1 + h → 0 < fuel := by omega
      have hdeeper : ∀ {size fuel h j : Nat}, size < fuel + 1 + h → h < j → size < fuel + j := by omega
      have hitems := mapM_sourceFrom?_data hH hK items hkept.2 hx (hfuel' (lt_size_of_slot? hs) (hsize h rfl))
        fun y hy j hj => by
          refine hdeeper (hsize h rfl) (hK h _ hkept.1 j ?_)
          rw [List.map_map]
          exact List.mem_map.mpr ⟨y, hy, by rw [Function.comp, hj]; rfl⟩
      refine ⟨.handle h, rfl, ?_⟩
      rw [sourceFrom?]
      simp only [hget, Object.ofConstant, hitems]
      rfl
    | _ => cases hx.1

/-- What a heap writes of the items of a list. -/
theorem mapM_sourceFrom?_data (hH : H.HasConstants K) (hK : Program.Ordered K) : (xs : List Term) → KeptAll K xs →
    ReadableAll .quoted xs → {fuel : Nat} → 0 < fuel →
    (∀ x ∈ xs, ∀ h, x.child = .node h → H.slots.size < fuel + h) →
    (((xs.map Term.child).map Child.operand).filterMap Value.ofOperand?).mapM (H.sourceFrom? fuel) =
      some (textAll true xs)
  | [], _, _, _, _, _ => rfl
  | x :: xs, hkept, hx, fuel, hfuel, hsize => by
    obtain ⟨v, hv, hsource⟩ := sourceFrom?_datum hH hK x hkept.1 hx.1 hfuel (hsize x List.mem_cons_self)
    have hrest := mapM_sourceFrom?_data hH hK xs hkept.2 hx.2 hfuel fun y hy => hsize y (List.mem_cons_of_mem x hy)
    rw [List.map_cons, List.map_cons, List.filterMap_cons_some hv, List.mapM_cons, hsource, hrest]
    rfl

end

/-- **Data are written as the text of the data.** -/
theorem source?_datum (hH : H.HasConstants K) (hK : Program.Ordered K) {x : Term} (hkept : x.Kept K)
    (hx : x.Readable .quoted) {h : Handle} (hchild : x.child = .node h) :
    H.source? (.handle h) = some (x.text true) := by
  obtain ⟨v, hv, hsource⟩ := sourceFrom?_datum hH hK x hkept hx (Nat.succ_pos _) fun j _ =>
    Nat.lt_of_lt_of_le (Nat.lt_succ_self _) (Nat.le_add_right _ _)
  rw [hchild] at hv
  cases hv
  exact hsource

end Heap

/-! ### Forks -/

namespace Machine

variable {m : Machine} {host : Host} {program : Program} {code : String} {x : Term} {h : Handle}

/-- **Quoted code is forked as the program of the code.** -/
theorem forkProgram_quoted (hH : m.heap.HasConstants K) (hK : Program.Ordered K) (hkept : x.Kept K)
    (hchild : x.child = .node h) (hcode : Token.IsForm code) (hx : Form.IsQuoted code x.blank)
    (hprogram : Program.compile code = .ok program) :
    forkProgram host m.heap h = .ok { program with sourceHash := SchemeMachine.sourceHash (x.text true) } := by
  obtain ⟨⟨k, items, rfl⟩, hreadable⟩ := hx.exists_list hcode
  cases hchild
  rw [forkProgram, hH h _ hkept.1]
  simp only [Object.ofConstant]
  rw [Heap.source?_datum hH hK hkept hreadable rfl]
  dsimp only
  have hcompiled := Program.compile_quoted hcode hx hprogram
  rw [Term.text_blank] at hcompiled
  rw [hcompiled]
  rfl

/-- **A fork starts the program that its data are.** -/
theorem IsAbout.forks (ha : m.IsAbout host.settings (.op .fork (some (.handle h))))
    (hfork : forkProgram host m.heap h = .ok program) {image : Image} (himage : Image.ofProgram program = .ok image) :
    (Machine.step host m).error = none ∧ (Machine.step host m).machine.state = .running ∧
      (Machine.step host m).machine.forked = m.forked ++ [image] := by
  -- the instruction itself: a program is made of the data, and its image joins those forked
  have hrun : (dispatch host (.op .fork (some (.handle h)))).run { m with steps := m.steps + 1 } =
      (.ok "", { m with steps := m.steps + 1, forked := m.forked ++ [image], pc := m.pc + 1 }) := by
    have hforked : (Machine.fork host h).run { m with steps := m.steps + 1 } =
        (.ok (), { m with steps := m.steps + 1, forked := m.forked ++ [image] }) := by
      unfold Machine.fork
      rw [run_get_bind, run_bind_ok (by rw [run_require, hfork]), run_bind_ok (by rw [run_require, himage])]
      rfl
    show (Machine.fork host h >>= fun _ => advance >>= fun _ => (pure "" : Move String)).run _ = _
    rw [run_bind_ok hforked]
    rfl
  rw [ha.step_eq, stepRunning_of_ok ha.below ha.instruction hrun]
  -- a collection after it changes the heap alone
  obtain ⟨H, n, hcollected⟩ := collectIfDue_eq host.settings
    ({ m with steps := m.steps + 1, forked := m.forked ++ [image], pc := m.pc + 1 } : Machine)
  have hcall : (Instruction.op .fork (some (.handle h))).isCall = false := rfl
  rw [hcall, if_neg Bool.false_ne_true, hcollected]
  exact ⟨rfl, ha.running, rfl⟩

end Machine

/-- **Quoted code is forked as the code that was quoted.** Take a source that compiles and a fork in it of what a text in
parentheses is behind a quote. If the text compiles, then whenever a run comes to the fork, it goes on, and starts the
program that the text compiles to; only the hash of its source differs. -/
theorem Process.run_fork {source code : String} {program : Program} (hp : Program.compile source = .ok p)
    (hcode : Token.IsForm code) (hprogram : Program.compile code = .ok program) {registry : Registry}
    (hmodest : registry.Modest) :
    ∃ t image, (Tree.parse source >>= Tree.analyse) = .ok t ∧ Image.ofProgram p = .ok image ∧
      ∀ (M k h : Handle) (tail : Bool) (x : Term),
        Lowers t p.constants M tail (.application k .code [.atom (.keyword "fork"), x]) (.fork h) →
        Form.IsQuoted code x.blank →
        ∀ (settings : Settings) (pid : Nat) (moments : List Moment) (now : Moment),
          (run settings registry pid image moments).machine.IsAbout settings (.op .fork (some (.handle h))) →
          ∃ child, child.program = { program with sourceHash := SchemeMachine.sourceHash (x.text true) } ∧
            (run settings registry pid image (moments ++ [now])).error =
              (run settings registry pid image moments).error ∧
            (run settings registry pid image (moments ++ [now])).machine.state = .running ∧
            (run settings registry pid image (moments ++ [now])).machine.forked =
              (run settings registry pid image moments).machine.forked ++ [child] := by
  obtain ⟨t, roots, blocks, ht, hcompiled⟩ := Program.compiled_compile hp
  obtain ⟨image, himage, -⟩ := (Program.Produced.compiled hp).exists_image
  refine ⟨t, image, ht, himage, fun M k h tail x hx hquoted settings pid moments now ha => ?_⟩
  -- the operand of the instruction is the datum, which is among the constants
  obtain ⟨hkept, hchild⟩ : x.Kept p.constants ∧ x.child = .node h := by
    generalize hy : Term.application k .code [.atom (.keyword "fork"), x] = y at hx
    generalize hq : Piece.fork h = q at hx
    cases hx with
    | fork hkept hchild =>
      cases hy
      cases hq
      exact ⟨hkept, hchild⟩
    | template hx => cases hx <;> cases hq
    | _ => cases hq
  -- data are written back from the heap, where the constants are still what they were
  have hordered : Program.Ordered p.constants := fun h items hh j hj => (hcompiled.lists h items hh j hj).1
  have hfork : Machine.forkProgram (hostAt settings registry now) _ h = _ := Machine.forkProgram_quoted
    (run_constants hcompiled himage hmodest settings pid moments) hordered hkept hchild hcode hquoted hprogram
  obtain ⟨child, hchildImage, hchildProgram⟩ := (Program.Produced.compiled
    (Program.compile_quoted hcode hquoted hprogram)).exists_image
  rw [Term.text_blank] at hchildImage hchildProgram
  have ha' : (run settings registry pid image moments).machine.IsAbout (hostAt settings registry now).settings _ := ha
  obtain ⟨herror, hstate, hforked⟩ := ha'.forks hfork hchildImage
  refine ⟨child, hchildProgram, ?_⟩
  rw [run_append]
  unfold next
  rw [ha.running]
  refine ⟨?_, hstate, hforked⟩
  dsimp only
  rw [herror]
  cases (run settings registry pid image moments).error <;> rfl

/-- Code with an abbreviation and a string, as it is written. -/
def quotedText : String := "(display (cons 'a \"b\"))"

/-- The same code behind a quote, where it stands in `(fork '…)`. -/
def quotedTerm : Term :=
  .application 2 .quote [.atom (.symbol "display"), .application 3 .quote [.atom (.symbol "cons"),
    .application 4 .quote [.atom (.symbol "quote"), .atom (.symbol "a")], .string 5 "b"]]

/-- The code is a text in parentheses. -/
theorem isForm_quotedText : Token.IsForm quotedText := by
  have hscan : Token.scan quotedText = .ok
      [⟨.open, 0, 1, 1, 1⟩, ⟨.symbol "display", 1, 8, 1, 2⟩, ⟨.open, 9, 10, 1, 10⟩, ⟨.symbol "cons", 10, 14, 1, 11⟩,
        ⟨.quote, 15, 16, 1, 16⟩, ⟨.symbol "a", 16, 17, 1, 17⟩, ⟨.string "b", 18, 21, 1, 19⟩, ⟨.close, 21, 22, 1, 22⟩,
        ⟨.close, 22, 23, 1, 23⟩, ⟨.endOfText, 23, 23, 1, 24⟩] := by
    decide +kernel
  refine ⟨_, _, hscan, ?_, rfl, rfl⟩
  simp [Token.Kind.Portable, Text.Survives, Text.rereadChar]
  decide

/-- And this is what it is behind a quote. -/
theorem isQuoted_quotedText : Form.IsQuoted quotedText quotedTerm.blank := by
  have hscan : Token.scan ("'" ++ quotedText) = .ok
      [⟨.quote, 0, 1, 1, 1⟩, ⟨.open, 1, 2, 1, 2⟩, ⟨.symbol "display", 2, 9, 1, 3⟩, ⟨.open, 10, 11, 1, 11⟩,
        ⟨.symbol "cons", 11, 15, 1, 12⟩, ⟨.quote, 16, 17, 1, 17⟩, ⟨.symbol "a", 17, 18, 1, 18⟩,
        ⟨.string "b", 19, 22, 1, 20⟩, ⟨.close, 22, 23, 1, 23⟩, ⟨.close, 23, 24, 1, 24⟩,
        ⟨.endOfText, 24, 24, 1, 25⟩] := by
    decide +kernel
  exact ⟨_, _, hscan, rfl, rfl⟩

/-- A fork of code with an abbreviation and a string. -/
theorem Process.run_fork_abbreviation :
    ∃ p program image now child, Program.compile "(fork '(display (cons 'a \"b\")))" = .ok p ∧
      Program.compile quotedText = .ok program ∧ Image.ofProgram p = .ok image ∧
      (run {} Registry.builtins 0 image (List.replicate 3 now)).machine.forked = [child] ∧
      child.program = { program with sourceHash := SchemeMachine.sourceHash "(display (cons (quote a) \"b\"))" } := by
  let now : Moment := ⟨{}, .ok .nothing⟩
  have hrun : (do
      let p ← (Program.compile "(fork '(display (cons 'a \"b\")))").toOption
      let _ ← (Program.compile quotedText).toOption
      let image ← (Image.ofProgram p).toOption
      let m := (run {} Registry.builtins 0 image (List.replicate 2 now)).machine
      return decide (m.state = .running ∧ m.image.program.code[m.pc]? = some (.op .fork (some (.handle 2))) ∧
        m.forked.length = 0 ∧
        p.constants.find? 2 = some (.list [.atom (.symbol "display"), .handle 3]) ∧
        p.constants.find? 3 = some (.list [.atom (.symbol "cons"), .handle 4, .handle 5]) ∧
        p.constants.find? 4 = some (.list [.atom (.symbol "quote"), .atom (.symbol "a")]) ∧
        p.constants.find? 5 = some (.string "b"))) = some true := by
    decide +kernel
  simp only [Option.bind_eq_bind, Option.pure_def, Option.bind_eq_some_iff, Except.toOption_eq_some] at hrun
  obtain ⟨p, hp, program, hprogram, image, himage, hrun⟩ := hrun
  simp only [Option.some.injEq, decide_eq_true_eq] at hrun
  obtain ⟨hstate, hi, hnone, hdisplay, hcons, hquote, hstring⟩ := hrun
  obtain ⟨t, image', ht, himage', hfork⟩ := run_fork hp isForm_quotedText hprogram Registry.modest_builtins
  cases himage.symm.trans himage'
  have hkept : quotedTerm.Kept p.constants := ⟨hdisplay, trivial, ⟨hcons, trivial, ⟨hquote, trivial, trivial, trivial⟩,
    hstring, trivial⟩, trivial⟩
  obtain ⟨child, hchild, -, -, hforked⟩ := hfork 0 1 2 false quotedTerm (.fork hkept rfl) isQuoted_quotedText {} 0
    (List.replicate 2 now) now ⟨hstate, by simp, hi⟩
  refine ⟨p, program, image, now, child, hp, hprogram, himage, ?_, hchild⟩
  rw [List.eq_nil_of_length_eq_zero hnone, List.nil_append] at hforked
  exact hforked

/-- **A template does not survive**: behind a quote it becomes a list that starts with `quasiquote`, and that is no code,
although `(quote …)` is. -/
theorem Process.run_fork_template :
    ∃ p program image now, Program.compile "(fork '(display `(a ,(+ 1 2))))" = .ok p ∧
      Program.compile "(display `(a ,(+ 1 2)))" = .ok program ∧ Image.ofProgram p = .ok image ∧
      (run {} Registry.builtins 0 image (List.replicate 2 now)).machine.IsAbout {} (.op .fork (some (.handle 2))) ∧
      (run {} Registry.builtins 0 image (List.replicate 3 now)).machine.state = .failed ∧
      (run {} Registry.builtins 0 image (List.replicate 3 now)).machine.forked.length = 0 ∧
      (run {} Registry.builtins 0 image (List.replicate 3 now)).error.map (·.fault) =
        some (.fork "lowering error: keyword 'quasiquote' cannot be used here at 1:10") := by
  let now : Moment := ⟨{}, .ok .nothing⟩
  have hrun : (do
      let p ← (Program.compile "(fork '(display `(a ,(+ 1 2))))").toOption
      let _ ← (Program.compile "(display `(a ,(+ 1 2)))").toOption
      let image ← (Image.ofProgram p).toOption
      let m := (run {} Registry.builtins 0 image (List.replicate 2 now)).machine
      let q := run {} Registry.builtins 0 image (List.replicate 3 now)
      return decide (m.state = .running ∧ m.image.program.code[m.pc]? = some (.op .fork (some (.handle 2))) ∧
        q.machine.state = .failed ∧ q.machine.forked.length = 0 ∧ q.error.map (·.fault) =
          some (.fork "lowering error: keyword 'quasiquote' cannot be used here at 1:10"))) = some true := by
    decide +kernel
  simp only [Option.bind_eq_bind, Option.pure_def, Option.bind_eq_some_iff, Except.toOption_eq_some] at hrun
  obtain ⟨p, hp, program, hprogram, image, himage, hrun⟩ := hrun
  simp only [Option.some.injEq, decide_eq_true_eq] at hrun
  obtain ⟨hstate, hi, hfailed, hnone, herror⟩ := hrun
  exact ⟨p, program, image, now, hp, hprogram, himage, ⟨hstate, by simp, hi⟩, hfailed, hnone, herror⟩

end SchemeMachine
