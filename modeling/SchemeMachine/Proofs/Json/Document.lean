import SchemeMachine.Proofs.Json.Numeral
import SchemeMachine.Proofs.Json.Spelling

/-!
# A document survives being written

The two ways of writing a document differ in the blanks between its parts. The reader skips those, so that both texts are
read as the same document.

* `Layout` says where blanks stand; `compact` and `pretty` are the texts of two layouts (`toList_compact`,
  `toList_prettyAt`).
* `echo` is the document that comes back: the same document, with every number replaced by what its text is read as.
* `read?_write` is the result: **a document whose strings are texts and whose numbers are legible is read back**, in both
  layouts (`read?_compact`, `read?_pretty`).
-/

namespace SchemeMachine.JsonValue

/-! ### Layouts -/

/-- **Where blanks stand in a document**: before a part or a closing bracket at a depth, and after a colon. -/
structure Layout where
  lead : Nat → List Char
  colon : List Char
  lead_blank : ∀ depth, ∀ c ∈ lead depth, isBlank c = true
  colon_blank : ∀ c ∈ colon, isBlank c = true

namespace Layout

/-- No blanks. -/
def compact : Layout where
  lead _ := []
  colon := []
  lead_blank _ _ h := absurd h (List.not_mem_nil)
  colon_blank _ h := absurd h (List.not_mem_nil)

/-- Parts on lines of their own. -/
def pretty : Layout where
  lead depth := (indent depth).toList
  colon := [' ']
  lead_blank depth c hc := by
    rw [indent, String.toList_append, List.mem_append, String.toList_join, List.mem_flatMap] at hc
    rcases hc with hc | ⟨s, hs, hc⟩
    · rw [List.mem_singleton.mp hc]
      rfl
    · rw [List.eq_of_mem_replicate hs] at hc
      have hspaces : ∀ c ∈ "  ".toList, isBlank c = true := by decide
      exact hspaces c hc
  colon_blank c hc := by
    rw [List.mem_singleton.mp hc]
    rfl

mutual

/-- **The text of a document** in a layout, at a depth. -/
def write (l : Layout) (depth : Nat) : JsonValue → List Char
  | .null => ['n', 'u', 'l', 'l']
  | .boolean b => if b then ['t', 'r', 'u', 'e'] else ['f', 'a', 'l', 's', 'e']
  | .number n => (numberText n).toList
  | .string s => '"' :: (s.spelling ++ ['"'])
  | .array items => '[' :: writeItems l depth items
  | .object members => '\x7b' :: writeMembers l depth members

/-- The items of an array, to its bracket. -/
def writeItems (l : Layout) (depth : Nat) : List JsonValue → List Char
  | [] => [']']
  | [v] => l.lead (depth + 1) ++ (write l (depth + 1) v ++ (l.lead depth ++ [']']))
  | v :: w :: vs => l.lead (depth + 1) ++ (write l (depth + 1) v ++ ',' :: writeItems l depth (w :: vs))

/-- The members of an object, to its brace. -/
def writeMembers (l : Layout) (depth : Nat) : List (JsonString × JsonValue) → List Char
  | [] => ['\x7d']
  | [(k, v)] =>
    l.lead (depth + 1) ++ ('"' :: (k.spelling ++ '"' :: ':' :: (l.colon ++ (write l (depth + 1) v ++
      (l.lead depth ++ ['\x7d'])))))
  | (k, v) :: m :: ms =>
    l.lead (depth + 1) ++ ('"' :: (k.spelling ++ '"' :: ':' :: (l.colon ++ (write l (depth + 1) v ++
      ',' :: writeMembers l depth (m :: ms)))))

end

end Layout

mutual

theorem toList_compact (depth : Nat) : ∀ v, (compact v).toList = Layout.compact.write depth v
  | .null => rfl
  | .boolean b => by cases b <;> rfl
  | .number n => rfl
  | .string s => by rw [compact, JsonString.quoted, String.toList_ofList, Layout.write]
  | .array items => by
    rw [compact, Layout.write, ← toList_compactItems depth items]
    simp [String.toList_append]
  | .object members => by
    rw [compact, Layout.write, ← toList_compactMembers depth members]
    simp [String.toList_append]

theorem toList_compactItems (depth : Nat) : ∀ vs,
    (String.intercalate "," (compactItems vs)).toList ++ [']'] = Layout.compact.writeItems depth vs
  | [] => rfl
  | [v] => by
    rw [compactItems, compactItems, String.intercalate_singleton, Layout.writeItems, toList_compact (depth + 1) v]
    rfl
  | v :: w :: vs => by
    rw [compactItems, Layout.writeItems, ← toList_compact (depth + 1) v, ← toList_compactItems depth (w :: vs),
      compactItems, String.intercalate_cons_cons]
    simp [String.toList_append, Layout.compact]

theorem toList_compactMembers (depth : Nat) : ∀ ms,
    (String.intercalate "," (compactMembers ms)).toList ++ ['\x7d'] = Layout.compact.writeMembers depth ms
  | [] => rfl
  | [(k, v)] => by
    rw [compactMembers, compactMembers, String.intercalate_singleton, Layout.writeMembers,
      ← toList_compact (depth + 1) v]
    simp [String.toList_append, Layout.compact, JsonString.quoted]
  | (k, v) :: m :: ms => by
    rw [compactMembers, Layout.writeMembers, ← toList_compact (depth + 1) v, ← toList_compactMembers depth (m :: ms),
      compactMembers, String.intercalate_cons_cons]
    simp [String.toList_append, Layout.compact, JsonString.quoted]

end

/-- The parts between brackets, to the closing bracket. -/
def bracketedTail (right : String) (depth : Nat) (parts : List String) : String :=
  if parts.isEmpty then right
  else String.intercalate "," (parts.map (indent (depth + 1) ++ ·)) ++ indent depth ++ right

theorem bracketed_eq (left right : String) (depth : Nat) (parts : List String) :
    bracketed left right depth parts = left ++ bracketedTail right depth parts := by
  unfold bracketed bracketedTail
  split
  · rfl
  · simp only [String.append_assoc]

theorem bracketedTail_cons_cons (right : String) (depth : Nat) (part next : String) (parts : List String) :
    bracketedTail right depth (part :: next :: parts) =
      indent (depth + 1) ++ (part ++ ("," ++ bracketedTail right depth (next :: parts))) := by
  simp only [bracketedTail, List.isEmpty_cons, Bool.false_eq_true, if_false, List.map_cons,
    String.intercalate_cons_cons, String.append_assoc]

mutual

theorem toList_prettyAt (depth : Nat) : ∀ v, (prettyAt depth v).toList = Layout.pretty.write depth v
  | .null => by
    rw [prettyAt, Layout.write]
    rfl
  | .boolean b => by
    rw [prettyAt, Layout.write]
    cases b <;> rfl
  | .number n => rfl
  | .string s => by rw [prettyAt, JsonString.quoted, String.toList_ofList, Layout.write]
  | .array items => by
    rw [prettyAt, Layout.write, ← toList_prettyItems depth items, bracketed_eq]
    simp [String.toList_append]
  | .object members => by
    rw [prettyAt, Layout.write, ← toList_prettyMembers depth members, bracketed_eq]
    simp [String.toList_append]

theorem toList_prettyItems (depth : Nat) : ∀ vs,
    (bracketedTail "]" depth (prettyItems (depth + 1) vs)).toList = Layout.pretty.writeItems depth vs
  | [] => by
    rw [prettyItems, Layout.writeItems, bracketedTail, List.isEmpty_nil, if_pos rfl]
    rfl
  | [v] => by
    rw [prettyItems, prettyItems, Layout.writeItems, ← toList_prettyAt (depth + 1) v]
    simp [bracketedTail, String.toList_append, Layout.pretty]
  | v :: w :: vs => by
    rw [prettyItems, Layout.writeItems, ← toList_prettyAt (depth + 1) v, ← toList_prettyItems depth (w :: vs),
      prettyItems, bracketedTail_cons_cons]
    simp [String.toList_append, Layout.pretty]

theorem toList_prettyMembers (depth : Nat) : ∀ ms,
    (bracketedTail "\x7d" depth (prettyMembers (depth + 1) ms)).toList = Layout.pretty.writeMembers depth ms
  | [] => by
    rw [prettyMembers, Layout.writeMembers, bracketedTail, List.isEmpty_nil, if_pos rfl]
    rfl
  | [(k, v)] => by
    rw [prettyMembers, prettyMembers, Layout.writeMembers, ← toList_prettyAt (depth + 1) v]
    simp [bracketedTail, String.toList_append, Layout.pretty, JsonString.quoted]
  | (k, v) :: m :: ms => by
    rw [prettyMembers, Layout.writeMembers, ← toList_prettyAt (depth + 1) v, ← toList_prettyMembers depth (m :: ms),
      prettyMembers, bracketedTail_cons_cons]
    simp [String.toList_append, Layout.pretty, JsonString.quoted]

end

/-! ### What comes back -/

mutual

/-- **The document that comes back**: every number is what its text is read as. -/
def echo : JsonValue → JsonValue
  | .null => .null
  | .boolean b => .boolean b
  | .number n => (read? (numberText n)).getD .null
  | .string s => .string s
  | .array items => .array (echoItems items)
  | .object members => .object (echoMembers members)

/-- The items that come back. -/
def echoItems : List JsonValue → List JsonValue
  | [] => []
  | v :: vs => echo v :: echoItems vs

/-- The members that come back, under the same keys. -/
def echoMembers : List (JsonString × JsonValue) → List (JsonString × JsonValue)
  | [] => []
  | (k, v) :: ms => (k, echo v) :: echoMembers ms

end

mutual

/-- **A document that can be read back**: its strings and keys are texts, and the texts of its numbers are read. -/
def Legible : JsonValue → Prop
  | .null => True
  | .boolean _ => True
  | .number n => ReadsAs (numberText n).toList ((read? (numberText n)).getD .null)
  | .string s => ∃ t, s = .ofText t
  | .array items => LegibleItems items
  | .object members => LegibleMembers members

/-- All items can be read back. -/
def LegibleItems : List JsonValue → Prop
  | [] => True
  | v :: vs => Legible v ∧ LegibleItems vs

/-- All members can be read back. -/
def LegibleMembers : List (JsonString × JsonValue) → Prop
  | [] => True
  | (k, v) :: ms => (∃ t, k = .ofText t) ∧ Legible v ∧ LegibleMembers ms

end

theorem echoItems_eq (vs : List JsonValue) : echoItems vs = vs.map echo := by
  induction vs with
  | nil => rfl
  | cons v vs ih => rw [echoItems, ih, List.map_cons]

theorem echoMembers_eq (ms : List (JsonString × JsonValue)) : echoMembers ms = ms.map fun m => (m.1, echo m.2) := by
  induction ms with
  | nil => rfl
  | cons m ms ih => rw [echoMembers, ih, List.map_cons]

theorem legibleItems_iff {vs : List JsonValue} : LegibleItems vs ↔ ∀ v ∈ vs, Legible v := by
  induction vs with
  | nil => simp [LegibleItems]
  | cons v vs ih => rw [LegibleItems, ih, List.forall_mem_cons]

theorem legibleMembers_iff {ms : List (JsonString × JsonValue)} :
    LegibleMembers ms ↔ ∀ m ∈ ms, (∃ t, m.1 = .ofText t) ∧ Legible m.2 := by
  induction ms with
  | nil => simp [LegibleMembers]
  | cons m ms ih => rw [LegibleMembers, ih, List.forall_mem_cons, and_assoc]

/-! ### Reading -/

theorem readValue_blanks {bs : List Char} (h : ∀ c ∈ bs, isBlank c = true) (fuel : Nat) (cs : List Char) :
    readValue fuel (bs ++ cs) = readValue fuel cs := by
  cases fuel with
  | zero => rfl
  | succ fuel => rw [readValue, readValue, skipBlanks_append h]

/-- After a part of a document comes a comma or a bracket, perhaps on the next line. -/
theorem stops_blanks {bs : List Char} (h : ∀ c ∈ bs, isBlank c = true) {c : Char} (hc : Stops [c]) (rest : List Char) :
    Stops (bs ++ c :: rest) := by
  cases bs with
  | nil => exact fun d hd => hc d hd
  | cons b bs =>
    intro d hd
    obtain rfl := Option.some.inj hd
    have hb := h b List.mem_cons_self
    simp only [isBlank, Bool.or_eq_true, decide_eq_true_eq] at hb
    rcases hb with ((rfl | rfl) | rfl) | rfl <;> decide

theorem stops_comma : Stops [','] := by
  intro c hc
  obtain rfl := Option.some.inj hc
  decide

theorem stops_bracket : Stops [']'] := by
  intro c hc
  obtain rfl := Option.some.inj hc
  decide

theorem stops_brace : Stops ['\x7d'] := by
  intro c hc
  obtain rfl := Option.some.inj hc
  decide

theorem opens_write (l : Layout) (depth : Nat) {v : JsonValue} (hv : Legible v) : Opens (l.write depth v) := by
  cases v with
  | null => exact ⟨'n', _, rfl, by decide⟩
  | boolean b => cases b with
    | true => exact ⟨'t', _, rfl, by decide⟩
    | false => exact ⟨'f', _, rfl, by decide⟩
  | number n => exact (show ReadsAs _ _ from hv).opens
  | string s => exact ⟨'"', _, rfl, by decide⟩
  | array items => exact ⟨'[', _, by rw [Layout.write], by decide⟩
  | object members => exact ⟨'\x7b', _, by rw [Layout.write], by decide⟩

theorem expectText_append (word : String) (rest : List Char) : expectText word (word.toList ++ rest) = some rest := by
  rw [expectText, if_pos (List.isPrefixOf_iff_prefix.mpr (List.prefix_append _ _)), ← String.length_toList,
    List.drop_left]

theorem readValue_quote (fuel : Nat) (rest : List Char) :
    readValue (fuel + 1) ('"' :: rest) = (JsonString.scan? rest).map fun r => (.string r.1, r.2) := by
  rw [readValue, skipBlanks_cons (by decide)]
  rfl

theorem readValue_bracket (fuel : Nat) (rest : List Char) :
    readValue (fuel + 1) ('[' :: rest) = match skipBlanks rest with
      | ']' :: rest => some (.array [], rest)
      | _ => (readItems fuel rest).map fun r => (.array r.1, r.2) := by
  rw [readValue, skipBlanks_cons (by decide)]
  rfl

theorem readValue_brace (fuel : Nat) (rest : List Char) :
    readValue (fuel + 1) ('\x7b' :: rest) = match skipBlanks rest with
      | '\x7d' :: rest => some (.object [], rest)
      | _ => (readMembers fuel rest).map fun r => (.object r.1, r.2) := by
  rw [readValue, skipBlanks_cons (by decide)]
  rfl

/-- The three words. -/
theorem readsAs_null : ReadsAs ['n', 'u', 'l', 'l'] .null := by
  refine ⟨⟨'n', _, rfl, by decide⟩, fun fuel rest _ => ?_⟩
  have hread : readValue (fuel + 1) (['n', 'u', 'l', 'l'] ++ rest) =
      (expectText "ull" ("ull".toList ++ rest)).map fun rest => (.null, rest) := by
    rw [List.cons_append, readValue, skipBlanks_cons (by decide)]
    rfl
  rw [hread, expectText_append, Option.map_some]

theorem readsAs_true : ReadsAs ['t', 'r', 'u', 'e'] (.boolean true) := by
  refine ⟨⟨'t', _, rfl, by decide⟩, fun fuel rest _ => ?_⟩
  have hread : readValue (fuel + 1) (['t', 'r', 'u', 'e'] ++ rest) =
      (expectText "rue" ("rue".toList ++ rest)).map fun rest => (.boolean true, rest) := by
    rw [List.cons_append, readValue, skipBlanks_cons (by decide)]
    rfl
  rw [hread, expectText_append, Option.map_some]

theorem readsAs_false : ReadsAs ['f', 'a', 'l', 's', 'e'] (.boolean false) := by
  refine ⟨⟨'f', _, rfl, by decide⟩, fun fuel rest _ => ?_⟩
  have hread : readValue (fuel + 1) (['f', 'a', 'l', 's', 'e'] ++ rest) =
      (expectText "alse" ("alse".toList ++ rest)).map fun rest => (.boolean false, rest) := by
    rw [List.cons_append, readValue, skipBlanks_cons (by decide)]
    rfl
  rw [hread, expectText_append, Option.map_some]

/-- A leaf of a document is read with any fuel that its length gives. -/
theorem ReadsAs.readValue {cs : List Char} {v : JsonValue} (h : ReadsAs cs v) {fuel : Nat} {rest : List Char}
    (hrest : Stops rest) (hfuel : 2 * cs.length ≤ fuel + 1) : JsonValue.readValue fuel (cs ++ rest) = some (v, rest) := by
  obtain ⟨c, ds, rfl, -⟩ := h.opens
  rw [List.length_cons] at hfuel
  obtain ⟨fuel, rfl⟩ := Nat.exists_eq_succ_of_ne_zero (show fuel ≠ 0 by omega)
  exact h.read fuel rest hrest

theorem readsAs_string (s : String) :
    ReadsAs ('"' :: ((JsonString.ofText s).spelling ++ ['"'])) (.string (.ofText s)) := by
  refine ⟨⟨'"', _, rfl, by decide⟩, fun fuel rest _ => ?_⟩
  rw [List.cons_append, List.append_assoc, readValue_quote, List.singleton_append, JsonString.scan?_ofText,
    Option.map_some]

/-- An array that does not close at once is read item by item. -/
theorem readValue_items {fuel : Nat} {bs cs : List Char} (hbs : ∀ c ∈ bs, isBlank c = true) (hcs : Opens cs) :
    readValue (fuel + 1) ('[' :: (bs ++ cs)) = (readItems fuel (bs ++ cs)).map fun r => (.array r.1, r.2) := by
  obtain ⟨c, ds, rfl, hblank, hne⟩ := hcs
  rw [readValue_bracket, skipBlanks_append hbs, skipBlanks_cons hblank]
  split
  · next heq => exact absurd (List.cons.inj heq).1 hne
  · rfl

/-- An object that does not close at once is read member by member. -/
theorem readValue_members {fuel : Nat} {bs cs : List Char} (hbs : ∀ c ∈ bs, isBlank c = true) :
    readValue (fuel + 1) ('\x7b' :: (bs ++ '"' :: cs)) =
      (readMembers fuel (bs ++ '"' :: cs)).map fun r => (.object r.1, r.2) := by
  rw [readValue_brace, skipBlanks_append hbs, skipBlanks_cons (by decide)]
  rfl

theorem readItems_last {fuel : Nat} {cs rest tail : List Char} {v : JsonValue} (h : readValue fuel cs = some (v, rest))
    (hrest : skipBlanks rest = ']' :: tail) : readItems (fuel + 1) cs = some ([v], tail) := by
  rw [readItems, h]
  simp only [Option.bind_eq_bind, Option.bind_some]
  rw [hrest]
  rfl

theorem readItems_comma {fuel : Nat} {cs rest tail : List Char} {v : JsonValue}
    (h : readValue fuel cs = some (v, rest)) (hrest : skipBlanks rest = ',' :: tail) :
    readItems (fuel + 1) cs = (readItems fuel tail).map fun r => (v :: r.1, r.2) := by
  rw [readItems, h]
  simp only [Option.bind_eq_bind, Option.bind_some]
  rw [hrest, Option.map_eq_bind]
  rfl

section Members

variable {fuel : Nat} {bs cs rest tail : List Char} (key : String) {v : JsonValue}

theorem skipBlanks_colon (cs : List Char) : skipBlanks (':' :: cs) = ':' :: cs := skipBlanks_cons (by decide) cs

theorem readMembers_last (hbs : ∀ c ∈ bs, isBlank c = true) (h : readValue fuel cs = some (v, rest))
    (hrest : skipBlanks rest = '\x7d' :: tail) :
    readMembers (fuel + 1) (bs ++ '"' :: ((JsonString.ofText key).spelling ++ '"' :: ':' :: cs)) =
      some ([(.ofText key, v)], tail) := by
  rw [readMembers, skipBlanks_append hbs, skipBlanks_cons (by decide)]
  simp only [JsonString.scan?_ofText, skipBlanks_colon, h, hrest, Option.bind_eq_bind, Option.bind_some, Option.pure_def]

theorem readMembers_comma (hbs : ∀ c ∈ bs, isBlank c = true) (h : readValue fuel cs = some (v, rest))
    (hrest : skipBlanks rest = ',' :: tail) :
    readMembers (fuel + 1) (bs ++ '"' :: ((JsonString.ofText key).spelling ++ '"' :: ':' :: cs)) =
      (readMembers fuel tail).map fun r => ((.ofText key, v) :: r.1, r.2) := by
  rw [readMembers, skipBlanks_append hbs, skipBlanks_cons (by decide), Option.map_eq_bind]
  simp only [JsonString.scan?_ofText, skipBlanks_colon, h, hrest, Option.bind_eq_bind, Option.bind_some]
  rfl

end Members

-- Fuel is counted by the length of the text: a bracket pays for the call that it makes, a comma for the next one.
mutual

/-- **The text of a document is read as what comes back**, whatever follows. -/
theorem readValue_write (l : Layout) : ∀ (v : JsonValue) (depth fuel : Nat) (rest : List Char), Legible v → Stops rest →
    2 * (l.write depth v).length ≤ fuel + 1 → readValue fuel (l.write depth v ++ rest) = some (echo v, rest)
  | .null, _, _, _, _, hrest, hfuel => readsAs_null.readValue hrest hfuel
  | .boolean true, _, _, _, _, hrest, hfuel => readsAs_true.readValue hrest hfuel
  | .boolean false, _, _, _, _, hrest, hfuel => readsAs_false.readValue hrest hfuel
  | .number _, _, _, _, hv, hrest, hfuel => (show ReadsAs _ _ from hv).readValue hrest hfuel
  | .string s, _, _, _, hv, hrest, hfuel => by
    obtain ⟨t, rfl⟩ := (show ∃ t, s = .ofText t from hv)
    exact (readsAs_string t).readValue hrest hfuel
  | .array [], depth, fuel, rest, _, _, hfuel => by
    rw [Layout.write, Layout.writeItems] at hfuel ⊢
    obtain ⟨fuel, rfl⟩ := Nat.exists_eq_succ_of_ne_zero (show fuel ≠ 0 by simp at hfuel; omega)
    rw [List.cons_append, readValue_bracket, List.singleton_append, skipBlanks_cons (by decide)]
    rfl
  | .array (v :: vs), depth, fuel, rest, hv, hrest, hfuel => by
    rw [Legible] at hv
    rw [Layout.write, List.length_cons] at hfuel
    obtain ⟨fuel, rfl⟩ := Nat.exists_eq_succ_of_ne_zero (show fuel ≠ 0 by omega)
    have hitems := readItems_write l (v :: vs) depth fuel rest (List.cons_ne_nil _ _) hv
      (by omega)
    -- the first item follows the bracket, so that it is no closing one
    obtain ⟨tail, htail⟩ : ∃ tail, l.writeItems depth (v :: vs) = l.lead (depth + 1) ++ (l.write (depth + 1) v ++ tail) := by
      cases vs with
      | nil => exact ⟨_, by rw [Layout.writeItems]⟩
      | cons w vs => exact ⟨_, by rw [Layout.writeItems]⟩
    have hopens : Opens (l.write (depth + 1) v ++ tail ++ rest) := by
      obtain ⟨c, ds, hc, hblank, hne⟩ := opens_write l (depth + 1) hv.1
      exact ⟨c, ds ++ tail ++ rest, by rw [hc]; rfl, hblank, hne⟩
    rw [Layout.write, List.cons_append, htail, List.append_assoc, readValue_items (l.lead_blank _) hopens,
      ← List.append_assoc, ← htail, hitems, echo, Option.map_some]
  | .object [], depth, fuel, rest, _, _, hfuel => by
    rw [Layout.write, Layout.writeMembers] at hfuel ⊢
    obtain ⟨fuel, rfl⟩ := Nat.exists_eq_succ_of_ne_zero (show fuel ≠ 0 by simp at hfuel; omega)
    rw [List.cons_append, readValue_brace, List.singleton_append, skipBlanks_cons (by decide)]
    rfl
  | .object (m :: ms), depth, fuel, rest, hv, hrest, hfuel => by
    rw [Legible] at hv
    rw [Layout.write, List.length_cons] at hfuel
    obtain ⟨fuel, rfl⟩ := Nat.exists_eq_succ_of_ne_zero (show fuel ≠ 0 by omega)
    have hmembers := readMembers_write l (m :: ms) depth fuel rest
      (List.cons_ne_nil _ _) hv (by omega)
    obtain ⟨tail, htail⟩ : ∃ tail, l.writeMembers depth (m :: ms) = l.lead (depth + 1) ++ '"' :: tail := by
      cases ms with
      | nil => exact ⟨_, by rw [Layout.writeMembers]⟩
      | cons w ms => exact ⟨_, by rw [Layout.writeMembers]⟩
    rw [Layout.write, List.cons_append, htail, List.append_assoc, List.cons_append,
      readValue_members (l.lead_blank _), ← List.cons_append, ← List.append_assoc, ← htail, hmembers, echo,
      Option.map_some]

theorem readItems_write (l : Layout) : ∀ (vs : List JsonValue) (depth fuel : Nat) (rest : List Char), vs ≠ [] →
    LegibleItems vs → 2 * (l.writeItems depth vs).length ≤ fuel →
    readItems fuel (l.writeItems depth vs ++ rest) = some (echoItems vs, rest)
  | [], _, _, _, hne, _, _ => absurd rfl hne
  | [v], depth, fuel, rest, _, hv, hfuel => by
    rw [Layout.writeItems] at hfuel ⊢
    simp only [List.length_append, List.length_singleton] at hfuel
    obtain ⟨fuel, rfl⟩ := Nat.exists_eq_succ_of_ne_zero (show fuel ≠ 0 by omega)
    -- each item takes its value and what separates it from the next one
    have hvalue := readValue_write l v (depth + 1) fuel (l.lead depth ++ ']' :: rest) hv.1
      (stops_blanks (l.lead_blank depth) stops_bracket rest) (by omega)
    rw [← readValue_blanks (l.lead_blank (depth + 1))] at hvalue
    have hend : skipBlanks (l.lead depth ++ ']' :: rest) = ']' :: rest := by
      rw [skipBlanks_append (l.lead_blank depth), skipBlanks_cons (by decide)]
    have hread := readItems_last hvalue hend
    simpa [echoItems] using hread
  | v :: w :: vs, depth, fuel, rest, _, hv, hfuel => by
    rw [Layout.writeItems] at hfuel ⊢
    simp only [List.length_append, List.length_cons] at hfuel
    obtain ⟨fuel, rfl⟩ := Nat.exists_eq_succ_of_ne_zero (show fuel ≠ 0 by omega)
    have hvalue := readValue_write l v (depth + 1) fuel
      (',' :: (l.writeItems depth (w :: vs) ++ rest)) hv.1
      (fun c hc => stops_comma c hc) (by omega)
    rw [← readValue_blanks (l.lead_blank (depth + 1))] at hvalue
    have hothers := readItems_write l (w :: vs) depth fuel rest (List.cons_ne_nil _ _)
      hv.2 (by omega)
    have hread := readItems_comma hvalue (skipBlanks_cons (by decide) _)
    rw [hothers, Option.map_some] at hread
    simpa [echoItems] using hread

theorem readMembers_write (l : Layout) : ∀ (ms : List (JsonString × JsonValue)) (depth fuel : Nat) (rest : List Char),
    ms ≠ [] → LegibleMembers ms → 2 * (l.writeMembers depth ms).length ≤ fuel →
    readMembers fuel (l.writeMembers depth ms ++ rest) = some (echoMembers ms, rest)
  | [], _, _, _, hne, _, _ => absurd rfl hne
  | [(k, v)], depth, fuel, rest, _, hm, hfuel => by
    obtain ⟨⟨key, rfl⟩, hv, -⟩ := hm
    rw [Layout.writeMembers] at hfuel ⊢
    simp only [List.length_append, List.length_cons, List.length_nil] at hfuel
    obtain ⟨fuel, rfl⟩ := Nat.exists_eq_succ_of_ne_zero (show fuel ≠ 0 by omega)
    -- each member takes its key, its value and what separates it from the next one
    have hvalue := readValue_write l v (depth + 1) fuel (l.lead depth ++ '\x7d' :: rest) hv
      (stops_blanks (l.lead_blank depth) stops_brace rest) (by omega)
    rw [← readValue_blanks l.colon_blank] at hvalue
    have hend : skipBlanks (l.lead depth ++ '\x7d' :: rest) = '\x7d' :: rest := by
      rw [skipBlanks_append (l.lead_blank depth), skipBlanks_cons (by decide)]
    have hread := readMembers_last key (l.lead_blank (depth + 1)) hvalue hend
    simpa [echoMembers] using hread
  | (k, v) :: m :: ms, depth, fuel, rest, _, hm, hfuel => by
    obtain ⟨⟨key, rfl⟩, hv, hothers⟩ := hm
    rw [Layout.writeMembers] at hfuel ⊢
    simp only [List.length_append, List.length_cons] at hfuel
    obtain ⟨fuel, rfl⟩ := Nat.exists_eq_succ_of_ne_zero (show fuel ≠ 0 by omega)
    have hvalue := readValue_write l v (depth + 1) fuel
      (',' :: (l.writeMembers depth (m :: ms) ++ rest)) hv
      (fun c hc => stops_comma c hc) (by omega)
    rw [← readValue_blanks l.colon_blank] at hvalue
    have hmembers := readMembers_write l (m :: ms) depth fuel rest
      (List.cons_ne_nil _ _) hothers (by omega)
    have hread := readMembers_comma key (l.lead_blank (depth + 1)) hvalue (skipBlanks_cons (by decide) _)
    rw [hmembers, Option.map_some] at hread
    simpa [echoMembers] using hread

end

/-- **A legible document is read back**, in any layout. -/
theorem read?_write (l : Layout) {v : JsonValue} (hv : Legible v) {text : String} (htext : text.toList = l.write 0 v) :
    read? text = some (echo v) := by
  have hread := readValue_write l v 0 (2 * text.toList.length + 2) [] hv
    (fun c hc => by cases hc) (by rw [htext]; omega)
  unfold read?
  rw [List.append_nil, ← htext] at hread
  simp only [hread, Option.bind_eq_bind, Option.bind_some]
  rfl

theorem read?_compact {v : JsonValue} (hv : Legible v) : read? v.compact = some (echo v) :=
  read?_write .compact hv (toList_compact 0 v)

theorem read?_pretty {v : JsonValue} (hv : Legible v) : read? v.pretty = some (echo v) :=
  read?_write .pretty hv (toList_prettyAt 0 v)

end SchemeMachine.JsonValue
