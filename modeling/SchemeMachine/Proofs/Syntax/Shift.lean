import SchemeMachine.Proofs.Syntax.Tiling

/-!
# A text further down

A text that is read some lines further down gives the same tokens, or the same fault, those lines further down. After a text
that has been cut into tokens and a line feed, the reading starts anew: neither a comment nor a word is left open.

* `Shift` is how far down, and `Span.shift`, `Token.shift` and `Token.LexError.shift` say what is moved by it.
* `Token.scanFrom_shift`: the scan does not depend on where the text stands.
* `Token.scanFrom_append`: the tokens of two texts, one below the other, are those of the first without its end, and then
  those of the second.
-/

namespace SchemeMachine

/-- A mapped computation that ends well has ended well before. -/
theorem Except.map_eq_ok {ε α β : Type} {x : Except ε α} {f : α → β} {b : β} :
    x.map f = .ok b ↔ ∃ a, x = .ok a ∧ f a = b := by
  cases x with
  | ok a => simp [Except.map]
  | error e => simp [Except.map]

/-- **How far down a text is moved**: by some bytes that make up some lines. -/
structure Shift where
  bytes : Nat
  lines : Nat

variable (σ : Shift)

/-! ### What is moved -/

/-- A place further down. The column stays, as whole lines are put before it. -/
def Position.shift (p : Position) : Position := ⟨p.offset + σ.bytes, p.line + σ.lines, p.col⟩

/-- A stretch further down. -/
def Span.shift (s : Span) : Span := ⟨s.start + σ.bytes, s.stop + σ.bytes, s.line + σ.lines, s.col⟩

/-- A token further down. -/
def Token.shift (t : Token) : Token := ⟨t.kind, t.span.shift σ⟩

/-- A fault further down. -/
def Token.LexError.shift : Token.LexError → Token.LexError
  | .unexpectedChar c line col => .unexpectedChar c (line + σ.lines) col
  | .unterminatedString line col => .unterminatedString (line + σ.lines) col
  | .invalidLiteral word line col => .invalidLiteral word (line + σ.lines) col

@[simp] theorem Token.kind_shift (t : Token) : (t.shift σ).kind = t.kind := rfl

@[simp] theorem Token.span_shift (t : Token) : (t.shift σ).span = t.span.shift σ := rfl

theorem Position.advance_shift (p : Position) (c : Char) : (p.shift σ).advance c = (p.advance c).shift σ := by
  unfold advance
  split
  · simp only [shift]
    congr 1 <;> omega
  · simp only [shift]
    congr 1
    omega

theorem Position.advanceAll_shift (p : Position) (cs : List Char) :
    (p.shift σ).advanceAll cs = (p.advanceAll cs).shift σ := by
  induction cs generalizing p with
  | nil => rfl
  | cons c cs ih => rw [advanceAll_cons, advanceAll_cons, advance_shift, ih]

/-- The stretch that covers two others moves with them. -/
theorem Span.merge_shift (a b : Span) : (a.shift σ).merge (b.shift σ) = (a.merge b).shift σ := by
  simp only [merge, shift, Nat.add_le_add_iff_right]
  congr 1 <;> omega

theorem Token.LexError.place_shift (e : LexError) : (e.shift σ).place = (e.place.1 + σ.lines, e.place.2) := by
  cases e <;> rfl

/-- **The start of what comes below a text**: so many bytes and lines down, and at the start of a line. -/
theorem Position.advanceAll_line (cs : List Char) :
    ({} : Position).advanceAll (cs ++ ['\n']) = ({} : Position).shift ⟨String.utf8Len cs + 1, 1 + cs.count '\n'⟩ := by
  have hlast : (cs ++ ['\n']).rtakeWhile (· != '\n') = [] :=
    List.rtakeWhile_concat_neg (· != '\n') cs '\n' (by decide)
  rw [advanceAll_start, hlast, List.count_append, String.utf8Len_append]
  simp only [shift]
  congr 1
  · rw [Nat.zero_add]
    rfl
  · rw [Nat.add_comm (cs.count '\n')]
    rfl

namespace Token

/-! ### The scan further down -/

section Scan

variable {p : Position} {c : Char} {cs : List Char} {tokens : List Token}

theorem lexeme_shift : lexeme (p.shift σ) c cs = (lexeme p c cs).mapError (LexError.shift σ) := by
  unfold lexeme
  simp only [apply_ite (Except.mapError (LexError.shift σ))]
  cases readString cs <;> cases wordKind? (String.ofList (c :: cs.takeWhile fun d => !isDelimiter d)) <;> rfl

/-- **A text gives the same tokens further down**, or the same fault. -/
theorem scanFrom_shift : scanFrom (p.shift σ) cs =
    ((scanFrom p cs).map (·.map (Token.shift σ))).mapError (LexError.shift σ) := by
  fun_induction scanFrom p cs with
  | case1 p =>
    rw [scanFrom.eq_def]
    rfl
  | case2 p c cs hblank ih => rw [scanFrom_blank hblank, Position.advance_shift, ih]
  | case3 p cs hblank ih => rw [scanFrom_comment, Position.advanceAll_shift, ih]
  | case4 p c cs hblank hc e he =>
    have hshift : lexeme (p.shift σ) c cs = _ := lexeme_shift σ
    rw [he] at hshift
    rw [scanFrom_error hblank hc hshift]
    rfl
  | case5 p c cs hblank hc l hl q =>
    rename_i ih
    have hshift : lexeme (p.shift σ) c cs = _ := lexeme_shift σ
    rw [hl] at hshift
    rw [scanFrom_lexeme hblank hc hshift, Position.advanceAll_shift, ih]
    cases scanFrom q l.rest <;> rfl

/-! ### One text below the other -/

theorem scanFrom_ne_nil (h : scanFrom p cs = .ok tokens) : tokens ≠ [] := by
  fun_induction scanFrom p cs generalizing tokens with
  | case1 p =>
    cases h
    exact List.cons_ne_nil _ _
  | case2 p c cs hblank ih => exact ih h
  | case3 p cs hblank ih => exact ih h
  | case4 p c cs hblank hc e he => cases h
  | case5 p c cs hblank hc l hl q =>
    obtain ⟨others, -, rfl⟩ := Except.map_eq_ok.mp h
    exact List.cons_ne_nil _ _

/-- A comment ends where its line does, also if another line follows. -/
theorem comment_append (cs more : List Char) :
    (cs ++ '\n' :: more).takeWhile (· != '\n') = cs.takeWhile (· != '\n') ∧
      (cs ++ '\n' :: more).dropWhile (· != '\n') = cs.dropWhile (· != '\n') ++ '\n' :: more := by
  induction cs with
  | nil => exact ⟨List.takeWhile_cons_of_neg (by decide), List.dropWhile_cons_of_neg (by decide)⟩
  | cons c cs ih =>
    rw [List.cons_append]
    rw [List.takeWhile_cons, List.takeWhile_cons, List.dropWhile_cons, List.dropWhile_cons]
    split
    · exact ⟨congrArg (c :: ·) ih.1, ih.2⟩
    · exact ⟨rfl, rfl⟩

/-- **The scan of two texts, one below the other.** The end of the first text is dropped. -/
theorem scanFrom_append (h : scanFrom p cs = .ok tokens) (more : List Char) :
    scanFrom p (cs ++ '\n' :: more) =
      (scanFrom (p.advanceAll (cs ++ ['\n'])) more).map (tokens.dropLast ++ ·) := by
  fun_induction scanFrom p cs generalizing tokens with
  | case1 p =>
    cases h
    have hblank : Text.isBlank '\n' = true := by decide
    rw [List.nil_append, scanFrom_blank hblank]
    change _ = (scanFrom (p.advance '\n') more).map fun others => others
    cases scanFrom (p.advance '\n') more <;> rfl
  | case2 p c cs hblank ih =>
    rw [List.cons_append, scanFrom_blank hblank, ih h]
    rfl
  | case3 p cs hblank ih =>
    obtain ⟨htake, hdrop⟩ := comment_append cs more
    have hcs : ';' :: cs.takeWhile (· != '\n') ++ (cs.dropWhile (· != '\n') ++ ['\n']) = ';' :: cs ++ ['\n'] := by
      rw [← List.append_assoc, List.cons_append, List.takeWhile_append_dropWhile]
    rw [List.cons_append, scanFrom_comment, htake, hdrop, ih h, ← Position.advanceAll_append, hcs]
  | case4 p c cs hblank hc e he => cases h
  | case5 p c cs hblank hc l hl q =>
    rename_i ih
    obtain ⟨others, hothers, rfl⟩ := Except.map_eq_ok.mp h
    obtain ⟨tail, htaken, hcs⟩ := lexeme_split hl
    -- the first token is followed by what was there, or by a line feed, which ends a word
    have hfollows : (l.rest ++ '\n' :: more).head? = l.rest.head? ∨ Delimits (l.rest ++ '\n' :: more) := by
      cases hrest : l.rest with
      | nil =>
        refine Or.inr fun d hd => ?_
        cases hd
        decide
      | cons d rest => exact Or.inl rfl
    have hread : lexeme p c (cs ++ '\n' :: more) = .ok ⟨l.kind, c :: tail, l.rest ++ '\n' :: more⟩ := by
      rw [hcs, List.append_assoc]
      exact lexeme_followed hl htaken hfollows p
    have hplace : q.advanceAll (l.rest ++ ['\n']) = p.advanceAll (c :: cs ++ ['\n']) := by
      rw [← Position.advanceAll_append, htaken, hcs, List.cons_append, List.cons_append, List.append_assoc]
    rw [List.cons_append, scanFrom_lexeme hblank hc hread]
    rw [← htaken, ih hothers, hplace, List.dropLast_cons_of_ne_nil (scanFrom_ne_nil hothers)]
    cases scanFrom (p.advanceAll (c :: cs ++ ['\n'])) more <;> rfl

end Scan

/-- **The tokens of two texts, one below the other.** -/
theorem scan_join {s₁ : String} {tokens : List Token} (h : scan s₁ = .ok tokens) (s₂ : String) :
    scan (s₁ ++ "\n" ++ s₂) =
      ((scan s₂).map fun others =>
        tokens.dropLast ++ others.map (Token.shift ⟨s₁.utf8ByteSize + 1, 1 + s₁.toList.count '\n'⟩)).mapError
          (LexError.shift ⟨s₁.utf8ByteSize + 1, 1 + s₁.toList.count '\n'⟩) := by
  have htext : (s₁ ++ "\n" ++ s₂).toList = s₁.toList ++ '\n' :: s₂.toList := by simp
  rw [scan, htext, scanFrom_append h, Position.advanceAll_line, scanFrom_shift, String.utf8Len_toList]
  unfold scan
  cases scanFrom {} s₂.toList <;> rfl

end Token

end SchemeMachine
