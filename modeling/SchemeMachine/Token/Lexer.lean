import SchemeMachine.Token

/-!
# From text to tokens

`Token.scan` cuts a text into tokens. Blanks and comments separate tokens and are dropped; a comment
runs from a semicolon to the end of its line.

* `lexeme` reads one token off the front of a text. What it takes and what it leaves make up what it
  was given (`lexeme_split`), and it takes at least one character.
* `scan` repeats this to the end, where it puts the token `endOfText`.
-/

namespace SchemeMachine.Token

/-- Why a text cannot be cut into tokens. -/
inductive LexError where
  | unexpectedChar (c : Char) (line col : Nat)
  | unterminatedString (line col : Nat)
  | invalidLiteral (word : String) (line col : Nat)
deriving Repr, DecidableEq

namespace LexError

/-- The message for a reader. -/
def message : LexError → String
  | .unexpectedChar c line col => s!"unexpected character '{c}' at line {line}, col {col}"
  | .unterminatedString line col => s!"unterminated string at line {line}, col {col}"
  | .invalidLiteral word line col => s!"invalid literal '{word}' at line {line}, col {col}"

/-- The line and column of the fault. -/
def place : LexError → Nat × Nat
  | .unexpectedChar _ line col => (line, col)
  | .unterminatedString line col => (line, col)
  | .invalidLiteral _ line col => (line, col)

end LexError

/-- The backquote. -/
def backquote : Char := '\x60'

/-- A character that ends a word. -/
def isDelimiter (c : Char) : Bool :=
  Text.isBlank c || c ∈ ['(', ')', '[', ']', '"', ';', '\'', backquote, ',']

/-- A token read off the front of a text: what it is, the characters it takes up, and the rest. -/
structure Lexeme where
  kind : Kind
  taken : List Char
  rest : List Char

/-! ### Strings -/

/-- What a backslash and the character after it stand for. Only four escapes are known; before any
other character the backslash stands for itself. -/
def unescape (c : Char) : List Char :=
  if c = 'n' then ['\n']
  else if c = 't' then ['\t']
  else if c = '\\' then ['\\']
  else if c = '"' then ['"']
  else ['\\', c]

/-- The content of a string, the characters up to and including its closing quote, and the rest;
`none` if the string is not closed. -/
def readString : List Char → Option (List Char × List Char × List Char)
  | [] => none
  | '"' :: rest => some ([], ['"'], rest)
  | '\\' :: c :: rest =>
    (readString rest).map fun r => (unescape c ++ r.1, '\\' :: c :: r.2.1, r.2.2)
  | c :: rest =>
    if c = '\\' then none else (readString rest).map fun r => (c :: r.1, c :: r.2.1, r.2.2)

theorem readString_split {cs content taken rest : List Char}
    (h : readString cs = some (content, taken, rest)) : cs = taken ++ rest := by
  fun_induction readString cs generalizing content taken rest with
  | case1 => simp at h
  | case2 r =>
    simp only [Option.some.injEq, Prod.mk.injEq] at h
    obtain ⟨-, rfl, rfl⟩ := h; rfl
  | case3 c r ih =>
    obtain ⟨⟨a, b, d⟩, hr, hx⟩ := Option.map_eq_some_iff.1 h
    simp only [Prod.mk.injEq] at hx
    obtain ⟨-, rfl, rfl⟩ := hx
    simp [ih hr]
  | case4 => simp at h
  | case5 c r _ _ _ ih =>
    obtain ⟨⟨a, b, d⟩, hr, hx⟩ := Option.map_eq_some_iff.1 h
    simp only [Prod.mk.injEq] at hx
    obtain ⟨-, rfl, rfl⟩ := hx
    simp [ih hr]

/-! ### Words -/

/-- What a word is: a boolean, a number or a symbol; `none` for another word that starts with `#`. -/
def wordKind? (word : String) : Option Kind :=
  if word = "#t" ∨ word = "#true" then some (.boolean true)
  else if word = "#f" ∨ word = "#false" then some (.boolean false)
  else if Number.isNumeral word then (Number.read? word).map .number
  else if word.toList.head? = some '#' then none
  else some (.symbol word)

/-! ### One token -/

/-- Read the token that starts with `c` at `p`, where `c` is neither blank nor a semicolon. -/
def lexeme (p : Position) (c : Char) (cs : List Char) : Except LexError Lexeme :=
  if c = '(' ∨ c = '[' then .ok ⟨.open, [c], cs⟩
  else if c = ')' ∨ c = ']' then .ok ⟨.close, [c], cs⟩
  else if c = '\'' then .ok ⟨.quote, [c], cs⟩
  else if c = backquote then .ok ⟨.quasiquote, [c], cs⟩
  else if c = ',' then .ok ⟨.unquote, [c], cs⟩
  else if c = '"' then
    match readString cs with
    | none => .error (.unterminatedString p.line p.col)
    | some (content, taken, rest) => .ok ⟨.string (String.ofList content), c :: taken, rest⟩
  else if Text.isControl c then .error (.unexpectedChar c p.line p.col)
  else
    let taken := cs.takeWhile fun d => !isDelimiter d
    let word := String.ofList (c :: taken)
    match wordKind? word with
    | none => .error (.invalidLiteral word p.line p.col)
    | some kind => .ok ⟨kind, c :: taken, cs.dropWhile fun d => !isDelimiter d⟩

/-- **A lexeme and the rest make up the text**, and a lexeme is not empty. -/
theorem lexeme_split {p : Position} {c : Char} {cs : List Char} {l : Lexeme}
    (h : lexeme p c cs = .ok l) : ∃ tail, l.taken = c :: tail ∧ cs = tail ++ l.rest := by
  unfold lexeme at h
  split at h
  · cases h; exact ⟨[], rfl, rfl⟩
  split at h
  · cases h; exact ⟨[], rfl, rfl⟩
  split at h
  · cases h; exact ⟨[], rfl, rfl⟩
  split at h
  · cases h; exact ⟨[], rfl, rfl⟩
  split at h
  · cases h; exact ⟨[], rfl, rfl⟩
  split at h
  · split at h
    · cases h
    · rename_i hs; cases h; exact ⟨_, rfl, readString_split hs⟩
  split at h
  · cases h
  · simp only at h
    split at h
    · cases h
    · cases h; exact ⟨_, rfl, (List.takeWhile_append_dropWhile).symm⟩

theorem length_rest_le {p : Position} {c : Char} {cs : List Char} {l : Lexeme}
    (h : lexeme p c cs = .ok l) : l.rest.length ≤ cs.length := by
  obtain ⟨tail, -, rfl⟩ := lexeme_split h
  simp

/-! ### The whole text -/

/-- The tokens of the characters from `p` on. -/
def scanFrom (p : Position) : List Char → Except LexError (List Token)
  | [] => .ok [⟨.endOfText, p.spanTo p⟩]
  | c :: cs =>
    if Text.isBlank c then scanFrom (p.advance c) cs
    else if c = ';' then
      scanFrom (p.advanceAll (c :: cs.takeWhile (· != '\n'))) (cs.dropWhile (· != '\n'))
    else
      match _h : lexeme p c cs with
      | .error e => .error e
      | .ok l =>
        let q := p.advanceAll l.taken
        (scanFrom q l.rest).map fun tokens => ⟨l.kind, p.spanTo q⟩ :: tokens
termination_by cs => cs.length
decreasing_by
  · simp
  · have := (List.dropWhile_sublist (l := cs) (· != '\n')).length_le
    simp only [List.length_cons]; omega
  · have := length_rest_le _h
    simp only [List.length_cons]; omega

-- the scan takes a blank, a comment or a lexeme at a time
section

variable {p : Position} {c : Char} {cs : List Char}

theorem scanFrom_blank (hblank : Text.isBlank c = true) : scanFrom p (c :: cs) = scanFrom (p.advance c) cs := by
  rw [scanFrom.eq_def]
  exact if_pos hblank

theorem scanFrom_comment : scanFrom p (';' :: cs) =
    scanFrom (p.advanceAll (';' :: cs.takeWhile (· != '\n'))) (cs.dropWhile (· != '\n')) := by
  rw [scanFrom.eq_def]
  dsimp only
  rw [if_neg (by decide), if_pos rfl]

theorem scanFrom_error (hblank : ¬Text.isBlank c = true) (hc : c ≠ ';') {e : LexError} (he : lexeme p c cs = .error e) :
    scanFrom p (c :: cs) = .error e := by
  rw [scanFrom.eq_def]
  dsimp only
  rw [if_neg hblank, if_neg hc]
  split
  · next e' he' =>
    rw [he] at he'
    cases he'
    rfl
  · next l hl =>
    rw [he] at hl
    cases hl

theorem scanFrom_lexeme (hblank : ¬Text.isBlank c = true) (hc : c ≠ ';') {l : Lexeme} (hl : lexeme p c cs = .ok l) :
    scanFrom p (c :: cs) = (scanFrom (p.advanceAll l.taken) l.rest).map
      (⟨l.kind, p.spanTo (p.advanceAll l.taken)⟩ :: ·) := by
  rw [scanFrom.eq_def]
  dsimp only
  rw [if_neg hblank, if_neg hc]
  split
  · next e he =>
    rw [hl] at he
    cases he
  · next l' hl' =>
    rw [hl] at hl'
    cases hl'
    rfl

end

/-- **The tokens of a text**, `endOfText` last. -/
def scan (source : String) : Except LexError (List Token) := scanFrom {} source.toList

end SchemeMachine.Token
