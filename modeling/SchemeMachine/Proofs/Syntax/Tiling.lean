import Mathlib.Data.List.DropRight
import Mathlib.Data.String.Basic
import SchemeMachine.Proofs.Syntax.Elsewhere

/-!
# Tokens tile the text

The spans of the tokens of a text lie in it side by side, from its start to its end. What is left between them are blanks and
comments, the places are those that one finds by counting, and each token can be cut out of the text and read by itself.

* `Text.slice` is a part of a text from one byte to another, and `Text.Gap` says of a part that it is blanks and comments.
* `Token.lexeme_followed`: a token is read whatever follows it, as long as a word is ended by it.
* `Token.Tiled` is the invariant of the scan: the characters that have been read, those that are left, and their tokens.
* `Token.tiling_of_scan` is the result.
-/

namespace SchemeMachine

/-! ### Places -/

/-- **The place after some characters**, found by counting: the bytes, the line feeds, and what follows the last of these. -/
theorem Position.advanceAll_start (cs : List Char) :
    ({} : Position).advanceAll cs =
      ⟨String.utf8Len cs, 1 + cs.count '\n', 1 + (cs.rtakeWhile (· != '\n')).length⟩ := by
  induction cs using List.reverseRecOn with
  | nil => rfl
  | append_singleton cs c ih =>
    rw [advanceAll_append, ih]
    by_cases hc : c = '\n'
    · subst hc
      rw [List.rtakeWhile_concat_neg (· != '\n') cs '\n' (by decide), String.utf8Len_append, List.count_append]
      rfl
    · have hne : (c != '\n') = true := bne_iff_ne.mpr hc
      have hcount : [c].count '\n' = 0 := List.count_eq_zero.mpr fun hmem => hc (List.mem_singleton.mp hmem).symm
      rw [List.rtakeWhile_concat_pos (· != '\n') cs c hne, String.utf8Len_append, List.count_append, hcount]
      simp [advanceAll, advance, hc, Nat.add_assoc]

namespace Text

/-- **The part of a text** from one byte to another. -/
def slice (source : String) (start stop : Nat) : String := String.Pos.Raw.extract source ⟨start⟩ ⟨stop⟩

theorem slice_append (before cs after : List Char) :
    slice (String.ofList (before ++ cs ++ after)) (String.utf8Len before) (String.utf8Len (before ++ cs)) =
      String.ofList cs := by
  rw [String.utf8Len_append]
  exact String.extract_of_valid before cs after

/-- The part of a text before some characters. -/
theorem slice_front (before after : List Char) :
    slice (String.ofList (before ++ after)) 0 (String.utf8Len before) = String.ofList before :=
  slice_append [] before after

/-- The part of a text from some characters on. -/
theorem slice_back (before after : List Char) :
    slice (String.ofList (before ++ after)) (String.utf8Len before) (String.ofList (before ++ after)).utf8ByteSize =
      String.ofList after := by
  have h := slice_append before after []
  rw [List.append_nil] at h
  rw [String.utf8ByteSize_ofList]
  exact h

theorem isValid_utf8Len (before after : List Char) :
    String.Pos.Raw.IsValid (String.ofList (before ++ after)) ⟨String.utf8Len before⟩ := by
  rw [String.Pos.Raw.isValid_iff_exists_append]
  exact ⟨String.ofList before, String.ofList after, String.ofList_append, (String.rawEndPos_ofList before).symm⟩

/-- **What may stand between two tokens**: blanks and comments, where `rest` follows. A comment runs to the end of its
line. -/
inductive Gap : (cs rest : List Char) → Prop
  | nil (rest : List Char) : Gap [] rest
  | blank {c : Char} {cs rest : List Char} (hc : isBlank c = true) (h : Gap cs rest) : Gap (c :: cs) rest
  | comment {line cs rest : List Char} (hline : '\n' ∉ line) (hend : ∀ c ∈ (cs ++ rest).head?, c = '\n')
      (h : Gap cs rest) : Gap (';' :: (line ++ cs)) rest

end Text

namespace Token

open Text (Gap slice)

variable {p : Position} {c : Char} {cs before gap word rest tail : List Char} {kind : Kind} {tokens : List Token}

/-! ### One token by itself -/

/-- The rest of a string is read up to its closing quote, whatever comes after that. -/
theorem readString_followed {content taken : List Char} (h : readString cs = some (content, taken, rest))
    (rest' : List Char) : readString (taken ++ rest') = some (content, taken, rest') := by
  fun_induction readString cs generalizing content taken rest with
  | case1 => cases h
  | case2 =>
    cases h
    rfl
  | case3 c cs ih =>
    obtain ⟨⟨content', taken', rest''⟩, hread, heq⟩ := Option.map_eq_some_iff.mp h
    cases heq
    exact Option.map_eq_some_iff.mpr ⟨_, ih hread, rfl⟩
  | case4 => cases h
  | case5 c cs hquote hescape hbackslash ih =>
    obtain ⟨⟨content', taken', rest''⟩, hread, heq⟩ := Option.map_eq_some_iff.mp h
    cases heq
    have hplain : ∀ d ∈ [c], d ≠ '"' ∧ d ≠ '\\' := by simpa using ⟨hquote, hbackslash⟩
    have hstep := Text.readString_plain hplain (taken' ++ rest')
    rw [ih hread] at hstep
    exact hstep

/-- **A token does not depend on what follows it**, as long as that begins like what was there or ends words. -/
theorem lexeme_followed {l : Lexeme} (h : lexeme p c cs = .ok l) (htaken : l.taken = c :: tail) {rest' : List Char}
    (hrest : rest'.head? = l.rest.head? ∨ Delimits rest') (q : Position) :
    lexeme q c (tail ++ rest') = .ok ⟨l.kind, c :: tail, rest'⟩ := by
  unfold lexeme at h ⊢
  split_ifs at h ⊢
  -- parentheses and the marks of quotation
  · cases h; cases htaken; rfl
  · cases h; cases htaken; rfl
  · cases h; cases htaken; rfl
  · cases h; cases htaken; rfl
  · cases h; cases htaken; rfl
  -- a string
  · split at h
    · cases h
    · next content taken rest hstring =>
      cases h
      obtain rfl : taken = tail := (List.cons.inj htaken).2
      rw [readString_followed hstring]
  -- a word goes on up to a delimiter
  · dsimp only at h
    split at h
    · cases h
    · next kind hkind =>
      cases h
      obtain rfl := (List.cons.inj htaken).2
      have hplain : ∀ d ∈ cs.takeWhile fun d => !isDelimiter d, (!isDelimiter d) = true :=
        List.all_eq_true.mp List.all_takeWhile
      have hend : Delimits rest' := by
        rcases hrest with hhead | hdelimits
        · intro d hd
          rw [hhead] at hd
          have hstop := List.head?_dropWhile_not (fun d => !isDelimiter d) cs
          rw [Option.mem_def.mp hd] at hstop
          simpa using hstop
        · exact hdelimits
      have htake : rest'.takeWhile (fun d => !isDelimiter d) = [] := by
        cases rest' with
        | nil => rfl
        | cons d rest' => exact List.takeWhile_cons_of_neg (by simp [hend d rfl])
      have hdrop : rest'.dropWhile (fun d => !isDelimiter d) = rest' := by
        cases rest' with
        | nil => rfl
        | cons d rest' => exact List.dropWhile_cons_of_neg (by simp [hend d rfl])
      dsimp only
      rw [List.takeWhile_append_of_pos hplain, List.dropWhile_append_of_pos hplain, htake, hdrop, List.append_nil, hkind]

/-- **Characters that are one token**, and not the end of the text. -/
structure IsLexeme (word : List Char) (kind : Kind) : Prop where
  ne_nil : word ≠ []
  ne_endOfText : kind ≠ .endOfText
  reads : Reads word [kind, .endOfText]

/-- **What a token takes up is that token**, also by itself. -/
theorem isLexeme_taken (hblank : Text.isBlank c = false) (hc : c ≠ ';') {l : Lexeme} (h : lexeme p c cs = .ok l) :
    IsLexeme l.taken l.kind := by
  obtain ⟨tail, htaken, -⟩ := lexeme_split h
  rw [htaken]
  refine ⟨List.cons_ne_nil c tail, kind_ne_endOfText h, ?_⟩
  refine Reads.nil.cons (Or.inr ⟨hblank, hc⟩) fun q => ?_
  have hends : Delimits [] := nofun
  have hread := lexeme_followed h htaken (Or.inr hends) q
  rw [List.append_nil] at hread
  exact ⟨_, hread, rfl, rfl⟩

/-! ### The tokens of a text -/

/-- The span of `word` in a text in which `before` comes before it. -/
def spanAfter (before word : List Char) : Span :=
  (({} : Position).advanceAll before).spanTo (({} : Position).advanceAll (before ++ word))

@[simp] theorem start_spanAfter (before word : List Char) : (spanAfter before word).start = String.utf8Len before := by
  rw [spanAfter, Position.advanceAll_start]
  rfl

@[simp] theorem stop_spanAfter (before word : List Char) :
    (spanAfter before word).stop = String.utf8Len (before ++ word) := by
  rw [spanAfter, Position.advanceAll_start (before ++ word)]
  rfl

@[simp] theorem line_spanAfter (before word : List Char) : (spanAfter before word).line = 1 + before.count '\n' := by
  rw [spanAfter, Position.advanceAll_start before]
  rfl

@[simp] theorem col_spanAfter (before word : List Char) :
    (spanAfter before word).col = 1 + (before.rtakeWhile (· != '\n')).length := by
  rw [spanAfter, Position.advanceAll_start before]
  rfl

/-- **The tokens of the characters `cs`** in a text in which `before` comes before them: a gap, a token, and so on, up to the
end of the text. -/
inductive Tiled : (before cs : List Char) → List Token → Prop
  | last {before gap : List Char} (hgap : Gap gap []) : Tiled before gap [⟨.endOfText, spanAfter (before ++ gap) []⟩]
  | token {before gap word rest : List Char} {kind : Kind} {tokens : List Token} (hgap : Gap gap (word ++ rest))
      (hword : IsLexeme word kind) (hrest : Tiled (before ++ gap ++ word) rest tokens) :
      Tiled before (gap ++ word ++ rest) (⟨kind, spanAfter (before ++ gap) word⟩ :: tokens)

/-- What is skipped in front of some characters is part of the first gap. -/
theorem Tiled.skip (skipped : List Char) (h : Tiled (before ++ skipped) cs tokens)
    (hskip : ∀ {gap rest}, cs = gap ++ rest → Gap gap rest → Gap (skipped ++ gap) rest) :
    Tiled before (skipped ++ cs) tokens := by
  cases h with
  | last hgap =>
    rw [List.append_assoc]
    exact .last (hskip (List.append_nil _).symm hgap)
  | @token _ gap word rest kind tokens hgap hword hrest =>
    have hgap' := hskip (List.append_assoc gap word rest) hgap
    rw [List.append_assoc before skipped gap] at hrest ⊢
    have htext : skipped ++ (gap ++ word ++ rest) = skipped ++ gap ++ word ++ rest := by simp
    rw [htext]
    exact .token hgap' hword hrest

/-- **The scan tiles** what it is given. -/
theorem tiled_of_scanFrom (h : scanFrom (({} : Position).advanceAll before) cs = .ok tokens) : Tiled before cs tokens := by
  generalize hp : ({} : Position).advanceAll before = p at h
  fun_induction scanFrom p cs generalizing before tokens with
  | case1 p =>
    cases h
    subst hp
    have hlast : Tiled before [] _ := .last (.nil [])
    rw [spanAfter, List.append_nil, List.append_nil] at hlast
    exact hlast
  | case2 p c cs hblank ih =>
    have hrest : Tiled (before ++ [c]) cs tokens := ih (by rw [Position.advanceAll_append, hp]; rfl) h
    exact hrest.skip [c] fun _ hgap => .blank hblank hgap
  | case3 p cs hblank ih =>
    have hrest : Tiled (before ++ ';' :: cs.takeWhile (· != '\n')) (cs.dropWhile (· != '\n')) tokens :=
      ih (by rw [Position.advanceAll_append, hp]) h
    have hcs : cs.takeWhile (· != '\n') ++ cs.dropWhile (· != '\n') = cs := List.takeWhile_append_dropWhile
    have hline : '\n' ∉ cs.takeWhile (· != '\n') := fun hmem => by simpa using List.mem_takeWhile_imp hmem
    -- a comment ends where its line does
    have hend : ∀ d ∈ (cs.dropWhile (· != '\n')).head?, d = '\n' := by
      intro d hd
      have hstop := List.head?_dropWhile_not (· != '\n') cs
      rw [Option.mem_def.mp hd] at hstop
      simpa using hstop
    have htiled := hrest.skip (';' :: cs.takeWhile (· != '\n')) fun hsplit hgap =>
      .comment hline (hsplit ▸ hend) hgap
    rwa [List.cons_append, hcs] at htiled
  | case4 p c cs hblank hc e he => cases h
  | case5 p c cs hblank hc l hl q =>
    rename_i ih
    cases hrest : scanFrom q l.rest with
    | error e =>
      rw [hrest] at h
      cases h
    | ok others =>
      rw [hrest] at h
      cases h
      obtain ⟨tail, htaken, hcs⟩ := lexeme_split hl
      have hothers : Tiled (before ++ l.taken) l.rest others := ih (by rw [Position.advanceAll_append, hp]) hrest
      have hword := isLexeme_taken (Bool.eq_false_iff.mpr hblank) hc hl
      have htiled : Tiled before ([] ++ l.taken ++ l.rest) _ := .token (.nil _) hword (by rwa [List.append_nil])
      rw [List.append_nil, spanAfter, Position.advanceAll_append, hp, List.nil_append] at htiled
      have htext : l.taken ++ l.rest = c :: cs := by rw [htaken, hcs, List.cons_append]
      rwa [htext] at htiled

namespace Tiled

/-- **Where each token stands**: it is at the end of the text, or is one lexeme of it. -/
theorem exists_split (h : Tiled before cs tokens) : ∀ t ∈ tokens, ∃ pre word post, before ++ cs = pre ++ word ++ post ∧
    before <+: pre ∧ t.span = spanAfter pre word ∧ (t.kind ≠ .endOfText → IsLexeme word t.kind) := by
  induction h with
  | last hgap =>
    intro t ht
    obtain rfl := List.mem_singleton.mp ht
    exact ⟨_, [], [], by simp, List.prefix_append _ _, rfl, fun hne => absurd rfl hne⟩
  | @token before gap word rest kind tokens hgap hword _ ih =>
    intro t ht
    rcases List.mem_cons.mp ht with rfl | ht
    · exact ⟨before ++ gap, word, rest, by simp, List.prefix_append _ _, rfl, fun _ => hword⟩
    · -- a later token is later in the rest
      obtain ⟨pre, word', post, hsplit, hprefix, hspan, hkind⟩ := ih t ht
      refine ⟨pre, word', post, by rw [← hsplit]; simp, ?_, hspan, hkind⟩
      exact ((List.prefix_append _ _).trans (List.prefix_append _ _)).trans hprefix

/-- The end of the text comes last, and nothing else is the end. -/
theorem exists_last (h : Tiled before cs tokens) : ∃ words, tokens = words ++ [⟨.endOfText, spanAfter (before ++ cs) []⟩] ∧
    ∀ t ∈ words, t.kind ≠ .endOfText := by
  induction h with
  | last hgap => exact ⟨[], rfl, nofun⟩
  | @token before gap word rest kind tokens hgap hword _ ih =>
    obtain ⟨words, rfl, hwords⟩ := ih
    refine ⟨_ :: words, by simp; rfl, ?_⟩
    intro t ht
    rcases List.mem_cons.mp ht with rfl | ht
    · exact hword.ne_endOfText
    · exact hwords t ht

/-- No token starts before one in front of it has ended. -/
theorem pairwise (h : Tiled before cs tokens) : tokens.Pairwise fun t u => t.span.stop ≤ u.span.start := by
  induction h with
  | last hgap => exact List.pairwise_singleton _ _
  | token hgap hword hrest ih =>
    refine List.Pairwise.cons ?_ ih
    intro u hu
    obtain ⟨pre, word', post, -, hprefix, hspan, -⟩ := hrest.exists_split u hu
    rw [hspan, stop_spanAfter, start_spanAfter]
    exact String.utf8Len_le_of_prefix hprefix

/-- From one token to the next there is a gap. -/
theorem isChain (h : Tiled before cs tokens) {s : Span} (hs : s.stop = String.utf8Len before) {source : String}
    (hsource : source = String.ofList (before ++ cs)) :
    (s :: tokens.map (·.span)).IsChain fun s t =>
      Gap (slice source s.stop t.start).toList (slice source t.start source.utf8ByteSize).toList := by
  induction h generalizing s with
  | @last before gap hgap =>
    refine List.isChain_pair.mpr ?_
    have hback := Text.slice_back (before ++ gap) []
    have hslice := Text.slice_append before gap []
    rw [List.append_nil] at hback hslice
    rw [hs, hsource, start_spanAfter, hback, hslice]
    simpa using hgap
  | @token before gap word rest kind tokens hgap hword hrest ih =>
    rw [List.map_cons, List.isChain_cons_cons]
    have hassoc : before ++ (gap ++ word ++ rest) = before ++ gap ++ (word ++ rest) := by simp
    have hassoc' : before ++ (gap ++ word ++ rest) = before ++ gap ++ word ++ rest := by simp
    refine ⟨?_, ih (stop_spanAfter _ _) (hassoc' ▸ hsource)⟩
    rw [hs, hsource, hassoc, start_spanAfter, Text.slice_back, Text.slice_append]
    simpa using hgap

end Tiled

/-- **The tokens tile the text.** -/
structure Tiling (source : String) (tokens : List Token) : Prop where
  /-- The last token, and it alone, is the end of the text. It is empty and stands where the text ends. -/
  ends : ∃ words s, tokens = words ++ [⟨.endOfText, s⟩] ∧ s.start = source.utf8ByteSize ∧ s.stop = source.utf8ByteSize ∧
    ∀ t ∈ words, t.kind ≠ .endOfText
  /-- Each other token is a stretch of whole characters that is not empty. -/
  covers : ∀ t ∈ tokens, t.kind ≠ .endOfText → t.span.start < t.span.stop ∧
    String.Pos.Raw.IsValid source ⟨t.span.start⟩ ∧ String.Pos.Raw.IsValid source ⟨t.span.stop⟩
  /-- The tokens stand one after the other. -/
  increasing : tokens.Pairwise fun t u => t.span.stop ≤ u.span.start
  /-- Between the start of the text, the tokens and its end there are blanks and comments, and nothing else. -/
  gaps : (⟨0, 0, 1, 1⟩ :: tokens.map (·.span)).IsChain fun s t =>
    Gap (slice source s.stop t.start).toList (slice source t.start source.utf8ByteSize).toList
  /-- The line of a token is told by the line feeds before it, its column by the characters after the last of these. -/
  places : ∀ t ∈ tokens, t.span.line = 1 + (slice source 0 t.span.start).toList.count '\n' ∧
    t.span.col = 1 + ((slice source 0 t.span.start).toList.rtakeWhile (· != '\n')).length
  /-- What a token takes up is read as that token. -/
  again : ∀ t ∈ tokens, t.kind ≠ .endOfText →
    ∃ s e, scan (slice source t.span.start t.span.stop) = .ok [⟨t.kind, s⟩, ⟨.endOfText, e⟩]

/-- **The tokens of a text tile it.** -/
theorem tiling_of_scan {source : String} (h : scan source = .ok tokens) : Tiling source tokens := by
  have htiled : Tiled [] source.toList tokens := tiled_of_scanFrom h
  have hsource : source = String.ofList source.toList := String.ofList_toList.symm
  have hsplit := htiled.exists_split
  rw [List.nil_append] at hsplit
  -- each part reads off where a token stands: what is before it, its word, and what is behind
  refine ⟨?_, ?_, htiled.pairwise, htiled.isChain rfl hsource, ?_, ?_⟩
  case refine_1 =>
    obtain ⟨words, htokens, hwords⟩ := htiled.exists_last
    refine ⟨words, _, htokens, ?_, ?_, hwords⟩
    · rw [start_spanAfter, List.nil_append, String.utf8Len_toList]
    · rw [stop_spanAfter, List.append_nil, List.nil_append, String.utf8Len_toList]
  case refine_2 =>
    intro t ht hkind
    obtain ⟨pre, word, post, hcs, -, hspan, hword⟩ := hsplit t ht
    rw [hspan, start_spanAfter, stop_spanAfter, hsource, hcs]
    have hpos : String.utf8Len word ≠ 0 := fun hzero => (hword hkind).ne_nil (String.utf8Len_eq_zero.mp hzero)
    refine ⟨by rw [String.utf8Len_append]; omega, ?_, Text.isValid_utf8Len (pre ++ word) post⟩
    rw [List.append_assoc]
    exact Text.isValid_utf8Len pre (word ++ post)
  case refine_3 =>
    intro t ht
    obtain ⟨pre, word, post, hcs, -, hspan, -⟩ := hsplit t ht
    have hfront : slice source 0 t.span.start = String.ofList pre := by
      rw [hspan, start_spanAfter, hsource, hcs, List.append_assoc, Text.slice_front]
    rw [hfront, hspan, line_spanAfter, col_spanAfter, String.toList_ofList]
    exact ⟨rfl, rfl⟩
  case refine_4 =>
    intro t ht hkind
    obtain ⟨pre, word, post, hcs, -, hspan, hword⟩ := hsplit t ht
    have hslice : slice source t.span.start t.span.stop = String.ofList word := by
      rw [hspan, start_spanAfter, stop_spanAfter, hsource, hcs, Text.slice_append]
    obtain ⟨tokens', hscan, hkinds⟩ := (hword hkind).reads {}
    obtain ⟨⟨_, s⟩, rest, rfl, rfl, hrest⟩ := List.map_eq_cons_iff.mp hkinds
    obtain ⟨⟨_, e⟩, others, rfl, rfl, hothers⟩ := List.map_eq_cons_iff.mp hrest
    obtain rfl := List.map_eq_nil_iff.mp hothers
    refine ⟨s, e, ?_⟩
    rw [hslice, scan, String.toList_ofList]
    exact hscan

/-- A character of two bytes, a comment and an escape: the string is in the second line, and its six bytes are read by
themselves as that string. -/
theorem tiling_of_scan_comment :
    ∃ tokens, scan "(é ; x\n \"a\\nb\")" = .ok tokens ∧ ⟨.string "a\nb", 9, 15, 2, 2⟩ ∈ tokens ∧
      Tiling "(é ; x\n \"a\\nb\")" tokens ∧
      ∃ s e, scan "\"a\\nb\"" = .ok [⟨.string "a\nb", s⟩, ⟨.endOfText, e⟩] := by
  have hscan : scan "(é ; x\n \"a\\nb\")" = .ok [⟨.open, 0, 1, 1, 1⟩, ⟨.symbol "é", 1, 3, 1, 2⟩,
      ⟨.string "a\nb", 9, 15, 2, 2⟩, ⟨.close, 15, 16, 2, 8⟩, ⟨.endOfText, 16, 16, 2, 9⟩] := by decide +kernel
  have hmem : (⟨.string "a\nb", 9, 15, 2, 2⟩ : Token) ∈ [(⟨.open, 0, 1, 1, 1⟩ : Token), ⟨.symbol "é", 1, 3, 1, 2⟩,
      ⟨.string "a\nb", 9, 15, 2, 2⟩, ⟨.close, 15, 16, 2, 8⟩, ⟨.endOfText, 16, 16, 2, 9⟩] := by decide
  have htiling := tiling_of_scan hscan
  have hslice : slice "(é ; x\n \"a\\nb\")" 9 15 = "\"a\\nb\"" := by decide
  exact ⟨_, hscan, hmem, htiling, hslice ▸ htiling.again _ hmem nofun⟩

end Token

end SchemeMachine
