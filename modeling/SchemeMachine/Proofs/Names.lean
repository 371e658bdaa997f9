import SchemeMachine.Program.Lowering
import SchemeMachine.Tree.Scope

/-!
# Names that carry numbers

The compiler makes names of its own: labels of lambdas and of blocks, new names of variables, names of
continuations. Each has a number in it, and the number can be read off the name.

* `Names.number_inj`: after the same text, a name determines the number and what follows it.
* `Names.number_eq`: after any words without digits, a name determines the number.
* `Handle.label_injective`, `Tree.scopedName_inj` and `Piece.blockParameter_inj` are its cases.
-/

namespace SchemeMachine

namespace Names

@[simp] theorem toString_text (s : String) : toString s = s := rfl

theorem toList_interpolated (n : Nat) : (toString n).toList = Nat.toDigits 10 n := by
  rw [Nat.toString_eq_ofList_toDigits, String.toList_ofList]

/-- Digits end where something else begins. -/
theorem digits_append_inj {m n : Nat} {r s : List Char} (hr : ∀ c ∈ r.head?, c.isDigit = false)
    (hs : ∀ c ∈ s.head?, c.isDigit = false) (h : Nat.toDigits 10 m ++ r = Nat.toDigits 10 n ++ s) :
    m = n ∧ r = s := by
  have htake : ∀ (k : Nat) (u : List Char), (∀ c ∈ u.head?, c.isDigit = false) →
      (Nat.toDigits 10 k ++ u).takeWhile Char.isDigit = Nat.toDigits 10 k := by
    intro k u hu
    rw [List.takeWhile_append_of_pos fun c hc => Nat.isDigit_of_mem_toDigits (by decide) (by decide) hc]
    cases u with
    | nil => simp
    | cons c u => simp [hu c rfl]
  have hdigits : Nat.toDigits 10 m = Nat.toDigits 10 n := by rw [← htake m r hr, h, htake n s hs]
  refine ⟨?_, List.append_cancel_left (hdigits ▸ h)⟩
  rw [← Nat.ofDigitChars_ten_toDigits (n := m), hdigits, Nat.ofDigitChars_ten_toDigits]

/-- **A name determines its number and what follows it.** -/
theorem number_inj {before r s : String} {m n : Nat} (hr : ∀ c ∈ r.toList.head?, c.isDigit = false)
    (hs : ∀ c ∈ s.toList.head?, c.isDigit = false)
    (h : before ++ toString m ++ r = before ++ toString n ++ s) : m = n ∧ r = s := by
  have hl := congrArg String.toList h
  simp only [String.toList_append, toList_interpolated, List.append_assoc] at hl
  obtain ⟨hm, hrs⟩ := digits_append_inj hr hs (List.append_cancel_left hl)
  exact ⟨hm, String.toList_inj.mp hrs⟩

/-- **Words before the numbers do not hide them**, given that they have no digits. -/
theorem number_eq {word word' r s : String} {m n : Nat} (hword : ∀ c ∈ word.toList, c.isDigit = false)
    (hword' : ∀ c ∈ word'.toList, c.isDigit = false) (hr : ∀ c ∈ r.toList.head?, c.isDigit = false)
    (hs : ∀ c ∈ s.toList.head?, c.isDigit = false)
    (h : word ++ toString m ++ r = word' ++ toString n ++ s) : m = n := by
  have hdrop : ∀ (w u : List Char) (k : Nat), (∀ c ∈ w, c.isDigit = false) →
      (w ++ (Nat.toDigits 10 k ++ u)).dropWhile (fun c => !c.isDigit) = Nat.toDigits 10 k ++ u := by
    intro w u k hw
    rw [List.dropWhile_append_of_pos (by simpa using hw)]
    cases hdigits : Nat.toDigits 10 k with
    | nil => simp at hdigits
    | cons c cs =>
      have hc : c.isDigit = true := Nat.isDigit_of_mem_toDigits (by decide) (by decide) (hdigits ▸ List.mem_cons_self)
      simp [hc]
  have hl := congrArg (fun w => w.toList.dropWhile fun c => !c.isDigit) h
  simp only [String.toList_append, toList_interpolated, List.append_assoc] at hl
  rw [hdrop _ _ _ hword, hdrop _ _ _ hword'] at hl
  exact (digits_append_inj hr hs hl).1

end Names

theorem Handle.label_injective : Function.Injective Handle.label := by
  intro m n h
  have h' : "&" ++ toString m ++ "" = "&" ++ toString n ++ "" := by simpa [Handle.label] using h
  exact (Names.number_inj (by simp) (by simp) h').1

theorem Tree.scopedName_inj {M N : Handle} {x y : String} (h : Tree.scopedName M x = Tree.scopedName N y) :
    M = N ∧ x = y := by
  have h' : "&" ++ toString M ++ ("." ++ x) = "&" ++ toString N ++ ("." ++ y) := by
    simpa [Tree.scopedName, Handle.label, String.append_assoc] using h
  obtain ⟨hMN, hxy⟩ := Names.number_inj (by simp) (by simp) h'
  exact ⟨hMN, (String.append_right_inj _).mp hxy⟩

namespace Names

open Piece

theorem label_ne_blockLabel (h : Handle) (n : Nat) : Handle.label h ≠ blockLabel n := by
  intro he
  have hl := congrArg String.toList he
  simp [Handle.label, blockLabel] at hl

theorem blockLabel_injective : Function.Injective blockLabel := by
  intro m n h
  have h' : "_tmp" ++ toString m ++ "" = "_tmp" ++ toString n ++ "" := by simpa [blockLabel] using h
  exact (number_inj (by simp) (by simp) h').1

/-- The name of a parameter determines the block. -/
theorem blockParameter_inj {m n i j : Nat} (h : blockLabel m ++ s!".p{i}" = blockLabel n ++ s!".p{j}") : m = n := by
  have h' : "_tmp" ++ toString m ++ s!".p{i}" = "_tmp" ++ toString n ++ s!".p{j}" := by simpa [blockLabel] using h
  exact (number_inj (by simp) (by simp) h').1

theorem scopedName_ne_resumeLabel (h : Handle) (x : String) (n : Nat) : Tree.scopedName h x ≠ resumeLabel n := by
  intro he
  have hl := congrArg String.toList he
  simp [Tree.scopedName, Handle.label, resumeLabel] at hl

theorem scopedName_ne_blockParameter (h : Handle) (x : String) (n i : Nat) :
    Tree.scopedName h x ≠ blockLabel n ++ s!".p{i}" := by
  intro he
  have hl := congrArg String.toList he
  simp [Tree.scopedName, Handle.label, blockLabel] at hl

theorem resumeLabel_ne_blockParameter (m n i : Nat) : resumeLabel m ≠ blockLabel n ++ s!".p{i}" := by
  intro he
  have hl := congrArg String.toList he
  simp [resumeLabel, blockLabel] at hl

end Names

end SchemeMachine
