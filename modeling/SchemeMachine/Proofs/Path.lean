import Mathlib.Data.List.Basic
import SchemeMachine.Path

/-!
# Paths that are the same

A path is compared by its components, and two paths that are the same have the same neighbours: what a module imports is
looked for in the same places, however the path of the module is spelled.

* `Path.Proper` are the paths that texts stand for; the operations on paths keep it.
* `Path.same_iff`: paths are the same if they have the same components and are rooted alike.
* `Path.same_sibling` is the result about neighbours.
-/

namespace SchemeMachine.Path

/-! ### Cutting at slashes -/

theorem splitSlashes_slash (cs : List Char) : splitSlashes ('/' :: cs) = [] :: splitSlashes cs := if_pos rfl

theorem splitSlashes_cons_of_ne {c : Char} (h : c ≠ '/') {cs first : List Char} {others : List (List Char)}
    (hcs : splitSlashes cs = first :: others) : splitSlashes (c :: cs) = (c :: first) :: others := by
  rw [splitSlashes, if_neg h, hcs]

theorem splitSlashes_ne_nil (cs : List Char) : splitSlashes cs ≠ [] := by
  induction cs with
  | nil => exact List.cons_ne_nil _ _
  | cons c cs ih =>
    by_cases hc : c = '/'
    · rw [hc, splitSlashes_slash]
      exact List.cons_ne_nil _ _
    · obtain ⟨first, others, hcs⟩ := List.exists_cons_of_ne_nil ih
      rw [splitSlashes_cons_of_ne hc hcs]
      exact List.cons_ne_nil _ _

/-- No piece holds a slash. -/
theorem slash_notMem_of_mem_splitSlashes {cs piece : List Char} (h : piece ∈ splitSlashes cs) : '/' ∉ piece := by
  induction cs generalizing piece with
  | nil => exact List.mem_singleton.mp h ▸ List.not_mem_nil
  | cons c cs ih =>
    by_cases hc : c = '/'
    · rw [hc, splitSlashes_slash, List.mem_cons] at h
      exact h.elim (fun hnil => hnil ▸ List.not_mem_nil) ih
    · obtain ⟨first, others, hcs⟩ := List.exists_cons_of_ne_nil (splitSlashes_ne_nil cs)
      rw [splitSlashes_cons_of_ne hc hcs, List.mem_cons] at h
      rcases h with rfl | h
      · have hfirst := ih (hcs ▸ List.mem_cons_self)
        exact fun hmem => (List.mem_cons.mp hmem).elim (fun heq => hc heq.symm) hfirst
      · exact ih (hcs ▸ List.mem_cons_of_mem _ h)

/-- What has no slash lies in one piece. -/
theorem splitSlashes_append {piece : List Char} (h : '/' ∉ piece) {cs first : List Char} {others : List (List Char)}
    (hcs : splitSlashes cs = first :: others) : splitSlashes (piece ++ cs) = (piece ++ first) :: others := by
  induction piece with
  | nil => exact hcs
  | cons c piece ih =>
    exact splitSlashes_cons_of_ne (fun heq => h (heq ▸ List.mem_cons_self))
      (ih fun hmem => h (List.mem_cons_of_mem _ hmem))

/-- **Pieces come back** from the text in which slashes stand between them. -/
theorem splitSlashes_intercalate {pieces : List (List Char)} (hne : pieces ≠ []) (h : ∀ piece ∈ pieces, '/' ∉ piece) :
    splitSlashes (['/'].intercalate pieces) = pieces := by
  induction pieces with
  | nil => exact absurd rfl hne
  | cons piece pieces ih =>
    have hpiece := h piece List.mem_cons_self
    cases pieces with
    | nil =>
      have hlast : splitSlashes (piece ++ []) = [piece ++ []] := splitSlashes_append hpiece rfl
      rw [List.append_nil] at hlast
      rwa [List.intercalate_singleton]
    | cons next pieces =>
      have hrest := ih (List.cons_ne_nil _ _) fun q hq => h q (List.mem_cons_of_mem _ hq)
      have hslash : splitSlashes ('/' :: ['/'].intercalate (next :: pieces)) = [] :: next :: pieces := by
        rw [splitSlashes_slash, hrest]
      have hboth := splitSlashes_append hpiece hslash
      rw [List.append_nil] at hboth
      rw [List.intercalate_cons_cons]
      simpa using hboth

/-! ### Components -/

/-- The pieces of a list that mean something wherever they stand. -/
def significant (pieces : List String) : List String := pieces.filter fun piece => !isVoid piece

/-- The components are the pieces that mean something, and a dot in front of a path that is not rooted. -/
theorem components_eq (rooted : Bool) (pieces : List String) :
    components ⟨rooted, pieces⟩ =
      (if rooted = false ∧ pieces.head? = some "." then ["."] else []) ++ significant pieces := by
  unfold components significant
  dsimp only
  split
  · next rest =>
    rw [if_pos ⟨rfl, rfl⟩, List.filter_cons_of_neg (by decide)]
    rfl
  · next hother =>
    rw [if_neg, List.nil_append]
    rintro ⟨hrooted, hhead⟩
    obtain ⟨rest, hrest⟩ := List.head?_eq_some_iff.mp hhead
    exact hother rest hrooted hrest

/-- Pieces at the end add what they mean. -/
theorem components_append {rooted : Bool} {pieces : List String} (hne : pieces ≠ []) (more : List String) :
    components ⟨rooted, pieces ++ more⟩ = components ⟨rooted, pieces⟩ ++ significant more := by
  rw [components_eq, components_eq, List.head?_append_of_ne_nil _ hne, significant, List.filter_append, ← significant,
    ← significant, List.append_assoc]

theorem significant_singleton (piece : String) : significant [piece] = if isVoid piece then [] else [piece] := by
  cases h : isVoid piece <;> simp [significant, h]

/-- What is dropped at the end is no component. -/
theorem components_dropVoid (rooted : Bool) (reversed : List String) :
    components ⟨rooted, (dropVoid rooted reversed).reverse⟩ = components ⟨rooted, reversed.reverse⟩ := by
  fun_induction dropVoid rooted reversed with
  | case1 => rfl
  | case2 h =>
    subst h
    decide
  | case3 => rfl
  | case4 piece rest hdot hvoid ih =>
    rw [ih, List.reverse_cons]
    cases rest with
    | nil =>
      -- a single piece that means nothing here is the empty one
      have hempty : piece = "" := by
        have hpiece : piece ≠ "." := fun heq => hdot heq rfl
        simpa [isVoid, hpiece] using hvoid
      subst hempty
      cases rooted <;> decide
    | cons next rest =>
      rw [components_append (by simp), significant_singleton, if_pos hvoid, List.append_nil]
  | case5 => rfl

/-- What is left at the end means something. -/
theorem significant_of_dropVoid {rooted : Bool} {reversed before : List String} {piece : String}
    (h : dropVoid rooted reversed = piece :: before) :
    isVoid piece = false ∨ (rooted = false ∧ piece = "." ∧ before = []) := by
  fun_induction dropVoid rooted reversed with
  | case1 => cases h
  | case2 => cases h
  | case3 hrooted =>
    cases h
    exact Or.inr ⟨by simpa using hrooted, rfl, rfl⟩
  | case4 first rest hdot hvoid ih => exact ih h
  | case5 first rest hdot hvoid =>
    cases h
    exact Or.inl (Bool.eq_false_iff.mpr hvoid)

/-- **The last component of a path** and what stands before it. -/
theorem components_lastComponent? (p : Path) :
    match p.lastComponent? with
    | none => p.components = []
    | some (last, before) => p.components = components ⟨p.rooted, before.reverse⟩ ++ [last] := by
  have hdrop := components_dropVoid p.rooted p.pieces.reverse
  rw [List.reverse_reverse] at hdrop
  unfold lastComponent?
  cases hcase : dropVoid p.rooted p.pieces.reverse with
  | nil =>
    rw [hcase] at hdrop
    change p.components = []
    rw [← hdrop, List.reverse_nil, components_eq, if_neg (by simp)]
    rfl
  | cons last before =>
    rw [hcase] at hdrop
    change p.components = components ⟨p.rooted, before.reverse⟩ ++ [last]
    rw [← hdrop, List.reverse_cons]
    rcases significant_of_dropVoid hcase with hvoid | ⟨hrooted, rfl, rfl⟩
    · cases before with
      | nil =>
        have hdot : last ≠ "." := by
          rintro rfl
          exact absurd hvoid (by decide)
        simp [components_eq, significant, hvoid, hdot]
      | cons next before =>
        rw [components_append (by simp), significant_singleton, hvoid]
        rfl
    · rw [hrooted]
      decide

/-- **The directory that a path lies in** has all components but the last. -/
theorem components_parent? (p : Path) :
    (p.parent? = none ∧ p.components = []) ∨
      ∃ dir last, p.parent? = some dir ∧ dir.rooted = p.rooted ∧ p.components = dir.components ++ [last] := by
  have hlast := components_lastComponent? p
  unfold parent?
  cases hcase : p.lastComponent? with
  | none =>
    rw [hcase] at hlast
    exact Or.inl ⟨rfl, hlast⟩
  | some found =>
    obtain ⟨last, before⟩ := found
    rw [hcase] at hlast
    refine Or.inr ⟨_, last, rfl, ?_, ?_⟩
    · dsimp only
      split <;> rfl
    · have hdrop := components_dropVoid p.rooted before
      dsimp only at hlast ⊢
      rw [hlast, ← hdrop]
      split
      · next hnil =>
        rw [hnil, components_eq, components_eq, if_neg (by simp), if_neg (by simp)]
        rfl
      · rfl

/-! ### Paths that texts stand for -/

/-- **The path of a text**: there is a piece, no piece holds a slash, and only the empty path begins with nothing without
being rooted. -/
structure Proper (p : Path) : Prop where
  nonempty : p.pieces ≠ []
  slashless : ∀ piece ∈ p.pieces, '/' ∉ piece.toList
  start : p.rooted = false → p.pieces.head? = some "" → p.pieces = [""]

theorem proper_ofText (s : String) : (ofText s).Proper := by
  have hslashless (cs : List Char) : ∀ piece ∈ (splitSlashes cs).map String.ofList, '/' ∉ piece.toList := by
    intro piece hpiece
    obtain ⟨chars, hchars, rfl⟩ := List.mem_map.mp hpiece
    rw [String.toList_ofList]
    exact slash_notMem_of_mem_splitSlashes hchars
  have hnonempty (cs : List Char) : (splitSlashes cs).map String.ofList ≠ [] := by
    rw [ne_eq, List.map_eq_nil_iff]
    exact splitSlashes_ne_nil cs
  unfold ofText
  split
  · exact ⟨hnonempty _, hslashless _, nofun⟩
  · next cs hcs =>
    refine ⟨hnonempty _, hslashless _, fun _ hhead => ?_⟩
    cases hlist : s.toList with
    | nil => rfl
    | cons c chars =>
      -- a text that does not begin with a slash begins with a piece
      have hc : c ≠ '/' := fun heq => hcs chars (heq ▸ hlist)
      obtain ⟨first, others, hsplit⟩ := List.exists_cons_of_ne_nil (splitSlashes_ne_nil chars)
      dsimp only at hhead
      rw [hlist, splitSlashes_cons_of_ne hc hsplit, List.map_cons, List.head?_cons, Option.some.injEq,
        String.ofList_eq_empty_iff] at hhead
      cases hhead

/-- Some pieces from the front of a path are a path. -/
theorem Proper.initial {p : Path} (h : p.Proper) {pieces : List String} (hne : pieces ≠ []) (hpieces : pieces <+: p.pieces) :
    Proper ⟨p.rooted, pieces⟩ := by
  refine ⟨hne, fun piece hpiece => h.slashless piece (hpieces.subset hpiece), fun hrooted hhead => ?_⟩
  obtain ⟨rest, hrest⟩ := hpieces
  have hall := h.start hrooted (by rw [← hrest, List.head?_append_of_ne_nil _ hne]; exact hhead)
  rw [hall] at hrest
  cases pieces with
  | nil => exact absurd rfl hne
  | cons piece pieces =>
    obtain ⟨rfl, hnil⟩ := List.cons.inj hrest
    rw [(List.append_eq_nil_iff.mp hnil).1]

theorem proper_void (rooted : Bool) : Proper ⟨rooted, [""]⟩ :=
  ⟨List.cons_ne_nil _ _, by simp, fun _ _ => rfl⟩

theorem Proper.parent? {p dir : Path} (h : p.Proper) (hdir : p.parent? = some dir) : dir.Proper := by
  obtain ⟨⟨last, before⟩, hfound, rfl⟩ := Option.map_eq_some_iff.mp hdir
  have hsuffix : dropVoid p.rooted before <:+ p.pieces.reverse := by
    unfold lastComponent? at hfound
    split at hfound
    · cases hfound
    · next piece rest hdrop =>
      cases hfound
      have hrest : before <:+ p.pieces.reverse :=
        (List.suffix_cons last before).trans (hdrop ▸ dropVoid_suffix p.rooted p.pieces.reverse)
      exact (dropVoid_suffix p.rooted before).trans hrest
  dsimp only
  split
  · exact proper_void p.rooted
  · next hne =>
    refine h.initial (fun hnil => hne hnil) ?_
    rw [← List.reverse_suffix, List.reverse_reverse]
    exact hsuffix

theorem Proper.isEmpty_iff {p : Path} (h : p.Proper) : p.isEmpty = true ↔ p.rooted = false ∧ p.components = [] := by
  obtain ⟨rooted, pieces⟩ := p
  constructor
  · intro hempty
    obtain ⟨piece, rest, rfl⟩ := List.exists_cons_of_ne_nil h.nonempty
    simp only [isEmpty, Bool.and_eq_true, Bool.not_eq_true', List.all_cons, decide_eq_true_eq, List.length_cons] at hempty
    obtain ⟨⟨hrooted, rfl, -⟩, hlength⟩ := hempty
    obtain rfl : rest = [] := List.length_eq_zero_iff.mp (by omega)
    subst hrooted
    decide
  · rintro ⟨rfl, hcomponents⟩
    -- the first piece would be a component, unless it is empty
    obtain ⟨piece, rest, rfl⟩ := List.exists_cons_of_ne_nil h.nonempty
    have hempty : piece = "" := by
      by_contra hpiece
      rw [components_eq] at hcomponents
      by_cases hdot : piece = "."
      · simp [hdot] at hcomponents
      · simp [significant, isVoid, hpiece, hdot] at hcomponents
    have hall : piece :: rest = [""] := h.start rfl (by rw [hempty]; rfl)
    rw [hall]
    rfl

/-- **A path seen from a directory** that is not the empty path: it is a path again, with the components of the directory
in front. -/
theorem Proper.join {p q : Path} (hp : p.Proper) (hq : q.Proper) (hrooted : q.rooted = false) (hempty : p.isEmpty = false) :
    (p.join q).Proper ∧ (p.join q).rooted = p.rooted ∧
      (p.join q).components = p.components ++ significant q.pieces := by
  -- the pieces of the directory, without the slash at the end if there is one
  obtain ⟨pieces, hjoin, hcomponents, hslashless, hfront⟩ : ∃ pieces, p.join q = ⟨p.rooted, pieces ++ q.pieces⟩ ∧
      components ⟨p.rooted, pieces ++ q.pieces⟩ = p.components ++ significant q.pieces ∧
      (∀ piece ∈ pieces, '/' ∉ piece.toList) ∧
      (p.rooted = false → pieces ≠ [] ∧ pieces.head? = p.pieces.head?) := by
    obtain ⟨rooted, all⟩ := p
    unfold Path.join
    rw [if_neg (by simp [hrooted]), if_neg (by simp [hempty])]
    split
    · next hlast =>
      obtain ⟨front, rfl⟩ : ∃ front, all = front ++ [""] := List.getLast?_eq_some_iff.mp hlast
      refine ⟨front, by rw [List.dropLast_concat], ?_, fun piece hpiece => hp.slashless piece (List.mem_append_left _ hpiece),
        fun hunrooted => ?_⟩
      · cases front with
        | nil =>
          have htrue : rooted = true := by
            by_contra hfalse
            rw [Bool.not_eq_true] at hfalse
            subst hfalse
            exact absurd hempty (by decide)
          subst htrue
          simp [components_eq, significant, isVoid]
        | cons piece front =>
          rw [components_append (List.cons_ne_nil _ _), components_append (List.cons_ne_nil _ _), significant_singleton,
            if_pos (by decide), List.append_nil]
      · cases front with
        | nil =>
          change rooted = false at hunrooted
          subst hunrooted
          exact absurd hempty (by decide)
        | cons piece front => exact ⟨List.cons_ne_nil _ _, rfl⟩
    · exact ⟨all, rfl, components_append hp.nonempty _, hp.slashless, fun _ => ⟨hp.nonempty, rfl⟩⟩
  rw [hjoin]
  refine ⟨⟨?_, ?_, fun hunrooted hhead => ?_⟩, rfl, hcomponents⟩
  · exact List.append_ne_nil_of_right_ne_nil _ hq.nonempty
  · intro piece hpiece
    exact (List.mem_append.mp hpiece).elim (hslashless piece) (hq.slashless piece)
  · obtain ⟨hne, hsame⟩ := hfront hunrooted
    rw [List.head?_append_of_ne_nil _ hne, hsame] at hhead
    have hall := hp.start hunrooted hhead
    refine absurd (hp.isEmpty_iff.mpr ⟨hunrooted, ?_⟩) (by simp [hempty])
    obtain ⟨rooted, all⟩ := p
    rw [show all = [""] from hall, show rooted = false from hunrooted]
    rfl

theorem join_of_rooted {p q : Path} (h : q.rooted = true) : p.join q = q := if_pos h

theorem join_of_isEmpty {p q : Path} (h : p.isEmpty = true) : p.join q = q := by
  unfold join
  rw [if_pos h, ite_self]

theorem Proper.sibling {p : Path} (h : p.Proper) (wanted : String) : (p.sibling wanted).Proper := by
  have hwanted := proper_ofText wanted
  unfold Path.sibling
  split
  · next dir hdir =>
    cases hrooted : (ofText wanted).rooted with
    | true => rwa [join_of_rooted hrooted]
    | false =>
      cases hempty : dir.isEmpty with
      | true => rwa [join_of_isEmpty hempty]
      | false => exact ((h.parent? hdir).join hwanted hrooted hempty).1
  · exact hwanted

/-! ### The same path -/

theorem significant_of_mem_components {p : Path} {piece : String} (h : piece ∈ p.components) : piece ≠ "" := by
  obtain ⟨rooted, pieces⟩ := p
  rw [components_eq, List.mem_append] at h
  rintro rfl
  rcases h with h | h
  · split at h
    · simp at h
    · cases h
  · exact absurd (List.mem_filter.mp h).2 (by decide)

theorem mem_pieces_of_mem_components {p : Path} {piece : String} (h : piece ∈ p.components) : piece ∈ p.pieces := by
  obtain ⟨rooted, pieces⟩ := p
  rw [components_eq, List.mem_append] at h
  rcases h with h | h
  · split at h
    · next hdot =>
      rw [List.mem_singleton.mp h]
      exact List.mem_of_head? hdot.2
    · cases h
  · exact List.mem_of_mem_filter h

theorem toList_canonicalText (p : Path) : p.canonicalText.toList =
    (if p.rooted then ['/'] else []) ++ ['/'].intercalate (p.components.map String.toList) := by
  unfold canonicalText
  rw [String.toList_append, String.toList_intercalate]
  cases p.rooted <;> rfl

/-- **The components of a path can be read off its text**, -/
theorem Proper.filter_canonicalText {p : Path} (h : p.Proper) :
    (splitSlashes p.canonicalText.toList).filter (fun piece => !piece.isEmpty) = p.components.map String.toList := by
  have hpieces : ∀ piece ∈ p.components.map String.toList, '/' ∉ piece ∧ piece ≠ [] := by
    intro piece hpiece
    obtain ⟨component, hcomponent, rfl⟩ := List.mem_map.mp hpiece
    refine ⟨h.slashless _ (mem_pieces_of_mem_components hcomponent), fun hnil => ?_⟩
    exact significant_of_mem_components hcomponent (String.toList_eq_nil_iff.mp hnil)
  have hsplit : (splitSlashes (['/'].intercalate (p.components.map String.toList))).filter (fun piece => !piece.isEmpty) =
      p.components.map String.toList := by
    cases hcase : p.components.map String.toList with
    | nil => rfl
    | cons piece pieces =>
      rw [splitSlashes_intercalate (List.cons_ne_nil _ _) fun q hq => (hpieces q (hcase ▸ hq)).1]
      exact List.filter_eq_self.mpr fun q hq => by simpa using (hpieces q (hcase ▸ hq)).2
  rw [toList_canonicalText]
  cases p.rooted with
  | false => exact hsplit
  | true =>
    rw [if_pos rfl, List.singleton_append, splitSlashes_slash, List.filter_cons_of_neg (by decide)]
    exact hsplit

/-- and whether it is rooted. -/
theorem Proper.head?_canonicalText {p : Path} (h : p.Proper) : p.canonicalText.toList.head? = some '/' ↔ p.rooted = true := by
  rw [toList_canonicalText]
  cases hrooted : p.rooted with
  | true => exact iff_of_true rfl rfl
  | false =>
    refine iff_of_false ?_ Bool.false_ne_true
    rw [if_neg Bool.false_ne_true, List.nil_append]
    cases hcomponents : p.components with
    | nil => exact nofun
    | cons component components =>
      have hmem : component ∈ p.components := hcomponents ▸ List.mem_cons_self
      have hslash := h.slashless _ (mem_pieces_of_mem_components hmem)
      have hne : component.toList ≠ [] := fun hnil =>
        significant_of_mem_components hmem (String.toList_eq_nil_iff.mp hnil)
      obtain ⟨c, cs, hcs⟩ := List.exists_cons_of_ne_nil hne
      have hhead : (['/'].intercalate ((component :: components).map String.toList)).head? = some c := by
        cases components <;> simp [hcs, List.intercalate_cons_cons]
      rw [hhead]
      rintro heq
      obtain rfl := Option.some.inj heq
      exact hslash (hcs ▸ List.mem_cons_self)

/-- **Two paths are the same** if their components are and both are rooted or none is. -/
theorem Proper.same_iff {p q : Path} (hp : p.Proper) (hq : q.Proper) :
    p.same q = true ↔ p.rooted = q.rooted ∧ p.components = q.components := by
  rw [same, decide_eq_true_iff]
  constructor
  · intro h
    have hrooted := hp.head?_canonicalText
    rw [h, hq.head?_canonicalText] at hrooted
    have hcomponents := hp.filter_canonicalText
    rw [h, hq.filter_canonicalText] at hcomponents
    exact ⟨Bool.eq_iff_iff.mpr hrooted.symm, (List.map_injective_iff.mpr (fun _ _ => String.toList_inj.mp) hcomponents).symm⟩
  · rintro ⟨hrooted, hcomponents⟩
    rw [canonicalText, canonicalText, hrooted, hcomponents]

theorem same_refl (p : Path) : p.same p = true := decide_eq_true rfl

theorem same_symm {p q : Path} (h : p.same q = true) : q.same p = true :=
  decide_eq_true (of_decide_eq_true h).symm

theorem same_trans {p q r : Path} (h : p.same q = true) (h' : q.same r = true) : p.same r = true :=
  decide_eq_true ((of_decide_eq_true h).trans (of_decide_eq_true h'))

/-- **The neighbours of a path** do not depend on how it is spelled. -/
theorem Proper.same_sibling {p q : Path} (hp : p.Proper) (hq : q.Proper) (h : p.same q = true) (wanted : String) :
    (p.sibling wanted).same (q.sibling wanted) = true := by
  obtain ⟨hrooted, hcomponents⟩ := (hp.same_iff hq).mp h
  unfold Path.sibling
  -- both paths lie in a directory, or neither does
  rcases components_parent? p with ⟨hparent, hnil⟩ | ⟨dir, last, hparent, hdir, hlast⟩ <;>
    rcases components_parent? q with ⟨hparent', hnil'⟩ | ⟨dir', last', hparent', hdir', hlast'⟩ <;>
    rw [hparent, hparent']
  · exact same_refl _
  · rw [hnil, hlast'] at hcomponents
    simp at hcomponents
  · rw [hnil', hlast] at hcomponents
    simp at hcomponents
  · have hsame : dir.components = dir'.components := by
      rw [hlast, hlast'] at hcomponents
      exact List.append_inj_left' hcomponents rfl
    have hwanted := proper_ofText wanted
    have hd := hp.parent? hparent
    have hd' := hq.parent? hparent'
    have hempty : dir.isEmpty = dir'.isEmpty := by
      rw [Bool.eq_iff_iff, hd.isEmpty_iff, hd'.isEmpty_iff, hdir, hdir', hrooted, hsame]
    dsimp only
    -- a rooted path is wanted wherever it is asked from
    cases hunrooted : (ofText wanted).rooted with
    | true =>
      rw [join_of_rooted hunrooted, join_of_rooted hunrooted]
      exact same_refl _
    | false =>
      cases hcase : dir'.isEmpty with
      | true =>
        rw [join_of_isEmpty (hempty.trans hcase), join_of_isEmpty hcase]
        exact same_refl _
      | false =>
        obtain ⟨hjoin, hjrooted, hjcomponents⟩ := hd.join hwanted hunrooted (hempty.trans hcase)
        obtain ⟨hjoin', hjrooted', hjcomponents'⟩ := hd'.join hwanted hunrooted hcase
        rw [hjoin.same_iff hjoin', hjrooted, hjrooted', hjcomponents, hjcomponents', hdir, hdir', hsame]
        exact ⟨hrooted, rfl⟩

end SchemeMachine.Path
