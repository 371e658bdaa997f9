import Mathlib.Data.Nat.Digits.Lemmas
import SchemeMachine.Proofs.Module.Reach

/-!
# Modules among files

A file has many paths, and discovery tells modules apart by their paths. Where no path makes a detour, a file has one path
only: every file is then one module, and imports that lead back to a file on the way are noticed.

* `Path.Direct` is a path without detours.
* `FileTree.eq_of_locate`: different direct paths lead to different places.
* `Module.discover_onDisk` is the result; `Module.discover_onDisk_detour` shows a file that becomes two modules.
-/

namespace SchemeMachine

/-! ### Paths without detours -/

/-- A piece that names a file or a directory. -/
structure Path.IsName (piece : String) : Prop where
  significant : isVoid piece = false
  below : piece ≠ ".."
  slashless : '/' ∉ piece.toList

instance (piece : String) : Decidable (Path.IsName piece) :=
  decidable_of_iff (Path.isVoid piece = false ∧ piece ≠ ".." ∧ '/' ∉ piece.toList)
    ⟨fun h => ⟨h.1, h.2.1, h.2.2⟩, fun h => ⟨h.significant, h.below, h.slashless⟩⟩

/-- **A path without detours**: all its pieces are names. -/
structure Path.Direct (rooted : Bool) (p : Path) : Prop where
  rooted : p.rooted = rooted
  nonempty : p.pieces ≠ []
  names : ∀ piece ∈ p.pieces, IsName piece

instance (rooted : Bool) (p : Path) : Decidable (p.Direct rooted) :=
  decidable_of_iff (p.rooted = rooted ∧ p.pieces ≠ [] ∧ ∀ piece ∈ p.pieces, Path.IsName piece)
    ⟨fun h => ⟨h.1, h.2.1, h.2.2⟩, fun h => ⟨h.rooted, h.nonempty, h.names⟩⟩

namespace Path.Direct

variable {rooted : Bool} {p q : Path}

theorem components_eq (h : p.Direct rooted) : p.components = p.pieces := by
  obtain ⟨r, pieces⟩ := p
  have hvoid : ∀ piece ∈ pieces, isVoid piece = false := fun piece hpiece => (h.names piece hpiece).significant
  have hdot : ¬(r = false ∧ pieces.head? = some ".") := by
    rintro ⟨-, hhead⟩
    exact absurd (hvoid "." (List.mem_of_head? hhead)) (by decide)
  rw [Path.components_eq, if_neg hdot, List.nil_append]
  exact List.filter_eq_self.mpr fun piece hpiece => by rw [hvoid piece hpiece]; rfl

theorem text_eq (h : p.Direct rooted) : p.canonicalText = p.text := by
  rw [canonicalText, text, h.components_eq]

theorem proper (h : p.Direct rooted) : p.Proper where
  nonempty := h.nonempty
  slashless := fun piece hpiece => (h.names piece hpiece).slashless
  start := fun _ hhead => absurd (h.names "" (List.mem_of_head? hhead)).significant (by decide)

theorem eq_of_pieces (hp : p.Direct rooted) (hq : q.Direct rooted) (h : p.pieces = q.pieces) : p = q := by
  obtain ⟨r, pieces⟩ := p
  obtain ⟨r', pieces'⟩ := q
  exact congrArg₂ Path.mk (hp.rooted.trans hq.rooted.symm) h

/-- **There is one way to write a direct path.** -/
theorem eq_of_same (hp : p.Direct rooted) (hq : q.Direct rooted) (h : p.same q = true) : p = q := by
  obtain ⟨-, hpieces⟩ := (hp.proper.same_iff hq.proper).mp h
  rw [hp.components_eq, hq.components_eq] at hpieces
  exact hp.eq_of_pieces hq hpieces

end Path.Direct

namespace FileTree

variable {t : FileTree} {rooted : Bool} {p q : Path}

/-- Names are followed downward. -/
theorem follow_names {pieces place found : List String} (hnames : ∀ piece ∈ pieces, Path.IsName piece)
    (h : t.follow place pieces = .ok found) : found = place ++ pieces := by
  induction pieces generalizing place with
  | nil =>
    cases h
    rw [List.append_nil]
  | cons piece pieces ih =>
    have hpiece := hnames piece List.mem_cons_self
    rw [follow] at h
    split at h
    · cases h
    · cases h
    · rw [if_neg (by simp [hpiece.significant]), if_neg hpiece.below] at h
      split at h
      · cases h
      · rw [ih (fun q hq => hnames q (List.mem_cons_of_mem _ hq)) h, List.append_assoc, List.singleton_append]

theorem locate_direct (hp : p.Direct rooted) {place : List String} (h : t.locate p = .ok place) :
    place = t.start p ++ p.pieces := by
  obtain ⟨-, -, hfollow⟩ := Except.bind_eq_ok.mp h
  exact follow_names hp.names hfollow

/-- **Different direct paths lead to different places.** -/
theorem eq_of_locate (hp : p.Direct rooted) (hq : q.Direct rooted) {place : List String} (h : t.locate p = .ok place)
    (h' : t.locate q = .ok place) : p = q := by
  have hstart : t.start p = t.start q := by rw [start, start, hp.rooted, hq.rooted]
  have hpieces := (locate_direct hp h).symm.trans (locate_direct hq h')
  rw [hstart, List.append_cancel_left_eq] at hpieces
  exact hp.eq_of_pieces hq hpieces

/-- The places of the files. -/
def filePlaces (t : FileTree) : List (List String) := (t.entries.entries.filter (·.2.isSome)).map (·.1)

/-- **A file has a place.** -/
theorem place_of_isFile (h : t.isFile p = true) : ∃ place ∈ t.filePlaces, t.locate p = .ok place := by
  unfold isFile at h
  split at h
  · next content hread =>
    obtain ⟨place, hlocate, hcontent⟩ := Except.bind_eq_ok.mp hread
    refine ⟨place, ?_, hlocate⟩
    split at hcontent
    · next text hat =>
      unfold at? at hat
      split at hat
      · next text' hfind =>
        exact List.mem_map.mpr ⟨_, List.mem_filter.mpr ⟨Table.mem_entries_of_find? hfind, rfl⟩, rfl⟩
      · cases hat
      · split at hat <;> cases hat
    · cases hcontent
    · cases hcontent
  · cases h

/-- **There are not more files than places**: a list of paths of files that lead to different places is no longer. -/
theorem length_le_filePlaces {paths : List Path} (hfiles : ∀ p ∈ paths, t.isFile p = true)
    (hplaces : (paths.map t.locate).Nodup) : paths.length ≤ t.filePlaces.length := by
  have hsubset : paths.map t.locate ⊆ t.filePlaces.map .ok := by
    intro found hfound
    obtain ⟨p, hp, rfl⟩ := List.mem_map.mp hfound
    obtain ⟨place, hmem, hlocate⟩ := place_of_isFile (hfiles p hp)
    rw [hlocate]
    exact List.mem_map_of_mem hmem
  have hle := (List.subperm_of_subset hplaces hsubset).length_le
  rwa [List.length_map, List.length_map] at hle

/-- The path of a file is not too long. -/
theorem short_of_isFile (h : t.isFile p = true) : p.text.utf8ByteSize < 4096 := by
  obtain ⟨place, -, hlocate⟩ := place_of_isFile h
  obtain ⟨_, hcheck, -⟩ := Except.bind_eq_ok.mp hlocate
  unfold check at hcheck
  dsimp only at hcheck
  split at hcheck
  · cases hcheck
  · split at hcheck
    · cases hcheck
    · split at hcheck
      · cases hcheck
      · omega

end FileTree

/-! ### How many texts there are -/

/-- A text as a number: its bytes are the digits, with a one in front of them. -/
def textNumber (s : String) : Nat := Nat.ofDigits 256 (s.toByteArray.data.toList.map UInt8.toNat ++ [1])

theorem textNumber_digits (s : String) : ∀ d ∈ s.toByteArray.data.toList.map UInt8.toNat ++ [1], d < 256 := by
  intro d hd
  rcases List.mem_append.mp hd with hd | hd
  · obtain ⟨byte, -, rfl⟩ := List.mem_map.mp hd
    exact byte.toNat_lt
  · rw [List.mem_singleton.mp hd]
    decide

theorem textNumber_injective : Function.Injective textNumber := by
  intro s s' h
  -- the bytes of a text are the digits of its number, up to the one that marks the end
  have hdigits (s : String) : Nat.digits 256 (textNumber s) = s.toByteArray.data.toList.map UInt8.toNat ++ [1] :=
    Nat.digits_ofDigits 256 (by decide) _ (textNumber_digits s) (by simp)
  have hbytes := (hdigits s).symm.trans ((congrArg (Nat.digits 256) h).trans (hdigits s'))
  rw [List.append_cancel_right_eq] at hbytes
  have hlist := List.map_injective_iff.mpr (fun _ _ => UInt8.toNat_inj.mp) hbytes
  exact String.toByteArray_inj.mp (ByteArray.ext (Array.toList_inj.mp hlist))

theorem textNumber_lt {s : String} {n : Nat} (h : s.utf8ByteSize < n) : textNumber s < 256 ^ n := by
  have hlt := Nat.ofDigits_lt_base_pow_length (by decide) (textNumber_digits s)
  refine hlt.trans_le (Nat.pow_le_pow_right (by decide) ?_)
  rw [List.length_append, List.length_map, List.length_singleton, Array.length_toList]
  exact h

/-- **There are not many short texts.** -/
theorem length_le_of_short {texts : List String} (hnodup : texts.Nodup) {n : Nat}
    (hshort : ∀ s ∈ texts, s.utf8ByteSize < n) : texts.length ≤ 256 ^ n := by
  have hsubset : texts.map textNumber ⊆ List.range (256 ^ n) := by
    intro k hk
    obtain ⟨s, hs, rfl⟩ := List.mem_map.mp hk
    exact List.mem_range.mpr (textNumber_lt (hshort s hs))
  have hle := (List.subperm_of_subset (hnodup.map textNumber_injective) hsubset).length_le
  rwa [List.length_map, List.length_range] at hle

/-! ### Discovery -/

namespace Module

variable {tree : FileTree} {roots : List Path} {root p q : Path} {source : String}

/-- **Every path that imports lead to is that of a file.** -/
theorem isFile_of_reached (hroot : tree.isFile root = true) (h : Reached (.onDisk tree roots) root source p) :
    tree.isFile p = true := by
  rcases h.cases_tail with rfl | ⟨_, -, -, -, d, -, hresolve⟩
  · exact hroot
  · exact List.find?_some hresolve

/-- Files whose paths make no detours can be navigated, if they load. -/
theorem navigable_onDisk (hroot : tree.isFile root = true)
    (hdirect : ∀ p, Reached (.onDisk tree roots) root source p → p.Direct root.rooted)
    (hloads : ∀ p, Reached (.onDisk tree roots) root source p → Loads (.onDisk tree roots) root source p) :
    Navigable (.onDisk tree roots) root source where
  loads := hloads
  content := fun p q hp hq hsame => by rw [(hdirect p hp).eq_of_same (hdirect q hq) hsame]
  neighbours := fun p q hp hq hsame wanted p' hresolve => by
    obtain rfl := (hdirect p hp).eq_of_same (hdirect q hq) hsame
    exact ⟨p', hresolve, Path.same_refl p'⟩
  bound := fun keys hnodup hkeys => by
    -- the system opens no path of 4096 bytes or more, so that there are finitely many
    have hshort : ∀ k ∈ keys, k.utf8ByteSize < 4096 := by
      intro k hk
      obtain ⟨p, hp, rfl⟩ := hkeys k hk
      rw [(hdirect p hp).text_eq]
      exact FileTree.short_of_isFile (isFile_of_reached hroot hp)
    exact length_le_of_short hnodup hshort

/-- What leads along imports from a path leads along the links of its text. -/
theorem links_of_imports (hp : Reached (.onDisk tree roots) root source p)
    (h : Relation.TransGen (ImportsPath (.onDisk tree roots) root source) p q) :
    Relation.TransGen (Links (.onDisk tree roots) root source) p.canonicalText q.canonicalText := by
  induction h with
  | single hstep => exact .single ⟨_, _, hp, hstep, rfl, rfl⟩
  | tail hsteps hstep ih => exact ih.tail ⟨_, _, hp.trans hsteps.to_reflTransGen, hstep, rfl, rfl⟩

/-- Modules that cannot be ordered are not loaded. -/
theorem load_of_order_error {sources : Sources} {modules : Array Module} {e : LinkError} (hread : sources.read root = .ok source)
    (hdiscover : discover sources root source = .ok modules) (horder : order modules = .error e) :
    load sources root = .error (.link e) := by
  unfold load loadSource
  simp only [hread, hdiscover, horder, Except.mapError, bind, Except.bind]

/-- **Every file is one module**, if no path on the way makes a detour. Two modules never come from one file, and there are
not more of them than files. If all modules load, then all of them are found, and imports that lead back to a file on the
way are reported as a circle. -/
theorem discover_onDisk (tree : FileTree) (roots : List Path) (root : Path) (source : String)
    (hroot : tree.readText root = .ok source)
    (hdirect : ∀ p, Reached (.onDisk tree roots) root source p → p.Direct root.rooted) :
    (∀ modules, discover (.onDisk tree roots) root source = .ok modules →
      (∀ (i j : Nat) (m m' : Module), modules[i]? = some m → modules[j]? = some m' →
        tree.locate m.path = tree.locate m'.path → i = j) ∧ modules.size ≤ tree.filePlaces.length) ∧
    ((∀ p, Reached (.onDisk tree roots) root source p → Loads (.onDisk tree roots) root source p) →
      (∃ modules, discover (.onDisk tree roots) root source = .ok modules ∧
        Faithful (.onDisk tree roots) root source modules ∧ Ordered (.onDisk tree roots) root source modules) ∧
      ∀ p q, Reached (.onDisk tree roots) root source p →
        Relation.TransGen (ImportsPath (.onDisk tree roots) root source) p q → tree.locate p = tree.locate q →
        ∃ names, load (.onDisk tree roots) root = .error (.link (.circular names))) := by
  have hfile : tree.isFile root = true := by rw [FileTree.isFile, hroot]
  -- without detours the place of a file determines the path that leads to it
  have hone : ∀ {p q}, Reached (.onDisk tree roots) root source p → Reached (.onDisk tree roots) root source q →
      tree.locate p = tree.locate q → p = q := by
    intro p q hp hq heq
    obtain ⟨place, -, hplace⟩ := FileTree.place_of_isFile (isFile_of_reached hfile hp)
    exact FileTree.eq_of_locate (hdirect p hp) (hdirect q hq) hplace (heq ▸ hplace)
  refine ⟨fun modules hmodules => ?_, fun hloads => ?_⟩
  · obtain ⟨hreached, hunique⟩ := reached_of_discover hmodules
    have honce : ∀ (i j : Nat) (m m' : Module), modules[i]? = some m → modules[j]? = some m' →
        tree.locate m.path = tree.locate m'.path → i = j := fun i j m m' hm hm' heq =>
      hunique i j m m' hm hm' (hone (hreached i m hm) (hreached j m' hm') heq ▸ Path.same_refl _)
    have hfiles : ∀ p ∈ modules.toList.map (·.path), tree.isFile p = true := by
      intro p hp
      obtain ⟨m, hm, rfl⟩ := List.mem_map.mp hp
      obtain ⟨i, hi⟩ := List.mem_iff_getElem?.mp hm
      exact isFile_of_reached hfile (hreached i m (by simpa using hi))
    -- modules have different places, which are among those of the files
    have hplaces : ((modules.toList.map (·.path)).map tree.locate).Nodup := by
      rw [List.map_map]
      exact nodup_map_of_unique honce
    have hle := FileTree.length_le_filePlaces hfiles hplaces
    rw [List.length_map, Array.length_toList] at hle
    exact ⟨honce, hle⟩
  · obtain ⟨modules, hmodules, hfaithful⟩ := (navigable_onDisk hfile hdirect hloads).discover
    refine ⟨⟨modules, hmodules, hfaithful, hfaithful.ordered⟩, fun p q hp hpq heq => ?_⟩
    -- a file that leads back to itself does so by the same path, and that is a circle of links
    obtain rfl := hone hp (hp.trans hpq.to_reflTransGen) heq
    obtain ⟨names, hnames⟩ := hfaithful.ordered.circular.mpr ⟨_, links_of_imports hp hpq⟩
    have hread : (Sources.onDisk tree roots).read root = .ok source := congrArg (Except.mapError _) hroot
    exact ⟨names, load_of_order_error hread hmodules hnames⟩

/-- A program that imports two modules, which import each other. -/
def circleOnDisk : FileTree :=
  .ofFiles [] [("main.scm", some "(import A \"lib/a.scm\") (import B \"lib/b\")"),
    ("lib/a.scm", some "(import B \"b\")"), ("lib/b.scm", some "(import A \"a.scm\")")]

theorem discover_onDisk_circle : ∃ names,
    load (.onDisk circleOnDisk []) (.ofText "main.scm") = .error (.link (.circular names)) := by
  have hroot : circleOnDisk.readText (.ofText "main.scm") = .ok "(import A \"lib/a.scm\") (import B \"lib/b\")" := by
    decide
  have hclosed : closedUnderImports (.onDisk circleOnDisk []) (.ofText "main.scm")
      "(import A \"lib/a.scm\") (import B \"lib/b\")"
      [.ofText "main.scm", .ofText "lib/a.scm", .ofText "lib/b.scm"] = true := by decide +kernel
  have hdirect : ∀ p ∈ [Path.ofText "main.scm", .ofText "lib/a.scm", .ofText "lib/b.scm"], p.Direct false := by
    decide
  have hmain : ImportsPath (.onDisk circleOnDisk []) (.ofText "main.scm") "(import A \"lib/a.scm\") (import B \"lib/b\")"
      (.ofText "main.scm") (.ofText "lib/a.scm") := by decide +kernel
  have hfirst : ImportsPath (.onDisk circleOnDisk []) (.ofText "main.scm") "(import A \"lib/a.scm\") (import B \"lib/b\")"
      (.ofText "lib/a.scm") (.ofText "lib/b.scm") := by decide +kernel
  have hsecond : ImportsPath (.onDisk circleOnDisk []) (.ofText "main.scm") "(import A \"lib/a.scm\") (import B \"lib/b\")"
      (.ofText "lib/b.scm") (.ofText "lib/a.scm") := by decide +kernel
  have hfound := discover_onDisk circleOnDisk [] (.ofText "main.scm") _ hroot fun p hp =>
    hdirect p (mem_of_reached List.mem_cons_self hclosed hp)
  exact (hfound.2 fun p hp => loads_of_closed List.mem_cons_self hclosed hp).2 _ _ (.tail .refl hmain)
    (.tail (.single hfirst) hsecond) rfl

/-- A program that imports one module twice, once with a dot in front. -/
def detour : FileTree :=
  .ofFiles [] [("main.scm", some "(import A \"lib.scm\") (import B \"./lib.scm\")"), ("lib.scm", some "(display 1)")]

/-- **A detour makes two modules of one file.** -/
theorem discover_onDisk_detour : ∃ modules m m',
    discover (.onDisk detour []) (.ofText "main.scm") "(import A \"lib.scm\") (import B \"./lib.scm\")" = .ok modules ∧
      modules[1]? = some m ∧ modules[2]? = some m' ∧ detour.locate m.path = .ok ["lib.scm"] ∧
      detour.locate m'.path = .ok ["lib.scm"] := by
  have htwice : ((discover (.onDisk detour []) (.ofText "main.scm")
      "(import A \"lib.scm\") (import B \"./lib.scm\")").toOption.map fun modules =>
        [1, 2].map fun i => (modules[i]?).map fun m => (detour.locate m.path).toOption) =
      some [some (some ["lib.scm"]), some (some ["lib.scm"])] := by
    decide +kernel
  obtain ⟨modules, hmodules, hplaces⟩ := Option.map_eq_some_iff.mp htwice
  obtain ⟨hfirst, hrest⟩ := List.cons.inj hplaces
  obtain ⟨m, hm, hplace⟩ := Option.map_eq_some_iff.mp hfirst
  obtain ⟨m', hm', hplace'⟩ := Option.map_eq_some_iff.mp (List.cons.inj hrest).1
  exact ⟨modules, m, m', Except.toOption_eq_some.mp hmodules, hm, hm', Except.toOption_eq_some.mp hplace,
    Except.toOption_eq_some.mp hplace'⟩

end Module

end SchemeMachine
