import ApiManifest.Proofs.Files.Lexical
import ApiManifest.Proofs.Files.Plain

/-!
Relative paths lead to their files. The path of a file as it is seen from a directory is made of the
texts of two paths alone. In a tree without links it leads to the file all the same, for any working
directory, once it is joined to the path of the directory (`locate_relative`): that directory is
there, so every directory to which its two dots lead is there, and so is every name on the way down.
-/

set_option autoImplicit false
set_option relaxedAutoImplicit false

namespace ApiManifest.Files.Disk

open ApiManifest.Path

variable {d d' : Disk} {p dir file s : String} {location base place : Location} {k : Kind}

theorem locate_eq_some_iff_of_isPlain (ht : d.tree.IsPlain) :
    d.locate p = some location ↔ IsPath p ∧
      stretch d.tree .look (startOf d.cwd p) (steps p) = .ok (.done (.found location)) := by
  rw [locate_eq_some_iff, resolve_eq_ok_iff, walk_eq_ok_iff_of_isPlain ht]

/-- Folding the dots of a path tells where the path leads. -/
theorem lexical_of_locate (ht : d.tree.IsPlain) (h : d.locate p = some location) :
    d.lexical p = location := by
  obtain ⟨-, hstretch⟩ := (locate_eq_some_iff_of_isPlain ht).mp h
  rw [lexical, foldl_of_found hstretch]

/-- Holds of a directory that is opened under a path before what is joined to it. -/
structure Opens (d : Disk) (dir : String) (location : Location) : Prop where
  noNul : '\x00' ∉ dir.toList
  kind : d.tree.kind? location = some .directory
  leads : stretch d.tree .look (startOf d.cwd dir) (segmentSteps dir) =
    .ok (.done (.found location))

theorem Opens.lexical_eq (h : d.Opens dir location) : d.lexical dir = location := by
  rw [Disk.lexical_eq, foldl_of_found h.leads]

/-- A file can be written under a name only if its directory is there. -/
theorem exists_opens_of_write (ht : d.tree.IsPlain) (hs : IsName s) {contents : Octets}
    (h : d.write (join dir s) contents = .ok d') : ∃ location, d.Opens dir location := by
  cases hresolve : resolve d.tree .make d.cwd (join dir s) with
  | error cause => exact absurd h (by simp [write, hresolve])
  | ok r =>
    obtain ⟨hpath, hwalk⟩ := resolve_eq_ok_iff.mp hresolve
    have hends := hs.hasEnds
    rw [walk_eq_ok_iff_of_isPlain ht, steps_join hends, segmentSteps_of_isName hs, startOf_eq,
      isAbsolute_join hends.isAbsolute, ← startOf_eq] at hwalk
    obtain ⟨hkind, hleads⟩ := stretch_before_name hwalk
    refine ⟨_, fun hnul ↦ ?_, hkind, hleads⟩
    have hjoined := (mem_toList_join (by decide) hends.isAbsolute).mpr (.inl hnul)
    exact absurd hpath.noNul (by simpa using hjoined)

/-- A way without the character NUL that is joined to a path without it is a path, if the two are
not too long. -/
theorem isPath_join_way {α : Type} {up : List α} {down : List String} (hne : down ≠ [])
    (hdir : '\x00' ∉ dir.toList) (hdown : ∀ s ∈ down, IsName s ∧ '\x00' ∉ s.toList)
    (hshort : (Text.octets (join dir (way up down))).length ≤ pathLimit) :
    IsPath (join dir (way up down)) := by
  have hends := hasEnds_way up hne fun s hs ↦ (hdown s hs).1
  refine ⟨?_, ?_, hshort⟩
  · have hnul : '\x00' ∉ (join dir (way up down)).toList := by
      rw [mem_toList_join (by decide) hends.isAbsolute, not_or]
      refine ⟨hdir, fun hmem ↦ ?_⟩
      obtain ⟨s, hs, hmem⟩ := (mem_toList_intercalate (by decide)).mp hmem
      rcases List.mem_append.mp hs with hs | hs
      · obtain ⟨_, -, rfl⟩ := List.mem_map.mp hs
        exact absurd hmem (by decide)
      · exact (hdown s hs).2 hmem
    simpa using hnul
  · obtain ⟨before, hjoin⟩ := exists_toList_join dir hends.isAbsolute
    obtain ⟨c, hc, -⟩ := hends.first
    have hway : (way up down).toList ≠ [] := List.ne_nil_of_mem (List.mem_of_head? hc)
    have hjoined : (join dir (way up down)).toList ≠ [] := by simp [hjoin, hway]
    simpa using hjoined

/-- The path of a file as it is seen from a directory, joined to the path of that directory, leads
to the file. -/
theorem locate_relative (ht : d.tree.IsPlain) (hdir : d.Opens dir base)
    (hfile : d.locate file = some place) (hkind : d.tree.kind? place = some .file)
    (hshort : (Text.octets (join dir (d.relative file dir))).length ≤ pathLimit) :
    d.locate (join dir (d.relative file dir)) = some place := by
  obtain ⟨shared, up, down, hdown, hup, hrelative⟩ := exists_between Text.textLossy
    (d.lexical file).reverse (d.lexical dir).reverse
  rw [lexical_of_locate ht hfile, List.reverse_eq_iff, List.reverse_append] at hdown
  rw [hdir.lexical_eq, List.reverse_eq_iff, List.reverse_append] at hup
  generalize shared.reverse = common at hdown hup
  subst hdown hup
  -- The file is no directory, so it has a name that is not on the way to the directory.
  have hne : down ≠ [] := by
    rintro rfl
    have habove := Tree.kind?_directory_of_append hdir.kind
    rw [List.reverse_nil, List.nil_append, habove] at hkind
    exact absurd hkind (by decide)
  have hnames : ∀ n ∈ down, IsName (Text.textLossy n) ∧ '\x00' ∉ (Text.textLossy n).toList ∧
      Text.octets (Text.textLossy n) = n := by
    intro n hn
    obtain ⟨s, hname, hnul, rfl⟩ := (ht.isFilename hkind n
      (List.mem_append_left _ (List.mem_reverse.mpr hn))).text
    rw [Text.textLossy_octets]
    exact ⟨hname, hnul, rfl⟩
  have hway : ∀ s ∈ down.map Text.textLossy, IsName s :=
    List.forall_mem_map.mpr fun n hn ↦ (hnames n hn).1
  have hne' : down.map Text.textLossy ≠ [] := by simpa using hne
  have hends := hasEnds_way up hne' hway
  rw [Disk.relative, hrelative hne, ← way] at hshort ⊢
  refine (locate_eq_some_iff_of_isPlain ht).mpr ⟨isPath_join_way hne' hdir.noNul
    (List.forall_mem_map.mpr fun n hn ↦ ⟨(hnames n hn).1, (hnames n hn).2.1⟩) hshort, ?_⟩
  have hsteps : ((down.map Text.textLossy).map fun s ↦ Step.name (Text.octets s)) =
      down.map Step.name := by
    rw [List.map_map]
    exact List.map_congr_left fun n hn ↦ congrArg Step.name (hnames n hn).2.2
  rw [startOf_eq, isAbsolute_join hends.isAbsolute, ← startOf_eq, steps_join hends,
    segmentSteps_way up hne' hway, hsteps, ← List.length_reverse]
  exact stretch_append hdir.leads (stretch_ups hdir.kind (stretch_names ht hkind))

end ApiManifest.Files.Disk
