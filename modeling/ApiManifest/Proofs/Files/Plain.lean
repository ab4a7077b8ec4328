import ApiManifest.Proofs.Files.Steps
import ApiManifest.Proofs.Files.Write

/-!
Walks in trees without links. They lead where their steps lead by themselves (`foldl_of_found`): a
step can be refused but not diverted. So what two dots take away from a location is a directory, and
the names that lead down to something can be walked (`stretch_ups`, `stretch_names`).
-/

set_option autoImplicit false
set_option relaxedAutoImplicit false

namespace ApiManifest.Files

variable {t : Tree} {aim : Aim} {location mid : Location} {n : Name} {path rest : List Step}

/-- Holds of names under which something can stand in a directory. -/
structure IsFilename (n : Name) : Prop where
  text : ∃ s, Path.IsName s ∧ '\x00' ∉ s.toList ∧ Text.octets s = n
  short : n.length ≤ nameLimit

theorem isFilename_octets {s : String} (h : s ≠ "" ∧ s ≠ "." ∧ s ≠ ".." ∧ '/' ∉ s.toList ∧
    '\x00' ∉ s.toList ∧ (Text.octets s).length ≤ nameLimit) : IsFilename (Text.octets s) := by
  obtain ⟨hnonempty, hhere, hup, hslash, hnul, hshort⟩ := h
  exact ⟨⟨s, ⟨⟨hnonempty, hslash⟩, hhere, hup⟩, hnul, rfl⟩, hshort⟩

/-- Holds of trees without links whose names are file names. -/
structure Tree.IsPlain (t : Tree) : Prop where
  noLink : ∀ location target, t.view? location ≠ some (.link target)
  names : ∀ n location, (t.view? (n :: location)).isSome → IsFilename n

namespace Tree

/-- A file is plain. -/
theorem isPlain_file (contents : Octets) : (file contents).IsPlain := by
  refine ⟨fun location target ↦ ?_, fun n location h ↦ ?_⟩
  · rw [view?_file]
    split_ifs <;> simp
  · rw [view?_file, if_neg (List.cons_ne_nil n location)] at h
    exact absurd h Bool.false_ne_true

/-- A directory is plain if its names are file names and what stands under them is plain. -/
theorem isPlain_directory {entries : List (Name × Tree)}
    (h : ∀ e ∈ entries, IsFilename e.1 ∧ e.2.IsPlain) : (directory entries).IsPlain := by
  have hmem {n : Name} {child : Tree} (hchild : entries.lookup n = some child) :
      (n, child) ∈ entries := by
    obtain ⟨before, after, rfl, -⟩ := List.lookup_eq_some_iff.mp hchild
    exact List.mem_append_right _ List.mem_cons_self
  have hview (location : Location) (n : Name) : (directory entries).view? (location ++ [n]) =
      (entries.lookup n).bind fun child ↦ child.view? location :=
    view?_append_singleton (directory entries) location n
  constructor
  · intro location target
    induction location using List.reverseRecOn with
    | nil => exact fun h ↦ nomatch h
    | append_singleton location n _ =>
      rw [hview]
      cases hchild : entries.lookup n with
      | none => exact fun h ↦ nomatch h
      | some child => exact (h _ (hmem hchild)).2.noLink location target
  · intro n location hsome
    induction location using List.reverseRecOn with
    | nil =>
      rw [← List.nil_append [n], hview] at hsome
      cases hchild : entries.lookup n with
      | none => exact absurd hsome (by simp [hchild])
      | some child => exact (h _ (hmem hchild)).1
    | append_singleton location m _ =>
      rw [← List.cons_append, hview] at hsome
      cases hchild : entries.lookup m with
      | none => exact absurd hsome (by simp [hchild])
      | some child => exact (h _ (hmem hchild)).2.names n location (by simpa [hchild] using hsome)

end Tree

/-! ### Locations -/

/-- Whatever stands above something is a directory. -/
theorem Tree.kind?_of_append {below : Location} (hne : below ≠ []) {k : Kind}
    (h : t.kind? (below ++ location) = some k) : t.kind? location = some .directory := by
  induction below generalizing k with
  | nil => exact absurd rfl hne
  | cons n below ih =>
    have hbelow : t.kind? (below ++ location) = some .directory := Tree.kind?_of_cons h
    by_cases hend : below = []
    · rwa [hend, List.nil_append] at hbelow
    · exact ih hend hbelow

theorem Tree.exists_kind?_of_append {below : Location} {k : Kind}
    (h : t.kind? (below ++ location) = some k) : ∃ k', t.kind? location = some k' := by
  by_cases hend : below = []
  · exact ⟨k, by rwa [hend, List.nil_append] at h⟩
  · exact ⟨_, Tree.kind?_of_append hend h⟩

theorem Tree.kind?_directory_of_append {below : Location}
    (h : t.kind? (below ++ location) = some .directory) :
    t.kind? location = some .directory := by
  by_cases hend : below = []
  · rwa [hend, List.nil_append] at h
  · exact Tree.kind?_of_append hend h

theorem Tree.IsPlain.kind?_ne_link (ht : t.IsPlain) {k : Kind} (hk : t.kind? location = some k)
    (target : String) : k ≠ .link target := by
  rintro rfl
  obtain ⟨v, hv, hkind⟩ := Option.map_eq_some_iff.mp hk
  cases v with
  | link target' => exact ht.noLink _ _ hv
  | file contents => exact absurd hkind (by simp [View.kind])
  | directory names => exact absurd hkind (by simp [View.kind])

/-- The names that lead to something are file names. -/
theorem Tree.IsPlain.isFilename (ht : t.IsPlain) {k : Kind} (hk : t.kind? location = some k) :
    ∀ n ∈ location, IsFilename n := by
  induction location generalizing k with
  | nil => exact fun n hn ↦ absurd hn List.not_mem_nil
  | cons m location ih =>
    refine List.forall_mem_cons.mpr ⟨ht.names m location ?_, ih (Tree.kind?_of_cons hk)⟩
    rw [← Option.isSome_map, show (t.view? (m :: location)).map View.kind = some k from hk]
    rfl

/-! ### Stretches -/

theorem found_of_nil (h : stretch t aim location [] = .ok (.done (.found mid))) : location = mid :=
  Reached.found.inj (Stretch.done.inj (Except.ok.inj h))

theorem foldl_of_found (h : stretch t aim location path = .ok (.done (.found mid))) :
    path.foldl Step.move location = mid := by
  induction path generalizing location with
  | nil => exact found_of_nil h
  | cons step path ih =>
    obtain ⟨-, hstep⟩ := advance_of_stretch h
    rw [List.foldl_cons]
    cases hstep with
    | here h => exact ih h
    | slash h => exact ih h
    | up h => exact ih h
    | enter _ _ _ h => exact ih h

/-- Steps before a name lead to a directory. -/
theorem stretch_before_name {r : Reached}
    (h : stretch t aim location (path ++ .name n :: rest) = .ok (.done r)) :
    t.kind? (path.foldl Step.move location) = some .directory ∧
      stretch t .look location path = .ok (.done (.found (path.foldl Step.move location))) := by
  induction path generalizing location with
  | nil => exact ⟨(advance_of_stretch h).1, rfl⟩
  | cons step path ih =>
    obtain ⟨hdir, hstep⟩ := advance_of_stretch h
    rw [List.foldl_cons]
    cases hstep with
    | here h => exact ⟨(ih h).1, stretch_of_advance hdir (.here (ih h).2)⟩
    | slash h => exact ⟨(ih h).1, stretch_of_advance hdir (.slash (ih h).2)⟩
    | up h => exact ⟨(ih h).1, stretch_of_advance hdir (.up (ih h).2)⟩
    | enter hn hkind hk h =>
      exact ⟨(ih h).1, stretch_of_advance hdir
        (.enter (admits_look hn.short) hkind hk (ih h).2)⟩
    | missing _ _ hend => exact absurd hend (by simp [atEnd])

/-- Steps go on from where those before them have led. -/
theorem stretch_append {s : Stretch}
    (h : stretch t .look location path = .ok (.done (.found mid)))
    (hrest : stretch t .look mid rest = .ok s) :
    stretch t .look location (path ++ rest) = .ok s := by
  induction path generalizing location with
  | nil => rwa [found_of_nil h]
  | cons step path ih =>
    obtain ⟨hdir, hstep⟩ := advance_of_stretch h
    refine stretch_of_advance hdir ?_
    cases hstep with
    | here h => exact .here (ih h)
    | slash h => exact .slash (ih h)
    | up h => exact .up (ih h)
    | enter hn hkind hk h =>
      exact .enter (admits_look hn.short) hkind hk (ih h)

/-- The way up goes through directories. -/
theorem stretch_ups {s : Stretch} {below : Location}
    (hdir : t.kind? (below ++ location) = some .directory)
    (hrest : stretch t .look location rest = .ok s) :
    stretch t .look (below ++ location) (List.replicate below.length .up ++ rest) = .ok s := by
  induction below with
  | nil => exact hrest
  | cons n below ih => exact stretch_of_advance hdir (.up (ih (Tree.kind?_of_cons hdir)))

/-- The names that lead down to something can be walked. -/
theorem stretch_names (ht : t.IsPlain) {names : List Name} {k : Kind}
    (hk : t.kind? (names.reverse ++ location) = some k) :
    stretch t .look location (names.map .name) =
      .ok (.done (.found (names.reverse ++ location))) := by
  induction names generalizing location with
  | nil => rfl
  | cons n names ih =>
    rw [List.reverse_cons, List.append_assoc, List.singleton_append] at hk ⊢
    obtain ⟨k', hk'⟩ := Tree.exists_kind?_of_append hk
    have hn : IsFilename n := ht.isFilename hk' n List.mem_cons_self
    exact stretch_of_advance (Tree.kind?_of_cons hk')
      (.enter (admits_look hn.short) hk' (ht.kind?_ne_link hk') (ih hk))

/-- A stretch that comes to a link shows that there is one. -/
theorem exists_link_of_follow {parent : Location} {target : String}
    (h : stretch t aim location path = .ok (.follow parent target rest)) :
    ∃ place, t.kind? place = some (.link target) := by
  induction path generalizing location with
  | nil => exact absurd h (by simp [stretch])
  | cons step path ih =>
    obtain ⟨-, hstep⟩ := advance_of_stretch h
    cases hstep with
    | here h => exact ih h
    | slash h => exact ih h
    | up h => exact ih h
    | enter _ _ _ h => exact ih h
    | follow _ hkind => exact ⟨_, hkind⟩

/-- Without links a walk is a single stretch. -/
theorem walk_eq_ok_iff_of_isPlain (ht : t.IsPlain) {links : Nat} {r : Reached} :
    walk t aim links location path = .ok r ↔ stretch t aim location path = .ok (.done r) := by
  rw [walk_eq_ok_iff]
  refine or_iff_left ?_
  rintro ⟨fewer, parent, target, rest, -, hfollow, -⟩
  obtain ⟨place, hplace⟩ := exists_link_of_follow hfollow
  exact ht.kind?_ne_link hplace target rfl

end ApiManifest.Files
