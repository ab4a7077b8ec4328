import ApiManifest.Proofs.Files.Steps

/-!
Paths of files by their texts. A name that is joined to a path is the last one of the location to
which the path leads (`lexical_join_of_isName`). The way from a directory at a file or below it only
goes up (`relative_of_isWithin`), and any other ends in the name of the file. Where every name of
the working directory is text, the way is that of the texts alone (`relative_eq_relative`).
-/

set_option autoImplicit false
set_option relaxedAutoImplicit false

namespace ApiManifest.Files.Disk

open ApiManifest.Path

variable {d d' : Disk} {p base target s : String}

/-! ### Locations -/

theorem lexical_eq (d : Disk) (p : String) :
    d.lexical p = (segmentSteps p).foldl Step.move (startOf d.cwd p) :=
  foldl_move_steps _ p

/-- A name that is joined to a path is the last one. -/
theorem lexical_join_of_isName (hs : IsName s) (d : Disk) (base : String) :
    d.lexical (join base s) = Text.octets s :: d.lexical base := by
  have hrelative : isAbsolute s = false := hs.hasEnds.isAbsolute
  rw [lexical_eq, segmentSteps_join hrelative, segmentSteps_of_isName hs, List.foldl_append,
    startOf_eq, isAbsolute_join hrelative, ← startOf_eq, ← lexical_eq]
  rfl

/-- A name to which steps lead was there from the start or is one of them. -/
theorem mem_of_mem_foldl_move {n : Name} {path : List Step} {location : Location}
    (h : n ∈ path.foldl Step.move location) : .name n ∈ path ∨ n ∈ location := by
  induction path generalizing location with
  | nil => exact .inr h
  | cons step path ih =>
    rcases ih h with hpath | hlocation
    · exact .inl (List.mem_cons_of_mem _ hpath)
    · cases step with
      | name m =>
        rcases List.mem_cons.mp hlocation with rfl | hmem
        · exact .inl List.mem_cons_self
        · exact .inr hmem
      | up => exact .inr (List.mem_of_mem_tail hlocation)
      | here => exact .inr hlocation
      | slash => exact .inr hlocation

/-- A name of the location to which a path leads is one of its segments, or one of the working
directory. -/
theorem mem_of_mem_lexical {n : Name} (h : n ∈ d.lexical p) :
    (∃ s ∈ segments p, Text.octets s = n) ∨ n ∈ d.cwd := by
  rw [lexical_eq] at h
  rcases mem_of_mem_foldl_move h with hstep | hstart
  · obtain ⟨s, hs, hname⟩ := List.mem_filterMap.mp hstep
    rw [stepOf_octets] at hname
    split_ifs at hname
    · exact nomatch Option.some.inj hname
    · exact nomatch Option.some.inj hname
    · exact .inl ⟨s, hs, Step.name.inj (Option.some.inj hname)⟩
  · rw [startOf_eq] at hstart
    split_ifs at hstart
    · exact absurd hstart List.not_mem_nil
    · exact .inr hstart

/-! ### Ways -/

/-- Holds of a path that leads, by the texts alone, to what another one leads to or below it. -/
def IsWithin (d : Disk) (p q : String) : Prop := d.lexical q <:+ d.lexical p

instance (d : Disk) (p q : String) : Decidable (d.IsWithin p q) :=
  inferInstanceAs (Decidable (_ <:+ _))

/-- The way from a directory at a file or below it only goes up. -/
theorem relative_of_isWithin (h : d.IsWithin base target) : d.relative target base = "." ∨
    ∃ n, d.relative target base = "/".intercalate (List.replicate n ".." ++ [".."]) :=
  between_of_prefix (List.reverse_prefix.mpr h)

/-- A directory does not stand at one of its own files or below it. -/
theorem not_isWithin_join (hs : IsName s) (hsame : d.lexical target = d.lexical base) :
    ¬ d.IsWithin target (join base s) := by
  intro hwithin
  have hlength := hwithin.length_le
  rw [lexical_join_of_isName hs, hsame, List.length_cons] at hlength
  omega

/-- A character of a way that is neither a slash nor a dot comes from the file or from the working
directory. -/
theorem mem_of_mem_relative {c : Char} (hslash : c ≠ '/') (hdot : c ≠ '.')
    (h : c ∈ (d.relative target base).toList) : c ∈ target.toList ∨ c ∈ d.cwdPath.toList := by
  obtain ⟨n, hn, hmem⟩ := mem_of_mem_between hslash hdot h
  rcases mem_of_mem_lexical (List.mem_reverse.mp hn) with ⟨s, hs, rfl⟩ | hcwd
  · rw [Text.textLossy_octets] at hmem
    exact .inl (mem_of_mem_segments hslash hs hmem)
  · refine .inr ?_
    rw [cwdPath, String.toList_append, List.mem_append,
      mem_toList_intercalate (by simpa using hslash)]
    exact .inr ⟨_, List.mem_map_of_mem (List.mem_reverse.mpr hcwd), hmem⟩

/-- Where every name of the working directory is text, a way is told by texts alone. -/
theorem relative_eq_relative (hcwd : ∀ n ∈ d.cwd, ∃ s, IsName s ∧ Text.octets s = n)
    (target base : String) : d.relative target base = Path.relative target base d.cwdPath := by
  have hnames (p : String) : (d.lexical p).reverse =
      (normalise (Path.absolute p d.cwdPath)).names.map Text.octets := by
    rw [lexical_eq, ← names_normalise fun _ ↦ hcwd, List.reverse_reverse]
  have hshown : Text.textLossy ∘ Text.octets = id := funext Text.textLossy_octets
  rw [relative, hnames, hnames, between_map fun _ _ ↦ Text.octets_inj.mp, hshown,
    relative_eq_between target base (isAbsolute_cwdPath d)]

end ApiManifest.Files.Disk
