import ApiManifest.Files.Relative
import ApiManifest.Proofs.Path.Lexical
import ApiManifest.Proofs.Text.Utf8

/-!
The steps of a path and its text. Folding the dots of a path by its text leads to the location to
which its steps would lead if every name were a directory (`names_normalise`), because a segment
moves a folded path as its step moves a location (`map_octets_foldl_step`).
-/

set_option autoImplicit false
set_option relaxedAutoImplicit false

namespace ApiManifest.Files

open ApiManifest.Path

variable {p base : String}

/-- The steps of a path up to a slash at its end. -/
def segmentSteps (p : String) : List Step :=
  (segments p).filterMap fun s ↦ stepOf (Text.octets s)

theorem stepOf_octets (s : String) :
    stepOf (Text.octets s) =
      if s = "" then none
      else if s = "." then some .here
      else if s = ".." then some .up
      else some (.name (Text.octets s)) := by
  have hempty : Text.octets s = Text.octets "" ↔ s = "" := Text.octets_inj
  have hhere : Text.octets s = Text.octets "." ↔ s = "." := Text.octets_inj
  have hup : Text.octets s = Text.octets ".." ↔ s = ".." := Text.octets_inj
  rw [show Text.octets "" = [] from rfl] at hempty
  rw [show Text.octets "." = [46] from rfl] at hhere
  rw [show Text.octets ".." = [46, 46] from rfl] at hup
  simp only [stepOf, hempty, hhere, hup]

theorem stepOf_octets_of_isName {s : String} (hs : IsName s) :
    stepOf (Text.octets s) = some (.name (Text.octets s)) := by
  rw [stepOf_octets, if_neg hs.nonempty, if_neg hs.notHere, if_neg hs.notUp]

theorem segmentSteps_eq (p : String) : segmentSteps p =
    (p.toList.splitOn '/').filterMap fun segment ↦ stepOf (Text.encode segment) := by
  rw [segmentSteps, segments, List.filterMap_map]
  refine List.filterMap_congr fun segment _ ↦ ?_
  rw [Function.comp_apply, Text.octets, String.toList_ofList]

/-- A slash at the end is the only step that no segment asks for. -/
theorem steps_eq_segmentSteps (hp : p.toList.getLast? ≠ some '/') : steps p = segmentSteps p := by
  rw [steps, ← segmentSteps_eq]
  exact if_neg (by simp [hp])

theorem foldl_move_steps (location : Location) (p : String) :
    (steps p).foldl Step.move location = (segmentSteps p).foldl Step.move location := by
  rw [steps, ← segmentSteps_eq]
  split_ifs
  · rw [List.foldl_append]
    rfl
  · rfl

/-! ### Steps of joined paths -/

theorem segmentSteps_join (hp : isAbsolute p = false) :
    segmentSteps (join base p) = segmentSteps base ++ segmentSteps p :=
  filterMap_segments_join rfl hp

/-- The steps of a joined path without a slash at the end. -/
theorem steps_join (hp : HasEnds p) :
    steps (join base p) = segmentSteps base ++ segmentSteps p := by
  obtain ⟨c, hc, hslash⟩ := hp.last
  obtain ⟨before, hjoin⟩ := exists_toList_join base hp.isAbsolute
  rw [steps_eq_segmentSteps, segmentSteps_join hp.isAbsolute]
  rw [hjoin, List.getLast?_append, hc]
  simpa using hslash

/-! ### Steps of made paths -/

theorem segmentSteps_intercalate {parts : List String} (hne : parts ≠ [])
    (hparts : ∀ s ∈ parts, IsSegment s) : segmentSteps ("/".intercalate parts) =
      parts.filterMap fun s ↦ stepOf (Text.octets s) := by
  rw [segmentSteps, segments_intercalate hne hparts]

theorem filterMap_stepOf_names {names : List String} (hnames : ∀ s ∈ names, IsName s) :
    (names.filterMap fun s ↦ stepOf (Text.octets s)) = names.map fun s ↦ .name (Text.octets s) := by
  rw [← List.filterMap_eq_map]
  exact List.filterMap_congr fun s hs ↦ stepOf_octets_of_isName (hnames s hs)

theorem segmentSteps_of_isName {s : String} (hs : IsName s) :
    segmentSteps s = [.name (Text.octets s)] := by
  have hparts : segmentSteps ("/".intercalate [s]) = [s].filterMap fun s ↦ stepOf (Text.octets s) :=
    segmentSteps_intercalate (List.cons_ne_nil _ _) (List.forall_mem_singleton.mpr hs.toIsSegment)
  rw [String.intercalate_singleton] at hparts
  rw [hparts, filterMap_stepOf_names (List.forall_mem_singleton.mpr hs)]
  rfl

/-- The way up by two dots and down by names. -/
def way {α : Type} (up : List α) (down : List String) : String :=
  "/".intercalate (up.map (fun _ ↦ "..") ++ down)

section Way

variable {α : Type} (up : List α) {down : List String} (hne : down ≠ [])
  (hdown : ∀ s ∈ down, IsName s)

include hdown in
theorem isSegment_of_way : ∀ s ∈ up.map (fun _ ↦ "..") ++ down, IsSegment s := by
  intro s hs
  rcases List.mem_append.mp hs with hs | hs
  · obtain ⟨_, -, rfl⟩ := List.mem_map.mp hs
    exact isSegment_up
  · exact (hdown s hs).toIsSegment

include hne hdown

theorem hasEnds_way : HasEnds (way up down) :=
  hasEnds_intercalate (by simp [hne]) (isSegment_of_way up hdown)

theorem segmentSteps_way : segmentSteps (way up down) =
    List.replicate up.length .up ++ down.map fun s ↦ .name (Text.octets s) := by
  rw [way, segmentSteps_intercalate (by simp [hne]) (isSegment_of_way up hdown),
    List.filterMap_append, filterMap_stepOf_names hdown, List.filterMap_map]
  have hup : stepOf (Text.octets "..") = some .up := by decide
  have hups : (fun s ↦ stepOf (Text.octets s)) ∘ (fun _ : α ↦ "..") =
      some ∘ fun _ ↦ Step.up := funext fun _ ↦ by rw [Function.comp_apply, hup, Function.comp_apply]
  rw [hups, List.filterMap_eq_map, List.map_const']

end Way

/-! ### Folded dots -/

/-- A segment moves a folded path as its step moves a location. -/
theorem map_octets_foldl_step (segments names : List String) :
    (segments.foldl step names).map Text.octets =
      (segments.filterMap fun s ↦ stepOf (Text.octets s)).foldl Step.move
        (names.map Text.octets) := by
  induction segments generalizing names with
  | nil => rfl
  | cons s segments ih =>
    rw [List.foldl_cons, ih, List.filterMap_cons, stepOf_octets, step]
    split_ifs <;> simp_all [Step.move]

theorem foldl_move_names (names : List Name) (location : Location) :
    (names.map Step.name).foldl Step.move location = names.reverse ++ location := by
  induction names generalizing location with
  | nil => rfl
  | cons n names ih =>
    rw [List.map_cons, List.foldl_cons, ih, List.reverse_cons, List.append_assoc]
    rfl

variable {d : Disk}

theorem startOf_eq (cwd : Location) (p : String) :
    startOf cwd p = if isAbsolute p then [] else cwd := rfl

theorem isAbsolute_cwdPath (d : Disk) : isAbsolute d.cwdPath = true :=
  (isAbsolute_append (by decide) _).trans rfl

/-- The working directory has the path of its names, if they are names. -/
theorem segmentSteps_cwdPath (hcwd : ∀ n ∈ d.cwd, ∃ s, IsName s ∧ Text.octets s = n) :
    segmentSteps d.cwdPath = d.cwd.reverse.map .name := by
  have hname : ∀ n ∈ d.cwd.reverse, IsName (Text.textLossy n) ∧
      Text.octets (Text.textLossy n) = n := by
    intro n hn
    obtain ⟨s, hs, rfl⟩ := hcwd n (List.mem_reverse.mp hn)
    rw [Text.textLossy_octets]
    exact ⟨hs, rfl⟩
  have hroot : segmentSteps d.cwdPath =
      segmentSteps ("/".intercalate (d.cwd.reverse.map Text.textLossy)) := by
    have hslash : d.cwdPath = "" ++ "/" ++ "/".intercalate (d.cwd.reverse.map Text.textLossy) := by
      rw [Disk.cwdPath, String.empty_append]
    rw [hslash, segmentSteps, segments_append_slash, List.filterMap_append]
    rfl
  rw [hroot]
  generalize d.cwd.reverse = names at hname
  by_cases hne : names = []
  · rw [hne]
    rfl
  · have hparts : ∀ s ∈ names.map Text.textLossy, IsName s :=
      List.forall_mem_map.mpr fun n hn ↦ (hname n hn).1
    rw [segmentSteps_intercalate (by simpa using hne) fun s hs ↦ (hparts s hs).toIsSegment,
      filterMap_stepOf_names hparts, List.map_map]
    exact List.map_congr_left fun n hn ↦ congrArg Step.name (hname n hn).2

/-- Where a path leads by its text alone. -/
theorem names_normalise (hcwd : isAbsolute p = false →
    ∀ n ∈ d.cwd, ∃ s, IsName s ∧ Text.octets s = n) :
    ((normalise (Path.absolute p d.cwdPath)).names.map Text.octets).reverse =
      (segmentSteps p).foldl Step.move (startOf d.cwd p) := by
  rw [normalise, List.map_reverse, List.reverse_reverse, map_octets_foldl_step]
  change (segmentSteps (Path.absolute p d.cwdPath)).foldl Step.move [] = _
  rw [Path.absolute, startOf_eq]
  split_ifs with hp
  · rfl
  · rw [Bool.not_eq_true] at hp
    rw [segmentSteps_join hp, segmentSteps_cwdPath (hcwd hp), List.foldl_append, foldl_move_names,
      List.reverse_reverse, List.append_nil]

end ApiManifest.Files
