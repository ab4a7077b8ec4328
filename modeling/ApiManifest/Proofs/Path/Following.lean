import ApiManifest.Proofs.Path.Lexical

/-!
Following the way from a directory to a file. Its segments are two dots for each name of the folded
directory that the folded file does not share, and then the names that are left of the file; a dot
stands alone where nothing is left of either (`exists_way`). The two dots lead back to what the two
share and the names lead on to the file, so that the way, joined to its directory, folds to the file
(`normalise_join_relative`).
-/

set_option autoImplicit false
set_option relaxedAutoImplicit false

namespace ApiManifest.Path

variable {names parts down : List String} {target base cwd : String}

/-! ### Names of folded paths -/

theorem not_mem_of_mem_splitOn {c : Char} {cs : List Char} :
    ∀ segment ∈ cs.splitOn c, c ∉ segment := by
  induction cs with
  | nil => simp
  | cons c' cs ih =>
    rw [List.splitOn_cons_eq_if_modifyHead]
    split_ifs with hsplits
    · exact List.forall_mem_cons.mpr ⟨List.not_mem_nil, ih⟩
    · cases hrest : cs.splitOn c with
      | nil => exact absurd hrest (List.splitOn_ne_nil _ _)
      | cons first rest =>
        rw [hrest, List.forall_mem_cons] at ih
        rw [List.modifyHead_cons, List.forall_mem_cons, List.mem_cons, not_or]
        exact ⟨⟨fun h ↦ hsplits (beq_iff_eq.mpr h.symm), ih.1⟩, ih.2⟩

/-- No slash stands in a segment of a path. -/
theorem noSlash_of_mem_segments {p s : String} (hs : s ∈ segments p) : '/' ∉ s.toList := by
  obtain ⟨segment, hsegment, rfl⟩ := List.mem_map.mp hs
  rw [String.toList_ofList]
  exact not_mem_of_mem_splitOn segment hsegment

theorem isName_of_mem_step (hnames : ∀ t ∈ names, IsName t) {s : String} (hs : '/' ∉ s.toList) :
    ∀ t ∈ step names s, IsName t := by
  rw [step]
  split_ifs with hnothing hup
  · exact hnames
  · exact fun t ht ↦ hnames t (List.mem_of_mem_tail ht)
  · rw [not_or] at hnothing
    exact List.forall_mem_cons.mpr ⟨⟨⟨hnothing.1, hs⟩, hnothing.2, hup⟩, hnames⟩

theorem isName_of_mem_foldl_step (hparts : ∀ s ∈ parts, '/' ∉ s.toList)
    (hnames : ∀ t ∈ names, IsName t) : ∀ t ∈ parts.foldl step names, IsName t := by
  induction parts generalizing names with
  | nil => exact hnames
  | cons s parts ih =>
    obtain ⟨hs, hparts⟩ := List.forall_mem_cons.mp hparts
    exact ih hparts (isName_of_mem_step hnames hs)

/-- A folded path is made of names. -/
theorem isName_of_mem_normalise (p : String) : ∀ s ∈ (normalise p).names, IsName s := fun s hs ↦
  isName_of_mem_foldl_step (fun _ ↦ noSlash_of_mem_segments) (List.forall_mem_nil _) s
    (List.mem_reverse.mp hs)

/-! ### Segments in a row -/

theorem step_up (names : List String) : step names ".." = names.tail := rfl

theorem foldl_step_replicate_up (n : Nat) (names : List String) :
    (List.replicate n "..").foldl step names = names.drop n := by
  induction n generalizing names with
  | zero => rfl
  | succ n ih =>
    rw [List.replicate_succ, List.foldl_cons, ih, step_up, List.drop_tail]

theorem foldl_step_names (hdown : ∀ s ∈ down, IsName s) (names : List String) :
    down.foldl step names = down.reverse ++ names := by
  induction down generalizing names with
  | nil => rfl
  | cons s down ih =>
    obtain ⟨hs, hdown⟩ := List.forall_mem_cons.mp hdown
    rw [List.foldl_cons, ih hdown, step_of_isName hs, List.reverse_cons, List.append_assoc]
    rfl

theorem isAbsolute_intercalate (hparts : ∀ s ∈ parts, IsSegment s) :
    isAbsolute ("/".intercalate parts) = false := by
  by_cases hne : parts = []
  · rw [hne]
    rfl
  · exact (hasEnds_intercalate hne hparts).isAbsolute

theorem foldl_step_intercalate (hparts : ∀ s ∈ parts, IsSegment s) (names : List String) :
    (segments ("/".intercalate parts)).foldl step names = parts.foldl step names := by
  by_cases hne : parts = []
  · rw [hne]
    rfl
  · rw [segments_intercalate hne hparts]

/-- Holds of segments that lead from a directory to where a path leads, by the texts alone. -/
def Leads (parts : List String) (base target cwd : String) : Prop :=
  normalise (join (absolute base cwd) ("/".intercalate parts)) = normalise (absolute target cwd)

instance (parts : List String) (base target cwd : String) :
    Decidable (Leads parts base target cwd) :=
  inferInstanceAs (Decidable (_ = _))

/-- Segments lead to a path if they take the names of the one to those of the other. -/
theorem leads_iff (hcwd : isAbsolute cwd = true) (hparts : ∀ s ∈ parts, IsSegment s) :
    Leads parts base target cwd ↔ parts.foldl step (normalise (absolute base cwd)).names.reverse =
      (normalise (absolute target cwd)).names.reverse := by
  have hrelative := isAbsolute_intercalate hparts
  have hnames : (normalise (join (absolute base cwd) ("/".intercalate parts))).names =
      (parts.foldl step (normalise (absolute base cwd)).names.reverse).reverse := by
    rw [normalise, normalise, foldl_step_join hrelative, foldl_step_intercalate hparts,
      List.reverse_reverse]
  have habsolute : (normalise (join (absolute base cwd) ("/".intercalate parts))).absolute =
      (normalise (absolute target cwd)).absolute :=
    (isAbsolute_join hrelative).trans
      ((isAbsolute_absolute hcwd base).trans (isAbsolute_absolute hcwd target).symm)
  rw [Leads, Normal.mk.injEq, and_iff_right habsolute, hnames, List.reverse_eq_iff]

/-! ### The way -/

/-- The segments of the way up by two dots and down by names. -/
def waySegments (ups : Nat) (down : List String) : List String :=
  if ups = 0 ∧ down = [] then ["."] else List.replicate ups ".." ++ down

theorem foldl_step_waySegments (ups : Nat) (down names : List String) :
    (waySegments ups down).foldl step names = down.foldl step (names.drop ups) := by
  rw [waySegments]
  split_ifs with hhere
  · obtain ⟨rfl, rfl⟩ := hhere
    rfl
  · rw [List.foldl_append, foldl_step_replicate_up]

theorem waySegments_ne_nil (ups : Nat) (down : List String) : waySegments ups down ≠ [] := by
  rw [waySegments]
  split_ifs with hhere
  · exact List.cons_ne_nil _ _
  · rw [Ne, List.append_eq_nil_iff, List.replicate_eq_nil_iff]
    exact hhere

theorem isSegment_of_mem_waySegments (ups : Nat) (hdown : ∀ s ∈ down, IsName s) :
    ∀ s ∈ waySegments ups down, IsSegment s := by
  rw [waySegments]
  split_ifs with hhere
  · exact List.forall_mem_singleton.mpr isSegment_here
  · refine List.forall_mem_append.mpr ⟨fun s hs ↦ ?_, fun s hs ↦ (hdown s hs).toIsSegment⟩
    rw [List.eq_of_mem_replicate hs]
    exact isSegment_up

/-- What two lists share at the start is the longest part with which both start. -/
theorem length_add_length_afterShared_le {as bs kept : List String} (has : kept <+: as)
    (hbs : kept <+: bs) : kept.length + (afterShared as bs).1.length ≤ as.length ∧
      kept.length + (afterShared as bs).2.length ≤ bs.length := by
  induction as generalizing bs kept with
  | nil =>
    obtain rfl := List.prefix_nil.mp has
    simp [afterShared]
  | cons a as ih =>
    cases bs with
    | nil =>
      obtain rfl := List.prefix_nil.mp hbs
      simp [afterShared]
    | cons b bs =>
      rw [afterShared]
      cases kept with
      | nil =>
        split_ifs with hsame
        · obtain ⟨hdown, hup⟩ := ih (List.nil_prefix (l := as)) (List.nil_prefix (l := bs))
          simp only [List.length_nil, List.length_cons] at hdown hup ⊢
          omega
        · simp
      | cons c kept =>
        obtain ⟨hca, has⟩ := List.cons_prefix_cons.mp has
        obtain ⟨hcb, hbs⟩ := List.cons_prefix_cons.mp hbs
        rw [if_pos (hca.symm.trans hcb)]
        obtain ⟨hdown, hup⟩ := ih has hbs
        simp only [List.length_cons]
        omega

/-- The way from a directory to a file is told by what the two do not share at the start. -/
theorem relative_eq_way (hcwd : isAbsolute cwd = true) (target base : String) :
    relative target base cwd = "/".intercalate (waySegments
      (afterShared (normalise (absolute target cwd)).names
        (normalise (absolute base cwd)).names).2.length
      (afterShared (normalise (absolute target cwd)).names
        (normalise (absolute base cwd)).names).1) := by
  obtain ⟨down, up, hparts, hrelative⟩ := relative_eq_parts target base hcwd
  rw [hparts, hrelative, waySegments, List.map_const']
  simp only [List.append_eq_nil_iff, List.replicate_eq_nil_iff]
  split_ifs
  · rfl
  · rfl

/-- The way from a directory to a file goes up to what the two share at the start, which is the
longest part with which both start, and down to the file. -/
theorem exists_way (target base : String) (hcwd : isAbsolute cwd = true) : ∃ shared up down,
    (normalise (absolute target cwd)).names = shared ++ down ∧
    (normalise (absolute base cwd)).names = shared ++ up ∧
    (∀ kept, kept <+: shared ++ down → kept <+: shared ++ up → kept.length ≤ shared.length) ∧
    (∀ s ∈ down, IsName s) ∧
    relative target base cwd = "/".intercalate (waySegments up.length down) := by
  obtain ⟨shared, htarget, hbase⟩ := exists_shared (normalise (absolute target cwd)).names
    (normalise (absolute base cwd)).names
  refine ⟨shared, _, _, htarget, hbase, fun kept hdown hup ↦ ?_, fun s hs ↦ ?_,
    relative_eq_way hcwd target base⟩
  · rw [← htarget] at hdown
    rw [← hbase] at hup
    have hlength := (length_add_length_afterShared_le hdown hup).1
    have hwhole := congrArg List.length htarget
    rw [List.length_append] at hwhole
    omega
  · refine isName_of_mem_normalise (absolute target cwd) s ?_
    rw [htarget]
    exact List.mem_append_right shared hs

theorem segments_relative {ups : Nat} (hdown : ∀ s ∈ down, IsName s)
    (hrelative : relative target base cwd = "/".intercalate (waySegments ups down)) :
    segments (relative target base cwd) = waySegments ups down := by
  rw [hrelative, segments_intercalate (waySegments_ne_nil _ _)
    (isSegment_of_mem_waySegments _ hdown)]

theorem leads_waySegments (hcwd : isAbsolute cwd = true) {shared up : List String}
    (htarget : (normalise (absolute target cwd)).names = shared ++ down)
    (hbase : (normalise (absolute base cwd)).names = shared ++ up)
    (hdown : ∀ s ∈ down, IsName s) : Leads (waySegments up.length down) base target cwd := by
  have hback : (up.reverse ++ shared.reverse).drop up.length = shared.reverse :=
    List.drop_left' List.length_reverse
  rw [leads_iff hcwd (isSegment_of_mem_waySegments _ hdown), foldl_step_waySegments, hbase, htarget,
    List.reverse_append, hback, foldl_step_names hdown, List.reverse_append]

/-- The way from a directory to a file starts with no slash and is not empty, and joined to the
directory it leads to the file, by the texts alone. -/
theorem normalise_join_relative {cwd : String} (hcwd : isAbsolute cwd = true)
    (target base : String) :
    isAbsolute (relative target base cwd) = false ∧ relative target base cwd ≠ "" ∧
      normalise (join (absolute base cwd) (relative target base cwd)) =
        normalise (absolute target cwd) := by
  obtain ⟨shared, up, down, htarget, hbase, -, hdown, hrelative⟩ := exists_way target base hcwd
  have hends : HasEnds (relative target base cwd) := by
    rw [hrelative]
    exact hasEnds_intercalate (waySegments_ne_nil _ _) (isSegment_of_mem_waySegments _ hdown)
  refine ⟨hends.isAbsolute, ?nonempty, ?leads⟩
  case nonempty =>
    obtain ⟨c, hc, -⟩ := hends.first
    rintro hempty
    rw [hempty] at hc
    exact nomatch hc
  case leads =>
    rw [hrelative]
    exact leads_waySegments hcwd htarget hbase hdown

/-- Two dots at the root lead nowhere, and repeated slashes say nothing. -/
theorem normalise_join_relative_clamped :
    isAbsolute "/w/v" = true ∧
    (isAbsolute (relative "../../../a//b/." "x/./y/../z/" "/w/v") = false ∧
      relative "../../../a//b/." "x/./y/../z/" "/w/v" ≠ "" ∧
      normalise (join (absolute "x/./y/../z/" "/w/v")
        (relative "../../../a//b/." "x/./y/../z/" "/w/v")) =
          normalise (absolute "../../../a//b/." "/w/v")) ∧
    relative "../../../a//b/." "x/./y/../z/" "/w/v" = "../../../../a/b" := by
  have hcwd : isAbsolute "/w/v" = true := by decide
  exact ⟨hcwd, normalise_join_relative hcwd "../../../a//b/." "x/./y/../z/", by rfl⟩

end ApiManifest.Path
