import ApiManifest.Proofs.Path.Following

/-!
The way from a directory to a file is the shortest. Whatever segments lead from the one to the
other, some names of the directory stay where they are (`exists_stays`): every name above them was
taken away by two dots, and every name that stands above them in the end was put there. What stays
is no longer than what the two share, so no segments have fewer double dots than the way, and none
have fewer names (`relative_shortest`).
-/

set_option autoImplicit false
set_option relaxedAutoImplicit false

namespace ApiManifest.Path

variable {names walk kept down : List String} {target base cwd s : String}

/-! ### Walks -/

/-- Holds of the segments of which walks are made. -/
inductive IsMove : String → Prop where
  | here : IsMove "."
  | up : IsMove ".."
  | name {s : String} (hs : IsName s) : IsMove s

theorem IsMove.isSegment (hs : IsMove s) : IsSegment s := by
  cases hs with
  | here => exact isSegment_here
  | up => exact isSegment_up
  | name hs => exact hs.toIsSegment

/-- How many names are among some segments. -/
def nameCount (parts : List String) : Nat := parts.countP fun s ↦ decide (IsName s)

theorem nameCount_cons_of_isName (hs : IsName s) (parts : List String) :
    nameCount (s :: parts) = nameCount parts + 1 :=
  List.countP_cons_of_pos (decide_eq_true hs)

theorem nameCount_cons_of_not_isName (hs : ¬ IsName s) (parts : List String) :
    nameCount (s :: parts) = nameCount parts :=
  List.countP_cons_of_neg (by simpa using hs)

/-- Holds of names that stay where they are during a walk from `names`, the last name first: those
above them are taken away by two dots, and those above them in the end come from the walk. -/
structure Stays (names walk kept : List String) : Prop where
  before : kept <:+ names
  after : kept <:+ walk.foldl step names
  ups : names.length ≤ kept.length + walk.count ".."
  downs : (walk.foldl step names).length ≤ kept.length + nameCount walk

namespace Stays

theorem nil (names : List String) : Stays names [] names :=
  ⟨List.suffix_rfl, List.suffix_rfl, Nat.le_add_right _ _, Nat.le_add_right _ _⟩

theorem here (h : Stays names walk kept) : Stays names ("." :: walk) kept where
  before := h.before
  after := h.after
  ups := h.ups
  downs := by
    rw [nameCount_cons_of_not_isName (by decide)]
    exact h.downs

/-- Two dots take one name away at most, and none at the root. -/
theorem up (h : Stays names.tail walk kept) : Stays names (".." :: walk) kept where
  before := h.before.trans (List.tail_suffix names)
  after := h.after
  ups := by
    have hups := h.ups
    rw [List.length_tail] at hups
    rw [List.count_cons_self]
    omega
  downs := by
    rw [nameCount_cons_of_not_isName (by decide)]
    exact h.downs

/-- A name that comes from the walk does not count as one that stays, even if it is never taken
away. -/
theorem name (hs : IsName s) (h : Stays (s :: names) walk kept) :
    ∃ kept', Stays names (s :: walk) kept' := by
  have hfold : (s :: walk).foldl step names = walk.foldl step (s :: names) := by
    rw [List.foldl_cons, step_of_isName hs]
  have hcount : (s :: walk).count ".." = walk.count ".." := List.count_cons_of_ne hs.notUp
  have hups := h.ups
  have hdowns := h.downs
  rw [List.length_cons] at hups
  rcases List.suffix_cons_iff.mp h.before with hwhole | hbelow
  · have hlength : kept.length = names.length + 1 := by rw [hwhole, List.length_cons]
    have hafter : s :: names <:+ walk.foldl step (s :: names) := hwhole ▸ h.after
    refine ⟨names, List.suffix_rfl, ?_, Nat.le_add_right _ _, ?_⟩
    · rw [hfold]
      exact (List.suffix_cons s names).trans hafter
    · rw [hfold, nameCount_cons_of_isName hs]
      omega
  · refine ⟨kept, hbelow, hfold ▸ h.after, ?_, ?_⟩
    · rw [hcount]
      omega
    · rw [hfold, nameCount_cons_of_isName hs]
      omega

end Stays

/-- Some names stay during any walk. -/
theorem exists_stays (hwalk : ∀ s ∈ walk, IsMove s) (names : List String) :
    ∃ kept, Stays names walk kept := by
  induction walk generalizing names with
  | nil => exact ⟨names, .nil names⟩
  | cons s walk ih =>
    obtain ⟨hs, hrest⟩ := List.forall_mem_cons.mp hwalk
    cases hs with
    | here =>
      obtain ⟨kept, hkept⟩ := ih hrest names
      exact ⟨kept, hkept.here⟩
    | up =>
      obtain ⟨kept, hkept⟩ := ih hrest names.tail
      exact ⟨kept, hkept.up⟩
    | name hs =>
      obtain ⟨kept, hkept⟩ := ih hrest (s :: names)
      exact hkept.name hs

/-- A walk that leads from one list of names to another takes away the names that the two do not
share, and puts the others in their place. -/
theorem le_of_foldl_step_eq {shared up down : List String}
    (hlongest : ∀ kept, kept <+: shared ++ down → kept <+: shared ++ up →
      kept.length ≤ shared.length) (hwalk : ∀ s ∈ walk, IsMove s)
    (hleads : walk.foldl step (shared ++ up).reverse = (shared ++ down).reverse) :
    up.length ≤ walk.count ".." ∧ down.length ≤ nameCount walk := by
  obtain ⟨kept, hbefore, hafter, hups, hdowns⟩ := exists_stays hwalk (shared ++ up).reverse
  rw [hleads] at hafter hdowns
  have hshort := hlongest kept.reverse (List.reverse_suffix.mp (by rwa [List.reverse_reverse]))
    (List.reverse_suffix.mp (by rwa [List.reverse_reverse]))
  rw [List.length_reverse] at hshort
  rw [List.length_reverse, List.length_append] at hups hdowns
  omega

/-! ### The way -/

theorem isMove_of_mem_waySegments (ups : Nat) (hdown : ∀ s ∈ down, IsName s) :
    ∀ s ∈ waySegments ups down, IsMove s := by
  rw [waySegments]
  split_ifs with hhere
  · exact List.forall_mem_singleton.mpr .here
  · refine List.forall_mem_append.mpr ⟨fun s hs ↦ ?_, fun s hs ↦ .name (hdown s hs)⟩
    rw [List.eq_of_mem_replicate hs]
    exact .up

theorem count_waySegments (ups : Nat) (hdown : ∀ s ∈ down, IsName s) :
    (waySegments ups down).count ".." = ups ∧ nameCount (waySegments ups down) = down.length := by
  rw [waySegments]
  split_ifs with hhere
  · rw [hhere.1, hhere.2]
    exact ⟨by decide, by decide⟩
  · have hups : down.count ".." = 0 := List.count_eq_zero.mpr fun hmem ↦ (hdown _ hmem).notUp rfl
    have hnames : nameCount down = down.length :=
      List.countP_eq_length.mpr fun s hs ↦ decide_eq_true (hdown s hs)
    have hdots : nameCount (List.replicate ups "..") = 0 := by
      refine List.countP_eq_zero.mpr fun s hs ↦ ?_
      rw [List.eq_of_mem_replicate hs]
      decide
    rw [nameCount] at hnames hdots ⊢
    rw [List.count_append, List.count_replicate_self, hups, List.countP_append, hdots, hnames]
    omega

/-- The way is a dot alone exactly when it leads nowhere else. -/
theorem waySegments_eq_here_iff {ups : Nat} (hdown : ∀ s ∈ down, IsName s) :
    waySegments ups down = ["."] ↔ ups = 0 ∧ down = [] := by
  constructor
  · intro h
    by_contra hhere
    rw [waySegments, if_neg hhere] at h
    have hmem : "." ∈ List.replicate ups ".." ++ down := by rw [h]; exact List.mem_singleton_self _
    rcases List.mem_append.mp hmem with hdots | hname
    · exact absurd (List.eq_of_mem_replicate hdots) (by decide)
    · exact (hdown _ hname).notHere rfl
  · exact fun h ↦ if_pos h

/-- The way from a directory to a file is a dot when the two fold to the same path and only then,
and else two dots some number of times and then names. It leads to the file, and whatever segments
lead there have at least as many double dots and at least as many names. -/
theorem relative_shortest {cwd : String} (hcwd : isAbsolute cwd = true) (target base : String) :
    (relative target base cwd = "." ↔
      normalise (absolute target cwd) = normalise (absolute base cwd)) ∧
    (relative target base cwd ≠ "." → ∃ ups down, (∀ s ∈ down, IsName s) ∧
      segments (relative target base cwd) = List.replicate ups ".." ++ down) ∧
    (∀ s ∈ segments (relative target base cwd), IsMove s) ∧
    Leads (segments (relative target base cwd)) base target cwd ∧
    ∀ walk, (∀ s ∈ walk, IsMove s) → Leads walk base target cwd →
      (segments (relative target base cwd)).count ".." ≤ walk.count ".." ∧
      nameCount (segments (relative target base cwd)) ≤ nameCount walk := by
  obtain ⟨shared, up, down, htarget, hbase, hlongest, hdown, hrelative⟩ :=
    exists_way target base hcwd
  have hsegments := segments_relative hdown hrelative
  have hhere : relative target base cwd = "." ↔ up.length = 0 ∧ down = [] := by
    rw [← waySegments_eq_here_iff hdown, ← hsegments]
    constructor
    · intro h
      rw [h]
      rfl
    · intro h
      rw [hrelative, ← hsegments, h, String.intercalate_singleton]
  refine ⟨?same, fun hne ↦ ?form, ?moves, ?leads, fun walk hwalk hleads ↦ ?shortest⟩
  case same =>
    have habsolute : (normalise (absolute target cwd)).absolute =
        (normalise (absolute base cwd)).absolute :=
      (isAbsolute_absolute hcwd target).trans (isAbsolute_absolute hcwd base).symm
    rw [hhere, Normal.mk.injEq, and_iff_right habsolute, htarget, hbase, List.append_cancel_left_eq,
      List.length_eq_zero_iff]
    constructor
    · rintro ⟨rfl, rfl⟩
      rfl
    · rintro rfl
      -- What two equal lists share is all of them.
      have hwhole := hlongest _ List.prefix_rfl List.prefix_rfl
      rw [List.length_append] at hwhole
      have hnone : down = [] := List.length_eq_zero_iff.mp (by omega)
      exact ⟨hnone, hnone⟩
  case form =>
    rw [hsegments, waySegments, if_neg (mt hhere.mpr hne)]
    exact ⟨up.length, down, hdown, rfl⟩
  case moves =>
    rw [hsegments]
    exact isMove_of_mem_waySegments _ hdown
  case leads =>
    rw [hsegments]
    exact leads_waySegments hcwd htarget hbase hdown
  case shortest =>
    rw [leads_iff hcwd fun s hs ↦ (hwalk s hs).isSegment, hbase, htarget] at hleads
    rw [hsegments, (count_waySegments _ hdown).1, (count_waySegments _ hdown).2]
    exact le_of_foldl_step_eq hlongest hwalk hleads

/-- A walk above the root and back is longer than the way. -/
theorem relative_shortest_clamped :
    (isAbsolute "/w" = true ∧
      (∀ s ∈ ["..", "..", "..", ".", "a", "c", "..", "b"], IsMove s) ∧
      Leads ["..", "..", "..", ".", "a", "c", "..", "b"] "x//y/.." "../a/./b" "/w") ∧
    relative "../a/./b" "x//y/.." "/w" = "../../a/b" ∧
    (["..", "..", "a", "b"].count ".." ≤ ["..", "..", "..", ".", "a", "c", "..", "b"].count ".." ∧
      nameCount ["..", "..", "a", "b"] ≤ nameCount ["..", "..", "..", ".", "a", "c", "..", "b"]) ∧
    relative "x" "./x/y/.." "/w" = "." ∧
      normalise (absolute "x" "/w") = normalise (absolute "./x/y/.." "/w") := by
  have hcwd : isAbsolute "/w" = true := by decide
  have hmoves : ∀ s ∈ ["..", "..", "..", ".", "a", "c", "..", "b"], IsMove s := by
    simp only [List.forall_mem_cons]
    exact ⟨.up, .up, .up, .here, .name (by decide), .name (by decide), .up, .name (by decide),
      List.forall_mem_nil _⟩
  have hleads : Leads ["..", "..", "..", ".", "a", "c", "..", "b"] "x//y/.." "../a/./b" "/w" := by
    rfl
  have hrelative : relative "../a/./b" "x//y/.." "/w" = "../../a/b" := by rfl
  have hsegments : segments (relative "../a/./b" "x//y/.." "/w") = ["..", "..", "a", "b"] := by rfl
  have hshort := (relative_shortest hcwd "../a/./b" "x//y/..").2.2.2.2 _ hmoves hleads
  rw [hsegments] at hshort
  have hhere : relative "x" "./x/y/.." "/w" = "." := by rfl
  exact ⟨⟨hcwd, hmoves, hleads⟩, hrelative, hshort, hhere,
    (relative_shortest hcwd "x" "./x/y/..").1.mp hhere⟩

end ApiManifest.Path
