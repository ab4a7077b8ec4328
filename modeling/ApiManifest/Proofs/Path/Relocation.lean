import ApiManifest.Proofs.Path.Shortest

/-!
Moving the working directory. A relative path leads from where it starts some names up and then
down, and how far up is told by its segments alone (`climb`, `foldl_step_eq_append`). Two relative
paths that lead equally far up leave the same part of the working directory in front of what they
have of their own, and that part falls away between them. So the way from the one to the other is
the same wherever the two are seen from, and it is so for no other relative paths
(`relative_relocated`).
-/

set_option autoImplicit false
set_option relaxedAutoImplicit false

namespace ApiManifest.Path

variable {parts names down up : List String} {target base cwd p : String}

/-! ### How far up segments lead -/

/-- How many names above their start some segments lead. -/
def climb : List String → Nat
  | [] => 0
  | s :: rest =>
    if s = "" ∨ s = "." then climb rest
    else if s = ".." then climb rest + 1
    else climb rest - 1

/-- Holds of segments that lead nowhere above where they start: read from the left, there are at no
point more double dots than names. -/
def NeverClimbs (parts : List String) : Prop :=
  ∀ front, front <+: parts → front.count ".." ≤ nameCount front

/-- Segments have their own names in the end, and below them what they leave of the names at which
they start. -/
theorem foldl_step_eq_append (parts names : List String) :
    parts.foldl step names = parts.foldl step [] ++ names.drop (climb parts) := by
  induction parts generalizing names with
  | nil => rfl
  | cons s rest ih =>
    rw [List.foldl_cons, List.foldl_cons, climb]
    by_cases hnothing : s = "" ∨ s = "."
    · have hstep : ∀ names, step names s = names := fun names ↦ if_pos hnothing
      rw [hstep, hstep, if_pos hnothing]
      exact ih names
    · by_cases hup : s = ".."
      · rw [if_neg hnothing, if_pos hup, hup, step_up, step_up, ih, List.drop_tail]
        rfl
      · have hstep : ∀ names, step names s = s :: names := by
          intro names
          rw [step, if_neg hnothing, if_neg hup]
        rw [if_neg hnothing, if_neg hup, hstep, hstep, ih, ih [s], List.append_assoc]
        cases climb rest with
        | zero => rfl
        | succ n => simp

/-- Segments lead no more than some names up when at no point more double dots than these names and
their own have been read. -/
theorem climb_le_iff (hparts : ∀ s ∈ parts, '/' ∉ s.toList) (n : Nat) :
    climb parts ≤ n ↔ ∀ front, front <+: parts → front.count ".." ≤ n + nameCount front := by
  induction parts generalizing n with
  | nil => simp [climb]
  | cons s rest ih =>
    obtain ⟨hs, hrest⟩ := List.forall_mem_cons.mp hparts
    have hfronts {P : List String → Prop} (hnil : P []) :
        (∀ front, front <+: s :: rest → P front) ↔ ∀ front, front <+: rest → P (s :: front) := by
      constructor
      · exact fun h front hfront ↦ h _ ((List.prefix_cons_inj s).mpr hfront)
      · intro h front hfront
        rcases List.prefix_cons_iff.mp hfront with rfl | ⟨front, rfl, hrest⟩
        · exact hnil
        · exact h front hrest
    rw [hfronts (Nat.zero_le _), climb]
    by_cases hnothing : s = "" ∨ s = "."
    · have hname : ¬ IsName s := fun h ↦ hnothing.elim h.nonempty h.notHere
      have hup : s ≠ ".." := by rcases hnothing with rfl | rfl <;> decide
      rw [if_pos hnothing, ih hrest]
      refine forall₂_congr fun front _ ↦ ?_
      rw [List.count_cons_of_ne hup, nameCount_cons_of_not_isName hname]
    · by_cases hup : s = ".."
      · have hname : ¬ IsName s := fun h ↦ h.notUp hup
        rw [if_neg hnothing, if_pos hup]
        cases n with
        | zero =>
          refine iff_of_false (Nat.not_succ_le_zero _) fun h ↦ ?_
          have hfirst := h [] List.nil_prefix
          rw [hup] at hfirst
          exact absurd hfirst (by decide)
        | succ n =>
          rw [Nat.add_le_add_iff_right, ih hrest]
          refine forall₂_congr fun front _ ↦ ?_
          rw [nameCount_cons_of_not_isName hname, hup, List.count_cons_self]
          omega
      · have hname : IsName s :=
          ⟨⟨(not_or.mp hnothing).1, hs⟩, (not_or.mp hnothing).2, hup⟩
        rw [if_neg hnothing, if_neg hup, Nat.sub_le_iff_le_add, ih hrest]
        refine forall₂_congr fun front _ ↦ ?_
        rw [List.count_cons_of_ne hup, nameCount_cons_of_isName hname]
        omega

theorem neverClimbs_iff (p : String) : NeverClimbs (segments p) ↔ climb (segments p) = 0 := by
  rw [← Nat.le_zero, climb_le_iff fun s ↦ noSlash_of_mem_segments, NeverClimbs]
  simp only [Nat.zero_add]

/-! ### Names seen from a working directory -/

/-- A relative path has its own names, below what it leaves of the working directory. -/
theorem names_absolute (hp : isAbsolute p = false) (cwd : String) :
    (normalise (absolute p cwd)).names =
      (normalise cwd).names.take ((normalise cwd).names.length - climb (segments p)) ++
        (normalise p).names := by
  rw [absolute, if_neg (by simp [hp]), normalise, foldl_step_join hp, foldl_step_eq_append,
    List.reverse_append, List.reverse_drop]
  have hlength : ((segments cwd).foldl step []).length = (normalise cwd).names.length :=
    List.length_reverse.symm
  rw [hlength]
  rfl

theorem afterShared_append (shared as bs : List String) :
    afterShared (shared ++ as) (shared ++ bs) = afterShared as bs := by
  induction shared with
  | nil => rfl
  | cons name shared ih => rw [List.cons_append, List.cons_append, afterShared, if_pos rfl, ih]

/-- Paths that lead equally far up are as far from each other wherever they are seen from. -/
theorem relative_of_climb_eq (hcwd : isAbsolute cwd = true) (htarget : isAbsolute target = false)
    (hbase : isAbsolute base = false) (hclimb : climb (segments target) = climb (segments base)) :
    relative target base cwd = "/".intercalate (waySegments
      (afterShared (normalise target).names (normalise base).names).2.length
      (afterShared (normalise target).names (normalise base).names).1) := by
  rw [relative_eq_way hcwd, names_absolute htarget, names_absolute hbase, hclimb,
    afterShared_append]

/-- The way has two dots for each name that is left of the directory, and the names that are left of
the file. -/
theorem counts_relative (hcwd : isAbsolute cwd = true) (target base : String) :
    (segments (relative target base cwd)).count ".." =
        (afterShared (normalise (absolute target cwd)).names
          (normalise (absolute base cwd)).names).2.length ∧
      nameCount (segments (relative target base cwd)) =
        (afterShared (normalise (absolute target cwd)).names
          (normalise (absolute base cwd)).names).1.length := by
  have hdown : ∀ s ∈ (afterShared (normalise (absolute target cwd)).names
      (normalise (absolute base cwd)).names).1, IsName s := by
    intro s hs
    obtain ⟨shared, hnames, -⟩ := exists_shared (normalise (absolute target cwd)).names
      (normalise (absolute base cwd)).names
    refine isName_of_mem_normalise (absolute target cwd) s ?_
    rw [hnames]
    exact List.mem_append_right shared hs
  rw [segments_relative hdown (relative_eq_way hcwd target base)]
  exact count_waySegments _ hdown

/-! ### Working directories that tell paths apart -/

/-- There is a working directory with any names. -/
theorem exists_cwd (hnames : ∀ s ∈ parts, IsName s) :
    ∃ cwd, isAbsolute cwd = true ∧ (normalise cwd).names = parts := by
  have hsegments : ∀ s ∈ parts, IsSegment s := fun s hs ↦ (hnames s hs).toIsSegment
  have hrelative := isAbsolute_intercalate hsegments
  refine ⟨join "/" ("/".intercalate parts), ?_, ?_⟩
  · rw [isAbsolute_join hrelative]
    rfl
  · rw [normalise, foldl_step_join hrelative, foldl_step_intercalate hsegments,
      foldl_step_names hnames, List.reverse_append, List.reverse_reverse]
    rfl

theorem exists_isName_ne (names : List String) : ∃ s, IsName s ∧ names.head? ≠ some s := by
  by_cases hx : names.head? = some "x"
  · exact ⟨"y", by decide, by rw [hx]; decide⟩
  · exact ⟨"x", by decide, hx⟩

/-- Lists that start differently share nothing at the start. -/
theorem afterShared_of_head_ne {s : String} {as bs : List String} (h : bs.head? ≠ some s) :
    afterShared (s :: as) bs = (s :: as, bs) ∧ afterShared bs (s :: as) = (bs, s :: as) := by
  cases bs with
  | nil => exact ⟨rfl, rfl⟩
  | cons b bs =>
    have hne : b ≠ s := fun heq ↦ h (congrArg some heq)
    rw [afterShared, afterShared, if_neg hne.symm, if_neg hne]
    exact ⟨rfl, rfl⟩

/-- From a directory with as many names as the base leads up, a target that leads less far up has
some of these names in front of its own, and the base has none of them. -/
theorem climb_le_of_forall_le (htarget : isAbsolute target = false)
    (hbase : isAbsolute base = false)
    (h : ∀ cwd, isAbsolute cwd = true → (afterShared (normalise (absolute target cwd)).names
      (normalise (absolute base cwd)).names).1.length ≤ (normalise target).names.length) :
    climb (segments base) ≤ climb (segments target) := by
  by_contra hlt
  rw [Nat.not_le] at hlt
  obtain ⟨s, hs, hhead⟩ := exists_isName_ne (normalise base).names
  have hsteps : ∀ t ∈ List.replicate (climb (segments base)) s, IsName t :=
    fun t ht ↦ List.eq_of_mem_replicate ht ▸ hs
  obtain ⟨cwd, hcwd, hnames⟩ := exists_cwd hsteps
  obtain ⟨n, hn⟩ : ∃ n, climb (segments base) - climb (segments target) = n + 1 :=
    ⟨_, (Nat.succ_pred (Nat.sub_ne_zero_of_lt hlt)).symm⟩
  have hlength := h cwd hcwd
  rw [names_absolute htarget, names_absolute hbase, hnames, List.length_replicate, Nat.sub_self,
    List.take_zero, List.nil_append, List.take_replicate, hn, Nat.min_eq_left (by omega),
    List.replicate_succ, List.cons_append, (afterShared_of_head_ne hhead).1, List.length_cons,
    List.length_append] at hlength
  omega

/-- What two lists have after the part that they share is no longer than they are. -/
theorem lengths_afterShared_le (as bs : List String) :
    (afterShared as bs).1.length ≤ as.length ∧ (afterShared as bs).2.length ≤ bs.length := by
  have hbound := length_add_length_afterShared_le (List.nil_prefix (l := as))
    (List.nil_prefix (l := bs))
  rw [List.length_nil, Nat.zero_add, Nat.zero_add] at hbound
  exact hbound

theorem names_absolute_root (hp : isAbsolute p = false) :
    (normalise (absolute p "/")).names = (normalise p).names := by
  have hroot : (normalise "/").names = [] := rfl
  rw [names_absolute hp, hroot, List.take_nil, List.nil_append]

theorem afterShared_swap (as bs : List String) : afterShared bs as = (afterShared as bs).swap := by
  induction as generalizing bs with
  | nil => cases bs <;> rfl
  | cons a as ih =>
    cases bs with
    | nil => rfl
    | cons b bs =>
      rw [afterShared, afterShared]
      by_cases hsame : a = b
      · rw [if_pos hsame, if_pos hsame.symm, ih]
      · rw [if_neg hsame, if_neg (Ne.symm hsame)]
        rfl

/-- The way from one relative path to another does not depend on the working directory when neither
ever leads above where it starts, and more exactly when and only when the two lead equally far above
it. -/
theorem relative_relocated (htarget : isAbsolute target = false) (hbase : isAbsolute base = false) :
    (NeverClimbs (segments target) → NeverClimbs (segments base) →
      ∀ c₁ c₂, isAbsolute c₁ = true → isAbsolute c₂ = true →
        relative target base c₁ = relative target base c₂) ∧
    ((∀ c₁ c₂, isAbsolute c₁ = true → isAbsolute c₂ = true →
        relative target base c₁ = relative target base c₂) ↔
      climb (segments target) = climb (segments base)) := by
  have hsame (hclimb : climb (segments target) = climb (segments base)) (c₁ c₂ : String)
      (hc₁ : isAbsolute c₁ = true) (hc₂ : isAbsolute c₂ = true) :
      relative target base c₁ = relative target base c₂ :=
    (relative_of_climb_eq hc₁ htarget hbase hclimb).trans
      (relative_of_climb_eq hc₂ htarget hbase hclimb).symm
  refine ⟨fun hdown hdown' ↦ ?never, fun h ↦ Nat.le_antisymm ?target ?base, hsame⟩
  case never =>
    rw [neverClimbs_iff] at hdown hdown'
    exact hsame (hdown.trans hdown'.symm)
  case base =>
    refine climb_le_of_forall_le htarget hbase fun cwd hcwd ↦ ?_
    rw [← (counts_relative hcwd target base).2, h cwd "/" hcwd (by decide),
      (counts_relative (by decide) target base).2, names_absolute_root htarget]
    exact (lengths_afterShared_le _ _).1
  case target =>
    refine climb_le_of_forall_le hbase htarget fun cwd hcwd ↦ ?_
    rw [afterShared_swap, Prod.fst_swap, ← (counts_relative hcwd target base).1,
      h cwd "/" hcwd (by decide), (counts_relative (by decide) target base).1,
      names_absolute_root hbase]
    exact (lengths_afterShared_le _ _).2

/-- Double dots that come after names lead nowhere above the start, at the root and elsewhere. -/
theorem relative_relocated_dots :
    ((isAbsolute "./a/../b//c.yaml" = false ∧ isAbsolute "x/y/../../out/." = false) ∧
      (NeverClimbs (segments "./a/../b//c.yaml") ∧ NeverClimbs (segments "x/y/../../out/.")) ∧
      isAbsolute "/" = true ∧ isAbsolute "/w/../v/./u" = true) ∧
    relative "./a/../b//c.yaml" "x/y/../../out/." "/" =
      relative "./a/../b//c.yaml" "x/y/../../out/." "/w/../v/./u" ∧
    relative "./a/../b//c.yaml" "x/y/../../out/." "/" = "../b/c.yaml" := by
  have htarget : isAbsolute "./a/../b//c.yaml" = false := by decide
  have hbase : isAbsolute "x/y/../../out/." = false := by decide
  have hdown : NeverClimbs (segments "./a/../b//c.yaml") := (neverClimbs_iff _).mpr rfl
  have hdown' : NeverClimbs (segments "x/y/../../out/.") := (neverClimbs_iff _).mpr rfl
  have hroot : isAbsolute "/" = true := by decide
  have hcwd : isAbsolute "/w/../v/./u" = true := by decide
  exact ⟨⟨⟨htarget, hbase⟩, ⟨hdown, hdown'⟩, hroot, hcwd⟩,
    (relative_relocated htarget hbase).1 hdown hdown' _ _ hroot hcwd, rfl⟩

-- A target that leads above the start is not as far from every working directory.
example : relative "../a" "b" "/" = "../a" ∧ relative "../a" "b" "/w" = "../../a" := ⟨rfl, rfl⟩

end ApiManifest.Path
