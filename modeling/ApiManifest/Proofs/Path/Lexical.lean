import ApiManifest.Path.Relative
import Mathlib.Tactic.Common

/-!
Paths by their texts. A joined path has the segments of its base and then those of what is joined to
it, up to empty ones (`filterMap_segments_join`). The way from a directory to a file goes up by two
dots as often as the directory has names that the two do not share, and then down by the names that
are left of the file (`exists_between`); from a directory at the file or below it, it only goes up
(`between_of_prefix`).
-/

set_option autoImplicit false
set_option relaxedAutoImplicit false

namespace ApiManifest.Path

/-- Holds of the texts that stand between two slashes. -/
structure IsSegment (s : String) : Prop where
  nonempty : s ≠ ""
  noSlash : '/' ∉ s.toList

/-- Holds of the texts that name something in a directory. -/
structure IsName (s : String) : Prop extends IsSegment s where
  notHere : s ≠ "."
  notUp : s ≠ ".."

theorem isName_iff {s : String} :
    IsName s ↔ s ≠ "" ∧ '/' ∉ s.toList ∧ s ≠ "." ∧ s ≠ ".." :=
  ⟨fun h ↦ ⟨h.nonempty, h.noSlash, h.notHere, h.notUp⟩,
    fun ⟨hne, hslash, hhere, hup⟩ ↦ ⟨⟨hne, hslash⟩, hhere, hup⟩⟩

instance (s : String) : Decidable (IsName s) := decidable_of_iff _ isName_iff.symm

theorem isSegment_here : IsSegment "." := ⟨by decide, by decide⟩

theorem isSegment_up : IsSegment ".." := ⟨by decide, by decide⟩

variable {base p : String} {parts : List String}

/-! ### Segments -/

theorem segments_append_slash (p q : String) :
    segments (p ++ "/" ++ q) = segments p ++ segments q := by
  have hslash : (p ++ "/" ++ q).toList = p.toList ++ '/' :: q.toList := by simp
  have hsplit : (p.toList ++ '/' :: q.toList).splitOn '/' =
      p.toList.splitOn '/' ++ q.toList.splitOn '/' :=
    List.splitOnP_append_cons _ _ (beq_self_eq_true '/')
  rw [segments, hslash, hsplit, List.map_append]
  rfl

/-- Parts without a slash are the segments of the path that is made of them. -/
theorem segments_intercalate (hne : parts ≠ []) (hparts : ∀ s ∈ parts, IsSegment s) :
    segments ("/".intercalate parts) = parts := by
  have hslash : ∀ s ∈ parts, '/' ∉ s.toList := fun s hs ↦ (hparts s hs).noSlash
  have hsplit : (['/'].intercalate (parts.map String.toList)).splitOn '/' =
      parts.map String.toList :=
    List.splitOn_intercalate '/' (List.forall_mem_map.mpr hslash) (by simpa using hne)
  rw [segments, String.toList_intercalate, show "/".toList = ['/'] from rfl, hsplit, List.map_map]
  exact (List.map_congr_left fun s _ ↦ String.ofList_toList).trans (List.map_id parts)

/-- Holds of the texts that have a character other than a slash at both ends. -/
structure HasEnds (s : String) : Prop where
  first : ∃ c, s.toList.head? = some c ∧ c ≠ '/'
  last : ∃ c, s.toList.getLast? = some c ∧ c ≠ '/'

theorem IsSegment.hasEnds {s : String} (hs : IsSegment s) : HasEnds s := by
  have hne : s.toList ≠ [] := by simpa using hs.nonempty
  constructor
  · exact ⟨_, List.head?_eq_some_head hne, fun h ↦ hs.noSlash (h ▸ List.head_mem hne)⟩
  · exact ⟨_, List.getLast?_eq_some_getLast hne, fun h ↦ hs.noSlash (h ▸ List.getLast_mem hne)⟩

/-- A path that is made of segments has no slash at its ends. -/
theorem hasEnds_intercalate (hne : parts ≠ []) (hparts : ∀ s ∈ parts, IsSegment s) :
    HasEnds ("/".intercalate parts) := by
  induction parts with
  | nil => exact absurd rfl hne
  | cons s rest ih =>
    obtain ⟨hs, hrest⟩ := List.forall_mem_cons.mp hparts
    by_cases hend : rest = []
    · rw [hend, String.intercalate_singleton]
      exact hs.hasEnds
    · obtain ⟨c, hc, hfirst⟩ := hs.hasEnds.first
      obtain ⟨c', hc', hlast⟩ := (ih hend hrest).last
      have hlist : ("/".intercalate (s :: rest)).toList =
          s.toList ++ ('/' :: ("/".intercalate rest).toList) := by
        rw [String.intercalate_cons_of_ne_nil hend]
        simp
      refine ⟨⟨c, ?_, hfirst⟩, ⟨c', ?_, hlast⟩⟩
      · rw [hlist, List.head?_append, hc]
        rfl
      · rw [hlist, List.getLast?_append, List.getLast?_cons, hc']
        rfl

theorem HasEnds.isAbsolute (hp : HasEnds p) : isAbsolute p = false := by
  obtain ⟨c, hc, hslash⟩ := hp.first
  rw [Path.isAbsolute, hc]
  simpa using hslash

/-- What is in a text that is made of parts is in one of them, but for what stands between them. -/
theorem mem_toList_intercalate {sep : String} {c : Char} (hc : c ∉ sep.toList) :
    c ∈ (sep.intercalate parts).toList ↔ ∃ s ∈ parts, c ∈ s.toList := by
  induction parts with
  | nil => simp
  | cons s rest ih =>
    by_cases hend : rest = []
    · simp [hend]
    · rw [String.intercalate_cons_of_ne_nil hend, String.toList_append, String.toList_append,
        List.mem_append, List.mem_append, ih]
      simp [hc]

/-- A path is made of its segments. -/
theorem intercalate_segments (p : String) : "/".intercalate (segments p) = p := by
  have hsame : (segments p).map String.toList = p.toList.splitOn '/' := by
    rw [segments, List.map_map]
    exact (List.map_congr_left fun cs _ ↦ String.toList_ofList).trans (List.map_id _)
  refine String.ext ?_
  rw [String.toList_intercalate, hsame]
  exact List.intercalate_splitOn '/'

theorem mem_of_mem_segments {c : Char} {s : String} (hc : c ≠ '/') (hs : s ∈ segments p)
    (hmem : c ∈ s.toList) : c ∈ p.toList := by
  rw [← intercalate_segments p, mem_toList_intercalate (by simpa using hc)]
  exact ⟨s, hs, hmem⟩

/-! ### Joined paths -/

/-- What is joined to a path stands after a slash, unless it stands alone. -/
theorem join_cases (base : String) (hp : isAbsolute p = false) :
    (base = "" ∧ join base p = p) ∨ (∃ b, base = b ++ "/" ∧ join base p = b ++ "/" ++ p) ∨
      base ≠ "" ∧ join base p = base ++ "/" ++ p := by
  rw [join, if_neg (by simp [hp])]
  by_cases hempty : base = ""
  · exact .inl ⟨hempty, by rw [hempty]; simp⟩
  · by_cases hslash : base.toList.getLast? = some '/'
    · obtain ⟨b, hb⟩ := List.getLast?_eq_some_iff.mp hslash
      have hbase : base = String.ofList b ++ "/" := String.ext (by simp [hb])
      exact .inr (.inl ⟨String.ofList b, hbase, by rw [if_pos (by simp [hslash]), hbase]⟩)
    · exact .inr (.inr ⟨hempty, if_neg (by simp [hslash, hempty])⟩)

theorem exists_toList_join (base : String) (hp : isAbsolute p = false) :
    ∃ before, (join base p).toList = before ++ p.toList := by
  rcases join_cases base hp with ⟨-, h⟩ | ⟨b, -, h⟩ | ⟨-, h⟩
  · exact ⟨[], by rw [h]; rfl⟩
  · exact ⟨(b ++ "/").toList, by rw [h, String.toList_append]⟩
  · exact ⟨(base ++ "/").toList, by rw [h, String.toList_append]⟩

theorem mem_toList_join {c : Char} (hc : c ≠ '/') (hp : isAbsolute p = false) :
    c ∈ (join base p).toList ↔ c ∈ base.toList ∨ c ∈ p.toList := by
  rcases join_cases base hp with ⟨rfl, h⟩ | ⟨b, rfl, h⟩ | ⟨-, h⟩ <;> simp [h, hc]

theorem isAbsolute_append (hp : p ≠ "") (q : String) : isAbsolute (p ++ q) = isAbsolute p := by
  rw [isAbsolute, isAbsolute, String.toList_append]
  cases hlist : p.toList with
  | nil => exact absurd (String.toList_eq_nil_iff.mp hlist) hp
  | cons c cs => rfl

theorem isAbsolute_join (hp : isAbsolute p = false) :
    isAbsolute (join base p) = isAbsolute base := by
  rcases join_cases base hp with ⟨rfl, h⟩ | ⟨b, rfl, h⟩ | ⟨hbase, h⟩
  · rw [h, hp]
    rfl
  · rw [h, isAbsolute_append (by simp)]
  · rw [h, String.append_assoc, isAbsolute_append hbase]

/-- What the segments of a joined path say, where an empty one says nothing. -/
theorem filterMap_segments_join {α : Type} {f : String → Option α} (hf : f "" = none)
    (hp : isAbsolute p = false) :
    (segments (join base p)).filterMap f =
      (segments base).filterMap f ++ (segments p).filterMap f := by
  have hempty : (segments "").filterMap f = [] := by
    rw [show segments "" = [""] from rfl, List.filterMap_cons_none hf, List.filterMap_nil]
  rcases join_cases base hp with ⟨rfl, h⟩ | ⟨b, rfl, h⟩ | ⟨-, h⟩
  · rw [h, hempty, List.nil_append]
  · have hb : segments (b ++ "/") = segments b ++ segments "" := by
      rw [← segments_append_slash, String.append_empty]
    rw [h, hb, segments_append_slash, List.filterMap_append, List.filterMap_append, hempty,
      List.append_nil]
  · rw [h, segments_append_slash, List.filterMap_append]

/-- An empty segment leads nowhere. -/
theorem foldl_step_eq (parts names : List String) :
    parts.foldl step names = (parts.filterMap (Option.guard (· != ""))).foldl step names := by
  have hskip : (fun names s ↦ if s != "" then step names s else names) = step := by
    funext names s
    split_ifs with hempty
    · rfl
    · rw [step, if_pos (.inl (by simpa using hempty))]
  rw [List.filterMap_eq_filter, List.foldl_filter, hskip]

/-- A joined path leads where what is joined leads from its base. -/
theorem foldl_step_join (hp : isAbsolute p = false) (names : List String) :
    (segments (join base p)).foldl step names =
      (segments p).foldl step ((segments base).foldl step names) := by
  rw [foldl_step_eq, filterMap_segments_join (by simp) hp, List.foldl_append, ← foldl_step_eq,
    ← foldl_step_eq]

theorem step_of_isName {s : String} (hs : IsName s) (names : List String) :
    step names s = s :: names := by
  rw [step, if_neg (not_or.mpr ⟨hs.nonempty, hs.notHere⟩), if_neg hs.notUp]

/-! ### The way to a file -/

section Between

variable {α : Type} [DecidableEq α]

/-- What two lists share at the start, and what each of them has after it. -/
theorem exists_shared (as bs : List α) : ∃ shared,
    as = shared ++ (afterShared as bs).1 ∧ bs = shared ++ (afterShared as bs).2 := by
  induction as generalizing bs with
  | nil => exact ⟨[], by simp [afterShared], by simp [afterShared]⟩
  | cons a as ih =>
    cases bs with
    | nil => exact ⟨[], by simp [afterShared], by simp [afterShared]⟩
    | cons b bs =>
      rw [afterShared]
      split_ifs with hsame
      · obtain ⟨shared, has, hbs⟩ := ih bs
        exact ⟨a :: shared, by rw [List.cons_append, ← has],
          by rw [List.cons_append, ← hbs, hsame]⟩
      · exact ⟨[], rfl, rfl⟩

/-- Nothing is left of a list after what it shares exactly when the other list starts with it. -/
theorem afterShared_fst_eq_nil_iff {as bs : List α} :
    (afterShared as bs).1 = [] ↔ as <+: bs := by
  induction as generalizing bs with
  | nil => simp [afterShared]
  | cons a as ih =>
    cases bs with
    | nil => simp [afterShared]
    | cons b bs =>
      rw [afterShared, List.cons_prefix_cons]
      split_ifs with hsame
      · rw [ih, and_iff_right hsame]
      · simp [hsame]

variable {shown : α → String} {target base : List α}

theorem between_eq (shown : α → String) (target base : List α) :
    between shown target base =
      if (afterShared target base).2.map (fun _ ↦ "..") ++
        (afterShared target base).1.map shown = [] then "."
      else "/".intercalate ((afterShared target base).2.map (fun _ ↦ "..") ++
        (afterShared target base).1.map shown) := by
  simp only [between, List.isEmpty_iff]

/-- The way from a directory to a file that it does not stand at or below. -/
theorem exists_between (shown : α → String) (target base : List α) :
    ∃ shared up down, target = shared ++ down ∧ base = shared ++ up ∧
      (down ≠ [] → between shown target base =
        "/".intercalate (up.map (fun _ ↦ "..") ++ down.map shown)) := by
  obtain ⟨shared, htarget, hbase⟩ := exists_shared target base
  exact ⟨shared, _, _, htarget, hbase, fun hne ↦ by rw [between_eq, if_neg (by simp [hne])]⟩

/-- The way from a directory that stands at a file or below it only goes up. -/
theorem between_of_prefix (h : target <+: base) : between shown target base = "." ∨
    ∃ n, between shown target base = "/".intercalate (List.replicate n ".." ++ [".."]) := by
  have hway := between_eq shown target base
  rw [afterShared_fst_eq_nil_iff.mpr h, List.map_nil, List.append_nil, List.map_const'] at hway
  generalize (afterShared target base).2 = up at hway
  cases up with
  | nil => exact .inl hway
  | cons name rest =>
    rw [List.length_cons, List.replicate_succ', if_neg (by simp)] at hway
    exact .inr ⟨rest.length, hway⟩

/-- What stands in a way, but for slashes and dots, is in a name of the target as it is shown. -/
theorem mem_of_mem_between {c : Char} (hslash : c ≠ '/') (hdot : c ≠ '.')
    (h : c ∈ (between shown target base).toList) : ∃ a ∈ target, c ∈ (shown a).toList := by
  rw [between_eq] at h
  split_ifs at h
  · exact absurd (List.mem_singleton.mp h) hdot
  · obtain ⟨s, hs, hmem⟩ := (mem_toList_intercalate (by simpa using hslash)).mp h
    rcases List.mem_append.mp hs with hup | hdown
    · obtain ⟨name, -, rfl⟩ := List.mem_map.mp hup
      exact absurd hmem (by simpa using hdot)
    · obtain ⟨a, ha, rfl⟩ := List.mem_map.mp hdown
      obtain ⟨shared, htarget, -⟩ := exists_shared target base
      rw [htarget]
      exact ⟨a, List.mem_append_right shared ha, hmem⟩

theorem afterShared_map {β : Type} [DecidableEq β] {f : α → β} (hf : Function.Injective f)
    (as bs : List α) : afterShared (as.map f) (bs.map f) =
      ((afterShared as bs).1.map f, (afterShared as bs).2.map f) := by
  induction as generalizing bs with
  | nil => cases bs <;> rfl
  | cons a as ih =>
    cases bs with
    | nil => rfl
    | cons b bs =>
      rw [List.map_cons, List.map_cons, afterShared, afterShared]
      by_cases hsame : a = b
      · rw [if_pos (congrArg f hsame), if_pos hsame, ih]
      · rw [if_neg fun h ↦ hsame (hf h), if_neg hsame]
        rfl

/-- A way does not depend on what names are, as long as different names are told apart. -/
theorem between_map {β : Type} [DecidableEq β] {f : α → β} (hf : Function.Injective f)
    (shown : β → String) (target base : List α) :
    between shown (target.map f) (base.map f) = between (shown ∘ f) target base := by
  rw [between_eq, between_eq, afterShared_map hf, List.map_map, List.map_map]
  rfl

end Between

theorem isAbsolute_absolute {cwd : String} (hcwd : isAbsolute cwd = true) (p : String) :
    isAbsolute (absolute p cwd) = true := by
  rw [absolute]
  split_ifs with hp
  · exact hp
  · rw [isAbsolute_join (Bool.eq_false_iff.mpr hp), hcwd]

/-- From an absolute working directory there always is a way. -/
theorem relative_eq_between (target base : String) {cwd : String}
    (hcwd : isAbsolute cwd = true) :
    relative target base cwd =
      between id (normalise (absolute target cwd)).names (normalise (absolute base cwd)).names := by
  have htarget : (normalise (absolute target cwd)).absolute = true :=
    isAbsolute_absolute hcwd target
  have hbase : (normalise (absolute base cwd)).absolute = true := isAbsolute_absolute hcwd base
  simp only [relative, Normal.sharesStart, htarget, hbase, Bool.not_true, Bool.false_eq_true,
    if_false]

theorem relative_eq_parts (target base : String) {cwd : String} (hcwd : isAbsolute cwd = true) :
    ∃ down up, afterShared (normalise (absolute target cwd)).names
        (normalise (absolute base cwd)).names = (down, up) ∧
      relative target base cwd = if up.map (fun _ ↦ "..") ++ down = [] then "."
        else "/".intercalate (up.map (fun _ ↦ "..") ++ down) := by
  refine ⟨_, _, rfl, ?_⟩
  rw [relative_eq_between target base hcwd, between_eq, List.map_id]

end ApiManifest.Path
