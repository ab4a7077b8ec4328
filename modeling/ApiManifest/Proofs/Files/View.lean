import ApiManifest.Files.Tree
import Mathlib.Data.List.Induction
import Mathlib.Tactic.Common

/-!
What shows of a tree at each of its locations: the contents of a file, the names in a directory, the
path of a link. A file that is put into a directory, under a new name or in place of a file, shows
at its own location; its name shows in the directory, and nothing else changes (`view?_put`).
-/

set_option autoImplicit false
set_option relaxedAutoImplicit false

namespace ApiManifest.Files

/-- What shows of a node. -/
inductive View where
  | file (contents : Octets)
  | directory (names : List Name)
  | link (target : String)
  deriving DecidableEq

/-- Names with one more at the end, unless it is one of them. -/
def addName (n : Name) (names : List Name) : List Name :=
  if n ∈ names then names else names ++ [n]

namespace Tree

/-- What shows of a node, without a look into what it holds. -/
def view : Tree → View
  | file contents => .file contents
  | directory entries => .directory (entries.map Prod.fst)
  | link target => .link target

/-- What shows at a location. -/
def view? (t : Tree) (location : Location) : Option View := (t.get? location).map view

/-- Whether a file fits at a location: nothing is there, or a file. -/
def Fits (t : Tree) (location : Location) : Prop :=
  t.view? location = none ∨ ∃ old, t.view? location = some (.file old)

variable {t : Tree} {location : Location} {n : Name} {entries : List (Name × Tree)}

/-! ### Entries -/

theorem lookup_entry (m k : Name) (child : Tree) (entries : List (Name × Tree)) :
    ((k, child) :: entries).lookup m = if m = k then some child else entries.lookup m := by
  rw [List.lookup_cons]
  by_cases hm : m = k
  · rw [if_pos hm, beq_iff_eq.mpr hm]
  · rw [if_neg hm, beq_eq_false_iff_ne.mpr hm]

theorem lookup_setEntry (n m : Name) (new : Tree) (entries : List (Name × Tree)) :
    (setEntry n new entries).lookup m = if m = n then some new else entries.lookup m := by
  induction entries with
  | nil => exact lookup_entry m n new []
  | cons e entries ih =>
    obtain ⟨k, child⟩ := e
    rw [setEntry]
    split_ifs with hk hm hm
    · rw [lookup_entry, if_pos (hm.trans hk.symm)]
    · have hother : ¬ m = k := fun h ↦ hm (h.trans hk)
      rw [lookup_entry, lookup_entry, if_neg hother, if_neg hother]
    · rw [lookup_entry, if_neg fun h ↦ hk (h.symm.trans hm), ih, if_pos hm]
    · rw [lookup_entry, lookup_entry, ih, if_neg hm]

theorem map_fst_setEntry (n : Name) (new : Tree) (entries : List (Name × Tree)) :
    (setEntry n new entries).map Prod.fst = addName n (entries.map Prod.fst) := by
  induction entries with
  | nil => rfl
  | cons e entries ih =>
    obtain ⟨k, child⟩ := e
    rw [setEntry, addName]
    by_cases hk : k = n
    · subst hk
      rw [if_pos rfl, if_pos (by simp)]
      rfl
    · rw [if_neg hk, List.map_cons, List.map_cons, ih, addName]
      by_cases hn : n ∈ entries.map Prod.fst
      · rw [if_pos hn, if_pos (List.mem_cons_of_mem _ hn)]
      · have hother : ¬ n ∈ k :: entries.map Prod.fst := by
          rw [List.mem_cons, not_or]
          exact ⟨fun hsame ↦ hk hsame.symm, hn⟩
        rw [if_neg hn, if_neg hother]
        rfl

theorem isSome_lookup_iff : (entries.lookup n).isSome ↔ n ∈ entries.map Prod.fst := by
  rw [← not_iff_not, Bool.not_eq_true, Option.isSome_eq_false_iff, Option.isNone_iff_eq_none,
    List.lookup_eq_none_iff, List.mem_map]
  simp only [bne_iff_ne, ne_eq, not_exists, not_and]
  exact ⟨fun h e he hsame ↦ h e he hsame.symm, fun h e he hsame ↦ h e he hsame.symm⟩

/-! ### Locations -/

theorem get?_cons (t : Tree) (n : Name) (location : Location) :
    t.get? (n :: location) = (t.get? location).bind (child? n) := rfl

/-- What stands in a place stands in a directory that has its name. -/
theorem exists_of_view?_cons {v : View} (h : t.view? (n :: location) = some v) :
    ∃ names, t.view? location = some (.directory names) ∧ n ∈ names := by
  obtain ⟨node, hnode, -⟩ := Option.map_eq_some_iff.mp h
  rw [get?_cons, Option.bind_eq_some_iff] at hnode
  obtain ⟨parent, hparent, hchild⟩ := hnode
  cases parent with
  | directory entries =>
    refine ⟨entries.map Prod.fst, by rw [view?, hparent]; rfl, isSome_lookup_iff.mp ?_⟩
    exact Option.isSome_iff_exists.mpr ⟨node, hchild⟩
  | file contents => exact absurd hchild (by simp [child?])
  | link target => exact absurd hchild (by simp [child?])

/-! ### Putting a file -/

/-- A location is looked up from the root as well. -/
theorem get?_append_singleton (t : Tree) (location : Location) (n : Name) :
    t.get? (location ++ [n]) = (child? n t).bind fun child ↦ child.get? location := by
  induction location with
  | nil =>
    rw [List.nil_append, get?_cons, get?, Option.bind_some]
    cases child? n t <;> rfl
  | cons m location ih =>
    rw [List.cons_append, get?_cons, ih, Option.bind_assoc]
    rfl

theorem view?_append_singleton (t : Tree) (location : Location) (n : Name) :
    t.view? (location ++ [n]) = (child? n t).bind fun child ↦ child.view? location := by
  rw [view?, get?_append_singleton, Option.map_bind]
  rfl

/-- Nothing stands in a file. -/
theorem view?_file (contents : Octets) (location : Location) :
    (file contents).view? location = if location = [] then some (.file contents) else none := by
  induction location using List.reverseRecOn with
  | nil => rfl
  | append_singleton location n _ =>
    rw [view?_append_singleton, if_neg (by simp)]
    rfl

/-- Nothing stands below a location where a file fits. -/
theorem Fits.bind_child? (h : (directory entries).Fits [n]) (hne : location ≠ []) :
    ((entries.lookup n).bind fun child ↦ child.view? location) = none := by
  have hchild : (directory entries).view? [n] =
      (entries.lookup n).bind fun child ↦ some child.view :=
    view?_append_singleton (directory entries) [] n
  cases hlookup : entries.lookup n with
  | none => rfl
  | some child =>
    rw [Fits, hchild, hlookup, Option.bind_some] at h
    rcases h with hnone | ⟨old, hold⟩
    · exact absurd hnone (by simp)
    · cases child with
      | file contents => rw [Option.bind_some, view?_file, if_neg hne]
      | directory entries => exact absurd hold (by simp [view])
      | link target => exact absurd hold (by simp [view])

/-- A file that is put into the directory at the root. -/
theorem view?_put_root {contents : Octets} (hfits : (directory entries).Fits [n])
    (location : Location) :
    ((directory entries).put [] n (.file contents)).view? location =
      if location = [n] then some (.file contents)
      else if location = [] then some (.directory (addName n (entries.map Prod.fst)))
      else (directory entries).view? location := by
  have hput : (directory entries).put [] n (.file contents) =
      directory (setEntry n (.file contents) entries) := rfl
  rw [hput]
  induction location using List.reverseRecOn with
  | nil =>
    rw [if_neg (by simp), if_pos rfl, ← map_fst_setEntry]
    rfl
  | append_singleton location m _ =>
    rw [if_neg (by simp : location ++ [m] ≠ []), view?_append_singleton, view?_append_singleton,
      child?, child?, lookup_setEntry]
    by_cases hm : m = n
    · subst hm
      rw [if_pos rfl, Option.bind_some, view?_file]
      by_cases hself : location = []
      · rw [if_pos hself, if_pos (by rw [hself]; rfl)]
      · rw [if_neg hself, if_neg (by simpa using hself), hfits.bind_child? hself]
    · rw [if_neg hm, if_neg fun h ↦ hm (by simpa using congrArg List.getLast? h)]

theorem put_append_singleton {parent : Location} {k : Name} {child new : Tree}
    (hchild : entries.lookup k = some child) :
    (directory entries).put (parent ++ [k]) n new =
      directory (setEntry k (child.put parent n new) entries) := by
  rw [put, List.reverse_append, List.reverse_singleton, List.singleton_append, alter, hchild]
  rfl

/-- A child that is changed shows in its place, and all else in the directory as before. -/
theorem view?_setEntry (k : Name) (new : Tree) (location : Location) (m : Name) :
    (directory (setEntry k new entries)).view? (location ++ [m]) =
      if m = k then new.view? location else (directory entries).view? (location ++ [m]) := by
  rw [view?_append_singleton, view?_append_singleton, child?, child?, lookup_setEntry]
  split_ifs <;> rfl

/-- What shows of a tree after a file is put into it. -/
theorem view?_put (contents : Octets) {parent : Location} {names : List Name}
    (hparent : t.view? parent = some (.directory names)) (hfits : t.Fits (n :: parent))
    (location : Location) :
    (t.put parent n (.file contents)).view? location =
      if location = n :: parent then some (.file contents)
      else if location = parent then some (.directory (addName n names))
      else t.view? location := by
  induction parent using List.reverseRecOn generalizing t location with
  | nil =>
    cases t with
    | directory entries =>
      obtain rfl : entries.map Prod.fst = names := View.directory.inj (Option.some.inj hparent)
      exact view?_put_root hfits location
    | file contents => exact absurd hparent (by simp [view?, get?, view])
    | link target => exact absurd hparent (by simp [view?, get?, view])
  | append_singleton parent k ih =>
    rw [view?_append_singleton, Option.bind_eq_some_iff] at hparent
    obtain ⟨child, hchild, hnames⟩ := hparent
    cases t with
    | directory entries =>
      have hview (location : Location) :
          (directory entries).view? (location ++ [k]) = child.view? location := by
        rw [view?_append_singleton, hchild, Option.bind_some]
      have hinner : child.Fits (n :: parent) := by
        rw [Fits, ← hview]
        exact hfits
      rw [put_append_singleton hchild]
      induction location using List.reverseRecOn with
      | nil =>
        have hknown : k ∈ entries.map Prod.fst :=
          isSome_lookup_iff.mp (Option.isSome_iff_exists.mpr ⟨child, hchild⟩)
        rw [if_neg (by simp), if_neg (by simp), view?, get?, Option.map_some, view,
          map_fst_setEntry, addName, if_pos hknown]
        rfl
      | append_singleton location m _ =>
        rw [view?_setEntry]
        by_cases hm : m = k
        · subst hm
          rw [if_pos rfl, ih hnames hinner, hview]
          simp only [← List.cons_append, List.append_left_inj]
        · have hother (l : Location) : location ++ [m] ≠ l ++ [k] := fun h ↦
            hm (by simpa using congrArg List.getLast? h)
          rw [if_neg hm, if_neg (hother parent), ← List.cons_append, if_neg (hother (n :: parent))]
    | file contents => exact absurd hchild (by simp [child?])
    | link target => exact absurd hchild (by simp [child?])

end Tree

end ApiManifest.Files
