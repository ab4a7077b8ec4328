import ApiManifest.Files.Access
import ApiManifest.Proofs.Files.Walk

/-!
Reading and writing files. A read tells what shows where its path leads (`read_eq_ok_iff`). A write
sets the contents where its path leads from then on, leaves every other file as it is, and makes a
directory grow by one name at most (`write_eq_ok`); so what could be read before can be read
after it, from the same place.
-/

set_option autoImplicit false
set_option relaxedAutoImplicit false

namespace ApiManifest.Files

/-- Holds of the texts that the system takes for a path. -/
structure IsPath (p : String) : Prop where
  noNul : p.toList.contains '\x00' = false
  nonempty : p.isEmpty = false
  short : (Text.octets p).length ≤ pathLimit

theorem resolve_eq_ok_iff {t : Tree} {aim : Aim} {cwd : Location} {p : String} {r : Reached} :
    resolve t aim cwd p = .ok r ↔
      IsPath p ∧ walk t aim linkLimit (startOf cwd p) (steps p) = .ok r := by
  rw [resolve]
  constructor
  · intro h
    split_ifs at h with hnul hempty hlong
    exact ⟨⟨Bool.eq_false_iff.mpr hnul, Bool.eq_false_iff.mpr hempty, Nat.not_lt.mp hlong⟩, h⟩
  · rintro ⟨⟨hnul, hempty, hshort⟩, h⟩
    rw [hnul, hempty, if_neg (by simp), if_neg (by simp), if_neg (Nat.not_lt.mpr hshort), h]

namespace Disk

variable {d d' d'' : Disk} {p : String} {location : Location} {contents : Octets}

/-- Where a path leads. -/
def locate (d : Disk) (p : String) : Option Location :=
  match resolve d.tree .look d.cwd p with
  | .ok (.found location) => some location
  | _ => none

theorem locate_eq_some_iff :
    d.locate p = some location ↔ resolve d.tree .look d.cwd p = .ok (.found location) := by
  rw [locate]
  generalize resolve d.tree .look d.cwd p = reached
  cases reached with
  | error cause => simp
  | ok r => cases r <;> simp

/-- What a path leads to shows where it leads. -/
theorem exists_node_iff {v : View} :
    (∃ node, d.node p = .ok node ∧ node.view = v) ↔
      ∃ location, d.locate p = some location ∧ d.tree.view? location = some v := by
  rw [Disk.node, locate]
  generalize resolve d.tree .look d.cwd p = reached
  cases reached with
  | error cause => simp
  | ok r =>
    cases r with
    | found location => cases hnode : d.tree.get? location <;> simp [hnode, Tree.view?]
    | missing parent n => simp

/-- A file is read where its path leads. -/
theorem read_eq_ok_iff :
    d.read p = .ok contents ↔ ∃ location, d.locate p = some location ∧
      d.tree.view? location = some (.file contents) := by
  rw [← exists_node_iff, Disk.read]
  cases d.node p with
  | error cause => simp
  | ok node => cases node <;> simp [Tree.view]

/-- Paths that lead to the same place read the same. -/
theorem read_of_locate {q : String} (hq : d.locate q = d.locate p) (hp : d.read p = .ok contents) :
    d.read q = .ok contents := by
  rw [read_eq_ok_iff] at hp ⊢
  rwa [hq]

/-- A directory is listed where its path leads. -/
theorem list_eq_ok_iff {names : List Name} :
    d.list p = .ok names ↔ ∃ location, d.locate p = some location ∧
      d.tree.view? location = some (.directory names) := by
  rw [← exists_node_iff, Disk.list]
  cases d.node p with
  | error cause => simp
  | ok node => cases node <;> simp [Tree.view]

/-- What is opened as a file is read as one. -/
theorem contents?_eq_ok_some_iff :
    d.contents? p = .ok (some contents) ↔ d.read p = .ok contents := by
  rw [contents?, Disk.read]
  cases d.node p with
  | error cause => simp
  | ok node => cases node <;> simp

/-! ### Disks that grow -/

/-- One disk has what the other one had, perhaps with other contents of files and with more names in
its directories. -/
structure Grows (d d' : Disk) : Prop where
  cwd : d'.cwd = d.cwd
  keeps : d.tree.Extends d'.tree
  names : ∀ location names, d.tree.view? location = some (.directory names) →
    ∃ new, d'.tree.view? location = some (.directory (names ++ new)) ∧ ∀ n ∈ new, n ∉ names

theorem Grows.refl (d : Disk) : d.Grows d :=
  ⟨rfl, fun _ _ hk ↦ hk, fun _ names hnames ↦
    ⟨[], by rw [hnames, List.append_nil], fun _ hn ↦ absurd hn List.not_mem_nil⟩⟩

theorem Grows.trans (h : d.Grows d') (h' : d'.Grows d'') : d.Grows d'' := by
  refine ⟨h'.cwd.trans h.cwd, h.keeps.trans h'.keeps, fun location names hnames ↦ ?_⟩
  obtain ⟨new, hnew, hfresh⟩ := h.names location names hnames
  obtain ⟨newer, hnewer, hfresher⟩ := h'.names location _ hnew
  refine ⟨new ++ newer, by rw [hnewer, List.append_assoc], fun n hn ↦ ?_⟩
  rcases List.mem_append.mp hn with hn | hn
  · exact hfresh n hn
  · exact fun hmem ↦ hfresher n hn (List.mem_append_left _ hmem)

/-- A path leads where it led. -/
theorem Grows.locate (h : d.Grows d') (hp : d.locate p = some location) :
    d'.locate p = some location := by
  obtain ⟨hpath, hwalk⟩ := resolve_eq_ok_iff.mp (locate_eq_some_iff.mp hp)
  refine locate_eq_some_iff.mpr (resolve_eq_ok_iff.mpr ⟨hpath, ?_⟩)
  rw [h.cwd]
  exact walk_of_extends h.keeps hwalk

/-- A file is still a file. -/
theorem Grows.exists_read (h : d.Grows d') (hp : d.read p = .ok contents) :
    ∃ contents', d'.read p = .ok contents' := by
  obtain ⟨location, hlocate, hview⟩ := read_eq_ok_iff.mp hp
  have hkind : d'.tree.kind? location = some .file := h.keeps _ _ (by rw [Tree.kind?, hview]; rfl)
  obtain ⟨v, hv, hfile⟩ := Option.map_eq_some_iff.mp hkind
  cases v with
  | file contents' => exact ⟨contents', read_eq_ok_iff.mpr ⟨location, h.locate hlocate, hv⟩⟩
  | directory names => exact absurd hfile (by simp [View.kind])
  | link target => exact absurd hfile (by simp [View.kind])

/-- A directory lists new names after those that it had. -/
theorem Grows.exists_list (h : d.Grows d') {names : List Name} (hp : d.list p = .ok names) :
    ∃ new, d'.list p = .ok (names ++ new) ∧ ∀ n ∈ new, n ∉ names := by
  obtain ⟨location, hlocate, hview⟩ := list_eq_ok_iff.mp hp
  obtain ⟨new, hnew, hfresh⟩ := h.names location names hview
  exact ⟨new, list_eq_ok_iff.mpr ⟨location, h.locate hlocate, hnew⟩, hfresh⟩

/-! ### Writing -/

/-- One disk is the other with the given contents in a file at a location. -/
structure Written (d : Disk) (location : Location) (contents : Octets) (d' : Disk) : Prop
    extends d.Grows d' where
  there : d'.tree.view? location = some (.file contents)
  elsewhere : ∀ other, other ≠ location → ∀ old, d.tree.view? other = some (.file old) →
    d'.tree.view? other = some (.file old)

/-- A file that is not written has its contents. -/
theorem Written.read (h : d.Written location contents d') {old : Octets}
    (hp : d.read p = .ok old) (hother : d'.locate p ≠ some location) : d'.read p = .ok old := by
  obtain ⟨other, hlocate, hview⟩ := read_eq_ok_iff.mp hp
  have hlocate' := h.toGrows.locate hlocate
  refine read_eq_ok_iff.mpr ⟨other, hlocate', h.elsewhere other ?_ old hview⟩
  rintro rfl
  exact hother hlocate'

/-- A file that is put into a directory is written, and the directory has its name. -/
theorem written_put (contents : Octets) {parent : Location} {n : Name} {names : List Name}
    (hparent : d.tree.view? parent = some (.directory names)) (hfits : d.tree.Fits (n :: parent)) :
    d.Written (n :: parent) contents { d with tree := d.tree.put parent n (.file contents) } := by
  have hview := Tree.view?_put contents hparent hfits
  have hself : n :: parent ≠ parent := List.cons_ne_self n parent
  -- Besides the place of the file and its directory every location shows what it showed.
  have hcases (location : Location) : location = n :: parent ∨ location = parent ∨
      (d.tree.put parent n (.file contents)).view? location = d.tree.view? location := by
    by_cases hplace : location = n :: parent
    · exact .inl hplace
    · by_cases hdir : location = parent
      · exact .inr (.inl hdir)
      · exact .inr (.inr (by rw [hview, if_neg hplace, if_neg hdir]))
  have hplace : (d.tree.put parent n (.file contents)).view? (n :: parent) =
      some (.file contents) := by rw [hview, if_pos rfl]
  have hdir : (d.tree.put parent n (.file contents)).view? parent =
      some (.directory (addName n names)) := by rw [hview, if_neg hself.symm, if_pos rfl]
  refine ⟨⟨rfl, fun location k hk ↦ ?_, fun location before hbefore ↦ ?_⟩, hplace,
    fun other hother old hold ↦ ?_⟩
  · rw [Tree.kind?] at hk ⊢
    rcases hcases location with rfl | rfl | hsame
    · rcases hfits with hnone | ⟨old, hold⟩
      · rw [hnone] at hk
        exact absurd hk (by simp)
      · rw [hold] at hk
        rw [hplace]
        exact hk
    · rw [hparent] at hk
      rw [hdir]
      exact hk
    · rw [hsame]
      exact hk
  · rcases hcases location with rfl | rfl | hsame
    · rcases hfits with hnone | ⟨old, hold⟩
      · exact absurd (hnone.symm.trans hbefore) (by simp)
      · exact absurd (hold.symm.trans hbefore) (by simp)
    · obtain rfl := View.directory.inj (Option.some.inj (hparent.symm.trans hbefore))
      by_cases hn : n ∈ names
      · exact ⟨[], by rw [hdir, addName, if_pos hn, List.append_nil], by simp⟩
      · exact ⟨[n], by rw [hdir, addName, if_neg hn], by simpa using hn⟩
    · exact ⟨[], by rw [hsame, hbefore, List.append_nil], by simp⟩
  · rcases hcases other with rfl | rfl | hsame
    · exact absurd rfl hother
    · exact absurd (hparent.symm.trans hold) (by simp)
    · rw [hsame]
      exact hold

/-- A write puts a file into a directory, where a file fits, and its path leads there from then
on. -/
theorem exists_put_of_write (h : d.write p contents = .ok d') :
    ∃ parent n names, d.tree.view? parent = some (.directory names) ∧
      d.tree.Fits (n :: parent) ∧ d' = { d with tree := d.tree.put parent n (.file contents) } ∧
      d'.locate p = some (n :: parent) := by
  rw [write] at h
  cases hresolve : resolve d.tree .make d.cwd p with
  | error cause =>
    rw [hresolve] at h
    exact absurd h (by simp)
  | ok r =>
    obtain ⟨hpath, hwalk⟩ := resolve_eq_ok_iff.mp hresolve
    rw [hresolve] at h
    cases r with
    | found location =>
      dsimp only at h
      split at h
      · rename_i old n parent hnode
        have hold : d.tree.view? (n :: parent) = some (.file old) := by rw [Tree.view?, hnode]; rfl
        obtain ⟨names, hparent, -⟩ := Tree.exists_of_view?_cons hold
        have hfits : d.tree.Fits (n :: parent) := .inr ⟨old, hold⟩
        refine ⟨parent, n, names, hparent, hfits, (Except.ok.inj h).symm, ?_⟩
        rw [← Except.ok.inj h]
        refine (written_put contents hparent hfits).locate (locate_eq_some_iff.mpr ?_)
        exact resolve_eq_ok_iff.mpr ⟨hpath, walk_look_of_make hwalk⟩
      · exact absurd h (by simp)
    | missing parent n =>
      obtain ⟨hparent, hnone, hthere⟩ := walk_of_missing hwalk
      obtain ⟨names, hnames⟩ := Tree.kind?_eq_directory_iff.mp hparent
      have hfits : d.tree.Fits (n :: parent) := .inl (Option.map_eq_none_iff.mp hnone)
      have hwritten := written_put contents hnames hfits
      refine ⟨parent, n, names, hnames, hfits, (Except.ok.inj h).symm, ?_⟩
      rw [← Except.ok.inj h]
      refine locate_eq_some_iff.mpr (resolve_eq_ok_iff.mpr ⟨hpath, ?_⟩)
      exact hthere _ hwritten.keeps (by rw [Tree.kind?, hwritten.there]; rfl)

/-- A write sets the contents of the file to which its path leads from then on. -/
theorem write_eq_ok (h : d.write p contents = .ok d') :
    ∃ location, d'.locate p = some location ∧ d.Written location contents d' := by
  obtain ⟨parent, n, names, hparent, hfits, rfl, hlocate⟩ := exists_put_of_write h
  exact ⟨n :: parent, hlocate, written_put contents hparent hfits⟩

/-- What has been written can be read back. -/
theorem read_of_write (h : d.write p contents = .ok d') : d'.read p = .ok contents := by
  obtain ⟨location, hlocate, hwritten⟩ := write_eq_ok h
  exact read_eq_ok_iff.mpr ⟨location, hlocate, hwritten.there⟩

end Disk

end ApiManifest.Files
