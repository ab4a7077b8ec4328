import ApiManifest.Proofs.Files.Writings
import Mathlib.Data.Set.Insert

/-!
What writes leave alone. A frame of two disks names the places where files may have been written:
every other location shows what it showed, but that a directory has the names of new files after its
own (`Disk.Frame`). A write has a frame with one place (`frame_of_write`), and so writes that all
succeed have one with the places to which their paths lead (`frame_of_writeAll`). Where a write is
refused, those before it are writes that all succeed (`exists_done_of_writeAll`).
-/

set_option autoImplicit false
set_option relaxedAutoImplicit false

namespace ApiManifest.Files

/-- What a location shows of two trees, the second of which may have files written in the places. -/
inductive Tree.FramedAt (places : Set Location) (t t' : Tree) (location : Location) : Prop where
  | same (hsame : t'.view? location = t.view? location)
  /-- A file that is new or may have other contents. -/
  | file (contents : Octets) (hplace : location ∈ places) (hfits : t.Fits location)
      (hafter : t'.view? location = some (.file contents))
  /-- A directory with the names of new files. -/
  | directory (names new : List Name) (hbefore : t.view? location = some (.directory names))
      (hafter : t'.view? location = some (.directory (names ++ new)))
      (hnew : ∀ n ∈ new, n ∉ names ∧ n :: location ∈ places)

namespace Tree.FramedAt

variable {places places' : Set Location} {t t' t'' : Tree} {location : Location}

theorem mono (h : FramedAt places t t' location) (hsub : places ⊆ places') :
    FramedAt places' t t' location := by
  cases h with
  | same hsame => exact .same hsame
  | file contents hplace hfits hafter => exact .file contents (hsub hplace) hfits hafter
  | directory names new hbefore hafter hnew =>
    exact .directory names new hbefore hafter fun n hn ↦ ⟨(hnew n hn).1, hsub (hnew n hn).2⟩

theorem trans (h : FramedAt places t t' location) (h' : FramedAt places t' t'' location) :
    FramedAt places t t'' location := by
  cases h' with
  | same hsame' =>
    cases h with
    | same hsame => exact .same (hsame'.trans hsame)
    | file contents hplace hfits hafter => exact .file contents hplace hfits (hsame'.trans hafter)
    | directory names new hbefore hafter hnew =>
      exact .directory names new hbefore (hsame'.trans hafter) hnew
  | file contents hplace hfits' hafter' =>
    refine .file contents hplace ?_ hafter'
    cases h with
    | same hsame => rwa [Fits, ← hsame]
    | file _ _ hfits _ => exact hfits
    | directory names new _ hafter _ =>
      rw [Fits, hafter] at hfits'
      simp at hfits'
  | directory names' new' hbefore' hafter' hnew' =>
    cases h with
    | same hsame => exact .directory names' new' (hsame.symm.trans hbefore') hafter' hnew'
    | file contents _ _ hafter => exact absurd (hafter.symm.trans hbefore') (by simp)
    | directory names new hbefore hafter hnew =>
      obtain rfl : names ++ new = names' :=
        View.directory.inj (Option.some.inj (hafter.symm.trans hbefore'))
      refine .directory names (new ++ new') hbefore (by rw [hafter', List.append_assoc]) ?_
      intro n hn
      rcases List.mem_append.mp hn with hn | hn
      · exact hnew n hn
      · exact ⟨fun hold ↦ (hnew' n hn).1 (List.mem_append_left _ hold), (hnew' n hn).2⟩

end Tree.FramedAt

namespace Disk

variable {places places' : Set Location} {d d' d'' : Disk} {p : String} {contents : Octets}

/-- Holds of two disks of which the second is the first but for files in the places. -/
structure Frame (places : Set Location) (d d' : Disk) : Prop where
  cwd : d'.cwd = d.cwd
  framedAt : ∀ location, d.tree.FramedAt places d'.tree location

theorem Frame.refl (places : Set Location) (d : Disk) : d.Frame places d :=
  ⟨rfl, fun _ ↦ .same rfl⟩

theorem Frame.mono (h : d.Frame places d') (hsub : places ⊆ places') : d.Frame places' d' :=
  ⟨h.cwd, fun location ↦ (h.framedAt location).mono hsub⟩

theorem Frame.trans (h : d.Frame places d') (h' : d'.Frame places d'') : d.Frame places d'' :=
  ⟨h'.cwd.trans h.cwd, fun location ↦ (h.framedAt location).trans (h'.framedAt location)⟩

/-- A write changes the file to which its path leads from then on, and nothing else. -/
theorem frame_of_write (h : d.write p contents = .ok d') :
    ∃ location, d'.locate p = some location ∧ d.Frame {location} d' := by
  obtain ⟨parent, n, names, hparent, hfits, rfl, hlocate⟩ := exists_put_of_write h
  refine ⟨n :: parent, hlocate, rfl, fun location ↦ ?_⟩
  have hview := Tree.view?_put contents hparent hfits location
  by_cases hplace : location = n :: parent
  · rw [if_pos hplace] at hview
    exact .file contents hplace (hplace ▸ hfits) hview
  · rw [if_neg hplace] at hview
    by_cases hdir : location = parent
    · subst hdir
      rw [if_pos rfl, addName] at hview
      by_cases hn : n ∈ names
      · rw [if_pos hn, ← hparent] at hview
        exact .same hview
      · rw [if_neg hn] at hview
        refine .directory names [n] hparent hview fun m hm ↦ ?_
        rw [List.mem_singleton.mp hm]
        exact ⟨hn, rfl⟩
    · rw [if_neg hdir] at hview
      exact .same hview

/-- The locations to which paths lead. -/
def targets (d : Disk) (paths : List String) : Set Location :=
  {location | ∃ path ∈ paths, d.locate path = some location}

theorem targets_subset {paths paths' : List String} (h : paths ⊆ paths') :
    d.targets paths ⊆ d.targets paths' :=
  fun _ ⟨path, hpath, hlocate⟩ ↦ ⟨path, h hpath, hlocate⟩

/-- Writes change the files to which their paths lead, and nothing else. -/
theorem frame_of_writeAll {ws : List Writing} (h : d.writeAll ws = (d', [])) :
    d.Frame (d'.targets (ws.map Writing.path)) d' := by
  induction ws generalizing d with
  | nil =>
    rw [← (Prod.mk.inj h).1]
    exact .refl _ d
  | cons w ws ih =>
    obtain ⟨next, hwrite, hrest⟩ := exists_write_of_writeAll h
    obtain ⟨location, hlocate, hframe⟩ := frame_of_write hwrite
    have hlater : d'.locate w.path = some location := (grows_of_writeAll hrest).locate hlocate
    have hfirst : {location} ⊆ d'.targets ((w :: ws).map Writing.path) :=
      Set.singleton_subset_iff.mpr ⟨w.path, List.mem_cons_self, hlater⟩
    exact (hframe.mono hfirst).trans
      ((ih hrest).mono (targets_subset (List.subset_cons_self _ _)))

/-- Writes up to the first one that is refused are writes that all succeed. -/
theorem exists_done_of_writeAll (d : Disk) (ws : List Writing) :
    ∃ done, ws = done ++ (d.writeAll ws).2 ∧ d.writeAll done = ((d.writeAll ws).1, []) := by
  induction ws generalizing d with
  | nil => exact ⟨[], rfl, rfl⟩
  | cons w ws ih =>
    rw [writeAll]
    cases hwrite : d.write w.path w.contents with
    | error cause => exact ⟨[], rfl, rfl⟩
    | ok next =>
      obtain ⟨done, hws, hdone⟩ := ih next
      refine ⟨w :: done, congrArg (w :: ·) hws, ?_⟩
      rw [writeAll, hwrite]
      exact hdone

end Disk

end ApiManifest.Files
