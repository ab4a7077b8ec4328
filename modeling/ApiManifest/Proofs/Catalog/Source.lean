import ApiManifest.Catalog.Source
import Mathlib.Tactic.Common

/-!
Laws of sources. A source that has no file says so under the name that it was asked for
(`Source.name_of_missing`). A chain answers as its first source that does not lack the file
(`Source.load_chain_of_lacks`, `Source.load_chain_of_not_lacks`).
-/

set_option autoImplicit false
set_option relaxedAutoImplicit false

namespace ApiManifest.Source

open Files

variable {d : Disk} {name missed : String} {s : Source} {sources : List Source}

/-- Holds of a source that has no file with a name. -/
def Lacks (d : Disk) (s : Source) (name : String) : Prop := s.load d name = .error (.missing name)

theorem loadFirst_cons : loadFirst d name (s :: sources) =
    match s.load d name with
    | .error (.missing _) => loadFirst d name sources
    | answer => answer := rfl

theorem name_of_loadFile {dir : String} (h : loadFile d dir name = .error (.missing missed)) :
    missed = name := by
  -- The equations of `loadFile` are slow to prove, since that reduces the read of the file.
  delta loadFile at h
  dsimp only at h
  split at h
  · exact nomatch h
  · exact (Failure.missing.inj (Except.error.inj h)).symm
  · exact nomatch h

theorem name_of_loadEntry {entries : List (String × Octets)}
    (h : loadEntry entries name = .error (.missing missed)) : missed = name := by
  rw [loadEntry] at h
  split at h
  · exact nomatch h
  · exact (Failure.missing.inj (Except.error.inj h)).symm

mutual

/-- A file is told as missing under the name that was asked for. -/
theorem name_of_missing (s : Source) (h : s.load d name = .error (.missing missed)) :
    missed = name := by
  cases s with
  | directory dir => exact name_of_loadFile h
  | table label entries => exact name_of_loadEntry h
  | chain sources => exact name_of_loadFirst sources h

theorem name_of_loadFirst (sources : List Source)
    (h : loadFirst d name sources = .error (.missing missed)) : missed = name := by
  cases sources with
  | nil => exact (Failure.missing.inj (Except.error.inj h)).symm
  | cons s rest =>
    rw [loadFirst_cons] at h
    split at h
    · exact name_of_loadFirst rest h
    · exact name_of_missing s h

end

theorem load_chain_of_lacks (h : s.Lacks d name) :
    (chain (s :: sources)).load d name = (chain sources).load d name := by
  change loadFirst d name (s :: sources) = loadFirst d name sources
  rw [loadFirst_cons, h]

theorem load_chain_of_not_lacks (h : ¬ s.Lacks d name) :
    (chain (s :: sources)).load d name = s.load d name := by
  change loadFirst d name (s :: sources) = _
  rw [loadFirst_cons]
  split
  · rename_i missed hmissing
    exact absurd (name_of_missing s hmissing ▸ hmissing) h
  · rfl

/-- A chain of one source is that source. -/
theorem load_chain_singleton : (chain [s]).load d name = s.load d name := by
  by_cases h : s.Lacks d name
  · rw [load_chain_of_lacks h, h]
    rfl
  · exact load_chain_of_not_lacks h

end ApiManifest.Source
