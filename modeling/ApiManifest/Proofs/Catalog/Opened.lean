import ApiManifest.Catalog.Basic
import ApiManifest.Proofs.Catalog.Source
import ApiManifest.Proofs.Manifest.Valid
import ApiManifest.Proofs.Results

/-!
Catalogs that are open. A catalog opens over the manifest that its source holds, if nothing is wrong
with it (`Catalog.ofSource_eq_ok_iff`), and looks for the document of a module at the path of its
entry, or under the module's file name when the source lacks the path.
-/

set_option autoImplicit false
set_option relaxedAutoImplicit false

namespace ApiManifest.Catalog

open Files

variable {d : Disk} {c : Catalog} {e : Entry} {s t : Source}

/-! ### Opening -/

/-- A catalog opens on the manifest that its source gives. -/
theorem ofSource_of_manifest {bytes : Octets} {m : Manifest}
    (hload : s.load d manifestFilename = .ok bytes) (hm : Manifest.ofOctets bytes = .ok m) :
    ofSource d s = if m.problems.isEmpty then .ok ⟨s, m⟩ else .error (.invalid m.problems) := by
  have hopen : ofSource d s = (do
      let manifest ← (Manifest.ofOctets bytes).mapError .yaml
      if manifest.problems.isEmpty then return ⟨s, manifest⟩
      else throw (.invalid manifest.problems)) := by
    rw [ofSource, hload]
    rfl
  rw [hopen, hm]
  rfl

/-- A catalog does not open on a manifest that cannot be read. -/
theorem ofSource_of_error {bytes : Octets} {cause : Yaml.Error}
    (hload : s.load d manifestFilename = .ok bytes) (hm : Manifest.ofOctets bytes = .error cause) :
    ofSource d s = .error (.yaml cause) := by
  rw [ofSource, hload]
  show (((Manifest.ofOctets bytes).mapError Catalog.Failure.yaml).bind _) = _
  rw [hm]
  rfl

/-- A catalog opens over the manifest that its source holds, if nothing is wrong with it. -/
theorem ofSource_eq_ok_iff : ofSource d s = .ok c ↔ c.source = s ∧ ∃ bytes,
    s.load d manifestFilename = .ok bytes ∧ Manifest.ofOctets bytes = .ok c.manifest ∧
      c.manifest.problems = [] := by
  simp only [ofSource, except_bind_eq_ok_iff, mapError_eq_ok_iff]
  constructor
  · rintro ⟨bytes, hload, m, hm, hresult⟩
    split_ifs at hresult with hproblems
    obtain rfl := Except.ok.inj hresult
    exact ⟨rfl, bytes, hload, hm, List.isEmpty_iff.mp hproblems⟩
  · rintro ⟨rfl, bytes, hload, hm, hproblems⟩
    exact ⟨bytes, hload, c.manifest, hm, if_pos (List.isEmpty_iff.mpr hproblems)⟩

/-- A source opens like another one from which its manifest comes. -/
theorem ofSource_of_load_eq (hsame : s.load d manifestFilename = t.load d manifestFilename)
    (h : ofSource d s = .ok c) : ofSource d t = .ok ⟨t, c.manifest⟩ := by
  obtain ⟨-, hopen⟩ := ofSource_eq_ok_iff.mp h
  rw [hsame] at hopen
  exact ofSource_eq_ok_iff.mpr ⟨rfl, hopen⟩

/-! ### Documents -/

theorem documentOctets_of_lacks (h : c.source.Lacks d e.path) :
    c.documentOctets d e = c.source.load d (documentFilename e.name) := by
  rw [documentOctets, h]

theorem documentOctets_of_not_lacks (h : ¬ c.source.Lacks d e.path) :
    c.documentOctets d e = c.source.load d e.path := by
  rw [documentOctets]
  split
  · rename_i missed hmissing
    exact absurd (Source.name_of_missing c.source hmissing ▸ hmissing) h
  · rfl

end ApiManifest.Catalog
