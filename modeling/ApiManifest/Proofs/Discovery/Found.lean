import ApiManifest.Discovery.Basic
import ApiManifest.Proofs.Manifest.Pushes
import ApiManifest.Proofs.Manifest.Valid
import ApiManifest.Proofs.Text.Utf8
import ApiManifest.Proofs.Yaml.Reading

/-!
What a search for modules has found. Each step either leaves the builder as it is or adds a module
whose name and document come from the same file (`Findings.take_eq_ok`), so that in the end every
entry has its document, under the file name of its module (`discover_isWellFound`).
-/

set_option autoImplicit false
set_option relaxedAutoImplicit false

namespace ApiManifest

open Files

/-- Holds of the documents that a search takes: objects that are read from a text. -/
structure IsSchema (v : Json) : Prop where
  read : ∃ text, Yaml.jsonOfText text = .ok v
  object : ∃ fields, v = .obj fields

theorem exists_of_loadDocument {d : Disk} {path : String} {v : Json}
    (h : loadDocument d path = .ok v) : ∃ text, Yaml.jsonOfText text = .ok v := by
  rw [loadDocument] at h
  split at h
  · exact absurd h (by simp)
  · rename_i text _
    split at h
    · exact absurd h (by simp)
    · rename_i hread
      exact ⟨text, hread.trans (congrArg Except.ok (Except.ok.inj h))⟩

/-- Only an object has a header. -/
theorem exists_obj_of_header {extension : String} {v : Json} {header : Header}
    (h : Header.ofDocument extension v = .ok header) : ∃ fields, v = .obj fields := by
  have hid (hnone : v.field? "$id" = none) : Header.ofDocument extension v = .error .id := by
    rw [Header.ofDocument, hnone]
    rfl
  cases v with
  | obj fields => exact ⟨fields, rfl⟩
  | _ =>
    rw [hid rfl] at h
    exact absurd h (by simp)

namespace Discovery

variable {d : Disk} {s : Search}

/-- Names that are in order are listed as they are. -/
theorem listNames_of_pairwise {path : String} {names : List String}
    (h : d.list path = .ok (names.map Text.octets)) (hsorted : names.Pairwise (· ≤ ·)) :
    listNames d path = .ok names := by
  have hshown : Text.textLossy ∘ Text.octets = id := funext Text.textLossy_octets
  rw [listNames, h, Except.map, List.map_map, hshown, List.map_id,
    List.mergeSort_of_pairwise (hsorted.imp decide_eq_true)]

/-- A directory with one file has its name. -/
theorem listNames_of_list {path filename : String} (h : d.list path = .ok [Text.octets filename]) :
    listNames d path = .ok [filename] :=
  listNames_of_pairwise h (List.pairwise_singleton _ _)

theorem moduleAt_eq_ok {name filename : String} {v : Json} {e : Entry}
    (h : moduleAt d s name filename = .ok (v, e)) : IsSchema v ∧ e.name = name := by
  unfold moduleAt at h
  extract_lets path at h
  generalize hload : loadDocument d path = loaded at h
  cases loaded with
  | error cause => exact absurd h (by simp [throw, throwThe, MonadExceptOf.throw])
  | ok document =>
    dsimp only at h
    generalize hheader : Header.ofDocument s.extension document = read at h
    cases read with
    | error field => exact absurd h (by simp [throw, throwThe, MonadExceptOf.throw])
    | ok header =>
      obtain ⟨rfl, rfl⟩ := Prod.mk.inj (Except.ok.inj h)
      exact ⟨⟨exists_of_loadDocument hload, exists_obj_of_header hheader⟩, rfl⟩

/-- A step of a search adds nothing, or a module with the document of its file. -/
theorem Findings.take_eq_ok {found next : Findings} {filename : String}
    (h : found.take d s filename = .ok next) :
    next.builder = found.builder ∨ ∃ v e, filename = documentFilename e.name ∧
      isModuleName e.name = true ∧ filename ≠ manifestFilename ∧ IsSchema v ∧
      found.builder.push filename v e = .ok next.builder := by
  rw [take] at h
  split_ifs at h with hmanifest
  · exact .inl (by rw [Except.ok.inj h])
  · cases hname : moduleOfFilename? filename with
    | none =>
      simp only [hname] at h
      exact .inl (by rw [← Except.ok.inj h])
    | some name =>
      simp only [hname, except_bind_eq_ok_iff] at h
      obtain ⟨⟨v, e⟩, hmodule, h⟩ := h
      obtain ⟨hschema, rfl⟩ := moduleAt_eq_ok hmodule
      obtain ⟨hfilename, hvalid⟩ := moduleOfFilename?_eq_some_iff.mp hname
      have hother : filename ≠ manifestFilename := fun hsame ↦
        hmanifest (beq_iff_eq.mpr hsame)
      cases hpush : found.builder.push filename v e with
      | error cause =>
        simp only [hpush] at h
        exact absurd h (by simp [throw, throwThe, MonadExceptOf.throw])
      | ok builder =>
        simp only [hpush] at h
        rw [← Except.ok.inj h]
        exact .inr ⟨v, e, hfilename, hvalid, hother, hschema, hpush⟩

end Discovery

/-- Holds of modules and stored documents when every document stands under the file name of a
module, and every module has its document. -/
structure IsWellFound (modules : List Entry) (stored : Documents) : Prop where
  documents : ∀ f ∈ stored, (∃ name, f.1 = documentFilename name ∧ isModuleName name = true) ∧
    f.1 ≠ manifestFilename ∧ IsSchema f.2
  entries : ∀ e ∈ modules, isModuleName e.name = true ∧
    (stored.find? (documentFilename e.name)).isSome = true

theorem IsWellFound.push {b next : Builder} (hb : IsWellFound b.entries b.documents) {v : Json}
    {e : Entry} (hname : isModuleName e.name = true)
    (hother : documentFilename e.name ≠ manifestFilename) (hv : IsSchema v)
    (h : b.push (documentFilename e.name) v e = .ok next) :
    IsWellFound next.entries next.documents := by
  obtain ⟨-, -, rfl⟩ := Builder.run_offer_eq_ok_iff.mp (Builder.push_eq_ok_iff.mp h)
  refine ⟨fun f hf ↦ ?_, List.forall_mem_cons.mpr
    ⟨⟨hname, ?_⟩, fun e' he' ↦ ⟨(hb.entries e' he').1, ?_⟩⟩⟩
  · rcases Dictionary.mem_of_mem_insert hf with rfl | hold
    · exact ⟨⟨e.name, rfl, hname⟩, hother, hv⟩
    · exact hb.documents f hold
  · rw [Dictionary.find?_insert, if_pos rfl]
    rfl
  · rw [Dictionary.find?_insert]
    split_ifs
    · rfl
    · exact (hb.entries e' he').2

namespace Discovery

theorem Findings.isWellFound_of_take {d : Disk} {s : Search} {found next : Findings}
    {filename : String} (hfound : IsWellFound found.builder.entries found.builder.documents)
    (h : found.take d s filename = .ok next) :
    IsWellFound next.builder.entries next.builder.documents := by
  rcases Findings.take_eq_ok h with hsame | ⟨v, e, rfl, hname, hother, hv, hpush⟩
  · rw [hsame]
    exact hfound
  · exact hfound.push hname hother hv hpush

theorem Findings.isWellFound_of_foldlM {d : Disk} {s : Search} {names : List String}
    {found last : Findings} (hfound : IsWellFound found.builder.entries found.builder.documents)
    (h : names.foldlM (Findings.take d s) found = .ok last) :
    IsWellFound last.builder.entries last.builder.documents := by
  induction names generalizing found with
  | nil =>
    rw [← Except.ok.inj h]
    exact hfound
  | cons filename names ih =>
    rw [List.foldlM_cons, except_bind_eq_ok_iff] at h
    obtain ⟨next, htake, hrest⟩ := h
    exact ih (Findings.isWellFound_of_take hfound htake) hrest

end Discovery

/-- What a search has found was built module by module. -/
theorem discover_isWellFound {d : Disk} {s : Search} {found : Discovery}
    (h : discover d s = .ok found) :
    IsWellFound found.manifest.modules.reverse found.documents := by
  rw [discover] at h
  split at h
  · exact absurd h (by simp)
  · obtain ⟨last, hfold, h⟩ := except_bind_eq_ok_iff.mp h
    have hlast : IsWellFound last.builder.entries last.builder.documents :=
      Discovery.Findings.isWellFound_of_foldlM ⟨fun f hf ↦ absurd hf List.not_mem_nil,
        fun e he ↦ absurd he List.not_mem_nil⟩ hfold
    rw [← Except.ok.inj h]
    simpa [Builder.build, Manifest.ofModules] using hlast

end ApiManifest
