import ApiManifest.Manifest.Builder
import ApiManifest.Proofs.Dictionary
import Mathlib.Data.List.Nodup

/-!
Modules that are offered to a builder one after the other. The entries, their names and the
documents always tell of the same modules, those that have been added, in the order in which they
were (`Builder.Holds`). So a module is refused when its file name or its name is that of one of
these and for no other reason, and it leaves the builder as it was (`offer_after_offerAll`).
-/

set_option autoImplicit false
set_option relaxedAutoImplicit false

namespace ApiManifest.Builder

variable {b next last : Builder} {kept pushes : List Push} {p : Push}

/-! ### One module -/

theorem run_offer (b : Builder) (p : Push) :
    (offer p).run b =
      if b.documents.has p.filename then .error (.document p.filename) b
      else if b.names.has p.entry.name then .error (.module p.entry.name p.filename) b
      else .ok () ⟨p.entry :: b.entries, b.names.insert p.entry.name (),
        b.documents.insert p.filename p.document⟩ := by
  cases hfilename : b.documents.has p.filename with
  | true => simp [offer, hfilename]
  | false =>
    cases hname : b.names.has p.entry.name with
    | true => simp [offer, hfilename, hname]
    | false => simp [offer, hfilename, hname]

theorem run_offer_eq_ok_iff : (offer p).run b = .ok () next ↔
    b.documents.has p.filename = false ∧ b.names.has p.entry.name = false ∧
      next = ⟨p.entry :: b.entries, b.names.insert p.entry.name (),
        b.documents.insert p.filename p.document⟩ := by
  rw [run_offer]
  cases hfilename : b.documents.has p.filename with
  | true => simp
  | false =>
    cases hname : b.names.has p.entry.name with
    | true => simp
    | false => simp [eq_comm]

/-- A module that is refused leaves the builder as it was. -/
theorem eq_of_run_offer_eq_error {cause : Collision} (h : (offer p).run b = .error cause next) :
    next = b := by
  rw [run_offer] at h
  split at h
  · exact (EStateM.Result.error.inj h).2.symm
  · split at h
    · exact (EStateM.Result.error.inj h).2.symm
    · exact nomatch h

theorem push_eq_ok_iff {filename : String} {v : Json} {e : Entry} :
    b.push filename v e = .ok next ↔ (offer ⟨filename, v, e⟩).run b = .ok () next := by
  rw [push]
  cases (offer ⟨filename, v, e⟩).run b with
  | ok u b' => simp
  | error cause b' => simp

/-! ### The modules of a builder -/

/-- Holds of a builder whose collections tell of the given modules, which have been added in this
order and of which no two share a name or a file name. -/
structure Holds (b : Builder) (kept : List Push) : Prop where
  entries : b.entries = (kept.map Push.entry).reverse
  names : b.names = .ofList (kept.map fun p ↦ (p.entry.name, ()))
  documents : b.documents = .ofList (kept.map fun p ↦ (p.filename, p.document))
  nodup_names : (kept.map (·.entry.name)).Nodup
  nodup_filenames : (kept.map Push.filename).Nodup

theorem holds_empty : empty.Holds [] := ⟨rfl, rfl, rfl, List.nodup_nil, List.nodup_nil⟩

namespace Holds

theorem has_names_iff (h : b.Holds kept) {name : String} :
    b.names.has name = true ↔ ∃ q ∈ kept, q.entry.name = name := by
  rw [h.names, Dictionary.has_ofList_iff, List.map_map]
  exact List.mem_map

theorem has_documents_iff (h : b.Holds kept) {filename : String} :
    b.documents.has filename = true ↔ ∃ q ∈ kept, q.filename = filename := by
  rw [h.documents, Dictionary.has_ofList_iff, List.map_map]
  exact List.mem_map

/-- A module that is added is the last of those of the builder. -/
theorem of_run_offer (h : b.Holds kept) (hoffer : (offer p).run b = .ok () next) :
    next.Holds (kept ++ [p]) := by
  obtain ⟨hfilename, hname, rfl⟩ := run_offer_eq_ok_iff.mp hoffer
  rw [← Bool.not_eq_true, h.has_documents_iff] at hfilename
  rw [← Bool.not_eq_true, h.has_names_iff] at hname
  constructor
  · rw [List.map_append, List.reverse_append, h.entries]
    rfl
  · rw [List.map_append, List.map_singleton, Dictionary.ofList_append_singleton, ← h.names]
  · rw [List.map_append, List.map_singleton, Dictionary.ofList_append_singleton, ← h.documents]
  · rw [List.map_append, List.map_singleton, ← List.concat_eq_append]
    exact .concat (by simpa using hname) h.nodup_names
  · rw [List.map_append, List.map_singleton, ← List.concat_eq_append]
    exact .concat (by simpa using hfilename) h.nodup_filenames

theorem ascending (h : b.Holds kept) : Dictionary.Ascending b.documents :=
  h.documents ▸ Dictionary.ascending_ofList _

theorem find?_documents (h : b.Holds kept) (hp : p ∈ kept) :
    b.documents.find? p.filename = some p.document := by
  rw [h.documents]
  refine Dictionary.find?_ofList_of_mem ?_ (List.mem_map_of_mem hp)
  rw [List.map_map]
  exact h.nodup_filenames

/-- There are as many documents as modules. -/
theorem length_documents (h : b.Holds kept) : b.documents.length = kept.length := by
  have hkeys : b.documents.keys.Perm (kept.map Push.filename) := by
    refine (List.perm_ext_iff_of_nodup (Dictionary.nodup_keys h.ascending) h.nodup_filenames).mpr
      fun filename ↦ ?_
    rw [← Dictionary.has_iff, h.has_documents_iff]
    exact List.mem_map.symm
  simpa [Dictionary.keys] using hkeys.length_eq

end Holds

/-! ### Modules one after the other -/

/-- Offers modules one after the other: those that are added, and the builder in the end. -/
def offerAll : List Push → Builder → List Push × Builder
  | [], b => ([], b)
  | p :: rest, b =>
    match (offer p).run b with
    | .ok () next => (p :: (offerAll rest next).1, (offerAll rest next).2)
    | .error _ next => offerAll rest next

theorem sublist_offerAll (pushes : List Push) (b : Builder) :
    (offerAll pushes b).1.Sublist pushes := by
  induction pushes generalizing b with
  | nil => exact .slnil
  | cons p rest ih =>
    rw [offerAll]
    cases (offer p).run b with
    | ok u next => exact (ih next).cons_cons p
    | error cause next => exact (ih next).cons p

/-- The modules of the builder in the end are those of the builder before, and those that are
added. -/
theorem Holds.offerAll (h : b.Holds kept) (pushes : List Push) :
    (Builder.offerAll pushes b).2.Holds (kept ++ (Builder.offerAll pushes b).1) := by
  induction pushes generalizing kept b with
  | nil => simpa [Builder.offerAll] using h
  | cons p rest ih =>
    rw [Builder.offerAll]
    cases hoffer : (offer p).run b with
    | ok u next => simpa using ih (h.of_run_offer hoffer)
    | error cause next =>
      rw [eq_of_run_offer_eq_error hoffer]
      exact ih h

theorem offerAll_append_singleton (pushes : List Push) (p : Push) (b : Builder) :
    offerAll (pushes ++ [p]) b =
      match (offer p).run (offerAll pushes b).2 with
      | .ok () next => ((offerAll pushes b).1 ++ [p], next)
      | .error _ next => ((offerAll pushes b).1, next) := by
  induction pushes generalizing b with
  | nil =>
    rw [List.nil_append, offerAll]
    rfl
  | cons q rest ih =>
    rw [List.cons_append, offerAll, offerAll]
    cases (offer q).run b with
    | ok u next =>
      dsimp only
      rw [ih]
      cases (offer p).run (offerAll rest next).2 <;> rfl
    | error cause next => exact ih next

/-- Whatever has been offered before, a module is refused when its file name is that of a module
that has been added, or else when its name is, and the builder stays as it was; any other module is
added. What is built in the end are the modules that have been added, in this order and under
different names, each with the document that came with it, and there are as many documents. -/
theorem offer_after_offerAll (pushes : List Push) (p : Push) :
    let kept := (offerAll pushes .empty).1
    let b := (offerAll pushes .empty).2
    ((offer p).run b =
        if ∃ q ∈ kept, q.filename = p.filename then .error (.document p.filename) b
        else if ∃ q ∈ kept, q.entry.name = p.entry.name then
          .error (.module p.entry.name p.filename) b
        else .ok () (offerAll (pushes ++ [p]) .empty).2) ∧
      kept.Sublist pushes ∧ b.build.1 = .ofModules (kept.map Push.entry) ∧
      (b.build.1.modules.map (·.name)).Nodup ∧
      (∀ q ∈ kept, b.build.2.find? q.filename = some q.document) ∧
      b.build.2.keys.Nodup ∧ b.build.2.keys.length = b.build.1.modules.length := by
  intro kept b
  have hholds : b.Holds kept := holds_empty.offerAll pushes
  have hmodules : b.build.1 = .ofModules (kept.map Push.entry) := by
    rw [build, hholds.entries, List.reverse_reverse]
  refine ⟨?_, sublist_offerAll pushes .empty, hmodules, ?_, fun q hq ↦ hholds.find?_documents hq,
    Dictionary.nodup_keys hholds.ascending, ?_⟩
  · have hanswer := run_offer b p
    simp only [hholds.has_documents_iff, hholds.has_names_iff] at hanswer
    rw [offerAll_append_singleton]
    change (offer p).run b = _
    rw [hanswer]
    split_ifs <;> simp [b, *]
  · rw [hmodules, Manifest.ofModules, List.map_map]
    exact hholds.nodup_names
  · rw [hmodules, Manifest.ofModules, List.length_map, Dictionary.keys, List.length_map]
    exact hholds.length_documents

end ApiManifest.Builder
