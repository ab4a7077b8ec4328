import ApiManifest.Proofs.Catalog.Embedded
import ApiManifest.Proofs.Discovery.Partition
import ApiManifest.Proofs.Discovery.Validated
import ApiManifest.Proofs.Embed.Source

/-!
The embed source of what a search has found, as a table. Its names are pairwise different, and it
has the manifest, the documents, and nothing else (`Discovery.serves_embedded`). Whatever the
directory from which the paths of its entries are told, such a path is a name of the table only when
it is the file name of the entry's own module (`Entry.namesNoOther_of_discover`), so that each
module is served its own document (`table_of_discover`).
-/

set_option autoImplicit false
set_option relaxedAutoImplicit false

namespace ApiManifest

open Files

/-- The embed source of what a search has found, as a table. -/
def Discovery.embedded (found : Discovery) (label : String) : Source :=
  .ofPayload label found.manifest found.documents

/-- Holds of a table with the manifest and the documents that a search has found, each under its
file name, and with nothing under any other name. -/
structure Source.Serves (d : Disk) (found : Discovery) (table : Source) : Prop where
  manifest : table.load d manifestFilename = .ok (Text.octets found.manifest.toJson.compact)
  documents : ∀ filename v, found.documents.find? filename = some v →
    table.load d filename = .ok (Text.octets v.compact)
  others : ∀ name, name ≠ manifestFilename → name ∉ found.documents.keys →
    table.load d name = .error (.missing name)

namespace Discovery

variable {d : Disk} {s : Search} {found : Discovery}

/-- The documents that a search finds are those of modules. -/
theorem documents_of_discover (h : discover d s = .ok found) : ∀ f ∈ found.documents,
    (∃ name, f.1 = documentFilename name ∧ isModuleName name = true) ∧ f.1 ≠ manifestFilename :=
  fun f hf ↦ ⟨((discover_isWellFound h).documents f hf).1,
    ((discover_isWellFound h).documents f hf).2.1⟩

theorem ascending_of_discover (h : discover d s = .ok found) :
    Dictionary.Ascending found.documents := by
  obtain ⟨names, taken, b, -, -, hpushes, rfl⟩ := discover_eq_ok_iff.mp h
  exact (holds_of_pushes hpushes).ascending

/-- No two files of an embed source have the same name. -/
theorem nodup_names_of_discover (h : discover d s = .ok found) :
    ((Embed.payload found.manifest found.documents).map (·.name)).Nodup := by
  have hnames : (Embed.payload found.manifest found.documents).map (·.name) =
      manifestFilename :: found.documents.keys := Embed.map_name_payload
  rw [hnames, List.nodup_cons]
  refine ⟨fun hmem ↦ ?_, Dictionary.nodup_keys (ascending_of_discover h)⟩
  obtain ⟨f, hf, hname⟩ := List.mem_map.mp hmem
  exact (documents_of_discover h f hf).2 hname

theorem serves_embedded (h : discover d s = .ok found) (d' : Disk) (label : String) :
    (found.embedded label).Serves d' found := by
  constructor
  case manifest => exact Source.load_ofPayload_manifest d' label found.manifest found.documents
  case documents =>
    intro filename v hv
    have hname := (documents_of_discover h _ (Dictionary.mem_of_find? hv)).2
    rw [embedded, Source.load_ofPayload d' label _ _ hname, hv]
  case others =>
    intro name hname hkeys
    have hnone : found.documents.find? name = none := by
      rw [← Option.not_isSome_iff_eq_none, Dictionary.find?, List.lookup_isSome_iff]
      rintro ⟨f, hf, hsame⟩
      exact hkeys (List.mem_map.mpr ⟨f, hf, (beq_iff_eq.mp hsame).symm⟩)
    rw [embedded, Source.load_ofPayload d' label _ _ hname, hnone]

end Discovery

/-- The way to a file ends in its name, or in dots. -/
theorem lastSegment_relative_cases {filename : String} (d : Disk) (source output : String)
    (hfilename : Path.IsName filename) :
    lastSegment (d.relative (Path.join source filename) output) ∈ [filename, ".", ".."] := by
  by_cases hwithin : d.IsWithin output (Path.join source filename)
  · rcases Disk.relative_of_isWithin hwithin with hrelative | ⟨n, hrelative⟩
    · rw [hrelative, lastSegment_of_not_mem (by decide)]
      exact List.mem_cons_of_mem _ List.mem_cons_self
    · rw [hrelative, lastSegment_intercalate, lastSegment_of_not_mem (by decide)]
      exact List.mem_cons_of_mem _ (List.mem_cons_of_mem _ List.mem_cons_self)
  · rw [(lastSegment_relative_iff hfilename).mpr hwithin]
    exact List.mem_cons_self

/-- The path of an entry that a search finds is the file name of no other module. -/
theorem Entry.namesNoOther_of_discover {d : Disk} {s : Search} {found : Discovery}
    (h : discover d s = .ok found) {e : Entry} (he : e ∈ found.manifest.modules) :
    e.NamesNoOther := by
  intro name hname hpath
  have hself := isName_documentFilename
    ((discover_isWellFound h).entries e (List.mem_reverse.mpr he)).1
  have hlast := lastSegment_relative_cases d s.source s.output hself
  rw [← (path_of_discover h he).1, hpath, lastSegment_documentFilename hname] at hlast
  have hother := isName_documentFilename hname
  rcases List.mem_cons.mp hlast with hsame | hdots
  · exact documentFilename_injective hsame
  · simp [hother.notHere, hother.notUp] at hdots

/-- The table of what a search has found, wherever the manifest is, has no name twice, and has the
manifest, the documents and nothing else. What is looked for at the path of an entry, and then under
the file name of its module, is the document of that module, as the search has read it: the path is
that file name, or there is nothing. -/
theorem table_of_discover {d : Disk} {s : Search} {found : Discovery}
    (h : discover d s = .ok found) :
    ((Embed.payload found.manifest found.documents).map (·.name)).Nodup ∧
    ∀ d' label, (found.embedded label).Serves d' found ∧
      ∀ e ∈ found.manifest.modules, ∃ v,
        loadDocument d (Path.join s.source (documentFilename e.name)) = .ok v ∧
        found.documents.find? (documentFilename e.name) = some v ∧
        documentFilename e.name ≠ manifestFilename ∧
        (e.path = documentFilename e.name ∨
          (found.embedded label).load d' e.path = .error (.missing e.path)) ∧
        Catalog.documentOctets d' ⟨found.embedded label, found.manifest⟩ e =
          .ok (Text.octets v.compact) := by
  refine ⟨Discovery.nodup_names_of_discover h,
    fun d' label ↦ ⟨Discovery.serves_embedded h d' label, fun e he ↦ ?_⟩⟩
  obtain ⟨v, hmodule, hv⟩ := exists_moduleAt_of_discover h he
  have hdocuments := Discovery.documents_of_discover h
  have hown := Entry.namesNoOther_of_discover h he
  exact ⟨v, (Discovery.moduleAt_eq_ok_iff.mp hmodule).1, hv,
    (hdocuments _ (Dictionary.mem_of_find? hv)).2,
    Source.load_ofPayload_path d' label found.manifest hdocuments hown hv,
    Catalog.documentOctets_of_namesNoOther hdocuments hown hv rfl⟩

set_option maxRecDepth 4000 in
/-- From below the document its path is two dots, which no table has for a name. -/
theorem table_of_discover_up :
    discover oneDocument ⟨".", "a.openapi.yaml/out", "x"⟩ = .ok (oneDiscovery "..") ∧
    ∀ d' label, ((oneDiscovery "..").embedded label).Serves d' (oneDiscovery "..") ∧
      ((oneDiscovery "..").embedded label).load d' ".." = .error (.missing "..") ∧
      Catalog.documentOctets d' ⟨(oneDiscovery "..").embedded label,
        (oneDiscovery "..").manifest⟩ ⟨"a", "u", "..", "", "", ""⟩ =
          .ok (Text.octets (Json.obj [("$id", .str "u"), ("info", .obj [])]).compact) := by
  refine ⟨discover_below, fun d' label ↦ ?_⟩
  obtain ⟨hserves, hmodules⟩ := (table_of_discover discover_below).2 d' label
  obtain ⟨v, -, hv, -, hpath, hoctets⟩ := hmodules _ (List.mem_singleton_self _)
  have hdocument : some v = some (Json.obj [("$id", .str "u"), ("info", .obj [])]) :=
    hv.symm.trans rfl
  rw [Option.some.inj hdocument] at hoctets
  exact ⟨hserves, hpath.resolve_left (by decide), hoctets⟩

end ApiManifest
