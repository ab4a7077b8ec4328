import ApiManifest.Embed.Source
import ApiManifest.Proofs.Catalog.Documents
import ApiManifest.Proofs.Discovery.Taken
import ApiManifest.Proofs.Manifest.Compact
import ApiManifest.Proofs.Manifest.Valid
import ApiManifest.Proofs.Yaml.Nesting

/-!
The catalog over the files of an embed source. Whatever its manifest says of paths, the document of
a module is the one under the module's own file name (`Catalog.documentOctets_of_ofPayload`), and it
comes out as it was found exactly when every string in it is legible and every key fits
(`Catalog.document_embedded_iff`).
-/

set_option autoImplicit false
set_option relaxedAutoImplicit false

namespace ApiManifest

open Files Json

/-- The name of a module comes out as it went in. -/
theorem rereadText_of_isModuleName {name : String} (hname : isModuleName name = true) :
    rereadText name = name := by
  have hlines : KeepsLines name.toList := keepsLines_of_forall fun c hc ↦ by
    by_contra hseparator
    rw [Bool.not_eq_false, isSeparator, Bool.or_eq_true, Bool.or_eq_true, beq_iff_eq, beq_iff_eq,
      beq_iff_eq] at hseparator
    have hchar := isNameChar_of_mem hname hc
    rcases hseparator with (rfl | rfl) | rfl <;> exact absurd hchar (by decide)
  rw [rereadText, (reread_eq_some_iff name).mpr hlines, Option.getD_some]

/-! ### The files of an embed source -/

/-- The files of an embed source as a table. -/
def Source.ofPayload (label : String) (m : Manifest) (documents : Documents) : Source :=
  .table label ((Embed.payload m documents).map fun f ↦ (f.name, Text.octets f.data))

theorem Source.load_ofPayload_manifest (d : Disk) (label : String) (m : Manifest)
    (documents : Documents) :
    (Source.ofPayload label m documents).load d manifestFilename =
      .ok (Text.octets (compact m.toJson)) := by
  rw [ofPayload, load, loadEntry, Embed.payload, List.map_cons, List.lookup_cons]
  simp

/-- Any name but that of the manifest is looked up among the documents. -/
theorem Source.load_ofPayload (d : Disk) (label : String) (m : Manifest) (documents : Documents)
    {name : String} (hname : name ≠ manifestFilename) :
    (Source.ofPayload label m documents).load d name =
      match documents.find? name with
      | some v => .ok (Text.octets (compact v))
      | none => .error (.missing name) := by
  have hlookup :
      ((Embed.payload m documents).map fun f ↦ (f.name, Text.octets f.data)).lookup name =
      (documents.find? name).map fun v ↦ Text.octets (compact v) := by
    rw [Embed.payload, List.map_cons, List.lookup_cons, beq_eq_false_iff_ne.mpr hname, List.map_map]
    exact Dictionary.lookup_map (fun v ↦ Text.octets (compact v)) name documents
  rw [ofPayload, load, loadEntry, hlookup]
  cases documents.find? name <;> rfl

theorem Catalog.module?_eq_some {c : Catalog} {name : String} {e : Entry}
    (h : c.module? name = some e) : e ∈ c.manifest.modules ∧ e.name = name :=
  Manifest.find?_eq_some h

/-- Holds of an entry whose path is the file name of no module but its own. -/
def Entry.NamesNoOther (e : Entry) : Prop :=
  ∀ name, isModuleName name = true → e.path = documentFilename name → name = e.name

/-- A path that ends in the file name of a module is the file name of no other. -/
theorem Entry.namesNoOther_of_pathMatches {e : Entry} (h : e.pathMatches = true) :
    e.NamesNoOther := by
  intro name hname hpath
  have hsegment := pathMatches_iff.mp h
  rw [hpath, lastSegment_documentFilename hname] at hsegment
  exact documentFilename_injective hsegment

section OwnDocument

variable (d : Disk) (label : String) (m : Manifest) {documents : Documents}
  (hdocuments : ∀ f ∈ documents,
    (∃ name, f.1 = documentFilename name ∧ isModuleName name = true) ∧ f.1 ≠ manifestFilename)
  {e : Entry} {v : Json} (hown : e.NamesNoOther)
  (hv : documents.find? (documentFilename e.name) = some v)

include hdocuments hv

theorem Source.load_ofPayload_own : (ofPayload label m documents).load d (documentFilename e.name) =
    .ok (Text.octets (compact v)) := by
  rw [load_ofPayload d label m documents (hdocuments _ (Dictionary.mem_of_find? hv)).2, hv]

include hown

/-- At the path of an entry there is nothing, unless it is the file name of the entry's module. -/
theorem Source.load_ofPayload_path : e.path = documentFilename e.name ∨
    (ofPayload label m documents).load d e.path = .error (.missing e.path) := by
  have hmanifest : e.path ≠ manifestFilename := by
    intro hpath
    have hname : "index" = e.name := hown "index" (by decide) hpath
    exact (hdocuments _ (Dictionary.mem_of_find? hv)).2 (by rw [← hname]; rfl)
  rw [load_ofPayload d label m documents hmanifest]
  cases hfind : documents.find? e.path with
  | none => exact .inr rfl
  | some w =>
    obtain ⟨⟨name, hkey, hname⟩, -⟩ := hdocuments _ (Dictionary.mem_of_find? hfind)
    rw [hown name hname hkey] at hkey
    exact .inl hkey

variable {d} {label} {m}

/-- The document of a module is found under its own file name. -/
theorem Catalog.documentOctets_of_namesNoOther {c : Catalog}
    (hsource : c.source = .ofPayload label m documents) :
    c.documentOctets d e = .ok (Text.octets (compact v)) := by
  have hload := Source.load_ofPayload_own d label m hdocuments hv
  rw [documentOctets, hsource]
  rcases Source.load_ofPayload_path d label m hdocuments hown hv with hpath | hmissing
  · rw [hpath, hload]
  · rw [hmissing]
    exact hload

end OwnDocument

/-- The document of a module is found under its own file name, whatever directories stand in the
path of its entry. -/
theorem Catalog.documentOctets_of_ofPayload {d : Disk} {label : String} {m : Manifest}
    {documents : Documents} {c : Catalog} (hsource : c.source = .ofPayload label m documents)
    (hdocuments : ∀ f ∈ documents,
      (∃ name, f.1 = documentFilename name ∧ isModuleName name = true) ∧
      f.1 ≠ manifestFilename)
    {e : Entry} (hpath : e.pathMatches = true) {v : Json}
    (hv : documents.find? (documentFilename e.name) = some v) :
    c.documentOctets d e = .ok (Text.octets (compact v)) :=
  documentOctets_of_namesNoOther hdocuments (Entry.namesNoOther_of_pathMatches hpath) hv hsource

/-- A catalog over an embed source has the manifest that comes out of it. -/
theorem Catalog.manifest_of_ofPayload {d : Disk} {label : String} {m : Manifest}
    {documents : Documents} {c : Catalog}
    (hopen : Catalog.ofSource d (.ofPayload label m documents) = .ok c) :
    c.source = .ofPayload label m documents ∧ c.manifest = m.reread ∧ m.reread.problems = [] := by
  have hload := Source.load_ofPayload_manifest d label m documents
  obtain ⟨hread, hrefuse⟩ := m.ofOctets_compact
  by_cases hreadable : Readable m.toJson.sorted
  · rw [Catalog.ofSource_of_manifest hload (hread hreadable)] at hopen
    split_ifs at hopen with hproblems
    rw [← Except.ok.inj hopen]
    exact ⟨rfl, rfl, List.isEmpty_iff.mp hproblems⟩
  · obtain ⟨cause, hcause⟩ := hrefuse hreadable
    rw [Catalog.ofSource_of_error hload hcause] at hopen
    exact absurd hopen (by simp)

/-! ### Documents that come out as they went in -/

/-- An object is read from its compact text as it was exactly when every string in it is legible and
every key fits. -/
theorem Json.jsonOfOctets_compact_iff {fields : List (String × Json)}
    (hsorted : (Json.obj fields).sorted = .obj fields)
    (hdepth : nesting (.obj fields) ≤ Yaml.Reading.depthLimit)
    (hfloats : ∀ x ∈ floats (.obj fields), FloatReadsBack x) :
    Yaml.jsonOfOctets (Text.octets (compact (.obj fields))) = .ok (.obj fields) ↔
      (∀ t ∈ texts (.obj fields), IsLegible t) ∧ ∀ k ∈ keys (.obj fields), fitsKey k = true := by
  have hdocument : Yaml.Document.ofOctets (Text.octets (compact (.obj fields))) =
      Yaml.Document.ofChars (chars (.obj fields)) := by
    rw [compact, hsorted]
    exact ofOctets_ofList _
  obtain ⟨hread, hrefuse⟩ := ofChars_object fields
  by_cases hreadable : Readable (.obj fields)
  · have hback : Yaml.jsonOfOctets (Text.octets (compact (.obj fields))) =
        .ok (readBack (.obj fields)) := by
      rw [Yaml.jsonOfOctets, hdocument, hread hreadable]
      exact Yaml.Reading.run_eq_ok (jsonOfNode_node _ _ hfloats _ hdepth 0)
    rw [hback, Except.ok.injEq, readBack_eq_self_iff hsorted]
    constructor
    · exact fun hfixed ↦ ⟨fun t ht ↦ ⟨hreadable.allowed t ht,
        keepsLines_of_rereadText (hreadable.closed t ht) (hfixed t ht)⟩, hreadable.keys⟩
    · exact fun hlegible t ht ↦ (hlegible.1 t ht).rereadText
  · obtain ⟨cause, hcause⟩ := hrefuse hreadable
    have hfails : Yaml.jsonOfOctets (Text.octets (compact (.obj fields))) = .error cause := by
      rw [Yaml.jsonOfOctets, hdocument, hcause]
      rfl
    rw [hfails]
    refine ⟨fun h ↦ absurd h (by simp), fun hlegible ↦ absurd ?_ hreadable⟩
    refine ⟨fun t ht ↦ (hlegible.1 t ht).allowed, fun t ht ↦ ?_, hlegible.2⟩
    rw [(hlegible.1 t ht).reread]
    rfl

/-- Of the documents that a search has found, a catalog over their embed source gives back those in
which every string is legible and every key fits, and no other. -/
theorem Catalog.document_embedded_iff {d d' : Disk} {s : Search} {found : Discovery}
    {label : String} {c : Catalog} (hfound : discover d s = .ok found)
    (hfloats : ∀ f ∈ found.documents, ∀ x ∈ floats f.2, FloatReadsBack x)
    (hopen : Catalog.ofSource d' (.ofPayload label found.manifest found.documents) = .ok c) :
    ∀ e ∈ found.manifest.modules, ∃ v, found.documents.find? (documentFilename e.name) = some v ∧
      (c.document d' e.name = .ok v ↔
        (∀ t ∈ texts v, IsLegible t) ∧ ∀ k ∈ keys v, fitsKey k = true) := by
  intro e he
  have hwell := discover_isWellFound hfound
  obtain ⟨hsource, hmanifest, hproblems⟩ := manifest_of_ofPayload hopen
  obtain ⟨hname, hhas⟩ := hwell.entries e (List.mem_reverse.mpr he)
  obtain ⟨v, hv⟩ := Option.isSome_iff_exists.mp hhas
  have hmem := Dictionary.mem_of_find? hv
  obtain ⟨_, _, ⟨text, htext⟩, fields, rfl⟩ := hwell.documents _ hmem
  refine ⟨_, hv, ?_⟩
  -- The entry that the catalog finds has the name, and may otherwise differ from the one sought.
  obtain ⟨e', hfind⟩ : ∃ e', c.module? e.name = some e' := by
    refine Option.isSome_iff_exists.mp (List.find?_isSome.mpr ⟨e.reread, ?_, ?_⟩)
    · rw [hmanifest]
      exact List.mem_map_of_mem he
    · exact beq_iff_eq.mpr (rereadText_of_isModuleName hname)
  obtain ⟨hmodule, hsame⟩ := module?_eq_some hfind
  have hpath : e'.pathMatches = true := by
    rw [hmanifest] at hmodule
    exact (Manifest.valid_of_problems hproblems e' hmodule).2
  have hbytes : c.documentOctets d' e' = .ok (Text.octets (compact (.obj fields))) :=
    documentOctets_of_ofPayload hsource
      (fun f hf ↦ ⟨(hwell.documents f hf).1, (hwell.documents f hf).2.1⟩) hpath
      (by rw [hsame]; exact hv)
  rw [document_eq_ok_iff hfind hbytes]
  exact jsonOfOctets_compact_iff (Yaml.sorted_of_jsonOfText htext)
    (Yaml.nesting_le_of_jsonOfText htext) (hfloats _ hmem)

/-- A search that finds one document, with a string of two lines. -/
def Discovery.ofTwoLines : Discovery :=
  ⟨.ofModules [⟨"dns", "u", "dns.openapi.yaml", "", "", "names\nand zones"⟩],
    [("dns.openapi.yaml",
      .obj [("$id", .str "u"), ("info", .obj [("summary", .str "names\nand zones")])])], []⟩

/-- The disk with that document. -/
def Files.Disk.ofTwoLines : Disk :=
  ⟨.directory [(Text.encode "dns.openapi.yaml".toList,
    .file (Text.octets "$id: u\ninfo: \x7bsummary: \"names\\nand zones\"\x7d\n"))], []⟩

set_option maxRecDepth 4000 in
/-- The document is found, and comes out of its embed source. -/
theorem Catalog.document_embedded_two_lines :
    let s := Source.ofPayload "embed" Discovery.ofTwoLines.manifest Discovery.ofTwoLines.documents
    (discover .ofTwoLines ⟨".", ".", defaultExtensionPrefix⟩ = .ok .ofTwoLines ∧
      (∀ f ∈ Discovery.ofTwoLines.documents, ∀ x ∈ floats f.2, FloatReadsBack x) ∧
      Catalog.ofSource .ofTwoLines s = .ok ⟨s, Discovery.ofTwoLines.manifest⟩) ∧
    ∀ e ∈ Discovery.ofTwoLines.manifest.modules, ∃ v,
      Discovery.ofTwoLines.documents.find? (documentFilename e.name) = some v ∧
        Catalog.document .ofTwoLines ⟨s, Discovery.ofTwoLines.manifest⟩ e.name = .ok v := by
  intro s
  have hnames : Discovery.listNames .ofTwoLines "." = .ok ["dns.openapi.yaml"] :=
    Discovery.listNames_of_list rfl
  have hfound : discover .ofTwoLines ⟨".", ".", defaultExtensionPrefix⟩ = .ok .ofTwoLines := by
    rw [discover, hnames]
    rfl
  have hfloats : ∀ f ∈ Discovery.ofTwoLines.documents, ∀ x ∈ floats f.2, FloatReadsBack x := by
    intro f hf x hx
    rw [List.mem_singleton.mp hf] at hx
    exact absurd hx List.not_mem_nil
  have hopen : Catalog.ofSource .ofTwoLines s = .ok ⟨s, Discovery.ofTwoLines.manifest⟩ := rfl
  refine ⟨⟨hfound, hfloats, hopen⟩, fun e he ↦ ?_⟩
  obtain ⟨v, hv, hread⟩ := document_embedded_iff hfound hfloats hopen e he
  refine ⟨v, hv, hread.mpr ?_⟩
  rw [List.mem_singleton.mp he] at hv
  rw [← Option.some.inj hv]
  decide

end ApiManifest
