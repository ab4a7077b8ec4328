import ApiManifest.Proofs.Catalog.Opened
import ApiManifest.Proofs.Catalog.Table

/-!
A directory before the embed source of what a search has found. If the directory has no manifest,
the catalog over both has that of the embed source. A document is the file of the directory at the
path of its entry, or else the one under the file name of its module, or else that of the embed
source (`Catalog.documentOctets_of_pair`): although the embed source is asked for the path before
the directory is asked for the file name, it has nothing there unless the two are the same. A file
of the directory that cannot be read is told as such (`Catalog.document_of_shadowed`).
-/

set_option autoImplicit false
set_option relaxedAutoImplicit false

namespace ApiManifest

open Files

namespace Catalog

variable {d : Disk} {c : Catalog} {e : Entry} {s t : Source}

/-- Of two sources the first is asked for the path of an entry and for the file name of its module
before the second gives an answer, if the path leads to nothing in the second but the module's own
file. -/
theorem documentOctets_of_pair (hsource : c.source = .chain [s, t])
    (hpath : e.path = documentFilename e.name ∨ t.Lacks d e.path) :
    (¬ s.Lacks d e.path → c.documentOctets d e = s.load d e.path) ∧
      (s.Lacks d e.path → ¬ s.Lacks d (documentFilename e.name) →
        c.documentOctets d e = s.load d (documentFilename e.name)) ∧
      (s.Lacks d e.path → s.Lacks d (documentFilename e.name) →
        c.documentOctets d e = t.load d (documentFilename e.name)) := by
  have hfirst {name : String} (h : ¬ s.Lacks d name) : c.source.load d name = s.load d name := by
    rw [hsource, Source.load_chain_of_not_lacks h]
  have hsecond {name : String} (h : s.Lacks d name) : c.source.load d name = t.load d name := by
    rw [hsource, Source.load_chain_of_lacks h, Source.load_chain_singleton]
  refine ⟨fun hhas ↦ ?_, fun hlacks hhas ↦ ?_, fun hlacks hlacks' ↦ ?_⟩
  · have hnot : ¬ c.source.Lacks d e.path := by rwa [Source.Lacks, hfirst hhas]
    rw [documentOctets_of_not_lacks hnot, hfirst hhas]
  · have hmissing : t.Lacks d e.path := hpath.resolve_left fun hsame ↦ hhas (hsame ▸ hlacks)
    rw [documentOctets_of_lacks ((hsecond hlacks).trans hmissing), hfirst hhas]
  · by_cases hmissing : t.Lacks d e.path
    · rw [documentOctets_of_lacks ((hsecond hlacks).trans hmissing), hsecond hlacks']
    · have hnot : ¬ c.source.Lacks d e.path := by rwa [Source.Lacks, hsecond hlacks]
      rw [documentOctets_of_not_lacks hnot, hsecond hlacks, hpath.resolve_right hmissing]

/-- The entries of a catalog over an embed source are found under the names of the modules of what
was embedded, and their paths are file names of no other modules. -/
theorem entry_of_embedded {d' : Disk} {s : Search} {found : Discovery} {label : String}
    (hfound : discover d' s = .ok found) (hopen : ofSource d (found.embedded label) = .ok c)
    (he : e ∈ c.manifest.modules) :
    c.module? e.name = some e ∧ e.NamesNoOther ∧
      ∃ v, found.documents.find? (documentFilename e.name) = some v := by
  obtain ⟨-, hmanifest, hproblems⟩ := manifest_of_ofPayload hopen
  rw [← hmanifest] at hproblems
  obtain ⟨-, hvalid, hnames⟩ := Manifest.problems_eq_nil_iff.mp hproblems
  refine ⟨Manifest.find?_of_mem hnames he, Entry.namesNoOther_of_pathMatches (hvalid e he).path, ?_⟩
  rw [hmanifest] at he
  obtain ⟨e₀, he₀, rfl⟩ := List.mem_map.mp he
  obtain ⟨v, -, hv⟩ := exists_moduleAt_of_discover hfound he₀
  have hname : isModuleName e₀.name = true :=
    ((discover_isWellFound hfound).entries e₀ (List.mem_reverse.mpr he₀)).1
  have hsame : e₀.reread.name = e₀.name := rereadText_of_isModuleName hname
  exact ⟨v, by rw [hsame, hv]⟩

/-- A directory without a manifest before an embed source: the catalog has the manifest of the embed
source, and the octets of a document are those of the directory at the path of its entry, or else,
if nothing is there, those under the file name of its module, or else those of the embed source. An
answer of the directory other than that there is no such file is given as it is. The files may have
changed since the catalog was opened. -/
theorem document_of_shadowed {d d₁ : Disk} {s : Search} {found : Discovery}
    {label dir : String} {c : Catalog} (hfound : discover d s = .ok found)
    (hlacks : (Source.directory dir).Lacks d₁ manifestFilename)
    (hopen : ofSource d₁ (.chain [.directory dir, found.embedded label]) = .ok c) :
    ofSource d₁ (found.embedded label) = .ok ⟨found.embedded label, c.manifest⟩ ∧
    ∀ d₂, ∀ e ∈ c.manifest.modules, ∃ v,
      found.documents.find? (documentFilename e.name) = some v ∧
      c.document d₂ e.name = ((c.documentOctets d₂ e).mapError .source).bind
        (fun bytes ↦ (Yaml.jsonOfOctets bytes).mapError .yaml) ∧
      (¬ (Source.directory dir).Lacks d₂ e.path →
        c.documentOctets d₂ e = (Source.directory dir).load d₂ e.path) ∧
      ((Source.directory dir).Lacks d₂ e.path →
        ¬ (Source.directory dir).Lacks d₂ (documentFilename e.name) →
        c.documentOctets d₂ e = (Source.directory dir).load d₂ (documentFilename e.name)) ∧
      ((Source.directory dir).Lacks d₂ e.path →
        (Source.directory dir).Lacks d₂ (documentFilename e.name) →
        c.documentOctets d₂ e = .ok (Text.octets v.compact)) := by
  have hload : (Source.chain [.directory dir, found.embedded label]).load d₁ manifestFilename =
      (found.embedded label).load d₁ manifestFilename := by
    rw [Source.load_chain_of_lacks hlacks, Source.load_chain_singleton]
  have htable := ofSource_of_load_eq hload hopen
  have hsource : c.source = .chain [.directory dir, found.embedded label] :=
    (ofSource_eq_ok_iff.mp hopen).1
  refine ⟨htable, fun d₂ e he ↦ ?_⟩
  obtain ⟨hmodule, hown, v, hv⟩ := entry_of_embedded hfound htable he
  have hdocuments := Discovery.documents_of_discover hfound
  obtain ⟨hpath, hfilename, hneither⟩ := documentOctets_of_pair hsource
    (Source.load_ofPayload_path d₂ label found.manifest hdocuments hown hv)
  refine ⟨v, hv, ?_, hpath, hfilename, fun h h' ↦ (hneither h h').trans ?_⟩
  · have hentry : c.module? e.name = some e := hmodule
    rw [document, hentry]
    rfl
  · exact Source.load_ofPayload_own d₂ label found.manifest hdocuments hv

/-- A disk with a directory in which something has the file name of a document, and with no more. -/
def shadowDisk (t : Tree) : Disk :=
  ⟨.directory [(Text.octets "local", .directory [(Text.octets "a.openapi.yaml", t)])], []⟩

/-- The catalog over that directory and, for what it lacks, over what a search has found. -/
def shadowCatalog : Catalog :=
  ⟨.chain [.directory "local", (oneDiscovery "../a.openapi.yaml").embedded "embed"],
    (oneDiscovery "../a.openapi.yaml").manifest⟩

set_option maxRecDepth 4000 in
/-- The path of the document leads out of the directory to nothing. The file name leads to what is
there, which is given if it is a file and refused if it is a directory. Once the directory is gone,
the document that was embedded is given. -/
theorem document_of_shadowed_local :
    (discover oneDocument ⟨".", "out", "x"⟩ = .ok (oneDiscovery "../a.openapi.yaml") ∧
      (Source.directory "local").Lacks (shadowDisk (.file [])) manifestFilename ∧
      ofSource (shadowDisk (.file [])) shadowCatalog.source = .ok shadowCatalog) ∧
    ∀ e ∈ shadowCatalog.manifest.modules,
      shadowCatalog.documentOctets (shadowDisk (.file [104, 105])) e = .ok [104, 105] ∧
      shadowCatalog.documentOctets (shadowDisk (.directory [])) e =
        .error (.unreadable "local/a.openapi.yaml" .isDirectory) ∧
      shadowCatalog.documentOctets ⟨.directory [], []⟩ e =
        .ok (Text.octets (Json.obj [("$id", .str "u"), ("info", .obj [])]).compact) := by
  have hlacks : (Source.directory "local").Lacks (shadowDisk (.file [])) manifestFilename := by rfl
  have hopen : ofSource (shadowDisk (.file [])) shadowCatalog.source = .ok shadowCatalog := by rfl
  refine ⟨⟨discover_beside, hlacks, hopen⟩, fun e he ↦ ?_⟩
  have hdocument := fun d₂ ↦ (document_of_shadowed discover_beside hlacks hopen).2 d₂ e he
  obtain rfl := List.mem_singleton.mp he
  refine ⟨?file, ?directory, ?gone⟩
  case file =>
    have hpath : (Source.directory "local").Lacks (shadowDisk (.file [104, 105]))
        "../a.openapi.yaml" := by rfl
    have hfile : (Source.directory "local").load (shadowDisk (.file [104, 105])) "a.openapi.yaml" =
        .ok [104, 105] := by rfl
    have hnot : ¬ (Source.directory "local").Lacks (shadowDisk (.file [104, 105]))
        "a.openapi.yaml" := by simp [Source.Lacks, hfile]
    obtain ⟨v, -, -, -, hfilename, -⟩ := hdocument (shadowDisk (.file [104, 105]))
    exact (hfilename hpath hnot).trans hfile
  case directory =>
    have hpath : (Source.directory "local").Lacks (shadowDisk (.directory []))
        "../a.openapi.yaml" := by rfl
    have hrefused : (Source.directory "local").load (shadowDisk (.directory [])) "a.openapi.yaml" =
        .error (.unreadable "local/a.openapi.yaml" .isDirectory) := by rfl
    have hnot : ¬ (Source.directory "local").Lacks (shadowDisk (.directory []))
        "a.openapi.yaml" := by simp [Source.Lacks, hrefused]
    obtain ⟨v, -, -, -, hfilename, -⟩ := hdocument (shadowDisk (.directory []))
    exact (hfilename hpath hnot).trans hrefused
  case gone =>
    have hpath : (Source.directory "local").Lacks ⟨.directory [], []⟩ "../a.openapi.yaml" := by rfl
    have hname : (Source.directory "local").Lacks ⟨.directory [], []⟩ "a.openapi.yaml" := by rfl
    obtain ⟨v, hv, -, -, -, hneither⟩ := hdocument ⟨.directory [], []⟩
    have hembedded : some v = some (Json.obj [("$id", .str "u"), ("info", .obj [])]) :=
      hv.symm.trans rfl
    rw [← Option.some.inj hembedded]
    exact hneither hpath hname

end Catalog

end ApiManifest
