import ApiManifest.Proofs.Catalog.Opened
import ApiManifest.Proofs.Json.ReadBack
import ApiManifest.Proofs.Manifest.Record

/-!
The compact form of a manifest under a YAML reader.
-/

set_option autoImplicit false
set_option relaxedAutoImplicit false

namespace ApiManifest

open Files Yaml Json

/-- The fields of an entry in key order. -/
def Entry.sortedFields (e : Entry) : List (String × String) :=
  [("description", e.description), ("name", e.name), ("path", e.path), ("summary", e.summary),
    ("url", e.url), ("version", e.version)]

theorem Entry.sortedFields_perm (e : Entry) : e.sortedFields.Perm e.fields := by
  refine List.perm_iff_count.mpr fun f ↦ ?_
  simp only [sortedFields, fields, List.count_cons]
  ac_rfl

theorem Entry.sorted_toJson (e : Entry) :
    e.toJson.sorted = .obj (e.sortedFields.map fun f ↦ (f.1, .str f.2)) := by
  simp only [toJson, fields, List.map_cons, List.map_nil, Json.sorted, Dictionary.ofList,
    Json.sortedFields, List.foldl_cons, List.foldl_nil, Dictionary.insert, String.reduceLT,
    String.reduceEq, if_true, if_false, Entry.sortedFields]

theorem Manifest.sorted_toJson (m : Manifest) :
    m.toJson.sorted = .obj [("modules", .arr (m.modules.map fun e ↦ e.toJson.sorted)),
      ("version", .str m.version)] := by
  simp only [toJson, Json.sorted, Json.sortedFields, Json.sortedItems_eq, List.map_map,
    Dictionary.ofList, List.foldl_cons, List.foldl_nil, Dictionary.insert, String.reduceLT,
    String.reduceEq, if_false]
  rfl

/-- The entry that comes out for an entry. -/
def Entry.reread (e : Entry) : Entry where
  name := rereadText e.name
  url := rereadText e.url
  path := rereadText e.path
  version := rereadText e.version
  description := rereadText e.description
  summary := rereadText e.summary

/-- The manifest that comes out for a manifest. -/
def Manifest.reread (m : Manifest) : Manifest := ⟨rereadText m.version, m.modules.map Entry.reread⟩

/-- The keys of an entry are legible. -/
theorem Entry.spellsRecord_node (e : Entry) :
    Manifest.SpellsRecord (node e.toJson.sorted) e.reread.sortedFields := by
  have hnode : node e.toJson.sorted = .mapping none (e.reread.sortedFields.map fun f ↦
      (.scalar none .marked (rereadText f.1), .scalar none .marked f.2)) := by
    rw [Entry.sorted_toJson, node, fieldNodes_eq]
    rfl
  have hkey : ∀ f ∈ e.reread.sortedFields, rereadText f.1 = f.1 := by
    have hkeys : ∀ k ∈ e.reread.sortedFields.map Prod.fst, rereadText k = k := by
      show ∀ k ∈ ["description", "name", "path", "summary", "url", "version"], rereadText k = k
      decide
    exact fun f hf ↦ hkeys f.1 (List.mem_map_of_mem hf)
  refine ⟨none, _, hnode, List.forall₂_map_left_iff.mpr (List.forall₂_same.mpr fun f hf ↦ ?_)⟩
  exact ⟨⟨none, .marked, by rw [hkey f hf]⟩, ⟨none, .marked, rfl⟩⟩

/-- The compact text of a manifest is read as the manifest with its texts reread. -/
theorem Manifest.ofNode_sorted (d : Document) (m : Manifest) (n : Nat) :
    Manifest.ofNode d (node m.toJson.sorted) n = .ok (m.reread, n) := by
  have hnode : node m.toJson.sorted = .mapping none
      [(.scalar none .marked "modules",
          .sequence none (m.modules.map fun e ↦ node e.toJson.sorted)),
        (.scalar none .marked "version", .scalar none .marked (rereadText m.version))] := by
    have hmodules : rereadText "modules" = "modules" := by decide
    have hversion : rereadText "version" = "version" := by decide
    rw [Manifest.sorted_toJson, node, fieldNodes, fieldNodes, fieldNodes, node, node, itemNodes_eq,
      List.map_map, hmodules, hversion]
    rfl
  have hitems : List.Forall₂ (fun n e ↦ SpellsRecord n (Entry.sortedFields e))
      (m.modules.map fun e ↦ node e.toJson.sorted) m.reread.modules :=
    List.forall₂_map_left_iff.mpr (List.forall₂_map_right_iff.mpr
      (List.forall₂_same.mpr fun e _ ↦ e.spellsRecord_node))
  rw [hnode]
  exact ofNode_eq (m := m.reread) Entry.sortedFields_perm
    (.cons ⟨⟨none, .marked, rfl⟩, rfl⟩ (.cons ⟨⟨none, .marked, rfl⟩, rfl⟩ .nil)) (.swap _ _ _)
    ⟨none, .marked, rfl⟩ hitems none n

theorem Entry.texts_sorted (e : Entry) :
    texts e.toJson.sorted = e.sortedFields.flatMap fun f ↦ [f.1, f.2] := by
  rw [Entry.sorted_toJson, texts, fieldTexts_eq, List.flatMap_map]
  rfl

theorem Entry.keys_sorted (e : Entry) : keys e.toJson.sorted = e.sortedFields.map Prod.fst := by
  rw [Entry.sorted_toJson, keys, fieldKeys_eq, List.flatMap_map]
  rfl

/-- The strings in the compact text of a manifest. -/
theorem Manifest.texts_sorted (m : Manifest) :
    texts m.toJson.sorted = "modules" :: ((m.modules.flatMap fun e ↦ texts e.toJson.sorted) ++
      ["version", m.version]) := by
  rw [Manifest.sorted_toJson]
  show "modules" :: (itemTexts (m.modules.map fun e ↦ e.toJson.sorted) ++
    ["version", m.version]) = _
  rw [itemTexts_eq, List.flatMap_map]

theorem Manifest.keys_sorted (m : Manifest) :
    keys m.toJson.sorted = "modules" :: ((m.modules.flatMap fun e ↦ keys e.toJson.sorted) ++
      ["version"]) := by
  rw [Manifest.sorted_toJson]
  show "modules" :: (itemKeys (m.modules.map fun e ↦ e.toJson.sorted) ++ ["version"]) = _
  rw [itemKeys_eq, List.flatMap_map]

/-- Holds of the entries whose texts are all legible. -/
def Entry.IsLegible (e : Entry) : Prop := ∀ f ∈ e.fields, Json.IsLegible f.2

/-- The keys of a manifest and of its entries, and the version of the format. -/
def Manifest.words : List String :=
  ["modules", "version", "description", "name", "path", "summary", "url", formatVersion]

theorem Manifest.legible_words : ∀ k ∈ words, Json.IsLegible k ∧ fitsKey k = true := by
  have hall : ∀ k ∈ words, k.toList.all isAllowed = true ∧ Json.reread k = some k ∧
      fitsKey k = true := by decide
  intro k hk
  obtain ⟨hallowed, hreread, hfits⟩ := hall k hk
  exact ⟨⟨fun c hc ↦ .inr (List.all_eq_true.mp hallowed c hc),
    (reread_eq_some_iff k).mp hreread⟩, hfits⟩

theorem Entry.mem_words {e : Entry} {f : String × String} (hf : f ∈ e.sortedFields) :
    f.1 ∈ Manifest.words := by
  have hkeys : ∀ k ∈ e.sortedFields.map Prod.fst, k ∈ Manifest.words := by
    show ∀ k ∈ ["description", "name", "path", "summary", "url", "version"], k ∈ Manifest.words
    decide
  exact hkeys f.1 (List.mem_map_of_mem hf)

/-- Every string of a manifest in the current format is one of the words or in an entry. -/
theorem Manifest.mem_texts {m : Manifest} (hversion : m.version = formatVersion) {t : String}
    (ht : t ∈ texts m.toJson.sorted) :
    t ∈ words ∨ ∃ e ∈ m.modules, ∃ f ∈ e.fields, t = f.2 := by
  rw [Manifest.texts_sorted, hversion] at ht
  rcases List.mem_cons.mp ht with rfl | ht
  · exact .inl (by decide)
  rcases List.mem_append.mp ht with ht | ht
  · obtain ⟨e, he, ht⟩ := List.mem_flatMap.mp ht
    rw [Entry.texts_sorted] at ht
    obtain ⟨f, hf, ht⟩ := List.mem_flatMap.mp ht
    rcases List.mem_cons.mp ht with rfl | ht
    · exact .inl (Entry.mem_words hf)
    · exact .inr ⟨e, he, f, e.sortedFields_perm.mem_iff.mp hf, List.mem_singleton.mp ht⟩
  · have hall : ∀ k ∈ ["version", formatVersion], k ∈ words := by decide
    exact .inl (hall t ht)

theorem Manifest.mem_keys {m : Manifest} {k : String} (hk : k ∈ keys m.toJson.sorted) :
    k ∈ words := by
  rw [Manifest.keys_sorted] at hk
  rcases List.mem_cons.mp hk with rfl | hk
  · decide
  rcases List.mem_append.mp hk with hk | hk
  · obtain ⟨e, he, hk⟩ := List.mem_flatMap.mp hk
    rw [Entry.keys_sorted] at hk
    obtain ⟨f, hf, rfl⟩ := List.mem_map.mp hk
    exact Entry.mem_words hf
  · rw [List.mem_singleton.mp hk]
    decide

/-- The text of every field of an entry is a string of the manifest. -/
theorem Manifest.mem_texts_of_field {m : Manifest} {e : Entry} (he : e ∈ m.modules)
    {f : String × String} (hf : f ∈ e.fields) : f.2 ∈ texts m.toJson.sorted := by
  rw [Manifest.texts_sorted]
  refine List.mem_cons_of_mem _ (List.mem_append_left _ (List.mem_flatMap.mpr ⟨e, he, ?_⟩))
  rw [Entry.texts_sorted]
  refine List.mem_flatMap.mpr ⟨f, e.sortedFields_perm.mem_iff.mpr hf, ?_⟩
  exact List.mem_cons_of_mem _ List.mem_cons_self

/-- A manifest in the current format can be read when its entries are legible. -/
theorem Manifest.readable_of_isLegible {m : Manifest} (hversion : m.version = formatVersion)
    (hm : ∀ e ∈ m.modules, e.IsLegible) : Readable m.toJson.sorted := by
  have htexts : ∀ t ∈ texts m.toJson.sorted, Json.IsLegible t := by
    intro t ht
    rcases mem_texts hversion ht with hword | ⟨e, he, f, hf, rfl⟩
    · exact (legible_words t hword).1
    · exact hm e he f hf
  refine ⟨fun t ht ↦ (htexts t ht).allowed, fun t ht ↦ ?_,
    fun k hk ↦ (legible_words k (mem_keys hk)).2⟩
  rw [(htexts t ht).reread]
  rfl

/-- An entry comes out as it went in when its texts do. -/
theorem Entry.reread_eq_self_iff (e : Entry) :
    e.reread = e ↔ ∀ f ∈ e.fields, rereadText f.2 = f.2 := by
  obtain ⟨name, url, path, version, description, summary⟩ := e
  simp [Entry.reread, Entry.fields]

theorem Manifest.reread_eq_self_iff {m : Manifest} (hversion : m.version = formatVersion) :
    m.reread = m ↔ ∀ e ∈ m.modules, e.reread = e := by
  obtain ⟨version, modules⟩ := m
  have hword : rereadText version = version := by
    rw [show version = formatVersion from hversion]
    exact (legible_words formatVersion (by decide)).1.rereadText
  rw [Manifest.reread, hword, Manifest.mk.injEq]
  simp only [true_and]
  rw [← List.map_inj_left, List.map_id']

/-- Octets of the compact text of a manifest are read as the manifest with its texts reread, if they
can be read. -/
theorem Manifest.ofOctets_compact (m : Manifest) :
    (Readable m.toJson.sorted →
        Manifest.ofOctets (Text.octets (compact m.toJson)) = .ok m.reread) ∧
      (¬ Readable m.toJson.sorted →
        ∃ cause, Manifest.ofOctets (Text.octets (compact m.toJson)) = .error cause) := by
  have hdocument : Document.ofOctets (Text.octets (compact m.toJson)) =
      Document.ofChars (chars m.toJson.sorted) := ofOctets_ofList _
  obtain ⟨hread, hrefuse⟩ := ofChars_object
    [("modules", .arr (m.modules.map fun e ↦ e.toJson.sorted)), ("version", .str m.version)]
  rw [← Manifest.sorted_toJson] at hread hrefuse
  rw [Manifest.ofOctets, hdocument]
  refine ⟨fun h ↦ ?_, fun h ↦ ?_⟩
  · rw [hread h]
    exact Reading.run_eq_ok (ofNode_sorted _ m 0)
  · obtain ⟨cause, hcause⟩ := hrefuse h
    exact ⟨cause, by rw [hcause]; rfl⟩

/-- A catalog over the compact text of a manifest with which nothing is wrong opens on that manifest
exactly when every text of every entry is legible. -/
theorem Catalog.ofSource_compact_iff (d : Disk) (s : Source) (m : Manifest)
    (hload : s.load d manifestFilename = .ok (Text.octets (compact m.toJson)))
    (hm : m.problems = []) :
    Catalog.ofSource d s = .ok ⟨s, m⟩ ↔ ∀ e ∈ m.modules, ∀ f ∈ e.fields, Json.IsLegible f.2 := by
  have hversion : m.version = formatVersion := by
    by_contra h
    rw [Manifest.problems, if_neg h] at hm
    exact List.cons_ne_nil _ _ hm
  obtain ⟨hread, hrefuse⟩ := m.ofOctets_compact
  constructor
  · intro hopen e he f hf
    by_cases hreadable : Readable m.toJson.sorted
    · rw [Catalog.ofSource_of_manifest hload (hread hreadable)] at hopen
      split_ifs at hopen
      have hsame : m.reread = m := (Catalog.mk.inj (Except.ok.inj hopen)).2
      have htext := e.reread_eq_self_iff.mp
        ((Manifest.reread_eq_self_iff hversion).mp hsame e he) f hf
      have hmem := Manifest.mem_texts_of_field he hf
      exact ⟨hreadable.allowed _ hmem, keepsLines_of_rereadText (hreadable.closed _ hmem) htext⟩
    · obtain ⟨cause, hcause⟩ := hrefuse hreadable
      rw [Catalog.ofSource_of_error hload hcause] at hopen
      exact absurd hopen (by simp)
  · intro hlegible
    have hreadable := Manifest.readable_of_isLegible hversion hlegible
    have hsame : m.reread = m := (Manifest.reread_eq_self_iff hversion).mpr fun e he ↦
      e.reread_eq_self_iff.mpr fun f hf ↦ (hlegible e he f hf).rereadText
    rw [Catalog.ofSource_of_manifest hload (hread hreadable), hsame, hm]
    rfl

/-- A table with the compact text of a manifest of one module. -/
def Source.ofEntry (e : Entry) : Source :=
  .table "static" [(manifestFilename, Text.octets (compact (Manifest.ofModules [e]).toJson))]

/-- The catalog of a module whose description runs over two lines opens on its manifest. -/
theorem Catalog.ofSource_compact_iff_two_lines :
    let e : Entry := ⟨"dns", "https://a", "dns.openapi.yaml", "1", "names\nand zones", ""⟩
    let d : Disk := ⟨.directory [], []⟩
    ((Source.ofEntry e).load d manifestFilename =
        .ok (Text.octets (compact (Manifest.ofModules [e]).toJson)) ∧
      (Manifest.ofModules [e]).problems = []) ∧
        Catalog.ofSource d (Source.ofEntry e) = .ok ⟨Source.ofEntry e, Manifest.ofModules [e]⟩ := by
  intro e d
  have hload : (Source.ofEntry e).load d manifestFilename =
      .ok (Text.octets (compact (Manifest.ofModules [e]).toJson)) := rfl
  have hproblems : (Manifest.ofModules [e]).problems = [] := by decide
  refine ⟨⟨hload, hproblems⟩, (ofSource_compact_iff d _ _ hload hproblems).mpr ?_⟩
  intro e' he
  rw [List.mem_singleton.mp he]
  decide

end ApiManifest
