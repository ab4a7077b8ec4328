import ApiManifest.Catalog.Basic
import ApiManifest.Proofs.Json.Readable
import ApiManifest.Proofs.Yaml.Agreement

/-!
The catalog over the texts that a search takes as schema documents. A document whose keys all stand
for their spellings is the same for the catalog as for the search, and where keys are apart no other
is (`Catalog.document_of_text`): a merge key, or a key like `0x10` that becomes another text, makes
the two differ.
-/

set_option autoImplicit false
set_option relaxedAutoImplicit false

namespace ApiManifest

open Files

namespace Yaml

/-- Holds of the texts in which every key stands for its spelling. -/
def IsVerbatimText (text : String) : Prop :=
  ∀ d, Document.ofText text = .ok (some d) → d.isVerbatim = true

/-- Holds of the texts in which no two keys of a mapping are spelled alike, and a key that is
spelled like the text of another one becomes that text itself. -/
def IsDistinctText (text : String) : Prop :=
  ∀ d, Document.ofText text = .ok (some d) → d.isDistinct = true

theorem ofOctets_octets (text : String) :
    Document.ofOctets (Text.octets text) = Document.ofText text := by
  have hdocument := Json.ofOctets_ofList text.toList
  rw [String.ofList_toList] at hdocument
  exact hdocument

theorem jsonOfOctets_octets {text : String} {document : Option Document}
    (hdocument : Document.ofText text = .ok document) :
    jsonOfOctets (Text.octets text) =
      document.elim (.ok .null) fun d ↦ (jsonOfNode d Reading.depthLimit d.root).run := by
  rw [jsonOfOctets, ofOctets_octets, hdocument]
  cases document <;> rfl

/-- A text in which every key stands for its spelling is the same for both readers. -/
theorem jsonOfOctets_of_isVerbatimText {text : String} {v : Json} (hv : jsonOfText text = .ok v)
    (htext : IsVerbatimText text) : jsonOfOctets (Text.octets text) = .ok v := by
  obtain ⟨document, w, w', hdocument, hw, hmerge, hjson⟩ := jsonOfText_eq_ok_iff.mp hv
  rw [jsonOfOctets_octets hdocument]
  cases document with
  | none =>
    obtain rfl := Except.ok.inj hw
    obtain rfl := Except.ok.inj hmerge
    exact hjson
  | some d =>
    obtain ⟨n, hread⟩ := Reading.run_eq_ok_iff.mp hw
    have hverbatim := htext d hdocument
    obtain ⟨j, hj, hbecomes⟩ := jsonOfNode_of_isVerbatim hread hverbatim
    rw [Value.applyMerge, mergeWithin_of_isVerbatim hread hverbatim] at hmerge
    obtain rfl := Except.ok.inj hmerge
    rw [hbecomes _ v hjson]
    exact Reading.run_eq_ok hj

/-- A text with keys apart is the same for both only if every key stands for its spelling. -/
theorem isVerbatimText_of_jsonOfOctets {text : String} {v : Json} (hv : jsonOfText text = .ok v)
    (htext : IsDistinctText text) (hagree : jsonOfOctets (Text.octets text) = .ok v) :
    IsVerbatimText text := by
  intro d hdocument
  obtain ⟨document, w, w', hdocument', hw, hmerge, hjson⟩ := jsonOfText_eq_ok_iff.mp hv
  obtain rfl : some d = document := Except.ok.inj (hdocument.symm.trans hdocument')
  rw [jsonOfOctets_octets hdocument] at hagree
  obtain ⟨n, hread⟩ := Reading.run_eq_ok_iff.mp hw
  obtain ⟨m, hdirect⟩ := Reading.run_eq_ok_iff.mp hagree
  exact isVerbatim_of_agree hread le_rfl hmerge hjson hdirect (htext d hdocument)

end Yaml

namespace Catalog

theorem document_eq {d : Disk} {c : Catalog} {name : String} {e : Entry} {bytes : Octets}
    (hmodule : c.module? name = some e) (hbytes : c.documentOctets d e = .ok bytes) :
    c.document d name = (Yaml.jsonOfOctets bytes).mapError .yaml := by
  rw [document, hmodule]
  show ((c.documentOctets d e).mapError Catalog.Failure.source).bind _ = _
  rw [hbytes]
  rfl

theorem document_eq_ok_iff {d : Disk} {c : Catalog} {name : String} {e : Entry} {bytes : Octets}
    {v : Json} (hmodule : c.module? name = some e) (hbytes : c.documentOctets d e = .ok bytes) :
    c.document d name = .ok v ↔ Yaml.jsonOfOctets bytes = .ok v := by
  rw [document_eq hmodule hbytes, mapError_eq_ok_iff]

/-- A catalog gives the document of a text as a search takes it if every key stands for its
spelling; where keys are apart, only then. -/
theorem document_of_text {d : Disk} {c : Catalog} {name text : String} {e : Entry} {v : Json}
    (hv : Yaml.jsonOfText text = .ok v) (hmodule : c.module? name = some e)
    (hbytes : c.documentOctets d e = .ok (Text.octets text)) :
    (Yaml.IsVerbatimText text → c.document d name = .ok v) ∧
      (Yaml.IsDistinctText text → c.document d name = .ok v → Yaml.IsVerbatimText text) := by
  rw [document_eq_ok_iff hmodule hbytes]
  exact ⟨Yaml.jsonOfOctets_of_isVerbatimText hv, Yaml.isVerbatimText_of_jsonOfOctets hv⟩

/-- A schema document with the number of a status as a key. -/
def statusText : String := "$id: u\ninfo: \x7b\x7d\nresponses:\n  200: ok\n"

/-- The catalog whose table has that document. -/
def ofStatus : Catalog :=
  ⟨.table "static" [("dns.openapi.yaml", Text.octets statusText)],
    .ofModules [⟨"dns", "u", "dns.openapi.yaml", "", "", ""⟩]⟩

set_option maxRecDepth 4000 in
/-- The document is the same for the catalog as for a search. -/
theorem document_of_text_status :
    (Yaml.jsonOfText statusText = .ok (.obj [("$id", .str "u"), ("info", .obj []),
        ("responses", .obj [("200", .str "ok")])]) ∧
      ofStatus.module? "dns" = some ⟨"dns", "u", "dns.openapi.yaml", "", "", ""⟩ ∧
      ofStatus.documentOctets ⟨.directory [], []⟩ ⟨"dns", "u", "dns.openapi.yaml", "", "", ""⟩ =
        .ok (Text.octets statusText)) ∧
    ofStatus.document ⟨.directory [], []⟩ "dns" = .ok (.obj [("$id", .str "u"), ("info", .obj []),
      ("responses", .obj [("200", .str "ok")])]) := by
  have hv : Yaml.jsonOfText statusText = .ok (.obj [("$id", .str "u"), ("info", .obj []),
      ("responses", .obj [("200", .str "ok")])]) := rfl
  have hmodule : ofStatus.module? "dns" = some ⟨"dns", "u", "dns.openapi.yaml", "", "", ""⟩ := rfl
  have hbytes : ofStatus.documentOctets ⟨.directory [], []⟩
      ⟨"dns", "u", "dns.openapi.yaml", "", "", ""⟩ = .ok (Text.octets statusText) := rfl
  refine ⟨⟨hv, hmodule, hbytes⟩, (document_of_text hv hmodule hbytes).1 fun d hd ↦ ?_⟩
  have hroot : Yaml.Document.ofText statusText = .ok (some (Json.documentOf (.mapping none
      [(.scalar none .plain "$id", .scalar none .plain "u"),
        (.scalar none .plain "info", .mapping none []),
        (.scalar none .plain "responses", .mapping none
          [(.scalar none .plain "200", .scalar none .plain "ok")])]))) := rfl
  rw [hroot] at hd
  rw [← Option.some.inj (Except.ok.inj hd)]
  decide

end Catalog

end ApiManifest
