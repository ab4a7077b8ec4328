import ApiManifest.Embed.Source
import ApiManifest.Proofs.Text.Utf8

/-!
An embed source as octets and as text. The pieces of a source are texts, so the octets that are
written for it are those of the pieces joined (`octets_eq_ok`), and nothing is lost when they are
read as text again (`render_eq_ok`).
-/

set_option autoImplicit false
set_option relaxedAutoImplicit false

namespace ApiManifest.Embed

variable {o : Options} {m : Manifest} {documents : Documents}

theorem octets_eq_ok (hpackage : o.target.checkPackage o.package = .ok ()) :
    octets o m documents = .ok (Text.octets (String.join (pieces o m documents))) := by
  rw [octets, hpackage, Text.octets_join]
  rfl

theorem render_eq_ok (hpackage : o.target.checkPackage o.package = .ok ()) :
    render o m documents = .ok (String.join (pieces o m documents)) := by
  rw [render, octets_eq_ok hpackage, Except.map, Text.textLossy_octets]

/-- The pieces in a row: the header, the lines of the table, and the footer. -/
theorem join_pieces :
    String.join (pieces o m documents) = o.target.header o.package ++
      String.join ((payload m documents).map o.target.line) ++ o.target.footer := by
  rw [pieces, String.join_cons, String.join_append, String.join_cons, String.join_nil,
    String.append_empty, String.append_assoc]

/-- Lines that are joined are written one after the other, with a line feed between them. -/
theorem octets_joinLines (lines : List String) :
    Text.octets (joinLines lines) = Text.encode (['\n'].intercalate (lines.map String.toList)) := by
  rw [Text.octets, joinLines, String.toList_intercalate]
  rfl

/-! ### Payloads -/

theorem map_name_payload :
    (payload m documents).map File.name = manifestFilename :: documents.keys := by
  rw [payload, List.map_cons, List.map_map]
  rfl

theorem map_data_payload : (payload m documents).map File.data =
    (m.toJson :: documents.map Prod.snd).map Json.compact := by
  rw [payload, List.map_cons, List.map_map, List.map_cons, List.map_map]
  rfl

end ApiManifest.Embed
