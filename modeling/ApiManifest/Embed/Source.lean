import ApiManifest.Embed.Target
import ApiManifest.Manifest.Builder
import ApiManifest.Text.Utf8

/-!
The embed source: a program text with the manifest and the documents of its modules in a table. The
payload is the manifest followed by the documents in the order of their file names, each as compact
JSON; the source is made of pieces, whose octets are written one after the other. As a text it is
what these octets show.
-/

set_option autoImplicit false

namespace ApiManifest.Embed

/-- The files of an embed source. -/
def payload (m : Manifest) (documents : Documents) : List File :=
  ⟨manifestFilename, m.toJson.compact⟩ :: documents.map fun d => ⟨d.1, d.2.compact⟩

/-- How an embed source is written. -/
structure Options where
  target : Target
  package : String
  deriving DecidableEq, Repr

/-- The pieces of an embed source in the order in which they are written. -/
def pieces (o : Options) (m : Manifest) (documents : Documents) : List String :=
  o.target.header o.package :: ((payload m documents).map o.target.line ++ [o.target.footer])

/-- The octets of an embed source, piece after piece. -/
def octets (o : Options) (m : Manifest) (documents : Documents) :
    Except BadPackage (List UInt8) := do
  o.target.checkPackage o.package
  return (pieces o m documents).flatMap Text.octets

/-- The text of an embed source. -/
def render (o : Options) (m : Manifest) (documents : Documents) : Except BadPackage String :=
  (octets o m documents).map Text.textLossy

end ApiManifest.Embed
