import ApiManifest.Yaml.Assembly
import ApiManifest.Yaml.Scanner

/-!
A YAML text as a document: its characters are placed, cut into tokens, and assembled. Octets and
text go the same way once their characters are known.
-/

set_option autoImplicit false

namespace ApiManifest.Yaml

/-- The one document of a text given as characters. -/
def Document.ofChars (cs : List Char) : Except Error (Option Document) := do
  let gs ← glyphs cs
  let tokens ← scan gs
  Document.ofTokens tokens

/-- The one document of a text given as octets. -/
def Document.ofOctets (bytes : List UInt8) : Except Error (Option Document) := do
  let cs ← decodeOctets bytes
  Document.ofChars cs

/-- The one document of a text. -/
def Document.ofText (text : String) : Except Error (Option Document) :=
  Document.ofChars text.toList

end ApiManifest.Yaml
