import ApiManifest.Json.Compact
import ApiManifest.Manifest.Basic
import ApiManifest.Yaml.Record
import ApiManifest.Yaml.Writer

/-!
The manifest as YAML text. It is written as a block of the version and the modules, each module a
block of its fields, and read from any YAML text with these fields. Reading takes the text of
scalars as it is written and passes over unknown fields; a field that is missing or repeated is an
error.
-/

set_option autoImplicit false

namespace ApiManifest.Manifest

open Yaml

/-- The lines of an entry: its fields under a dash. -/
def entryChars (e : Entry) : List Char :=
  let lines := e.fields.map fun f => fieldChars f.1 4 f.2
  match lines with
  | [] => []
  | first :: rest => '-' :: ' ' :: first ++ rest.flatMap fun line => ' ' :: ' ' :: line

/-- The characters of the manifest. -/
def yamlChars (m : Manifest) : List Char :=
  fieldChars "version" 2 m.version ++
    if m.modules.isEmpty then "modules: []\n".toList
    else "modules:\n".toList ++ m.modules.flatMap entryChars

/-- The YAML text of the manifest. -/
def render (m : Manifest) : String := String.ofList (yamlChars m)

/-- Reads an entry. -/
def entryOfNode (d : Document) (n : Node) : Reading Entry := do
  let fields ← Record.fields d n
  return {
    name := ← Record.text d "name" fields
    url := ← Record.text d "url" fields
    path := ← Record.text d "path" fields
    version := ← Record.text d "version" fields
    description := ← Record.text d "description" fields
    summary := ← Record.text d "summary" fields }

/-- Reads a manifest. -/
def ofNode (d : Document) (n : Node) : Reading Manifest := do
  let fields ← Record.fields d n
  let version ← Record.text d "version" fields
  let items ← Record.items d (← Record.field "modules" fields)
  return ⟨version, ← items.mapM (entryOfNode d)⟩

/-- Reads a manifest from the octets of a YAML text. -/
def ofOctets (bytes : List UInt8) : Except Error Manifest := do
  match ← Document.ofOctets bytes with
  | some d => (ofNode d d.root).run
  | none => throw .field

end ApiManifest.Manifest
