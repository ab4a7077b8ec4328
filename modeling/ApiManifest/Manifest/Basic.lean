import ApiManifest.Module.Header
import ApiManifest.Module.Name

/-!
The manifest: a format version and an entry for each module, in order. An entry tells where the
module's document is and what its header says of it.
-/

set_option autoImplicit false

namespace ApiManifest

/-- The entry of a module in the manifest. -/
structure Entry where
  name : String
  url : String
  path : String
  version : String
  description : String
  summary : String
  deriving DecidableEq, Repr

namespace Entry

/-- The entry of a module whose document has the given header. -/
def ofHeader (name path : String) (h : Header) : Entry :=
  { name, path, url := h.id, version := h.info.resolvedVersion,
    description := h.info.resolvedDescription, summary := h.info.resolvedSummary }

/-- The fields of an entry with their keys, in the order in which they are written. -/
def fields (e : Entry) : List (String × String) :=
  [("name", e.name), ("url", e.url), ("path", e.path), ("version", e.version),
    ("description", e.description), ("summary", e.summary)]

/-- The entry as a JSON value. -/
def toJson (e : Entry) : Json := .obj (e.fields.map fun f => (f.1, .str f.2))

end Entry

/-- The version of the manifest format. -/
def formatVersion : String := "1.0.0"

/-- A manifest. -/
structure Manifest where
  version : String
  modules : List Entry
  deriving DecidableEq, Repr

namespace Manifest

/-- The manifest of the given modules in the current format. -/
def ofModules (modules : List Entry) : Manifest := ⟨formatVersion, modules⟩

/-- The first entry with a name. -/
def find? (name : String) (m : Manifest) : Option Entry :=
  m.modules.find? (·.name == name)

/-- The manifest as a JSON value. -/
def toJson (m : Manifest) : Json :=
  .obj [("modules", .arr (m.modules.map Entry.toJson)), ("version", .str m.version)]

end Manifest

end ApiManifest
