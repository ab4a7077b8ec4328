import ApiManifest.Catalog.Source
import ApiManifest.Manifest.Text
import ApiManifest.Manifest.Validation
import ApiManifest.Yaml.Json

/-!
The catalog of the modules that a source holds. It opens only over a manifest with which nothing is
wrong. The document of a module is looked for where its entry says and, if nothing is there, under
the plain file name of the module.
-/

set_option autoImplicit false

namespace ApiManifest

open Files

/-- A source of files with its manifest. -/
structure Catalog where
  source : Source
  manifest : Manifest

namespace Catalog

/-- Why a catalog does not open or has no document to give. -/
inductive Failure where
  | source (cause : Source.Failure)
  | yaml (cause : Yaml.Error)
  | invalid (problems : List Problem)
  | unknownModule (name : String)
  deriving DecidableEq, Repr

def Failure.message : Failure → String
  | source cause => cause.message
  | yaml cause => "YAML error: " ++ cause.message
  | invalid problems => "invalid index: " ++ "; ".intercalate (problems.map Problem.message)
  | unknownModule name => "unknown module " ++ Text.quoted name

/-- Opens the catalog over a source. -/
def ofSource (d : Disk) (s : Source) : Except Failure Catalog := do
  let bytes ← (s.load d manifestFilename).mapError .source
  let manifest ← (Manifest.ofOctets bytes).mapError .yaml
  if manifest.problems.isEmpty then return ⟨s, manifest⟩
  else throw (.invalid manifest.problems)

/-- The entry of a module. -/
def module? (c : Catalog) (name : String) : Option Entry := c.manifest.find? name

/-- The octets of the document of a module. -/
def documentOctets (d : Disk) (c : Catalog) (e : Entry) : Except Source.Failure Octets :=
  match c.source.load d e.path with
  | .error (.missing _) => c.source.load d (documentFilename e.name)
  | answer => answer

/-- The document of a module. -/
def document (d : Disk) (c : Catalog) (name : String) : Except Failure Json :=
  match c.module? name with
  | none => .error (.unknownModule name)
  | some e => do
    let bytes ← (c.documentOctets d e).mapError .source
    (Yaml.jsonOfOctets bytes).mapError .yaml

end Catalog

end ApiManifest
