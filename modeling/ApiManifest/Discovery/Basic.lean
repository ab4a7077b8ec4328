import ApiManifest.Discovery.Failure
import ApiManifest.Files.Relative
import ApiManifest.Yaml.Json

/-!
The search for modules. The names in the source directory are taken in ascending order; the
manifest's own file is passed over, a document becomes a module, and every other name is told as
ignored. The first document that cannot be loaded or has no header ends the search.
-/

set_option autoImplicit false

namespace ApiManifest

open Files

/-- Reads a schema document from its file. -/
def loadDocument (d : Disk) (path : String) : Except Discovery.LoadFailure Json :=
  match d.readText path with
  | .error cause => .error (.read path cause)
  | .ok text =>
    match Yaml.jsonOfText text with
    | .error cause => .error (.parse path cause)
    | .ok document => .ok document

/-- Where modules are looked for: the directory of the documents, the directory from which their
paths are told, and the prefix of the extension fields. -/
structure Search where
  source : String
  output : String
  extension : String
  deriving DecidableEq, Repr

/-- What a search finds. -/
structure Discovery where
  manifest : Manifest
  documents : Documents
  ignored : List String

namespace Discovery

/-- What has been found so far; the ignored names have the last one first. -/
structure Findings where
  builder : Builder
  ignored : List String

def Findings.empty : Findings := ⟨.empty, []⟩

/-- The document with a file name in the source directory, and its entry for the manifest. -/
def moduleAt (d : Disk) (s : Search) (name filename : String) : Except Failure (Json × Entry) := do
  let path := Path.join s.source filename
  match loadDocument d path with
  | .error cause => throw (.load cause)
  | .ok document =>
    match Header.ofDocument s.extension document with
    | .error field => throw (.invalid path (.missing field))
    | .ok header =>
      return (document, .ofHeader name (d.relative path s.output) header)

/-- Takes the next name of the source directory. -/
def Findings.take (d : Disk) (s : Search) (found : Findings) (filename : String) :
    Except Failure Findings :=
  if isManifestFilename filename then .ok found
  else match moduleOfFilename? filename with
    | none => .ok { found with ignored := filename :: found.ignored }
    | some name => do
      let (document, entry) ← moduleAt d s name filename
      match found.builder.push filename document entry with
      | .error cause => throw (.invalid (Path.join s.source filename) (.collision cause))
      | .ok builder => return { found with builder }

/-- The names in a directory in ascending order; what is not text in a name is shown as U+FFFD. -/
def listNames (d : Disk) (path : String) : Except Refusal (List String) :=
  (d.list path).map fun names =>
    (names.map Text.textLossy).mergeSort fun a b => decide (a ≤ b)

end Discovery

/-- Finds the modules of a source directory. -/
def discover (d : Disk) (s : Search) : Except Discovery.Failure Discovery :=
  match Discovery.listNames d s.source with
  | .error cause => .error (.list s.source cause)
  | .ok names => do
    let found ← names.foldlM (Discovery.Findings.take d s) .empty
    let (manifest, documents) := found.builder.build
    return ⟨manifest, documents, found.ignored.reverse⟩

end ApiManifest
