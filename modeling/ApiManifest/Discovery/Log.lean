import ApiManifest.Discovery.Basic
import ApiManifest.Log

/-!
What a search for modules logs: each name that it ignores, each document that it loads and each
module that it makes, up to where the search ends.
-/

set_option autoImplicit false

namespace ApiManifest.Discovery

open Files Log

/-- What is logged on the document with a file name in the source directory. -/
def moduleEvents (d : Disk) (s : Search) (name filename : String) : List Event :=
  let path := Path.join s.source filename
  match d.readText path with
  | .error _ => []
  | .ok text =>
    match Yaml.jsonOfText text with
    | .error _ => []
    | .ok document =>
      .loadedDocument path (Text.octets text).length ::
        match Header.ofDocument s.extension document with
        | .error _ => []
        | .ok header => [.indexedModule name header.id]

/-- What is logged when the next name of the source directory is taken. -/
def takeEvents (d : Disk) (s : Search) (filename : String) : List Event :=
  if isManifestFilename filename then []
  else match moduleOfFilename? filename with
    | none => [.ignoredFile filename]
    | some name => moduleEvents d s name filename

/-- What is logged while names are taken, up to the first that ends the search. -/
def eventsFrom (d : Disk) (s : Search) (found : Findings) : List String → List Event
  | [] => []
  | filename :: rest => takeEvents d s filename ++
    match found.take d s filename with
    | .error _ => []
    | .ok found => eventsFrom d s found rest

/-- What a search logs. -/
def events (d : Disk) (s : Search) : List Event :=
  match listNames d s.source with
  | .error _ => []
  | .ok names => eventsFrom d s .empty names

end ApiManifest.Discovery
