import ApiManifest.Manifest.Basic
import ApiManifest.Text.Blank
import ApiManifest.Text.Quoted

/-!
What can be wrong with a manifest. Of another format nothing more is said than that; in the current
one every entry is judged by itself and by the names before it. An entry whose name is no module
name is told once and not judged further, and its name does not count as taken.
-/

set_option autoImplicit false

namespace ApiManifest

/-- What is wrong with a manifest. -/
inductive Problem where
  | unsupportedVersion (found : String)
  | invalidModuleName (name : String)
  | duplicateModule (name : String)
  | emptyUrl (name : String)
  | invalidPath (name path : String)
  deriving DecidableEq, Repr

namespace Problem

def message : Problem → String
  | unsupportedVersion found =>
    "unsupported index version " ++ Text.quoted found ++ " (expected " ++
      Text.quoted formatVersion ++ ")"
  | invalidModuleName name => "invalid module name: " ++ Text.quoted name
  | duplicateModule name => "duplicate module in index: " ++ name
  | emptyUrl name => "module " ++ name ++ " has an empty url"
  | invalidPath name path => "module " ++ name ++ " has unexpected path " ++ Text.quoted path

end Problem

/-- What follows the last slash of a path. -/
def lastSegment (path : String) : String :=
  String.ofList (path.toList.reverse.takeWhile (· != '/')).reverse

namespace Entry

/-- Whether the path ends in the file name of the module. -/
def pathMatches (e : Entry) : Bool :=
  stripSuffix? moduleSuffix (lastSegment e.path) == some e.name

/-- What is wrong with an entry whose name is a module name, `taken` being the names before it. -/
def problems (taken : List String) (e : Entry) : List Problem :=
  (if taken.contains e.name then [.duplicateModule e.name] else []) ++
    (if Text.AllBlank e.url then [.emptyUrl e.name] else []) ++
    (if e.pathMatches then [] else [.invalidPath e.name e.path])

end Entry

/-- What is wrong with entries that follow the given names. -/
def entryProblems (taken : List String) : List Entry → List Problem
  | [] => []
  | e :: rest =>
    if isModuleName e.name then e.problems taken ++ entryProblems (e.name :: taken) rest
    else .invalidModuleName e.name :: entryProblems taken rest

namespace Manifest

/-- What is wrong with a manifest, in the order of its entries. -/
def problems (m : Manifest) : List Problem :=
  if m.version = formatVersion then entryProblems [] m.modules
  else [.unsupportedVersion m.version]

end Manifest

end ApiManifest
