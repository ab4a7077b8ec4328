/-!
Names of modules. A module has a name of lower case ASCII letters, digits and hyphens, and its
document is the file with that name and the module suffix. The manifest's own file fits the pattern
and yet is no module's document.
-/

set_option autoImplicit false

namespace ApiManifest

/-- The name of the manifest file. -/
def manifestFilename : String := "index.openapi.yaml"

/-- What follows the name of a module in the name of its document. -/
def moduleSuffix : String := ".openapi.yaml"

/-- Holds of the characters of a module name. -/
def isNameChar (c : Char) : Bool :=
  ('a' ≤ c && c ≤ 'z') || ('0' ≤ c && c ≤ '9') || c == '-'

/-- Holds of the texts that can name a module. -/
def isModuleName (name : String) : Bool := !name.isEmpty && name.toList.all isNameChar

/-- The text before a suffix. -/
def stripSuffix? (suffix s : String) : Option String :=
  if suffix.toList.isSuffixOf s.toList then
    some (String.ofList (s.toList.take (s.length - suffix.length)))
  else none

/-- The module whose document a file name denotes. -/
def moduleOfFilename? (filename : String) : Option String :=
  let name := String.ofList (filename.toList.takeWhile isNameChar)
  let rest := filename.toList.dropWhile isNameChar
  if name.isEmpty || rest != moduleSuffix.toList then none else some name

def isManifestFilename (filename : String) : Bool := filename == manifestFilename

/-- The name of a module's document. -/
def documentFilename (name : String) : String := name ++ moduleSuffix

end ApiManifest
