import ApiManifest.Json.Basic
import ApiManifest.Number.Layout
import ApiManifest.Text.Blank

/-!
The header of a schema document: its `$id` and the fields of `info` that describe the module. A
field counts when it is a scalar other than null; numbers and truth values count as their text.
Version and description are taken from an extension field before the plain one.
-/

set_option autoImplicit false

namespace ApiManifest

/-- The extension prefix that is used unless another one is asked for. -/
def defaultExtensionPrefix : String := "x-mgc"

/-- The text of a scalar; null, lists and objects have none. -/
def scalarText? : Json → Option String
  | .str s => some s
  | .int n => some (Number.integerText n.val)
  | .float x => some (Number.jsonLayout.text x.val)
  | .bool b => some (if b then "true" else "false")
  | _ => none

/-- The fields of `info` that describe a module, each if it is there. -/
structure Info where
  version : Option String
  description : Option String
  summary : Option String
  extendedVersion : Option String
  extendedDescription : Option String
  deriving DecidableEq, Repr

namespace Info

/-- Reads the fields from an object. -/
def ofFields (extension : String) (fields : List (String × Json)) : Info :=
  let field (key : String) := (Dictionary.find? key fields).bind scalarText?
  { version := field "version"
    description := field "description"
    summary := field "summary"
    extendedVersion := field (extension ++ "-version")
    extendedDescription := field (extension ++ "-description") }

/-- The extension's version, else the plain one, else nothing. -/
def resolvedVersion (i : Info) : String := (i.extendedVersion.or i.version).getD ""

/-- The extension's description, else the plain one, else nothing. -/
def resolvedDescription (i : Info) : String :=
  (i.extendedDescription.or i.description).getD ""

/-- The summary, else the description. -/
def resolvedSummary (i : Info) : String := i.summary.getD i.resolvedDescription

end Info

/-- A field that every schema document must have. -/
inductive RequiredField where
  | id
  | info
  deriving DecidableEq, Repr

namespace RequiredField

/-- The key of the field. -/
def key : RequiredField → String
  | id => "$id"
  | info => "info"

/-- What is said of a document that lacks the field. -/
def missingMessage (f : RequiredField) : String := "missing required field \x60" ++ f.key ++ "\x60"

end RequiredField

/-- The header of a schema document. -/
structure Header where
  id : String
  info : Info
  deriving DecidableEq, Repr

namespace Header

/-- Reads the header of a document. The `$id` must be a scalar that is not blank, and `info` an
object; the first of the two that is not so is missing. -/
def ofDocument (extension : String) (document : Json) : Except RequiredField Header :=
  match (document.field? "$id").bind scalarText? with
  | none => .error .id
  | some id =>
    if Text.AllBlank id then .error .id
    else match document.field? "info" with
      | some (.obj fields) => .ok ⟨id, .ofFields extension fields⟩
      | _ => .error .info

end Header

end ApiManifest
