import ApiManifest.Files.Access
import ApiManifest.Settings.Basic
import ApiManifest.Yaml.Record

/-!
The settings file: a YAML mapping with fields for the target, the package and the extension prefix.
A field that is left out or null leaves its setting open; an unknown or repeated field is an error.
-/

set_option autoImplicit false

namespace ApiManifest.Preferences

open Files Yaml

/-- The fields that a settings file may have. -/
def keys : List String := ["target", "package", "extension_prefix"]

/-- The language that a node names by its text, or by a local tag on nothing. -/
def targetOfNode (d : Document) (n : Node) : Reading Embed.Target := do
  match ← Reading.content d n with
  | .scalar tag style s =>
    let name ← match localText? tag with
      | .none => pure s
      | some name =>
        if style == .plain && (s.isEmpty || isNullWord s) then pure name else Reading.fail .kind
    match Embed.Target.ofName? name with
    | some t => return t
    | .none => Reading.fail .kind
  | _ => Reading.fail .kind

/-- Reads a field that may be left out or null. -/
def optional {α : Type} (d : Document) (key : String) (fields : List (String × Node))
    (read : Node → Reading α) : Reading (Option α) := do
  match ← Record.field? key fields with
  | .none => return .none
  | some n =>
    match ← Record.content? d n with
    | .none => return .none
    | some n => return some (← read n)

/-- Reads preferences. -/
def ofNode (d : Document) (n : Node) : Reading Preferences := do
  let fields ← Record.fields d n
  if !fields.all fun f => keys.contains f.1 then Reading.fail .field
  return {
    target := ← optional d "target" fields (targetOfNode d)
    package := ← optional d "package" fields (Reading.text d)
    extension := ← optional d "extension_prefix" fields (Reading.text d) }

/-- Reads preferences from the octets of a YAML text; an empty text leaves everything open. -/
def ofOctets (bytes : List UInt8) : Except Error Preferences := do
  match ← Document.ofOctets bytes with
  | some d => (ofNode d d.root).run
  | .none => return .none

/-- Why a settings file cannot be used. -/
inductive Failure where
  | missing (path : String) (cause : Refusal)
  | invalid (path : String) (cause : Error)
  deriving DecidableEq, Repr

def Failure.message : Failure → String
  | missing path cause => "failed to open config " ++ path ++ ": " ++ cause.message
  | invalid path cause => "invalid config " ++ path ++ ": " ++ cause.message

/-- Reads preferences from a file. -/
def load (d : Disk) (path : String) : Except Failure Preferences :=
  match d.contents? path with
  | .error cause => .error (.missing path cause)
  | .ok .none => .error (.invalid path .unreadable)
  | .ok (some contents) => (ofOctets contents).mapError (.invalid path)

end ApiManifest.Preferences
