import ApiManifest.Files.Access
import ApiManifest.Manifest.Text
import ApiManifest.Path.Basic

/-!
The manifest as a file. It is written to a directory under its fixed name and read from any path.
-/

set_option autoImplicit false

namespace ApiManifest.Manifest

open Files

/-- Why a manifest file cannot be written or read. -/
inductive FileFailure where
  | system (cause : Refusal)
  | yaml (cause : Yaml.Error)
  deriving DecidableEq, Repr

def FileFailure.message : FileFailure → String
  | system cause => "I/O error: " ++ cause.message
  | yaml cause => "YAML error: " ++ cause.message

/-- The path of the manifest file in a directory. -/
def pathIn (dir : String) : String := Path.join dir manifestFilename

/-- Writes a manifest into a directory. -/
def store (d : Disk) (dir : String) (m : Manifest) : Except FileFailure Disk :=
  (d.write (pathIn dir) (Text.octets m.render)).mapError .system

/-- Reads a manifest from a path. -/
def load (d : Disk) (path : String) : Except FileFailure Manifest :=
  match d.contents? path with
  | .error cause => .error (.system cause)
  | .ok none => .error (.yaml .unreadable)
  | .ok (some contents) => (ofOctets contents).mapError .yaml

end ApiManifest.Manifest
