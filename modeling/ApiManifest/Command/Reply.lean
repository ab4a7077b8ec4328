import ApiManifest.Command.Run

/-!
What the program answers to a command line: what it prints, the code with which it ends, and the
files that it leaves. A command line that is not carried out is answered with a text of the parser
of arguments, which is not decided here.
-/

set_option autoImplicit false

namespace ApiManifest.Command

open Files

/-- Whether a command line asks for a display, to which the program gives way. -/
def Usage.isDisplay : Usage → Bool
  | help | version => true
  | _ => false

/-- The name and version of the program, as it displays them. -/
def versionText : String := "oapi-index-gen 0.1.0\n"

/-- What the program answers. -/
structure Reply where
  exit : Nat
  stdout : String
  stderr : String
  disk : Disk

/-- Answers a command line. -/
def reply (texts : Usage → String) (format : Log.Format) (d : Disk) (args : List String) : Reply :=
  match parse args with
  | .error usage =>
    if usage.isDisplay then ⟨0, texts usage, "", d⟩ else ⟨2, "", texts usage, d⟩
  | .ok a =>
    let o := run d a
    ⟨o.exit, o.stdout a, o.stderr a format, o.disk⟩

end ApiManifest.Command
