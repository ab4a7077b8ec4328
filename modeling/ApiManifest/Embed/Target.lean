import ApiManifest.Embed.Literal
import ApiManifest.Embed.Template
import ApiManifest.Text.Quoted

/-!
The languages of an embed source, and what a source in each of them is made of: a header up to the
opening of a table, a line for each embedded file, and a footer that closes the table.
-/

set_option autoImplicit false

namespace ApiManifest.Embed

/-- A language in which an embed source is written. -/
inductive Target where
  | go
  | rust
  deriving DecidableEq, Repr

/-- A file of the embed source: the name under which it is looked up, and its text. -/
structure File where
  name : String
  data : String
  deriving DecidableEq, Repr

/-- The package of a Go source unless another one is asked for. -/
def defaultPackage : String := "openapi"

/-- Holds of the ASCII letters and the underscore. -/
def isLetter (c : Char) : Bool := c.isAlpha || c == '_'

/-- Holds of the texts that are accepted as the name of a package. -/
def isPackageName (name : String) : Bool :=
  match name.toList with
  | [] => false
  | c :: rest => isLetter c && rest.all fun c => isLetter c || c.isDigit

/-- A package name that cannot be written into the source. -/
structure BadPackage where
  name : String
  deriving DecidableEq, Repr

def BadPackage.message (b : BadPackage) : String :=
  "invalid package name " ++ Text.quoted b.name ++ ": must be an identifier"

namespace Target

/-- The name of the language. -/
def name : Target → String
  | go => "go"
  | rust => "rust"

/-- The language with a name. -/
def ofName? (s : String) : Option Target :=
  if s = "go" then some go else if s = "rust" then some rust else none

/-- Refuses a package name that does not suit the language; a Rust source names no package. -/
def checkPackage (t : Target) (package : String) : Except BadPackage Unit :=
  match t with
  | go => if isPackageName package then .ok () else .error ⟨package⟩
  | rust => .ok ()

/-- The text up to the opening of the table. -/
def header (t : Target) (package : String) : String :=
  match t with
  | go => goPreamble ++ package ++ goScaffolding
  | rust => rustScaffolding

/-- The line of the table for a file. -/
def line (t : Target) (f : File) : String :=
  match t with
  | go => String.ofList
      ('\t' :: goLiteral f.name ++ ": ([]byte)(".toList ++ goLiteral f.data ++ "),\n".toList)
  | rust => String.ofList
      ("    (".toList ++ rustLiteral f.name ++ ", ".toList ++ rustLiteral f.data ++
        ".as_bytes()),\n".toList)

/-- The text that closes the table. -/
def footer : Target → String
  | go => "\x7d\n"
  | rust => "];\n"

end Target

end ApiManifest.Embed
