import ApiManifest.Files.Access
import ApiManifest.Path.Basic
import ApiManifest.Text.Quoted

/-!
Sources of files by name: a directory, a table that is built into a program, and a chain of sources.
A chain asks its sources one after the other and takes the first answer other than that there is no
such file, be it a file or a failure.
-/

set_option autoImplicit false

namespace ApiManifest

open Files

/-- A source of files. -/
inductive Source where
  | directory (dir : String)
  | table (label : String) (entries : List (String × Octets))
  | chain (sources : List Source)

namespace Source

instance : Inhabited Source := ⟨.chain []⟩

/-- Why a source does not give a file. -/
inductive Failure where
  /-- There is no such file. -/
  | missing (name : String)
  /-- There is something, but the system refuses to read it. -/
  | unreadable (path : String) (cause : Refusal)
  deriving DecidableEq, Repr

def Failure.message : Failure → String
  | missing name => "open " ++ name ++ ": no such file or directory"
  | unreadable path cause => "failed to read " ++ path ++ ": " ++ cause.message

/-- The directory that a variable names, or the fallback when it is not set or empty. -/
def ofVariable (d : Disk) (value : Option String) (fallback : String) : Source :=
  match value with
  | some dir => .directory (if dir.isEmpty then Path.join d.cwdPath fallback else dir)
  | none => .directory (Path.join d.cwdPath fallback)

/-- The file with a name in a directory. -/
def loadFile (d : Disk) (dir name : String) : Except Failure Octets :=
  let path := Path.join dir name
  match d.read path with
  | .ok contents => .ok contents
  | .error .notFound => .error (.missing name)
  | .error cause => .error (.unreadable path cause)

/-- The first entry of a table with a name. -/
def loadEntry (entries : List (String × Octets)) (name : String) : Except Failure Octets :=
  match entries.lookup name with
  | some contents => .ok contents
  | none => .error (.missing name)

mutual

/-- The file with a name. -/
def load (d : Disk) (name : String) : Source → Except Failure Octets
  | .directory dir => loadFile d dir name
  | .table _ entries => loadEntry entries name
  | .chain sources => loadFirst d name sources

/-- The first answer other than that there is no such file. -/
def loadFirst (d : Disk) (name : String) : List Source → Except Failure Octets
  | [] => .error (.missing name)
  | s :: rest =>
    match load d name s with
    | .error (.missing _) => loadFirst d name rest
    | answer => answer

end

mutual

/-- A short description of a source. -/
def label : Source → String
  | .directory dir => "fileLoader(" ++ dir ++ ")"
  | .table l _ => l
  | .chain sources => "mergeLoader(" ++ ", ".intercalate (labels sources) ++ ")"

def labels : List Source → List String
  | [] => []
  | s :: rest => label s :: labels rest

end

/-- How a table appears in a diagnostic. -/
def tableDebug (label : String) (entries : List (String × Octets)) : String :=
  "StaticLoader \x7b label: " ++ Text.quoted label ++ ", entries: " ++
    toString entries.length ++ " \x7d"

end Source

end ApiManifest
