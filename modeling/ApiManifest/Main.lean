import ApiManifest.Command.Reply
import ApiManifest.Files.Making

/-!
The program. It looks at the files that a run may read, carries the run out on them, and then writes
what the run has changed and prints what it tells. Nothing is decided here.
-/

set_option autoImplicit false

namespace ApiManifest.Program

open Files

/-- What the program prints when it is asked for help. -/
def help : String := "\n".intercalate [
  "Generate the index file for all OpenAPI YAML files in a directory",
  "",
  "Usage: oapi-index-gen [OPTIONS] <DIR>",
  "",
  "  -o, --output <OUTPUT>      Directory to save the index YAML in",
  "      --embed <EMBED>        Write the embed loader source to this file (- for stdout)",
  "      --target <TARGET>      Host language of the embed source: go or rust",
  "      --package <PACKAGE>    Package name of the Go embed source",
  "      --extension-prefix <EXTENSION_PREFIX>",
  "                             Prefix of the info extension fields",
  "      --config <CONFIG>      YAML file with default settings",
  "      --check                Regenerate in memory and fail if the files on disk differ",
  "  -v, --verbose              Enable verbose output",
  "  -h, --help                 Print help",
  "  -V, --version              Print version",
  ""]

/-- What the program prints of a command line that it does not carry out. -/
def usageText : Command.Usage → String
  | .help => help
  | .version => Command.versionText
  | .missingDirectory => "error: the directory is missing\n"
  | .unknownArgument => "error: unexpected argument\n"
  | .invalidValue => "error: a value is missing or invalid\n"
  | .repeated => "error: an option is given twice\n"
  | .unwantedValue => "error: a switch takes no value\n"

/-- The names in a directory of the system, or nothing when it is no directory. -/
def listing (path : String) : IO (List String) := do
  try
    let entries ← (← IO.FS.realPath path).readDir
    return entries.toList.map fun e => e.fileName
  catch _ => return []

/-- Takes a file or directory of the system over, if there is one. -/
def observe (d : Disk) (path : String) : IO Disk := do
  let route := d.route (Text.octets path)
  try
    let _ ← (← IO.FS.realPath path).readDir
    return d.makeDirectories route
  catch _ =>
    try
      return d.makeFile route (← IO.FS.readBinFile path).toList
    catch _ => return d

/-- The directory part of a path. -/
def parent (path : String) : String :=
  let up := (path.toList.reverse.dropWhile (· != '/')).reverse
  if up.isEmpty then "." else String.ofList up

/-- The files that a run writes, if it comes that far. -/
def outputs (a : Command.Arguments) : List String :=
  Manifest.pathIn a.outputDirectory :: a.embed.toList

/-- Gives a directory an entry of which nothing but the name is known. -/
def nameOnly (d : Disk) (path : String) : Disk :=
  match d.node path with
  | .ok _ => d
  | .error _ => d.makeLink (d.route (Text.octets path)) ""

/-- The files that a run may look at. -/
def snapshot (a : Command.Arguments) : IO Disk := do
  let cwd := toString (← IO.currentDir)
  let empty : Disk := ⟨.directory [], []⟩
  let root := empty.makeDirectories (empty.route (Text.octets cwd))
  let location := (root.route (Text.octets cwd)).steps.reverse.filterMap fun
    | .name n => some n
    | _ => none
  let start : Disk := { root with cwd := location }
  let names ← listing a.directory
  let documents := (names.filter fun n => (moduleOfFilename? n).isSome).map (Path.join a.directory)
  let seen := a.config.toList ++ a.directory :: a.outputDirectory :: (outputs a).map parent ++
    outputs a ++ documents
  let d ← seen.foldlM observe start
  return names.foldl (fun d n => nameOnly d (Path.join a.directory n)) d

/-- What a run has written to a file, if it has changed it. -/
def written? (old new : Disk) (path : String) : Option Octets :=
  match old.read path, new.read path with
  | .ok before, .ok after => if before = after then none else some after
  | .error _, .ok after => some after
  | _, .error _ => none

/-- Writes a file of the system if a run has changed it. -/
def store (old new : Disk) (path : String) : IO Unit :=
  match written? old new path with
  | some contents => IO.FS.writeBinFile path ⟨contents.toArray⟩
  | none => pure ()

/-- Carries a command line out. -/
def execute (args : List String) : IO UInt32 := do
  let asked := (Command.parse args).toOption
  let d ← match asked with
    | some a => snapshot a
    | none => pure ⟨.directory [], []⟩
  let r := Command.reply usageText Log.plain d args
  (asked.toList.flatMap outputs).forM (store d r.disk)
  IO.print r.stdout
  IO.eprint r.stderr
  return r.exit.toUInt32

end ApiManifest.Program

def main (args : List String) : IO UInt32 := ApiManifest.Program.execute args
