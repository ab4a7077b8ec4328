import ApiManifest.Files.Tree

/-!
Work on files. A `Disk` is a tree with a working directory. Files are read and directories listed
without changing it; `write` sets the contents of a file and makes the file when only its name is
missing.
-/

set_option autoImplicit false

namespace ApiManifest.Files

/-- A tree of files with the working directory from which paths are seen. -/
structure Disk where
  tree : Tree
  cwd : Location

namespace Disk

/-- What a path leads to. -/
def node (d : Disk) (p : String) : Except Refusal Tree :=
  match resolve d.tree .look d.cwd p with
  | .error e => .error e
  | .ok (.found location) =>
    match d.tree.get? location with
    | some node => .ok node
    | none => .error .notFound
  | .ok (.missing ..) => .error .notFound

/-- The contents of the file at a path. -/
def read (d : Disk) (p : String) : Except Refusal Octets :=
  match d.node p with
  | .error e => .error e
  | .ok (.file contents) => .ok contents
  | .ok _ => .error .isDirectory

/-- The contents of what is opened at a path. A directory can be opened as well and has none. -/
def contents? (d : Disk) (p : String) : Except Refusal (Option Octets) :=
  match d.node p with
  | .error e => .error e
  | .ok (.file contents) => .ok (some contents)
  | .ok _ => .ok none

/-- The text of the file at a path. -/
def readText (d : Disk) (p : String) : Except Refusal String :=
  match d.read p with
  | .error e => .error e
  | .ok contents =>
    match Text.text? contents with
    | some s => .ok s
    | none => .error .notText

/-- The names in the directory at a path, in the order of the system. -/
def list (d : Disk) (p : String) : Except Refusal (List Name) :=
  match d.node p with
  | .error e => .error e
  | .ok (.directory entries) => .ok (entries.map Prod.fst)
  | .ok _ => .error .notDirectory

/-- Sets the contents of the file at a path. -/
def write (d : Disk) (p : String) (contents : Octets) : Except Refusal Disk :=
  match resolve d.tree .make d.cwd p with
  | .error e => .error e
  | .ok (.found location) =>
    match d.tree.get? location, location with
    | some (.file _), n :: parent =>
      .ok { d with tree := d.tree.put parent n (.file contents) }
    | _, _ => .error .isDirectory
  | .ok (.missing parent n) => .ok { d with tree := d.tree.put parent n (.file contents) }

/-- The path of the working directory; names that are not text are shown as far as they are. -/
def cwdPath (d : Disk) : String :=
  "/" ++ "/".intercalate (d.cwd.reverse.map Text.textLossy)

end Disk

end ApiManifest.Files
