import ApiManifest.Files.Error
import ApiManifest.Text.Utf8

/-!
A tree of files as a value. Directories hold entries under names, which are octets and need not be
text, in the order in which the system lists them; links hold a path. `walk` follows a path through
the tree one step at a time: every name but the last must lead to a directory, two dots lead to the
parent, and a link puts its own path in place of its name, at most forty times. A path that is to be
made is refused once its last name has a slash after it, whatever stands there.

The paths that are asked for, and those of links, are texts although names need not be. There are
no devices and no permissions: every file can be read and written, and what has been written to a
file can be read back from it.
-/

set_option autoImplicit false

namespace ApiManifest.Files

/-- The name of a directory entry. -/
abbrev Name := List UInt8

/-- The contents of a file. -/
abbrev Octets := List UInt8

/-- A file, a directory or a link. -/
inductive Tree where
  | file (contents : Octets)
  | directory (entries : List (Name × Tree))
  | link (target : String)

/-- Where something stands in a tree: the names from the root, the last one first. -/
abbrev Location := List Name

/-- A step of a path. A slash at the end asks for a directory. -/
inductive Step where
  | name (n : Name)
  | here
  | up
  | slash
  deriving DecidableEq

/-- The step to which a segment of a path asks, if it asks for one. -/
def stepOf (segment : Name) : Option Step :=
  if segment = [] then none
  else if segment = [46] then some .here
  else if segment = [46, 46] then some .up
  else some (.name segment)

/-- The steps of a path. -/
def steps (p : String) : List Step :=
  let taken := (p.toList.splitOn '/').filterMap fun segment => stepOf (Text.encode segment)
  if p.toList.getLast? == some '/' && !taken.isEmpty then taken ++ [.slash] else taken

/-- Where a step leads when nothing is in its way. -/
def Step.move (location : Location) : Step → Location
  | name n => n :: location
  | up => location.tail
  | here => location
  | slash => location

namespace Tree

instance : Inhabited Tree := ⟨.directory []⟩

/-- The entry of a directory; other nodes have none. -/
def child? (n : Name) : Tree → Option Tree
  | .directory entries => entries.lookup n
  | _ => none

/-- What stands at a location. -/
def get? (t : Tree) : Location → Option Tree
  | [] => some t
  | n :: up => (t.get? up).bind (child? n)

/-- Sets the entry of a directory; a new entry is listed last. -/
def setEntry (n : Name) (new : Tree) : List (Name × Tree) → List (Name × Tree)
  | [] => [(n, new)]
  | (m, t) :: rest => if m = n then (m, new) :: rest else (m, t) :: setEntry n new rest

/-- Changes what stands at the end of a way down from the root. -/
def alter (f : Tree → Tree) : List Name → Tree → Tree
  | [], t => f t
  | n :: way, .directory entries =>
    match entries.lookup n with
    | some child => .directory (setEntry n (alter f way child) entries)
    | none => .directory entries
  | _ :: _, t => t

/-- Puts a node under a name into the directory at a location. -/
def put (t : Tree) (location : Location) (n : Name) (new : Tree) : Tree :=
  t.alter (fun
    | .directory entries => .directory (setEntry n new entries)
    | node => node) location.reverse

/-- Takes the entry with a name out of the directory at a location. -/
def remove (t : Tree) (location : Location) (n : Name) : Tree :=
  t.alter (fun
    | .directory entries => .directory (entries.filter (·.1 != n))
    | node => node) location.reverse

mutual

/-- The regular files of a tree with the names that lead to them from the root. -/
def files : Tree → List (List Name × Octets)
  | file contents => [([], contents)]
  | directory entries => filesOf entries
  | link _ => []

def filesOf : List (Name × Tree) → List (List Name × Octets)
  | [] => []
  | (n, t) :: rest => (files t).map (fun f => (n :: f.1, f.2)) ++ filesOf rest

end

end Tree

/-- What a path is followed for: to look at what stands there, or to make a file there. -/
inductive Aim where
  | look
  | make
  deriving DecidableEq

/-- Where the steps of a path lead. -/
inductive Reached where
  /-- Something that stands at a location and is no link. -/
  | found (location : Location)
  /-- A name that a directory lacks. -/
  | missing (parent : Location) (n : Name)

/-- How far steps lead without following a link: to their end, or to a link. -/
inductive Stretch where
  | done (r : Reached)
  | follow (parent : Location) (target : String) (rest : List Step)

/-- The greatest length of a name, in octets. -/
def nameLimit : Nat := 255

/-- The greatest length of a path, in octets. -/
def pathLimit : Nat := 4095

/-- Whether nothing is left of a path, or slashes alone. -/
def atEnd (rest : List Step) : Bool := rest.all (· = .slash)

/-- Follows steps up to their end or to the first link. -/
def stretch (t : Tree) (aim : Aim) (location : Location) : List Step → Except Refusal Stretch
  | [] => .ok (.done (.found location))
  | step :: rest =>
    match t.get? location with
    | some (.directory entries) =>
      match step with
      | .here | .slash => stretch t aim location rest
      | .up => stretch t aim location.tail rest
      | .name n =>
        if aim = .make ∧ rest ≠ [] ∧ atEnd rest then .error .isDirectory
        else if nameLimit < n.length then .error .nameTooLong
        else match entries.lookup n with
          | some (.link target) => .ok (.follow location target rest)
          | some _ => stretch t aim (n :: location) rest
          | none => if atEnd rest then .ok (.done (.missing location n)) else .error .notFound
    | _ => .error .notDirectory

/-- The location from which a path starts. -/
def startOf (cwd : Location) (p : String) : Location :=
  if p.toList.head? == some '/' then [] else cwd

/-- Follows steps through links, as many as are allowed. -/
def walk (t : Tree) (aim : Aim) : Nat → Location → List Step → Except Refusal Reached
  | links, location, path =>
    match stretch t aim location path with
    | .error e => .error e
    | .ok (.done r) => .ok r
    | .ok (.follow parent target rest) =>
      match links with
      | 0 => .error .tooManyLinks
      | links + 1 =>
        if target.isEmpty then .error .notFound
        else walk t aim links (startOf parent target) (steps target ++ rest)

/-- How many links a path may lead through. -/
def linkLimit : Nat := 40

/-- Where a path leads, seen from a working directory. -/
def resolve (t : Tree) (aim : Aim) (cwd : Location) (p : String) : Except Refusal Reached :=
  if p.toList.contains '\x00' then .error .nulInPath
  else if p.isEmpty then .error .notFound
  else if pathLimit < (Text.octets p).length then .error .nameTooLong
  else walk t aim linkLimit (startOf cwd p) (steps p)

end ApiManifest.Files
