/-!
Paths as texts. A path is a run of names between slashes and is absolute when a slash opens it; a
repeated slash and a dot say nothing. `normalise` folds the dots of a path by its text alone: two
dots take the name before them away, and do nothing at the root or at the start.
-/

set_option autoImplicit false

namespace ApiManifest.Path

/-- The segments of a path: what stands between slashes. -/
def segments (p : String) : List String := (p.toList.splitOn '/').map String.ofList

def isAbsolute (p : String) : Bool := p.toList.head? == some '/'

/-- A path that is followed by another one: the other alone if it is absolute, and else the two with
one slash between them. -/
def join (base p : String) : String :=
  if isAbsolute p then p
  else if base.isEmpty || base.toList.getLast? == some '/' then base ++ p
  else base ++ "/" ++ p

/-- A path with its dots folded: whether it starts at the root, and its names. -/
structure Normal where
  absolute : Bool
  names : List String
  deriving DecidableEq, Repr

/-- Goes on by one segment; the names have the last one first. -/
def step (names : List String) (segment : String) : List String :=
  if segment = "" ∨ segment = "." then names
  else if segment = ".." then names.tail
  else segment :: names

/-- Folds the dots of a path by its text alone. -/
def normalise (p : String) : Normal :=
  ⟨isAbsolute p, ((segments p).foldl step []).reverse⟩

/-- The path as it is seen from a working directory. -/
def absolute (p cwd : String) : String := if isAbsolute p then p else join cwd p

/-- The components of a path by which paths are compared: the root, a dot at the start, and what
else does not say nothing. -/
def components (p : String) : List String :=
  let parts := (segments p).filter fun s => s != "" && s != "."
  if isAbsolute p then "/" :: parts
  else if (segments p).head? == some "." then "." :: parts
  else parts

end ApiManifest.Path
