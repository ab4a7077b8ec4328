import ApiManifest.Yaml.Source

/-!
Gaps inside a flow scalar. Spaces and tabs on one line stand for themselves. Over a line break they
are dropped on both sides of it; a single line feed then stands for a space, and of several breaks
all but the first stand for themselves.
-/

set_option autoImplicit false

namespace ApiManifest.Yaml

/-- The gap read so far, its last character first: blanks on one line, or a break, absent when it
was escaped, with the breaks that follow it. -/
inductive Gap where
  | blanks (read : List Char)
  | broken (first : Option Char) (more : List Char)

namespace Gap

def empty : Gap := .blanks []

/-- Whether the gap holds a break. -/
def isBroken : Gap → Bool
  | .blanks _ => false
  | .broken .. => true

/-- Takes a space or a tab into the gap. -/
def addBlank (c : Char) : Gap → Gap
  | .blanks read => .blanks (c :: read)
  | gap => gap

/-- Takes a break into the gap. -/
def addBreak (c : Char) : Gap → Gap
  | .blanks _ => .broken (some c) []
  | .broken first more => .broken first (c :: more)

/-- What the gap stands for, put before the text read so far; both have their last character
first. -/
def flush (read : List Char) : Gap → List Char
  | .blanks passed => passed ++ read
  | .broken none more => more ++ read
  | .broken (some '\n') [] => ' ' :: read
  | .broken (some '\n') more => more ++ read
  | .broken (some c) more => more ++ c :: read

end Gap

end ApiManifest.Yaml
