import ApiManifest.Yaml.Error
import ApiManifest.Yaml.Token

/-!
The nodes of a YAML document. A node is an alias or has content: a scalar, a sequence or a mapping,
each with a tag if the text gives one. Aliases refer to a number that the anchors of a document give
out; `Document.target?` finds the node with that number.
-/

set_option autoImplicit false

namespace ApiManifest.Yaml

/-- The octets of the URI that a tag stands for. -/
abbrev Tag := List UInt8

/-- What stands before the content of a node: the serial number of its anchor, and its tag. -/
structure Properties where
  anchor : Option Nat := none
  tag : Option Tag := none
  deriving DecidableEq

namespace Properties

def isEmpty (p : Properties) : Bool := p.anchor.isNone && p.tag.isNone

end Properties

/-- A node of a document. -/
inductive Node where
  | alias (number : Nat)
  | scalar (tag : Option Tag) (style : ScalarStyle) (text : String)
  | sequence (tag : Option Tag) (items : List Node)
  | mapping (tag : Option Tag) (entries : List (Node × Node))

namespace Node

instance : Inhabited Node := ⟨.scalar none .plain ""⟩

/-- A scalar of which nothing is written. -/
def empty (tag : Option Tag) : Node := .scalar tag .plain ""

mutual

/-- How many events make up a node: one for an alias or scalar, and for a collection one at its
start and one at its end. -/
def events : Node → Nat
  | .alias _ => 1
  | .scalar .. => 1
  | .sequence _ items => 2 + itemEvents items
  | .mapping _ entries => 2 + entryEvents entries

def itemEvents : List Node → Nat
  | [] => 0
  | n :: rest => events n + itemEvents rest

def entryEvents : List (Node × Node) → Nat
  | [] => 0
  | (k, v) :: rest => events k + events v + entryEvents rest

end

end Node

/-- The anchors of a document. Every anchor has a serial number, and a number that aliases refer to:
how many different names are in use before it. When a name is used again the count stays behind, and
a later anchor may take a number over; an alias means the last anchor with its number. -/
structure Anchors where
  /-- The number that each name in use has last been given. -/
  names : List (List Char × Nat) := []
  /-- For each number the serial number of the last anchor that has it. -/
  latest : List (Nat × Nat) := []
  /-- How many anchors there are. -/
  count : Nat := 0

namespace Anchors

/-- Gives an anchor of the given name its numbers; the result holds its serial number. -/
def declare (name : List Char) (a : Anchors) : Nat × Anchors :=
  let number := a.names.length
  (a.count,
    { names := (name, number) :: a.names.filter (·.1 != name)
      latest := (number, a.count) :: a.latest
      count := a.count + 1 })

/-- The number of a name in use. -/
def number? (name : List Char) (a : Anchors) : Option Nat := a.names.lookup name

end Anchors

/-- A document: its root, its anchors, and the nodes that have one, by serial number. -/
structure Document where
  root : Node
  anchors : Anchors
  anchored : List (Nat × Node)

namespace Document

/-- The node that an alias with the given number means. -/
def target? (d : Document) (number : Nat) : Option Node :=
  (d.anchors.latest.lookup number).bind fun serial => d.anchored.lookup serial

end Document

end ApiManifest.Yaml
