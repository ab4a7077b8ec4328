import ApiManifest.Yaml.Resolve

/-!
What every reader of a document shares. A reader follows aliases, and counts how often: it may do so
at most a hundred times for each event of the document, so that a short text cannot stand for an
endless one. Collections may be nested 128 deep, those reached through aliases included.
-/

set_option autoImplicit false

namespace ApiManifest.Yaml

/-- A step of a reader: the state is the number of aliases followed so far. -/
abbrev Reading := StateT Nat (Except Error)

namespace Reading

def fail {α : Type} (e : Error) : Reading α := fun _ => .error e

/-- The greatest depth to which collections may be nested. -/
def depthLimit : Nat := 128

/-- The content that a node stands for, an alias standing for that of its target. -/
def content (d : Document) (n : Node) : Reading Node :=
  match n with
  | .alias number => fun followed =>
    if 100 * d.root.events < followed + 1 then .error .tooManyAliases
    else match d.target? number with
      | some target => .ok (target, followed + 1)
      | none => .error .unknownAlias
  | n => pure n

/-- The text of a scalar, whatever it stands for. -/
def text (d : Document) (n : Node) : Reading String := do
  match ← content d n with
  | .scalar _ _ s => return s
  | _ => fail .kind

/-- What a reader makes of a whole document. -/
def run {α : Type} (r : Reading α) : Except Error α := (r 0).map Prod.fst

end Reading

end ApiManifest.Yaml
