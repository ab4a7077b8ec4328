import ApiManifest.Yaml.Document
import ApiManifest.Yaml.Reading

/-!
Records: mappings with known fields. A field holds the text of a scalar as it is written, whatever
that would stand for; where nothing at all is written, a record has no fields and a list no items.
-/

set_option autoImplicit false

namespace ApiManifest.Yaml.Record

/-- The fields of a record with their nodes, in the order of the text. -/
def fields (d : Document) (n : Node) : Reading (List (String × Node)) := do
  match ← Reading.content d n with
  | .mapping _ entries => entries.mapM fun e => do return (← Reading.text d e.1, e.2)
  | .scalar _ .plain "" => return []
  | _ => Reading.fail .kind

/-- The items of a list. -/
def items (d : Document) (n : Node) : Reading (List Node) := do
  match ← Reading.content d n with
  | .sequence _ items => return items
  | .scalar _ .plain "" => return []
  | _ => Reading.fail .kind

/-- The node of a field that a record has at most once. -/
def field? (name : String) (fields : List (String × Node)) : Reading (Option Node) :=
  match fields.filter (·.1 == name) with
  | [] => pure none
  | [e] => pure (some e.2)
  | _ => Reading.fail .field

/-- The node of a field that a record has exactly once. -/
def field (name : String) (fields : List (String × Node)) : Reading Node := do
  match ← field? name fields with
  | some n => return n
  | none => Reading.fail .field

/-- The text of a field that a record has exactly once. -/
def text (d : Document) (name : String) (fields : List (String × Node)) : Reading String := do
  Reading.text d (← field name fields)

/-- The content of a node that may also be null, which it then lacks. -/
def content? (d : Document) (n : Node) : Reading (Option Node) := do
  let n ← Reading.content d n
  match n with
  | .scalar tag .plain s =>
    match tag with
    | none => return if s.isEmpty || isNullWord s then none else some n
    | some tag =>
      if tag = standardTag "null" then
        if isNullWord s then return none else Reading.fail .tag
      else return some n
  | _ => return some n

end ApiManifest.Yaml.Record
