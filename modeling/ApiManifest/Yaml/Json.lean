import ApiManifest.Json.Basic
import ApiManifest.Yaml.Document
import ApiManifest.Yaml.Merge

/-!
Two ways from a YAML text to a JSON value. A schema document is read strictly (`jsonOfText`): no key
of a mapping is repeated, merge keys are applied, and keys that are numbers, truth values or null
become text, a later entry taking the place of an earlier one whose key has the same text. A stored
document is read directly (`jsonOfOctets`): a key is the text of its scalar as it is written, the
last of repeated keys wins, and a merge key is a key like any other. On both ways a local tag on a
value is refused, and an infinity or NaN is null.
-/

set_option autoImplicit false

namespace ApiManifest.Yaml

open Number

/-- The JSON number of a double; infinities and NaN are null. -/
def jsonOfDouble (x : Double) : ApiManifest.Json :=
  match FiniteDouble.of? x with
  | some x => .float x
  | none => .null

namespace Value

/-- A key as text if it is a number, a truth value or null, and as it is otherwise. -/
def textKey : Value → Value
  | .int n => .str (integerText n.val)
  | .float x => .str (keyLayout.text x)
  | .bool true => .str "true"
  | .bool false => .str "false"
  | .null => .str "null"
  | k => k

/-- Sets an entry; one with the same key is replaced where it stands. -/
def putEntry (k v : Value) : List (Value × Value) → List (Value × Value)
  | [] => [(k, v)]
  | (k', v') :: rest => if same k k' then (k', v) :: rest else (k', v') :: putEntry k v rest

/-- The entries of a mapping with their keys as text. -/
def textKeys (entries : List (Value × Value)) : List (Value × Value) :=
  entries.foldl (fun read e => putEntry (textKey e.1) e.2 read) []

/-- The text of a key, which may be under local tags. -/
def keyString? : Value → Option String
  | .str s => some s
  | .tagged _ v => keyString? v
  | _ => none

/-- The JSON value of a value that is nested at most to the given depth. -/
def toJsonWithin : Nat → Value → Except Error ApiManifest.Json
  | _, .null => .ok .null
  | _, .bool b => .ok (.bool b)
  | _, .int n => .ok (.int n)
  | _, .float x => .ok (jsonOfDouble x)
  | _, .str s => .ok (.str s)
  | n + 1, .seq items => do return .arr (← items.mapM fun v => toJsonWithin n v)
  | n + 1, .map entries => do
    let pairs ← (textKeys entries).mapM fun e => do
      match keyString? e.1 with
      | some k => return (k, ← toJsonWithin n e.2)
      | none => throw .kind
    return .object pairs
  | _, .tagged .. => .error .tag
  | 0, _ => .error .tooDeep

/-- The JSON value of a value. -/
def toJson (v : Value) : Except Error ApiManifest.Json := toJsonWithin v.depth v

end Value

/-- Reads a schema document. -/
def jsonOfText (text : String) : Except Error ApiManifest.Json := do
  let document ← Document.ofText text
  let v ← Value.ofDocument document
  let v ← v.applyMerge
  v.toJson

/-- The JSON value of an atom, `text` being the spelling. -/
def jsonOfAtom (text : String) : Atom → Except Error ApiManifest.Json
  | .null => .ok .null
  | .bool b => .ok (.bool b)
  | .int n => .ok (.int n)
  | .wide => .error .range
  | .float x => .ok (jsonOfDouble x)
  | .text => .ok (.str text)

/-- Refuses a local tag. -/
def refuseLocal (tag : Option Tag) : Reading Unit :=
  if (localText? tag).isSome then Reading.fail .tag else pure ()

/-- Reads the JSON value of a scalar. -/
def jsonOfScalar (tag : Option Tag) (style : ScalarStyle) (s : String) :
    Reading ApiManifest.Json := do
  refuseLocal tag
  match (atomOfScalar tag style s).bind (jsonOfAtom s) with
  | .ok v => return v
  | .error e => Reading.fail e

/-- Reads the JSON value of a node directly, collections being nested at most to the given depth. -/
def jsonOfNode (d : Document) : Nat → Node → Reading ApiManifest.Json
  | 0, n => do
    match ← Reading.content d n with
    | .scalar tag style s => jsonOfScalar tag style s
    | _ => Reading.fail .tooDeep
  | depth + 1, n => do
    match ← Reading.content d n with
    | .scalar tag style s => jsonOfScalar tag style s
    | .sequence tag items =>
      refuseLocal tag
      return .arr (← items.mapM fun n => jsonOfNode d depth n)
    | .mapping tag entries =>
      refuseLocal tag
      let pairs ← entries.mapM fun e => do
        let k ← Reading.text d e.1
        return (k, ← jsonOfNode d depth e.2)
      return .object pairs
    | .alias _ => Reading.fail .tooDeep

/-- Reads a stored document. -/
def jsonOfOctets (bytes : List UInt8) : Except Error ApiManifest.Json := do
  match ← Document.ofOctets bytes with
  | some d => (jsonOfNode d Reading.depthLimit d.root).run
  | none => return .null

end ApiManifest.Yaml
