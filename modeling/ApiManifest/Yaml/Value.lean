import ApiManifest.Yaml.Reading

/-!
YAML values. Keys of a mapping are values of any kind, no two of them the same, in the order of the
text; a value under a local tag keeps the name of the tag. Two values are the same by what they
stand for: whole numbers and doubles differ, the two zeros are one, NaN equals itself, and the order
of a mapping's entries is immaterial.
-/

set_option autoImplicit false

namespace ApiManifest.Yaml

open Number

/-- A YAML value. -/
inductive Value where
  | null
  | bool (b : Bool)
  | int (n : Whole)
  | float (x : Double)
  | str (s : String)
  | seq (items : List Value)
  | map (entries : List (Value × Value))
  | tagged (name : String) (v : Value)

namespace Value

instance : Inhabited Value := ⟨.null⟩

mutual

/-- Whether two values are the same. -/
def same : Value → Value → Bool
  | .null, .null => true
  | .bool a, .bool b => a == b
  | .int a, .int b => a == b
  | .float a, .float b => a.same b
  | .str a, .str b => a == b
  | .seq a, .seq b => sameItems a b
  | .map a, .map b => a.length == b.length && within a b
  | .tagged s a, .tagged t b => s == t && same a b
  | _, _ => false

def sameItems : List Value → List Value → Bool
  | [], [] => true
  | a :: as, b :: bs => same a b && sameItems as bs
  | _, _ => false

/-- Whether every entry of the first mapping is one of the second. -/
def within : List (Value × Value) → List (Value × Value) → Bool
  | [], _ => true
  | (k, v) :: rest, b => b.any (fun e => same k e.1 && same v e.2) && within rest b

end

/-- What the key stands for in a mapping. -/
def find? (k : Value) (entries : List (Value × Value)) : Option Value :=
  (entries.find? fun e => same k e.1).map Prod.snd

/-- Whether a mapping has the key. -/
def hasKey (k : Value) (entries : List (Value × Value)) : Bool := entries.any fun e => same k e.1

/-- The value of an atom, `text` being the spelling. -/
def ofAtom (text : String) : Atom → Except Error Value
  | .null => .ok .null
  | .bool b => .ok (.bool b)
  | .int n => .ok (.int n)
  | .wide => .error .range
  | .float x => .ok (.float x)
  | .text => .ok (.str text)

/-- Puts a local tag on a value. -/
def underTag (tag : Option Tag) (v : Value) : Value :=
  match localName? tag with
  | some name => .tagged name v
  | none => v

/-- Reads the value of a scalar. -/
def ofScalar (tag : Option Tag) (style : ScalarStyle) (s : String) : Reading Value :=
  match (atomOfScalar tag style s).bind (ofAtom s) with
  | .ok v => pure (underTag tag v)
  | .error e => Reading.fail e

/-- Reads the value of a node in which collections may be nested to the given depth. -/
def ofNode (d : Document) : Nat → Node → Reading Value
  | 0, n => do
    match ← Reading.content d n with
    | .scalar tag style s => ofScalar tag style s
    | _ => Reading.fail .tooDeep
  | depth + 1, n => do
    match ← Reading.content d n with
    | .scalar tag style s => ofScalar tag style s
    | .sequence tag items =>
      let items ← items.mapM fun n => ofNode d depth n
      return underTag tag (.seq items)
    | .mapping tag entries =>
      let entries ← entries.foldlM (fun read e => do
        let k ← ofNode d depth e.1
        if hasKey k read then Reading.fail .repeatedKey
        let v ← ofNode d depth e.2
        return (k, v) :: read) []
      return underTag tag (.map entries.reverse)
    | .alias _ => Reading.fail .tooDeep

/-- The value of a text's document; a text without one is null. -/
def ofDocument : Option Document → Except Error Value
  | some d => (ofNode d Reading.depthLimit d.root).run
  | none => .ok .null

end Value

end ApiManifest.Yaml
