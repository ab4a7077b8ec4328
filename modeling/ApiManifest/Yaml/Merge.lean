import ApiManifest.Yaml.Value

/-!
Merge keys. The value under the key `<<` of a mapping is a mapping, or a list of mappings, whose
entries are taken over where the mapping has no entry of its own; of a list the first that has a key
gives it. A merged entry goes to the end. Every mapping is merged once, from the outside in: a
merge key that is itself taken over stays.
-/

set_option autoImplicit false

namespace ApiManifest.Yaml.Value

/-- The key that asks for a merge. -/
def mergeKey : Value := .str "<<"

/-- Takes an entry over unless its key is there. -/
def adopt (entries : List (Value × Value)) (e : Value × Value) : List (Value × Value) :=
  if hasKey e.1 entries then entries else entries ++ [e]

/-- Removes the entry of a key; the last entry takes its place. -/
def removeKey (k : Value) (entries : List (Value × Value)) : List (Value × Value) :=
  match entries.findIdx? fun e => same k e.1 with
  | none => entries
  | some i =>
    match entries.getLast? with
    | some last => if i + 1 = entries.length then entries.dropLast
      else entries.dropLast.set i last
    | none => []

/-- The mappings that a merge key names. -/
def merged? : Value → Option (List (List (Value × Value)))
  | .map entries => some [entries]
  | .seq items => items.mapM fun
    | .map entries => some entries
    | _ => none
  | _ => none

/-- The entries of a mapping with its own merge key applied. -/
def mergeEntries (entries : List (Value × Value)) : Except Error (List (Value × Value)) :=
  match find? mergeKey entries with
  | none => .ok entries
  | some v =>
    match merged? v with
    | some sources => .ok (sources.flatten.foldl adopt (removeKey mergeKey entries))
    | none => .error .merge

mutual

/-- How deep collections and tags are nested in a value. -/
def depth : Value → Nat
  | .seq items => itemsDepth items + 1
  | .map entries => entriesDepth entries + 1
  | .tagged _ v => depth v + 1
  | _ => 0

def itemsDepth : List Value → Nat
  | [] => 0
  | v :: rest => max (depth v) (itemsDepth rest)

def entriesDepth : List (Value × Value) → Nat
  | [] => 0
  | (_, v) :: rest => max (depth v) (entriesDepth rest)

end

/-- Applies the merge keys of all mappings down to the given depth. -/
def mergeWithin : Nat → Value → Except Error Value
  | n + 1, .map entries => do
    let entries ← mergeEntries entries
    let entries ← entries.mapM fun e => do return (e.1, ← mergeWithin n e.2)
    return .map entries
  | n + 1, .seq items => do return .seq (← items.mapM fun v => mergeWithin n v)
  | n + 1, .tagged name v => do return .tagged name (← mergeWithin n v)
  | _, v => .ok v

/-- Applies the merge keys of all mappings. A merge brings entries up and never deeper, so the depth
of the value bounds the work. -/
def applyMerge (v : Value) : Except Error Value := mergeWithin v.depth v

end ApiManifest.Yaml.Value
