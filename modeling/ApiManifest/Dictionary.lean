/-!
Dictionaries with text keys, kept as lists of pairs in ascending key order. Keys are ordered by code
point, which is also the order of their UTF-8 octets. `insert` replaces the entry of a key that is
there, so `ofList` lets the last of repeated keys win.
-/

set_option autoImplicit false

namespace ApiManifest

/-- Pairs of a key and what it stands for. -/
abbrev Dictionary (α : Type) := List (String × α)

namespace Dictionary

variable {α : Type}

/-- Puts an entry at its place in the key order, replacing the entry of the same key. -/
def insert (k : String) (v : α) : Dictionary α → Dictionary α
  | [] => [(k, v)]
  | (k', v') :: rest =>
    if k < k' then (k, v) :: (k', v') :: rest
    else if k = k' then (k, v) :: rest
    else (k', v') :: insert k v rest

/-- The entries in key order, the last of repeated keys winning. -/
def ofList (pairs : List (String × α)) : Dictionary α :=
  pairs.foldl (fun d p => insert p.1 p.2 d) []

/-- What the key stands for. -/
def find? (k : String) (d : Dictionary α) : Option α := List.lookup k d

/-- Whether the key has an entry. -/
def has (k : String) (d : Dictionary α) : Bool := (find? k d).isSome

/-- The keys in order. -/
def keys (d : Dictionary α) : List String := d.map Prod.fst

/-- The keys strictly ascend; in particular no key is repeated. -/
def Ascending (d : Dictionary α) : Prop := d.Pairwise fun p q => p.1 < q.1

end Dictionary

end ApiManifest
