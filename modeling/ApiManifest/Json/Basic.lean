import ApiManifest.Dictionary
import ApiManifest.Number.Double

/-!
JSON values. A number is either a whole number that fits 64 bits, with or without a sign, or a
finite double. The fields of an object are a list of pairs; `sorted` puts the fields of every object
into key order, and two values with equal sorted forms are equal up to the order of keys.
-/

set_option autoImplicit false

namespace ApiManifest

namespace Number

/-- A whole number that fits a signed or an unsigned word of 64 bits. -/
structure Whole where
  val : Int
  low : -9223372036854775808 ≤ val := by omega
  high : val < 18446744073709551616 := by omega
  deriving DecidableEq

/-- The whole number of a value in range. -/
def Whole.ofInt? (n : Int) : Option Whole :=
  if h : -9223372036854775808 ≤ n ∧ n < 18446744073709551616 then some ⟨n, h.1, h.2⟩ else none

/-- A double that is neither infinite nor NaN. -/
structure FiniteDouble where
  val : Double
  finite : val.isFinite = true
  deriving DecidableEq

/-- The finite double with the given bits, if they stand for one. -/
def FiniteDouble.of? (x : Double) : Option FiniteDouble :=
  if h : x.isFinite = true then some ⟨x, h⟩ else none

end Number

open Number

/-- A JSON value. -/
inductive Json where
  | null
  | bool (b : Bool)
  | int (n : Whole)
  | float (x : FiniteDouble)
  | str (s : String)
  | arr (items : List Json)
  | obj (fields : List (String × Json))

namespace Json

instance : Inhabited Json := ⟨.null⟩

/-- The object with the given entries, the last of repeated keys winning. -/
def object (pairs : List (String × Json)) : Json := .obj (Dictionary.ofList pairs)

/-- The field of an object; other values have none. -/
def field? (key : String) : Json → Option Json
  | .obj fields => Dictionary.find? key fields
  | _ => none

mutual

/-- The value with the fields of every object in key order. -/
def sorted : Json → Json
  | .arr items => .arr (sortedItems items)
  | .obj fields => .obj (Dictionary.ofList (sortedFields fields))
  | v => v

def sortedItems : List Json → List Json
  | [] => []
  | v :: rest => sorted v :: sortedItems rest

def sortedFields : List (String × Json) → List (String × Json)
  | [] => []
  | (k, v) :: rest => (k, sorted v) :: sortedFields rest

end

mutual

/-- Equality of values, field for field in the order in which the fields stand. -/
def beq : Json → Json → Bool
  | .null, .null => true
  | .bool a, .bool b => a == b
  | .int a, .int b => a == b
  | .float a, .float b => a == b
  | .str a, .str b => a == b
  | .arr a, .arr b => beqItems a b
  | .obj a, .obj b => beqFields a b
  | _, _ => false

def beqItems : List Json → List Json → Bool
  | [], [] => true
  | a :: as, b :: bs => beq a b && beqItems as bs
  | _, _ => false

def beqFields : List (String × Json) → List (String × Json) → Bool
  | [], [] => true
  | (j, a) :: as, (k, b) :: bs => j == k && beq a b && beqFields as bs
  | _, _ => false

end

instance : BEq Json := ⟨beq⟩

end Json

end ApiManifest
