/-!
Blank characters: those with the Unicode property `White_Space`. A field counts as empty when
nothing but blank characters stands in it.
-/

set_option autoImplicit false

namespace ApiManifest.Text

/-- Holds of the 25 characters with the property `White_Space`. -/
def isBlank (c : Char) : Bool :=
  let n := c.toNat
  (9 ≤ n && n ≤ 13) || n == 0x20 || n == 0x85 || n == 0xA0 || n == 0x1680 ||
    (0x2000 ≤ n && n ≤ 0x200A) || n == 0x2028 || n == 0x2029 || n == 0x202F ||
    n == 0x205F || n == 0x3000

/-- Holds of a text in which only blank characters stand, the empty text included. -/
def AllBlank (s : String) : Bool := s.toList.all isBlank

end ApiManifest.Text
