/-!
Tokens of a YAML text. Indentation is told by tokens of its own: a block collection has a start and
an end token though no character stands for them.
-/

set_option autoImplicit false

namespace ApiManifest.Yaml

/-- How a scalar is marked in the text. Only a plain scalar, which has no mark, may stand for
something else than its characters. -/
inductive ScalarStyle where
  | plain
  | marked
  deriving DecidableEq, Repr

/-- A token. The octets of a tag are those of its URI. -/
inductive Token where
  | version (major minor : Nat)
  | tagDirective (handle : List Char) (uri : List UInt8)
  | documentStart
  | documentEnd
  | blockSequenceStart
  | blockMappingStart
  | blockEnd
  | flowSequenceStart
  | flowSequenceEnd
  | flowMappingStart
  | flowMappingEnd
  | blockEntry
  | flowEntry
  | key
  | value
  | alias (name : List Char)
  | anchor (name : List Char)
  | tag (handle : List Char) (suffix : List UInt8)
  | scalar (style : ScalarStyle) (text : String)
  | streamEnd
  deriving DecidableEq, Repr

end ApiManifest.Yaml
