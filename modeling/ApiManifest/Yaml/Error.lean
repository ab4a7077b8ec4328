/-!
Why a YAML text cannot be read. The causes are grouped by the stage that finds them: the octets, the
tokens, the nesting of nodes, and the meaning of the nodes for the reader that asked for them.
-/

set_option autoImplicit false

namespace ApiManifest.Yaml

/-- Why a YAML text cannot be read. -/
inductive Error where
  /-- What was opened has no contents to read. -/
  | unreadable
  /-- The octets are not text in UTF-8. -/
  | encoding
  /-- A character that no YAML text may hold. -/
  | character
  /-- A directive that is unknown or misspelt. -/
  | directive
  /-- A version other than 1.1 and 1.2. -/
  | version
  /-- A tag or anchor that is misspelt. -/
  | property
  /-- A tag handle that no directive declares. -/
  | handle
  /-- A quoted scalar that is not closed before the document ends. -/
  | unclosed
  /-- A backslash before a character that it does not escape. -/
  | escape
  /-- A header or an indentation that no block scalar has. -/
  | block
  /-- A tab where the indentation asks for spaces. -/
  | tab
  /-- A colon in a flow collection that ends no key. -/
  | colon
  /-- A key that is not followed by its colon. -/
  | keyWithoutColon
  /-- A dash, a question mark or a colon where no collection can start. -/
  | collectionHere
  /-- A character that starts no token. -/
  | noToken
  /-- A token that cannot stand where it stands. -/
  | unexpected
  /-- A second document. -/
  | secondDocument
  /-- An alias to a name that no node before it has. -/
  | unknownAlias
  /-- Collections nested too deep. -/
  | tooDeep
  /-- Aliases that repeat too much of the document. -/
  | tooManyAliases
  /-- A key that a mapping has already. -/
  | repeatedKey
  /-- A node of another kind than its place asks for. -/
  | kind
  /-- A scalar that its tag does not fit. -/
  | tag
  /-- A whole number beyond 64 bits. -/
  | range
  /-- A merge key with something else than mappings. -/
  | merge
  /-- A field that is missing, repeated or unknown. -/
  | field
  deriving DecidableEq, Repr

namespace Error

/-- What is said of a text that cannot be read. -/
def message : Error → String
  | unreadable => "the contents cannot be read"
  | encoding => "not text in UTF-8"
  | character => "a character that is not allowed"
  | directive => "unknown or malformed directive"
  | version => "unsupported version"
  | property => "malformed tag or anchor"
  | handle => "undeclared tag handle"
  | unclosed => "unclosed quoted scalar"
  | escape => "unknown escape"
  | block => "malformed block scalar"
  | tab => "a tab in the indentation"
  | colon => "misplaced colon"
  | keyWithoutColon => "a key without a colon"
  | collectionHere => "no collection can start here"
  | noToken => "a character that starts no token"
  | unexpected => "unexpected token"
  | secondDocument => "more than one document"
  | unknownAlias => "unknown alias"
  | tooDeep => "nested too deep"
  | tooManyAliases => "aliases repeat too much"
  | repeatedKey => "repeated key"
  | kind => "a node of another kind than expected"
  | tag => "a scalar that does not fit its tag"
  | range => "a whole number out of range"
  | merge => "a merge key without mappings"
  | field => "a missing, repeated or unknown field"

end Error

end ApiManifest.Yaml
