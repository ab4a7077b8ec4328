import ApiManifest.Json.Compact

/-!
String literals of the languages in which an embed source is written. A Go literal is written like a
JSON string, which escapes no more and no less than it must. A Rust literal shows every character
but quotes, backslashes, the controls, and the marks that change the direction of text, which its
compiler refuses.
-/

set_option autoImplicit false

namespace ApiManifest.Embed

/-- Holds of the control characters. -/
def isControl (c : Char) : Bool := c < ' ' || ('\x7f' ≤ c && c ≤ '\u009f')

/-- Holds of the characters that change the direction of text. -/
def isDirectionMark (c : Char) : Bool :=
  ('\u202a' ≤ c && c ≤ '\u202e') || ('\u2066' ≤ c && c ≤ '\u2069')

/-- How one character appears in a Rust literal. -/
def rustChar (c : Char) : List Char :=
  match c with
  | '"' => ['\\', '"']
  | '\\' => ['\\', '\\']
  | '\n' => ['\\', 'n']
  | '\r' => ['\\', 'r']
  | '\t' => ['\\', 't']
  | '\x00' => ['\\', '0']
  | c =>
    if isControl c || isDirectionMark c then
      ['\\', 'u', '\x7b'] ++ Text.hexNat c.toNat ++ ['\x7d']
    else [c]

/-- The characters of a Rust literal. -/
def rustLiteral (s : String) : List Char := '"' :: (s.toList.flatMap rustChar ++ ['"'])

/-- The characters of a Go literal. -/
def goLiteral (s : String) : List Char := Json.stringChars s

end ApiManifest.Embed
