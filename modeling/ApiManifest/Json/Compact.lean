import ApiManifest.Json.Basic
import ApiManifest.Number.Layout
import ApiManifest.Text.Hex

/-!
JSON text without blanks. `compact` writes the fields of every object in key order, so that values
which differ only in the order of their keys have one text. A string escapes quotes, backslashes
and the characters below U+0020 and shows every other character as it is.
-/

set_option autoImplicit false

namespace ApiManifest.Json

/-- How one character appears in a string. -/
def escapedChar (c : Char) : List Char :=
  match c with
  | '"' => ['\\', '"']
  | '\\' => ['\\', '\\']
  | '\x08' => ['\\', 'b']
  | '\x0c' => ['\\', 'f']
  | '\n' => ['\\', 'n']
  | '\r' => ['\\', 'r']
  | '\t' => ['\\', 't']
  | c => if c < ' ' then ['\\', 'u'] ++ Text.hexFixed Text.hexDigit 4 c.toNat else [c]

/-- A string with its quotes. -/
def stringChars (s : String) : List Char := '"' :: (s.toList.flatMap escapedChar ++ ['"'])

mutual

/-- The text of a value with the fields of its objects in the order in which they stand. -/
def chars : Json → List Char
  | .null => "null".toList
  | .bool true => "true".toList
  | .bool false => "false".toList
  | .int n => (Number.integerText n.val).toList
  | .float x => (Number.jsonLayout.text x.val).toList
  | .str s => stringChars s
  | .arr items => '[' :: itemChars items
  | .obj fields => '\x7b' :: fieldChars fields

/-- The items after an opening bracket, with the closing one. -/
def itemChars : List Json → List Char
  | [] => [']']
  | v :: rest => chars v ++ moreItemChars rest

def moreItemChars : List Json → List Char
  | [] => [']']
  | v :: rest => ',' :: (chars v ++ moreItemChars rest)

/-- The fields after an opening brace, with the closing one. -/
def fieldChars : List (String × Json) → List Char
  | [] => ['\x7d']
  | (k, v) :: rest => stringChars k ++ ':' :: (chars v ++ moreFieldChars rest)

def moreFieldChars : List (String × Json) → List Char
  | [] => ['\x7d']
  | (k, v) :: rest => ',' :: (stringChars k ++ ':' :: (chars v ++ moreFieldChars rest))

end

/-- The text of a value without blanks and with the fields of every object in key order. -/
def compact (v : Json) : String := String.ofList (chars v.sorted)

end ApiManifest.Json
