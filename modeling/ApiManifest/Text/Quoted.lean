import ApiManifest.Text.Hex
import ApiManifest.Text.Hidden

/-!
Text quoted for a diagnostic. The quoted form stands between double quotes and shows every
character: a backslash goes before quotes and backslashes, four controls have a letter, and a
hidden character is given by its number.
-/

set_option autoImplicit false

namespace ApiManifest.Text

/-- How one character appears between the quotes. -/
def quotedChar (c : Char) : List Char :=
  match c with
  | '"' => ['\\', '"']
  | '\\' => ['\\', '\\']
  | '\n' => ['\\', 'n']
  | '\r' => ['\\', 'r']
  | '\t' => ['\\', 't']
  | '\x00' => ['\\', '0']
  | c => if isHidden c then ['\\', 'u', '\x7b'] ++ hexNat c.toNat ++ ['\x7d'] else [c]

/-- The text between double quotes, as a diagnostic shows it. -/
def quoted (s : String) : String :=
  String.ofList ('"' :: s.toList.flatMap quotedChar ++ ['"'])

end ApiManifest.Text
