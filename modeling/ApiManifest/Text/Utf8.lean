/-!
Text as octets. `encode` writes characters in UTF-8 and `decode` reads octets back one unit at a
time, a unit being a character or a malformed part. A malformed part is as long as a run of octets
can be that still starts some character, so a reader loses nothing after it. Strict reading refuses
malformed parts (`decode?`) and forgiving reading shows each of them as U+FFFD (`decodeLossy`).
-/

set_option autoImplicit false

namespace ApiManifest.Text

/-- The UTF-8 octets of the characters. -/
def encode (cs : List Char) : List UInt8 := cs.flatMap String.utf8EncodeChar

/-- The UTF-8 octets of a text. -/
def octets (s : String) : List UInt8 := encode s.toList

/-- What a decoder remembers between octets: nothing, or a character of which `need` octets are
missing, the value of the octets read so far, and the range in which the next octet must lie. -/
inductive Pending where
  | start
  | more (need : Nat) (value : Nat) (low high : UInt8)

/-- What the first octet of a character promises, or `none` when no character starts with it. -/
def leadOctet (b : UInt8) : Option Pending :=
  if 0xC2 ≤ b ∧ b ≤ 0xDF then some (.more 1 (b.toNat - 0xC0) 0x80 0xBF)
  else if b = 0xE0 then some (.more 2 0 0xA0 0xBF)
  else if b = 0xED then some (.more 2 0xD 0x80 0x9F)
  else if 0xE1 ≤ b ∧ b ≤ 0xEF then some (.more 2 (b.toNat - 0xE0) 0x80 0xBF)
  else if b = 0xF0 then some (.more 3 0 0x90 0xBF)
  else if 0xF1 ≤ b ∧ b ≤ 0xF3 then some (.more 3 (b.toNat - 0xF0) 0x80 0xBF)
  else if b = 0xF4 then some (.more 3 4 0x80 0x8F)
  else none

/-- Decodes from a given memory. An octet that does not continue the pending character ends it as
malformed and is then read as a first octet. -/
def decodeFrom : Pending → List UInt8 → List (Option Char)
  | .start, [] => []
  | .more .., [] => [none]
  | .start, b :: rest =>
    if b < 0x80 then some (Char.ofNat b.toNat) :: decodeFrom .start rest
    else match leadOctet b with
      | some pending => decodeFrom pending rest
      | none => none :: decodeFrom .start rest
  | .more need value low high, b :: rest =>
    if low ≤ b ∧ b ≤ high then
      let value := 64 * value + (b.toNat - 0x80)
      if need ≤ 1 then some (Char.ofNat value) :: decodeFrom .start rest
      else decodeFrom (.more (need - 1) value 0x80 0xBF) rest
    else if b < 0x80 then none :: some (Char.ofNat b.toNat) :: decodeFrom .start rest
    else match leadOctet b with
      | some pending => none :: decodeFrom pending rest
      | none => none :: none :: decodeFrom .start rest

/-- The units of a run of octets, `none` standing for a malformed part. -/
def decode (bytes : List UInt8) : List (Option Char) := decodeFrom .start bytes

/-- The characters of well-formed octets. -/
def decode? (bytes : List UInt8) : Option (List Char) := (decode bytes).mapM id

/-- The characters of any octets, with U+FFFD for each malformed part. -/
def decodeLossy (bytes : List UInt8) : List Char :=
  (decode bytes).map fun unit => unit.getD '\uFFFD'

/-- The text of well-formed octets. -/
def text? (bytes : List UInt8) : Option String := (decode? bytes).map String.ofList

/-- The text of any octets, with U+FFFD for each malformed part. -/
def textLossy (bytes : List UInt8) : String := String.ofList (decodeLossy bytes)

end ApiManifest.Text
