import ApiManifest.Text.Utf8
import Mathlib.Data.List.Basic
import Mathlib.Tactic.IntervalCases

/-!
UTF-8 is read back. An octet that starts a character tells how many follow and which range the next
one lies in (`leadOctet_two` and its companions), so a decoder reads one written character and is
then where it started (`decodeFrom_encodeChar`); a written text therefore decodes to itself
(`decode?_encode`, `textLossy_octets`), and no two texts have the same octets.
-/

set_option autoImplicit false
set_option relaxedAutoImplicit false

namespace ApiManifest.Text

/-- A character is no surrogate and not beyond the last plane. -/
theorem toNat_valid (c : Char) :
    c.toNat < 0xD800 ∨ 0xDFFF < c.toNat ∧ c.toNat < 0x110000 := c.valid

/-- The octets of a character, by the size of its number. -/
theorem utf8EncodeChar_eq (c : Char) :
    String.utf8EncodeChar c =
      if c.toNat ≤ 0x7F then [UInt8.ofNat c.toNat]
      else if c.toNat ≤ 0x7FF then
        [UInt8.ofNat (c.toNat / 64 + 0xC0), UInt8.ofNat (c.toNat % 64 + 0x80)]
      else if c.toNat ≤ 0xFFFF then
        [UInt8.ofNat (c.toNat / 4096 + 0xE0), UInt8.ofNat (c.toNat / 64 % 64 + 0x80),
          UInt8.ofNat (c.toNat % 64 + 0x80)]
      else
        [UInt8.ofNat (c.toNat / 262144 + 0xF0), UInt8.ofNat (c.toNat / 4096 % 64 + 0x80),
          UInt8.ofNat (c.toNat / 64 % 64 + 0x80), UInt8.ofNat (c.toNat % 64 + 0x80)] := by
  have hvalid := toNat_valid c
  unfold String.utf8EncodeChar
  simp only [show c.val.toNat = c.toNat from rfl]
  split_ifs with h1 h2 h3
  · rfl
  · rw [Nat.mod_eq_of_lt (by omega : c.toNat / 64 < 32)]
  · rw [Nat.mod_eq_of_lt (by omega : c.toNat / 4096 < 16)]
  · rw [Nat.mod_eq_of_lt (by omega : c.toNat / 262144 < 8)]

/-- The first of two octets. -/
theorem leadOctet_two {n : Nat} (hlow : 2 ≤ n) (hhigh : n < 32) :
    leadOctet (UInt8.ofNat (n + 0xC0)) = some (.more 1 n 0x80 0xBF) := by
  interval_cases n <;> rfl

/-- The first of three octets: the range after it leaves out what fewer octets could write, and the
surrogates. -/
theorem leadOctet_three {n : Nat} (hhigh : n < 16) :
    leadOctet (UInt8.ofNat (n + 0xE0)) =
      some (.more 2 n (if n = 0 then 0xA0 else 0x80) (if n = 0xD then 0x9F else 0xBF)) := by
  interval_cases n <;> rfl

/-- The first of four octets: the range after it leaves out what fewer octets could write, and what
lies beyond the last plane. -/
theorem leadOctet_four {n : Nat} (hhigh : n ≤ 4) :
    leadOctet (UInt8.ofNat (n + 0xF0)) =
      some (.more 3 n (if n = 0 then 0x90 else 0x80) (if n = 4 then 0x8F else 0xBF)) := by
  interval_cases n <;> rfl

/-- An octet in the range that is waited for continues the character. -/
theorem decodeFrom_more {need value n : Nat} {low high : UInt8} (hn : n < 64)
    (hlow : low.toNat ≤ n + 0x80) (hhigh : n + 0x80 ≤ high.toNat) (rest : List UInt8) :
    decodeFrom (.more need value low high) (UInt8.ofNat (n + 0x80) :: rest) =
      if need ≤ 1 then some (Char.ofNat (64 * value + n)) :: decodeFrom .start rest
      else decodeFrom (.more (need - 1) (64 * value + n) 0x80 0xBF) rest := by
  have htoNat : (UInt8.ofNat (n + 0x80)).toNat = n + 0x80 := by
    rw [UInt8.toNat_ofNat', Nat.mod_eq_of_lt (by omega)]
  have hrange : low ≤ UInt8.ofNat (n + 0x80) ∧ UInt8.ofNat (n + 0x80) ≤ high := by
    rw [UInt8.le_iff_toNat_le, UInt8.le_iff_toNat_le, htoNat]
    exact ⟨hlow, hhigh⟩
  rw [decodeFrom, if_pos hrange]
  simp only [htoNat, Nat.add_sub_cancel]

/-- An octet that starts a character of several octets makes the decoder wait for the others. -/
theorem decodeFrom_lead {n : Nat} {pending : Pending} (hn : 0x80 ≤ n) (hbound : n < 256)
    (hlead : leadOctet (UInt8.ofNat n) = some pending) (rest : List UInt8) :
    decodeFrom .start (UInt8.ofNat n :: rest) = decodeFrom pending rest := by
  have hhigh : ¬ UInt8.ofNat n < 0x80 := by
    rw [UInt8.lt_iff_toNat_lt, UInt8.toNat_ofNat', Nat.mod_eq_of_lt hbound]
    exact not_lt.mpr hn
  rw [decodeFrom, if_neg hhigh, hlead]

/-- A decoder reads a written character and is then where it started. -/
theorem decodeFrom_encodeChar (c : Char) (rest : List UInt8) :
    decodeFrom .start (String.utf8EncodeChar c ++ rest) = some c :: decodeFrom .start rest := by
  have hvalid := toNat_valid c
  rw [utf8EncodeChar_eq]
  split_ifs with h1 h2 h3
  · have hlow : UInt8.ofNat c.toNat < 0x80 := by
      rw [UInt8.lt_iff_toNat_lt, UInt8.toNat_ofNat', Nat.mod_eq_of_lt (by omega)]
      exact Nat.lt_succ_of_le h1
    have htoNat : (UInt8.ofNat c.toNat).toNat = c.toNat := by
      rw [UInt8.toNat_ofNat', Nat.mod_eq_of_lt (by omega)]
    rw [List.singleton_append, decodeFrom, if_pos hlow, htoNat, Char.ofNat_toNat]
  · rw [List.cons_append, List.singleton_append,
      decodeFrom_lead (by omega) (by omega) (leadOctet_two (by omega) (by omega)),
      decodeFrom_more (by omega) (by simp) (by simp; omega), if_pos le_rfl,
      show 64 * (c.toNat / 64) + c.toNat % 64 = c.toNat by omega, Char.ofNat_toNat]
  · have hlow : (if c.toNat / 4096 = 0 then 0xA0 else 0x80 : UInt8).toNat ≤
        c.toNat / 64 % 64 + 0x80 := by
      split_ifs
      · simp
        omega
      · simp
    have hhigh : c.toNat / 64 % 64 + 0x80 ≤
        (if c.toNat / 4096 = 0xD then 0x9F else 0xBF : UInt8).toNat := by
      split_ifs
      · simp
        omega
      · simp
        omega
    rw [List.cons_append, List.cons_append, List.singleton_append,
      decodeFrom_lead (by omega) (by omega) (leadOctet_three (by omega)),
      decodeFrom_more (by omega) hlow hhigh, if_neg (by decide),
      decodeFrom_more (by omega) (by simp) (by simp; omega), if_pos (by decide),
      show 64 * (64 * (c.toNat / 4096) + c.toNat / 64 % 64) + c.toNat % 64 = c.toNat by omega,
      Char.ofNat_toNat]
  · have hlow : (if c.toNat / 262144 = 0 then 0x90 else 0x80 : UInt8).toNat ≤
        c.toNat / 4096 % 64 + 0x80 := by
      split_ifs
      · simp
        omega
      · simp
    have hhigh : c.toNat / 4096 % 64 + 0x80 ≤
        (if c.toNat / 262144 = 4 then 0x8F else 0xBF : UInt8).toNat := by
      split_ifs
      · simp
        omega
      · simp
        omega
    rw [List.cons_append, List.cons_append, List.cons_append, List.singleton_append,
      decodeFrom_lead (by omega) (by omega) (leadOctet_four (by omega)),
      decodeFrom_more (by omega) hlow hhigh, if_neg (by decide),
      decodeFrom_more (by omega) (by simp) (by simp; omega), if_neg (by decide),
      decodeFrom_more (by omega) (by simp) (by simp; omega), if_pos (by decide),
      show 64 * (64 * (64 * (c.toNat / 262144) + c.toNat / 4096 % 64) + c.toNat / 64 % 64) +
        c.toNat % 64 = c.toNat by omega, Char.ofNat_toNat]

/-- Written characters decode to themselves, none of them malformed. -/
theorem decode_encode (cs : List Char) : decode (encode cs) = cs.map some := by
  induction cs with
  | nil => rfl
  | cons c cs ih =>
    rw [decode, encode, List.flatMap_cons, decodeFrom_encodeChar, List.map_cons]
    exact congrArg _ ih

theorem decode?_encode (cs : List Char) : decode? (encode cs) = some cs := by
  rw [decode?, decode_encode]
  induction cs with
  | nil => rfl
  | cons c cs ih => simp [List.mapM_cons, ih]

/-- Forgiving reading has nothing to forgive in a written text. -/
theorem textLossy_octets (s : String) : textLossy (octets s) = s := by
  rw [textLossy, decodeLossy, octets, decode_encode, List.map_map]
  exact (congrArg String.ofList (List.map_id s.toList)).trans String.ofList_toList

/-- Texts with the same octets are the same. -/
theorem encode_injective : Function.Injective encode := by
  intro cs ds h
  exact Option.some.inj (by rw [← decode?_encode cs, h, decode?_encode ds])

theorem octets_inj {s s' : String} : octets s = octets s' ↔ s = s' :=
  ⟨fun h ↦ String.ext (encode_injective h), fun h ↦ congrArg octets h⟩

theorem octets_append (s t : String) : octets (s ++ t) = octets s ++ octets t := by
  rw [octets, String.toList_append, encode, List.flatMap_append]
  rfl

/-- Texts that follow one another are written one after the other. -/
theorem octets_join (pieces : List String) :
    octets (String.join pieces) = pieces.flatMap octets := by
  rw [octets, String.toList_join, encode, List.flatMap_assoc]
  rfl

end ApiManifest.Text
