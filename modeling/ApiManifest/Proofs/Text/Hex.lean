import ApiManifest.Text.Hex
import Mathlib.Tactic.IntervalCases

/-!
Hexadecimal digits are read back, and so are octets that are written with two digits each.
-/

set_option autoImplicit false
set_option relaxedAutoImplicit false

namespace ApiManifest.Text

theorem hexValue?_hexDigit {d : Nat} (hd : d < 16) : hexValue? (hexDigit d) = some d := by
  interval_cases d <;> rfl

theorem hexValue?_hexDigitUpper {d : Nat} (hd : d < 16) :
    hexValue? (hexDigitUpper d) = some d := by
  interval_cases d <;> rfl

theorem octetsOfHex?_hexOctets (octets : List UInt8) :
    octetsOfHex? (hexOctets octets).toList = some octets := by
  rw [hexOctets, String.toList_ofList]
  induction octets with
  | nil => rfl
  | cons b octets ih =>
    have hdigits : hexFixed hexDigit 2 b.toNat =
        [hexDigit (b.toNat / 16 % 16), hexDigit (b.toNat % 16)] := rfl
    have hvalue : 16 * (b.toNat / 16 % 16) + b.toNat % 16 = b.toNat := by
      have hb := b.toNat_lt
      omega
    rw [List.flatMap_cons, hdigits, List.cons_append, List.singleton_append, octetsOfHex?, ih,
      hexValue?_hexDigit (Nat.mod_lt _ (by decide)), hexValue?_hexDigit (Nat.mod_lt _ (by decide))]
    simp only [Option.bind_eq_bind, Option.bind_some, Option.pure_def, hvalue, UInt8.ofNat_toNat]

/-- Nothing but hexadecimal digits stands in written octets. -/
theorem isSome_hexValue?_of_mem {octets : List UInt8} {c : Char}
    (h : c ∈ (hexOctets octets).toList) : (hexValue? c).isSome = true := by
  have hdigit (n : Nat) : (hexValue? (hexDigit (n % 16))).isSome = true := by
    rw [hexValue?_hexDigit (Nat.mod_lt _ (by decide))]
    rfl
  rw [hexOctets, String.toList_ofList, List.mem_flatMap] at h
  obtain ⟨b, -, hc⟩ := h
  simp only [hexFixed, List.nil_append, List.cons_append, List.mem_cons, List.not_mem_nil,
    or_false] at hc
  rcases hc with rfl | rfl
  · exact hdigit _
  · exact hdigit _

/-- Octets with the same digits are the same. -/
theorem hexOctets_injective : Function.Injective hexOctets := fun octets octets' h ↦
  Option.some.inj (by rw [← octetsOfHex?_hexOctets octets, h, octetsOfHex?_hexOctets octets'])

end ApiManifest.Text
