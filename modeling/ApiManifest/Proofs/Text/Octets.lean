import ApiManifest.Proofs.Text.Utf8

/-!
What the octets of a text tell. Octets of which no part is malformed are those of the characters
that a decoder reads from them (`eq_encode_of_decode`), so that two runs of octets that are shown as
one text without U+FFFD are the same (`octets_textLossy`). A smaller character has smaller octets,
whatever follows them, and so texts are in the order of their octets (`octets_lt_iff`).
-/

set_option autoImplicit false
set_option relaxedAutoImplicit false

namespace ApiManifest.Text

/-! ### Reading and writing again -/

variable {bytes : List UInt8} {cs : List Char}

theorem toNat_ofNat {n : Nat} (h : n < 0xD800 ∨ 0xDFFF < n ∧ n < 0x110000) :
    (Char.ofNat n).toNat = n := by
  rw [Char.ofNat, dif_pos h]
  rfl

theorem encodeChar_two {v u : Nat} (hv : 2 ≤ v) (hv' : v < 32) (hu : u < 64) :
    String.utf8EncodeChar (Char.ofNat (64 * v + u)) =
      [UInt8.ofNat (v + 0xC0), UInt8.ofNat (u + 0x80)] := by
  rw [utf8EncodeChar_eq, toNat_ofNat (by omega), if_neg (by omega), if_pos (by omega),
    show (64 * v + u) / 64 = v by omega, show (64 * v + u) % 64 = u by omega]

theorem encodeChar_three {v u t : Nat} (hv : v < 16) (hu : u < 64) (ht : t < 64)
    (hlow : v = 0 → 0x20 ≤ u) (hhigh : v = 0xD → u < 0x20) :
    String.utf8EncodeChar (Char.ofNat (64 * (64 * v + u) + t)) =
      [UInt8.ofNat (v + 0xE0), UInt8.ofNat (u + 0x80), UInt8.ofNat (t + 0x80)] := by
  rw [utf8EncodeChar_eq, toNat_ofNat (by omega), if_neg (by omega), if_neg (by omega),
    if_pos (by omega), show (64 * (64 * v + u) + t) / 4096 = v by omega,
    show (64 * (64 * v + u) + t) / 64 % 64 = u by omega,
    show (64 * (64 * v + u) + t) % 64 = t by omega]

theorem encodeChar_four {v u t w : Nat} (hv : v ≤ 4) (hu : u < 64) (ht : t < 64) (hw : w < 64)
    (hlow : v = 0 → 0x10 ≤ u) (hhigh : v = 4 → u < 0x10) :
    String.utf8EncodeChar (Char.ofNat (64 * (64 * (64 * v + u) + t) + w)) =
      [UInt8.ofNat (v + 0xF0), UInt8.ofNat (u + 0x80), UInt8.ofNat (t + 0x80),
        UInt8.ofNat (w + 0x80)] := by
  rw [utf8EncodeChar_eq, toNat_ofNat (by omega), if_neg (by omega), if_neg (by omega),
    if_neg (by omega), show (64 * (64 * (64 * v + u) + t) + w) / 262144 = v by omega,
    show (64 * (64 * (64 * v + u) + t) + w) / 4096 % 64 = u by omega,
    show (64 * (64 * (64 * v + u) + t) + w) / 64 % 64 = t by omega,
    show (64 * (64 * (64 * v + u) + t) + w) % 64 = w by omega]

/-- What the first octet of a character can be. -/
theorem leadOctet_eq_some {b : UInt8} {pending : Pending} (h : leadOctet b = some pending) :
    (∃ v, 2 ≤ v ∧ v < 32 ∧ b = UInt8.ofNat (v + 0xC0) ∧ pending = .more 1 v 0x80 0xBF) ∨
      (∃ v, v < 16 ∧ b = UInt8.ofNat (v + 0xE0) ∧ pending =
        .more 2 v (if v = 0 then 0xA0 else 0x80) (if v = 0xD then 0x9F else 0xBF)) ∨
      ∃ v, v ≤ 4 ∧ b = UInt8.ofNat (v + 0xF0) ∧ pending =
        .more 3 v (if v = 0 then 0x90 else 0x80) (if v = 4 then 0x8F else 0xBF) := by
  obtain ⟨n, hn, rfl⟩ : ∃ n, n < 256 ∧ b = UInt8.ofNat n :=
    ⟨b.toNat, b.toNat_lt, UInt8.ofNat_toNat.symm⟩
  by_cases htwo : 0xC2 ≤ n ∧ n ≤ 0xDF
  · obtain ⟨v, rfl⟩ := Nat.exists_eq_add_of_le' (show 0xC0 ≤ n by omega)
    rw [leadOctet_two (by omega) (by omega)] at h
    exact .inl ⟨v, by omega, by omega, rfl, (Option.some.inj h).symm⟩
  by_cases hthree : 0xE0 ≤ n ∧ n ≤ 0xEF
  · obtain ⟨v, rfl⟩ := Nat.exists_eq_add_of_le' hthree.1
    rw [leadOctet_three (by omega)] at h
    exact .inr (.inl ⟨v, by omega, rfl, (Option.some.inj h).symm⟩)
  by_cases hfour : 0xF0 ≤ n ∧ n ≤ 0xF4
  · obtain ⟨v, rfl⟩ := Nat.exists_eq_add_of_le' hfour.1
    rw [leadOctet_four (by omega)] at h
    exact .inr (.inr ⟨v, by omega, rfl, (Option.some.inj h).symm⟩)
  · have hnone : leadOctet (UInt8.ofNat n) = none := by
      simp only [leadOctet, UInt8.le_iff_toNat_le, ← UInt8.toNat_inj, UInt8.toNat_ofNat',
        Nat.mod_eq_of_lt hn, UInt8.reduceToNat]
      rw [if_neg htwo, if_neg (by omega), if_neg (by omega), if_neg (by omega), if_neg (by omega),
        if_neg (by omega), if_neg (by omega)]
    exact absurd (hnone.symm.trans h) (by simp)

/-- In the middle of a character the next octet continues it, or something is malformed. -/
theorem exists_of_decodeFrom_more {need value : Nat} {low high : UInt8} (hlow : 0x80 ≤ low.toNat)
    (hhigh : high.toNat ≤ 0xBF) (h : decodeFrom (.more need value low high) bytes = cs.map some) :
    ∃ u rest, u < 64 ∧ bytes = UInt8.ofNat (u + 0x80) :: rest ∧ low.toNat ≤ u + 0x80 ∧
      u + 0x80 ≤ high.toNat ∧
      (if need ≤ 1 then some (Char.ofNat (64 * value + u)) :: decodeFrom .start rest
        else decodeFrom (.more (need - 1) (64 * value + u) 0x80 0xBF) rest) = cs.map some := by
  have hnone {units : List (Option Char)} (hunits : none :: units = cs.map some) : False := by
    obtain ⟨c, -, hc⟩ := List.mem_map.mp (hunits ▸ List.mem_cons_self)
    exact absurd hc (by simp)
  cases bytes with
  | nil => exact (hnone h).elim
  | cons b rest =>
    rw [decodeFrom] at h
    split at h
    · rename_i hrange
      rw [UInt8.le_iff_toNat_le, UInt8.le_iff_toNat_le] at hrange
      obtain ⟨u, hu⟩ := Nat.exists_eq_add_of_le' (hlow.trans hrange.1)
      refine ⟨u, rest, by omega, ?_, by omega, by omega, ?_⟩
      · rw [← hu, UInt8.ofNat_toNat]
      · simpa [hu] using h
    · split at h
      · exact (hnone h).elim
      · split at h
        · exact (hnone h).elim
        · exact (hnone h).elim

/-- A decoder that finds nothing malformed starts with the octets of a character. -/
theorem exists_of_decodeFrom_start (h : decodeFrom .start bytes = cs.map some) :
    bytes = [] ∧ cs = [] ∨ ∃ c cs' rest, cs = c :: cs' ∧
      bytes = String.utf8EncodeChar c ++ rest ∧ decodeFrom .start rest = cs'.map some := by
  have hcons {c : Char} {units : List (Option Char)} (hunits : some c :: units = cs.map some) :
      ∃ cs', cs = c :: cs' ∧ units = cs'.map some := by
    obtain ⟨c', cs', rfl, hc, hrest⟩ := List.map_eq_cons_iff.mp hunits.symm
    rw [Option.some.inj hc]
    exact ⟨cs', rfl, hrest.symm⟩
  cases bytes with
  | nil => exact .inl ⟨rfl, List.map_eq_nil_iff.mp h.symm⟩
  | cons b rest =>
    refine .inr ?_
    rw [decodeFrom] at h
    split at h
    · rename_i hlow
      obtain ⟨cs', rfl, hrest⟩ := hcons h
      refine ⟨_, cs', rest, rfl, ?_, hrest⟩
      rw [UInt8.lt_iff_toNat_lt, show (0x80 : UInt8).toNat = 0x80 from rfl] at hlow
      rw [utf8EncodeChar_eq, toNat_ofNat (by omega), if_pos (by omega), UInt8.ofNat_toNat]
      rfl
    · split at h
      · rename_i hlead
        rcases leadOctet_eq_some hlead with
          ⟨v, hv, hv', rfl, rfl⟩ | ⟨v, hv, rfl, rfl⟩ | ⟨v, hv, rfl, rfl⟩
        · obtain ⟨u, rest, hu, rfl, _, _, h⟩ := exists_of_decodeFrom_more (by decide) (by decide) h
          obtain ⟨cs', rfl, hrest⟩ := hcons h
          exact ⟨_, cs', rest, rfl, by rw [encodeChar_two hv hv' hu]; rfl, hrest⟩
        · obtain ⟨u, rest, hu, rfl, hlow, hhigh, h⟩ :=
            exists_of_decodeFrom_more (by split_ifs <;> decide) (by split_ifs <;> decide) h
          obtain ⟨t, rest, ht, rfl, _, _, h⟩ := exists_of_decodeFrom_more (by decide) (by decide) h
          obtain ⟨cs', rfl, hrest⟩ := hcons h
          refine ⟨_, cs', rest, rfl, ?_, hrest⟩
          rw [encodeChar_three hv hu ht (fun hzero ↦ ?_) fun hthirteen ↦ ?_]
          · rfl
          · simpa [hzero] using hlow
          · simpa [hthirteen, Nat.lt_succ_iff] using hhigh
        · obtain ⟨u, rest, hu, rfl, hlow, hhigh, h⟩ :=
            exists_of_decodeFrom_more (by split_ifs <;> decide) (by split_ifs <;> decide) h
          obtain ⟨t, rest, ht, rfl, _, _, h⟩ := exists_of_decodeFrom_more (by decide) (by decide) h
          obtain ⟨w, rest, hw, rfl, _, _, h⟩ := exists_of_decodeFrom_more (by decide) (by decide) h
          obtain ⟨cs', rfl, hrest⟩ := hcons h
          refine ⟨_, cs', rest, rfl, ?_, hrest⟩
          rw [encodeChar_four hv hu ht hw (fun hzero ↦ ?_) fun hfour ↦ ?_]
          · rfl
          · simpa [hzero] using hlow
          · simpa [hfour, Nat.lt_succ_iff] using hhigh
      · obtain ⟨c, -, hc⟩ := List.mem_map.mp (h ▸ List.mem_cons_self)
        exact absurd hc (by simp)

/-- Octets of which no part is malformed are those of their characters. -/
theorem eq_encode_of_decode (h : decode bytes = cs.map some) : bytes = encode cs := by
  induction cs generalizing bytes with
  | nil =>
    rcases exists_of_decodeFrom_start h with ⟨rfl, -⟩ | ⟨c, cs', rest, hcs, -⟩
    · rfl
    · exact absurd hcs (by simp)
  | cons c cs ih =>
    rcases exists_of_decodeFrom_start h with ⟨-, hcs⟩ | ⟨c', cs', rest, hcs, rfl, hrest⟩
    · exact absurd hcs (by simp)
    · obtain ⟨rfl, rfl⟩ := List.cons.inj hcs
      rw [ih hrest]
      rfl

/-- Forgiving reading that shows no U+FFFD has forgiven nothing. -/
theorem octets_textLossy (h : '\uFFFD' ∉ (textLossy bytes).toList) :
    octets (textLossy bytes) = bytes := by
  rw [textLossy, String.toList_ofList] at h
  have hunits : decode bytes = (decodeLossy bytes).map some := by
    rw [decodeLossy, List.map_map]
    refine ((List.map_congr_left fun unit hunit ↦ ?_).trans (List.map_id _)).symm
    cases unit with
    | none => exact absurd (List.mem_map.mpr ⟨none, hunit, rfl⟩) h
    | some c => rfl
  rw [octets, textLossy, String.toList_ofList]
  exact (eq_encode_of_decode hunits).symm

/-! ### Order -/

/-- Octets are compared one by one. -/
theorem cons_ofNat_lt_cons {m n : Nat} {as bs : List UInt8} (hm : m < 256) (hn : n < 256)
    (hle : m ≤ n) (h : m = n → as < bs) : UInt8.ofNat m :: as < UInt8.ofNat n :: bs := by
  rw [List.cons_lt_cons_iff, UInt8.lt_iff_toNat_lt, ← UInt8.toNat_inj, UInt8.toNat_ofNat',
    UInt8.toNat_ofNat', Nat.mod_eq_of_lt hm, Nat.mod_eq_of_lt hn]
  exact (Nat.lt_or_eq_of_le hle).imp_right fun heq ↦ ⟨heq, h heq⟩

/-- The octets of a smaller character come first, whatever follows them. -/
theorem encodeChar_append_lt {c c' : Char} (h : c < c') (as bs : List UInt8) :
    String.utf8EncodeChar c ++ as < String.utf8EncodeChar c' ++ bs := by
  have hlt : c.toNat < c'.toNat := h
  have hvalid := toNat_valid c'
  rw [utf8EncodeChar_eq, utf8EncodeChar_eq]
  split_ifs <;> refine cons_ofNat_lt_cons (by omega) (by omega) (by omega) fun hfirst ↦ ?_
  any_goals omega
  all_goals refine cons_ofNat_lt_cons (by omega) (by omega) (by omega) fun hsecond ↦ ?_
  any_goals omega
  all_goals refine cons_ofNat_lt_cons (by omega) (by omega) (by omega) fun hthird ↦ ?_
  any_goals omega
  refine cons_ofNat_lt_cons (by omega) (by omega) (by omega) fun hlast ↦ ?_
  omega

theorem encode_lt_encode {cs ds : List Char} (h : cs < ds) : encode cs < encode ds := by
  induction cs generalizing ds with
  | nil =>
    cases ds with
    | nil => exact absurd h (List.lt_irrefl _)
    | cons d ds =>
      rw [encode, encode, List.flatMap_nil, List.flatMap_cons]
      cases hd : String.utf8EncodeChar d with
      | nil => exact absurd hd (String.utf8EncodeChar_ne_nil)
      | cons b bs => exact List.nil_lt_cons _ _
  | cons c cs ih =>
    cases ds with
    | nil => exact absurd h (List.not_lt_nil _)
    | cons d ds =>
      rw [encode, encode, List.flatMap_cons, List.flatMap_cons]
      rcases List.cons_lt_cons_iff.mp h with hlt | ⟨rfl, hrest⟩
      · exact encodeChar_append_lt hlt _ _
      · exact List.append_left_lt (ih hrest)

/-- Texts are in the order of their octets. -/
theorem octets_lt_iff {s t : String} : octets s < octets t ↔ s < t := by
  constructor
  · intro h
    by_contra hle
    rcases Decidable.em (s = t) with rfl | hne
    · exact List.lt_irrefl _ h
    · have hlt : t < s := String.not_le.mp fun hge ↦
        hne (String.le_antisymm hge (String.not_lt.mp hle))
      exact List.lt_asymm h (encode_lt_encode (String.lt_iff.mp hlt))
  · exact fun h ↦ encode_lt_encode (String.lt_iff.mp h)

theorem octets_le_iff {s t : String} : octets s ≤ octets t ↔ s ≤ t := by
  rw [← String.not_lt, ← octets_lt_iff, List.not_lt]

end ApiManifest.Text
