import ApiManifest.Yaml.Value
import Mathlib.Tactic.Common

/-!
Sameness of values is reflexive and transitive. So a key that is the same as one that a mapping has
is itself one that the mapping has (`hasKey_of_same`).
-/

set_option autoImplicit false
set_option relaxedAutoImplicit false

namespace ApiManifest.Number.Double

/-- NaN is no zero. -/
theorem ne_zero_of_isNaN {x : Double} (h : x.isNaN = true) : x.bits.toNat % signUnit ≠ 0 := by
  have hexponent : x.bits.toNat / leadingUnit % 2048 = 2047 :=
    beq_iff_eq.mp (Bool.and_eq_true_iff.mp h).1
  simp only [leadingUnit, signUnit] at hexponent ⊢
  omega

theorem same_iff {x y : Double} : x.same y = true ↔ x = y ∨ (x.isNaN = true ∧ y.isNaN = true) ∨
    x.bits.toNat % signUnit = 0 ∧ y.bits.toNat % signUnit = 0 := by
  simp only [same, Bool.or_eq_true, Bool.and_eq_true, beq_iff_eq, or_assoc]

theorem same_refl (x : Double) : x.same x = true := same_iff.mpr (.inl rfl)

theorem same_trans {x y z : Double} (hxy : x.same y = true) (hyz : y.same z = true) :
    x.same z = true := by
  rw [same_iff] at *
  rcases hxy with rfl | ⟨hx, hy⟩ | ⟨hx, hy⟩
  · exact hyz
  · rcases hyz with rfl | ⟨-, hz⟩ | ⟨hzero, -⟩
    · exact .inr (.inl ⟨hx, hy⟩)
    · exact .inr (.inl ⟨hx, hz⟩)
    · exact absurd hzero (ne_zero_of_isNaN hy)
  · rcases hyz with rfl | ⟨hnan, -⟩ | ⟨-, hz⟩
    · exact .inr (.inr ⟨hx, hy⟩)
    · exact absurd hy (ne_zero_of_isNaN hnan)
    · exact .inr (.inr ⟨hx, hz⟩)

end ApiManifest.Number.Double

namespace ApiManifest.Yaml.Value

/-- Every entry of the one mapping is the same as one of the other. -/
theorem within_iff {a b : List (Value × Value)} :
    within a b = true ↔ ∀ e ∈ a, ∃ e' ∈ b, same e.1 e'.1 = true ∧ same e.2 e'.2 = true := by
  induction a with
  | nil => exact ⟨fun _ e he ↦ absurd he List.not_mem_nil, fun _ ↦ rfl⟩
  | cons e rest ih =>
    rw [within, Bool.and_eq_true, ih, List.forall_mem_cons, List.any_eq_true]
    simp only [Bool.and_eq_true]

mutual

theorem same_refl : ∀ v : Value, same v v = true
  | .null => rfl
  | .bool _ => beq_self_eq_true _
  | .int _ => beq_self_eq_true _
  | .float x => Number.Double.same_refl x
  | .str _ => beq_self_eq_true _
  | .seq items => sameItems_refl items
  | .map entries => by
    refine Bool.and_eq_true_iff.mpr ⟨beq_self_eq_true _, within_iff.mpr fun e he ↦ ⟨e, he, ?_⟩⟩
    exact same_refl_of_mem entries e he
  | .tagged _ v => Bool.and_eq_true_iff.mpr ⟨beq_self_eq_true _, same_refl v⟩

theorem sameItems_refl : ∀ items : List Value, sameItems items items = true
  | [] => rfl
  | v :: rest => Bool.and_eq_true_iff.mpr ⟨same_refl v, sameItems_refl rest⟩

theorem same_refl_of_mem : ∀ (entries : List (Value × Value)), ∀ e ∈ entries,
    same e.1 e.1 = true ∧ same e.2 e.2 = true
  | [] => List.forall_mem_nil _
  | (k, v) :: rest => List.forall_mem_cons.mpr ⟨⟨same_refl k, same_refl v⟩, same_refl_of_mem rest⟩

end

mutual

theorem same_trans : ∀ {a b c : Value}, same a b = true → same b c = true → same a c = true
  | .null, b, c, hab, hbc => by
    cases b <;> first | exact absurd hab Bool.false_ne_true | exact hbc
  | .bool x, b, c, hab, hbc => by
    cases b with
    | bool y =>
      rw [show x = y from beq_iff_eq.mp hab]
      exact hbc
    | _ => exact absurd hab Bool.false_ne_true
  | .int x, b, c, hab, hbc => by
    cases b with
    | int y =>
      rw [show x = y from beq_iff_eq.mp hab]
      exact hbc
    | _ => exact absurd hab Bool.false_ne_true
  | .float x, b, c, hab, hbc => by
    cases b with
    | float y =>
      cases c with
      | float z => exact Number.Double.same_trans hab hbc
      | _ => exact absurd hbc Bool.false_ne_true
    | _ => exact absurd hab Bool.false_ne_true
  | .str s, b, c, hab, hbc => by
    cases b with
    | str t =>
      rw [show s = t from beq_iff_eq.mp hab]
      exact hbc
    | _ => exact absurd hab Bool.false_ne_true
  | .seq as, b, c, hab, hbc => by
    cases b with
    | seq bs =>
      cases c with
      | seq cs => exact sameItems_trans hab hbc
      | _ => exact absurd hbc Bool.false_ne_true
    | _ => exact absurd hab Bool.false_ne_true
  | .map as, b, c, hab, hbc => by
    cases b with
    | map bs =>
      cases c with
      | map cs =>
        obtain ⟨hlength, hwithin⟩ := Bool.and_eq_true_iff.mp (show (_ && _) = true from hab)
        obtain ⟨hlength', hwithin'⟩ := Bool.and_eq_true_iff.mp (show (_ && _) = true from hbc)
        refine Bool.and_eq_true_iff.mpr ⟨?_, within_trans hwithin hwithin'⟩
        rw [beq_iff_eq] at *
        exact hlength.trans hlength'
      | _ => exact absurd hbc Bool.false_ne_true
    | _ => exact absurd hab Bool.false_ne_true
  | .tagged s a, b, c, hab, hbc => by
    cases b with
    | tagged t b =>
      cases c with
      | tagged u c =>
        obtain ⟨hname, hsame⟩ := Bool.and_eq_true_iff.mp (show (_ && _) = true from hab)
        obtain ⟨hname', hsame'⟩ := Bool.and_eq_true_iff.mp (show (_ && _) = true from hbc)
        refine Bool.and_eq_true_iff.mpr ⟨?_, same_trans hsame hsame'⟩
        rw [beq_iff_eq] at *
        exact hname.trans hname'
      | _ => exact absurd hbc Bool.false_ne_true
    | _ => exact absurd hab Bool.false_ne_true

theorem sameItems_trans : ∀ {as bs cs : List Value},
    sameItems as bs = true → sameItems bs cs = true → sameItems as cs = true
  | [], [], _, _, hbc => hbc
  | [], _ :: _, _, hab, _ => absurd hab Bool.false_ne_true
  | _ :: _, [], _, hab, _ => absurd hab Bool.false_ne_true
  | _ :: _, _ :: _, [], _, hbc => absurd hbc Bool.false_ne_true
  | a :: as, b :: bs, c :: cs, hab, hbc => by
    obtain ⟨hsame, hitems⟩ := Bool.and_eq_true_iff.mp (show (_ && _) = true from hab)
    obtain ⟨hsame', hitems'⟩ := Bool.and_eq_true_iff.mp (show (_ && _) = true from hbc)
    exact Bool.and_eq_true_iff.mpr ⟨same_trans hsame hsame', sameItems_trans hitems hitems'⟩

theorem within_trans : ∀ {as bs cs : List (Value × Value)},
    within as bs = true → within bs cs = true → within as cs = true
  | [], _, _, _, _ => rfl
  | (k, v) :: rest, bs, cs, hab, hbc => by
    obtain ⟨hentry, hrest⟩ := Bool.and_eq_true_iff.mp (show (_ && _) = true from hab)
    obtain ⟨e, he, hsame⟩ := List.any_eq_true.mp hentry
    obtain ⟨e', he', hkey', hvalue'⟩ := within_iff.mp hbc e he
    obtain ⟨hkey, hvalue⟩ := Bool.and_eq_true_iff.mp hsame
    refine Bool.and_eq_true_iff.mpr ⟨List.any_eq_true.mpr ⟨e', he', ?_⟩, within_trans hrest hbc⟩
    exact Bool.and_eq_true_iff.mpr ⟨same_trans hkey hkey', same_trans hvalue hvalue'⟩

end

theorem hasKey_iff {k : Value} {entries : List (Value × Value)} :
    hasKey k entries = true ↔ ∃ e ∈ entries, same k e.1 = true := List.any_eq_true

theorem hasKey_eq_false_iff {k : Value} {entries : List (Value × Value)} :
    hasKey k entries = false ↔ ∀ e ∈ entries, same k e.1 = false := by
  rw [hasKey, List.any_eq_false]
  exact forall₂_congr fun e _ ↦ Bool.eq_false_iff.symm

/-- A mapping has every key that is the same as one that it has. -/
theorem hasKey_of_same {k k' : Value} {entries : List (Value × Value)} (hkey : same k k' = true)
    (h : hasKey k' entries = true) : hasKey k entries = true := by
  obtain ⟨e, he, hsame⟩ := hasKey_iff.mp h
  exact hasKey_iff.mpr ⟨e, he, same_trans hkey hsame⟩

end ApiManifest.Yaml.Value
