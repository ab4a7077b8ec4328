import ApiManifest.Yaml.Reading
import ApiManifest.Proofs.Results

/-!
Readers step by step. What a reader with two parts has read was read by the one part and then by the
other (`bind_eq_ok_iff`), and what it makes of a list was read item by item (`mapM_eq_ok_iff`). A
reader that follows no alias leaves the count of aliases as it is (`mapM_of_forall₂`).
-/

set_option autoImplicit false
set_option relaxedAutoImplicit false

namespace ApiManifest.Yaml.Reading

variable {α β : Type}

/-- A reader goes on with what the one before it has read. -/
theorem bind_of_ok {r : Reading α} {x : α} {n m : Nat} (hr : r n = .ok (x, m)) (f : α → Reading β) :
    (r >>= f) n = f x m := by
  show (r n).bind (fun p ↦ f p.1 p.2) = _
  rw [hr]
  rfl

/-- Items that are all read are read one after the other. -/
theorem mapM_of_forall₂ {r : α → Reading β} {xs : List α} {ys : List β}
    (hr : List.Forall₂ (fun x y ↦ ∀ n, r x n = .ok (y, n)) xs ys) (n : Nat) :
    xs.mapM r n = .ok (ys, n) := by
  induction hr with
  | nil => rfl
  | cons hx _ ih =>
    rw [List.mapM_cons, bind_of_ok (hx n), bind_of_ok ih]
    rfl

theorem mapM_eq_ok {r : α → Reading β} {f : α → β} {xs : List α}
    (hr : ∀ x ∈ xs, ∀ n, r x n = .ok (f x, n)) (n : Nat) :
    xs.mapM r n = .ok (xs.map f, n) :=
  mapM_of_forall₂ (List.forall₂_map_right_iff.mpr (List.forall₂_same.mpr hr)) n

theorem run_eq_ok {r : Reading α} {x : α} {n : Nat} (hr : r 0 = .ok (x, n)) : r.run = .ok x := by
  rw [run, hr]
  rfl

/-- A reader with two parts reads with the first and goes on with the second. -/
theorem bind_eq_ok_iff {r : Reading α} {f : α → Reading β} {y : β} {n m : Nat} :
    (r >>= f) n = .ok (y, m) ↔ ∃ x k, r n = .ok (x, k) ∧ f x k = .ok (y, m) := by
  constructor
  · intro h
    cases hr : r n with
    | error e =>
      have hbind : (r >>= f) n = .error e := by
        show (r n).bind (fun p ↦ f p.1 p.2) = _
        rw [hr]
        rfl
      rw [hbind] at h
      exact absurd h (by simp)
    | ok p =>
      obtain ⟨x, k⟩ := p
      rw [bind_of_ok hr] at h
      exact ⟨x, k, rfl, h⟩
  · rintro ⟨x, k, hr, hf⟩
    rw [bind_of_ok hr, hf]

theorem pure_eq_ok_iff {x y : α} {n m : Nat} :
    (pure x : Reading α) n = .ok (y, m) ↔ x = y ∧ n = m := by
  show Except.ok (x, n) = _ ↔ _
  rw [Except.ok.injEq, Prod.mk.injEq]

/-- Holds when a reader makes the values of the items, one after the other, the counts of aliases
before and after being given. -/
inductive Reads (r : α → Reading β) : List α → List β → Nat → Nat → Prop
  | nil (n : Nat) : Reads r [] [] n n
  | cons {x : α} {y : β} {xs : List α} {ys : List β} {n k m : Nat} (hx : r x n = .ok (y, k))
      (hxs : Reads r xs ys k m) : Reads r (x :: xs) (y :: ys) n m

theorem mapM_eq_ok_iff {r : α → Reading β} {xs : List α} {ys : List β} {n m : Nat} :
    xs.mapM r n = .ok (ys, m) ↔ Reads r xs ys n m := by
  induction xs generalizing ys n with
  | nil =>
    rw [List.mapM_nil, pure_eq_ok_iff]
    constructor
    · rintro ⟨rfl, rfl⟩
      exact .nil n
    · intro h
      cases h
      exact ⟨rfl, rfl⟩
  | cons x xs ih =>
    rw [List.mapM_cons, bind_eq_ok_iff]
    simp only [bind_eq_ok_iff, pure_eq_ok_iff]
    constructor
    · rintro ⟨y, k, hx, zs, m', hxs, rfl, rfl⟩
      exact .cons hx (ih.mp hxs)
    · intro h
      cases h with
      | cons hx hxs => exact ⟨_, _, hx, _, _, ih.mpr hxs, rfl, rfl⟩

/-- The values that were made, item by item. -/
theorem Reads.forall₂ {r : α → Reading β} {xs : List α} {ys : List β} {n m : Nat}
    (h : Reads r xs ys n m) : List.Forall₂ (fun x y ↦ ∃ k l, r x k = .ok (y, l)) xs ys := by
  induction h with
  | nil n => exact .nil
  | cons hx _ ih => exact .cons ⟨_, _, hx⟩ ih

/-- Another reader reads a list with the same counts of aliases when it reads every item so. -/
theorem Reads.exists_of_forall {γ : Type} {r : α → Reading β} {r' : α → Reading γ}
    {R : β → γ → Prop} {xs : List α} {ys : List β} {n m : Nat} (h : Reads r xs ys n m)
    (hr : ∀ x ∈ xs, ∀ y i j, r x i = .ok (y, j) → ∃ z, r' x i = .ok (z, j) ∧ R y z) :
    ∃ zs, Reads r' xs zs n m ∧ List.Forall₂ R ys zs := by
  induction h with
  | nil n => exact ⟨[], .nil n, .nil⟩
  | cons hx _ ih =>
    obtain ⟨hhead, htail⟩ := List.forall_mem_cons.mp hr
    obtain ⟨z, hz, hR⟩ := hhead _ _ _ hx
    obtain ⟨zs, hzs, hRs⟩ := ih htail
    exact ⟨z :: zs, .cons hz hzs, .cons hR hRs⟩

end ApiManifest.Yaml.Reading
