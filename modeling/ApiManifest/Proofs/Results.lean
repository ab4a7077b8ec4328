import Mathlib.Data.List.Forall2

/-!
Results that may be failures. A computation has a result when its parts have one
(`except_bind_eq_ok_iff`), and one that is made of a list when every item has one, so that the two
lists can be told item by item (`mapM_eq_ok_iff_forall₂`).
-/

set_option autoImplicit false
set_option relaxedAutoImplicit false

namespace ApiManifest

/-- A computation with two parts has a result when both parts have one. -/
theorem except_bind_eq_ok_iff {ε α β : Type} {x : Except ε α} {f : α → Except ε β} {y : β} :
    x >>= f = .ok y ↔ ∃ a, x = .ok a ∧ f a = .ok y := by
  cases x with
  | error cause => simp [bind, Except.bind]
  | ok a => simp [bind, Except.bind]

/-- A computation that goes from state to state through a list fails at one of the items, when those
before it have led to a state in which the item fails. -/
theorem foldlM_eq_error_iff {ε α β : Type} {f : β → α → Except ε β} {xs : List α} {start : β}
    {cause : ε} : xs.foldlM f start = .error cause ↔ ∃ before x after state,
      xs = before ++ x :: after ∧ before.foldlM f start = .ok state ∧
        f state x = .error cause := by
  induction xs generalizing start with
  | nil => simp [pure, Except.pure]
  | cons y xs ih =>
    rw [List.foldlM_cons]
    constructor
    · intro h
      cases hy : f start y with
      | error cause' =>
        rw [hy] at h
        exact ⟨[], y, xs, start, rfl, rfl, hy.trans h⟩
      | ok next =>
        rw [hy] at h
        obtain ⟨before, x, after, state, rfl, hbefore, hx⟩ := ih.mp h
        refine ⟨y :: before, x, after, state, rfl, ?_, hx⟩
        rw [List.foldlM_cons, hy]
        exact hbefore
    · rintro ⟨before, x, after, state, hsplit, hbefore, hx⟩
      cases before with
      | nil =>
        obtain ⟨rfl, rfl⟩ := List.cons.inj hsplit
        obtain rfl : start = state := Except.ok.inj hbefore
        rw [hx]
        rfl
      | cons z before =>
        obtain ⟨rfl, rfl⟩ := List.cons.inj hsplit
        rw [List.foldlM_cons, except_bind_eq_ok_iff] at hbefore
        obtain ⟨next, hy, hbefore⟩ := hbefore
        rw [hy]
        exact ih.mpr ⟨before, x, after, state, rfl, hbefore, hx⟩

theorem mapError_eq_ok_iff {ε ε' α : Type} {f : ε → ε'} {x : Except ε α} {v : α} :
    x.mapError f = .ok v ↔ x = .ok v := by
  cases x <;> simp [Except.mapError]

/-- Items that are judged one after the other, without a state between them. -/
theorem mapM_eq_ok_iff_forall₂ {ε α β : Type} {f : α → Except ε β} {xs : List α} {ys : List β} :
    xs.mapM f = .ok ys ↔ List.Forall₂ (fun x y ↦ f x = .ok y) xs ys := by
  induction xs generalizing ys with
  | nil =>
    rw [List.mapM_nil, List.forall₂_nil_left_iff]
    exact ⟨fun h ↦ (Except.ok.inj h).symm, fun h ↦ congrArg Except.ok h.symm⟩
  | cons x xs ih =>
    rw [List.mapM_cons, except_bind_eq_ok_iff, List.forall₂_cons_left_iff]
    simp only [except_bind_eq_ok_iff, ih]
    constructor
    · rintro ⟨y, hx, zs, hxs, hys⟩
      exact ⟨y, zs, hx, hxs, (Except.ok.inj hys).symm⟩
    · rintro ⟨y, zs, hx, hxs, rfl⟩
      exact ⟨y, hx, zs, hxs, rfl⟩

/-! ### Items and what they have to do with each other -/

/-- What the items of one list have to do with those of another, they have one by one. -/
theorem forall_mem_of_forall₂ {α β : Type} {R : α → β → Prop} {P : β → Prop} {xs : List α}
    {ys : List β} (h : List.Forall₂ R xs ys) (hP : ∀ x ∈ xs, ∀ y, R x y → P y) : ∀ y ∈ ys, P y := by
  induction h with
  | nil => exact fun y hy ↦ absurd hy List.not_mem_nil
  | cons hxy _ ih =>
    exact List.forall_mem_cons.mpr ⟨hP _ List.mem_cons_self _ hxy,
      ih fun x hx ↦ hP x (List.mem_cons_of_mem _ hx)⟩

/-- What the items of two lists have to do with each other may depend on what the items are. -/
theorem forall₂_imp_of_mem {α β : Type} {R S : α → β → Prop} {xs : List α} {ys : List β}
    (h : List.Forall₂ R xs ys) (hS : ∀ x ∈ xs, ∀ y, R x y → S x y) : List.Forall₂ S xs ys := by
  induction h with
  | nil => exact .nil
  | cons hxy _ ih =>
    exact .cons (hS _ List.mem_cons_self _ hxy) (ih fun x hx ↦ hS x (List.mem_cons_of_mem _ hx))

/-- Every item of the one list has to do with one of the other. -/
theorem exists_mem_of_forall₂ {α β : Type} {R : α → β → Prop} {xs : List α} {ys : List β}
    (h : List.Forall₂ R xs ys) {x : α} (hx : x ∈ xs) : ∃ y ∈ ys, R x y :=
  forall_mem_of_forall₂ h.flip (P := fun x ↦ ∃ y ∈ ys, R x y) (fun y hy _ hxy ↦ ⟨y, hy, hxy⟩) x hx

/-- Two lists that are made of the same items are made so item by item. -/
theorem forall₂_of_common {α β γ : Type} {R : α → β → Prop} {S : α → γ → Prop} {xs : List α}
    {ys : List β} {zs : List γ} (hR : List.Forall₂ R xs ys) (hS : List.Forall₂ S xs zs) :
    List.Forall₂ (fun y z ↦ ∃ x ∈ xs, R x y ∧ S x z) ys zs := by
  induction hR generalizing zs with
  | nil =>
    cases hS
    exact .nil
  | cons hxy _ ih =>
    cases hS with
    | cons hxz hS =>
      refine .cons ⟨_, List.mem_cons_self, hxy, hxz⟩ ((ih hS).imp ?_)
      rintro y z ⟨x, hx, hboth⟩
      exact ⟨x, List.mem_cons_of_mem _ hx, hboth⟩

end ApiManifest
