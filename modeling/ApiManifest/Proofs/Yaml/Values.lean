import ApiManifest.Proofs.Yaml.Reading
import ApiManifest.Yaml.Json

/-!
What merging and the way to JSON do at one value. A mapping is merged before its values are
(`mergeWithin_map_eq_ok_iff`), and its keys become text before its values become JSON
(`toJsonWithin_eq_ok_iff`).
-/

set_option autoImplicit false
set_option relaxedAutoImplicit false

namespace ApiManifest.Yaml.Value

/-! ### Merging -/

theorem mergeWithin_zero (v : Value) : mergeWithin 0 v = .ok v := by
  cases v <;> rfl

/-- There is nothing to merge in a scalar. -/
theorem mergeWithin_of_ofAtom {s : String} {a : Atom} {v : Value} (hv : ofAtom s a = .ok v)
    (n : Nat) :
    mergeWithin n v = .ok v := by
  cases a with
  | wide => exact absurd hv (by simp [ofAtom])
  | _ =>
    rw [← Except.ok.inj hv]
    cases n <;> rfl

theorem mergeWithin_seq_eq_ok_iff {n : Nat} {items : List Value} {w : Value} :
    mergeWithin (n + 1) (.seq items) = .ok w ↔
      ∃ vs, List.Forall₂ (fun v v' ↦ mergeWithin n v = .ok v') items vs ∧ w = .seq vs := by
  rw [mergeWithin, except_bind_eq_ok_iff]
  simp only [mapM_eq_ok_iff_forall₂]
  exact exists_congr fun vs ↦ and_congr_right fun _ ↦
    ⟨fun h ↦ (Except.ok.inj h).symm, fun h ↦ congrArg Except.ok h.symm⟩

theorem mergeWithin_tagged_eq_ok_iff {n : Nat} {name : String} {v w : Value} :
    mergeWithin (n + 1) (.tagged name v) = .ok w ↔
      ∃ v', mergeWithin n v = .ok v' ∧ w = .tagged name v' := by
  rw [mergeWithin, except_bind_eq_ok_iff]
  exact exists_congr fun v' ↦ and_congr_right fun _ ↦
    ⟨fun h ↦ (Except.ok.inj h).symm, fun h ↦ congrArg Except.ok h.symm⟩

theorem mergeWithin_map_eq_ok_iff {n : Nat} {entries : List (Value × Value)} {w : Value} :
    mergeWithin (n + 1) (.map entries) = .ok w ↔
      ∃ merged es, mergeEntries entries = .ok merged ∧
        List.Forall₂ (fun e e' ↦ e'.1 = e.1 ∧ mergeWithin n e.2 = .ok e'.2) merged es ∧
        w = .map es := by
  have hentry (e e' : Value × Value) :
      (do return (e.1, ← mergeWithin n e.2) : Except Error (Value × Value)) = .ok e' ↔
        e'.1 = e.1 ∧ mergeWithin n e.2 = .ok e'.2 := by
    rw [except_bind_eq_ok_iff]
    constructor
    · rintro ⟨v, hv, he⟩
      rw [← Except.ok.inj he]
      exact ⟨rfl, hv⟩
    · rintro ⟨hkey, hv⟩
      exact ⟨e'.2, hv, by rw [← hkey]; rfl⟩
  rw [mergeWithin, except_bind_eq_ok_iff]
  simp only [except_bind_eq_ok_iff, mapM_eq_ok_iff_forall₂, hentry]
  constructor
  · rintro ⟨merged, hmerged, es, hes, hw⟩
    exact ⟨merged, es, hmerged, hes, (Except.ok.inj hw).symm⟩
  · rintro ⟨merged, es, hmerged, hes, rfl⟩
    exact ⟨merged, hmerged, es, hes, rfl⟩

/-- A key that stands once is taken out, the last entry moving to its place. -/
theorem removeKey_perm {k : Value} {e : Value × Value} {front back : List (Value × Value)}
    (hfront : ∀ e ∈ front, same k e.1 = false) (he : same k e.1 = true) :
    (removeKey k (front ++ e :: back)).Perm (front ++ back) := by
  have hindex : (front ++ e :: back).findIdx? (fun e ↦ same k e.1) = some front.length := by
    rw [List.findIdx?_append, List.findIdx?_eq_none_iff.mpr hfront, List.findIdx?_cons, he]
    simp
  rw [removeKey, hindex]
  rcases List.eq_nil_or_concat' back with rfl | ⟨middle, last, rfl⟩
  · simp
  · rw [← List.cons_append, ← List.append_assoc]
    simp only [List.getLast?_concat, List.dropLast_concat]
    rw [if_neg (by simp), List.set_append_right _ _ (Nat.le_refl _), Nat.sub_self,
      List.set_cons_zero]
    exact List.Perm.append_left front (List.perm_append_singleton last middle).symm

/-- Removing a key leaves everything or takes out the first entry of the key. -/
theorem removeKey_cases (k : Value) (entries : List (Value × Value)) :
    ((∀ e ∈ entries, same k e.1 = false) ∧ removeKey k entries = entries) ∨
      ∃ front e back, entries = front ++ e :: back ∧ (∀ e ∈ front, same k e.1 = false) ∧
        same k e.1 = true ∧ (removeKey k entries).Perm (front ++ back) := by
  by_cases hkey : ∃ e ∈ entries, same k e.1 = true
  · obtain ⟨_, hmem, hsame⟩ := hkey
    obtain ⟨e, front, back, hfront, he, rfl, -⟩ :=
      List.exists_of_eraseP (p := fun e ↦ same k e.1) hmem hsame
    have hother : ∀ e ∈ front, same k e.1 = false := fun e he ↦ Bool.eq_false_iff.mpr (hfront e he)
    exact .inr ⟨front, e, back, rfl, hother, he, removeKey_perm hother he⟩
  · have hother : ∀ e ∈ entries, same k e.1 = false := fun e he ↦
      Bool.eq_false_iff.mpr fun hsame ↦ hkey ⟨e, he, hsame⟩
    refine .inl ⟨hother, ?_⟩
    rw [removeKey, List.findIdx?_eq_none_iff.mpr hother]

/-- The entries that are left when one is removed. -/
theorem mem_of_mem_removeKey {k : Value} {entries : List (Value × Value)} {e : Value × Value}
    (he : e ∈ removeKey k entries) : e ∈ entries := by
  rcases removeKey_cases k entries with ⟨-, hsame⟩ | ⟨front, _, back, rfl, -, -, hperm⟩
  · rwa [hsame] at he
  · rcases List.mem_append.mp (hperm.mem_iff.mp he) with hfront | hback
    · exact List.mem_append_left _ hfront
    · exact List.mem_append_right _ (List.mem_cons_of_mem _ hback)

theorem mem_of_mem_foldl_adopt {entries adopted : List (Value × Value)} {e : Value × Value}
    (he : e ∈ adopted.foldl adopt entries) : e ∈ entries ∨ e ∈ adopted := by
  induction adopted generalizing entries with
  | nil => exact .inl he
  | cons a adopted ih =>
    rcases ih he with hmem | hmem
    · rw [adopt] at hmem
      split_ifs at hmem
      · exact .inl hmem
      · rcases List.mem_append.mp hmem with hold | hnew
        · exact .inl hold
        · exact .inr (List.mem_cons.mpr (.inl (List.mem_singleton.mp hnew)))
    · exact .inr (List.mem_cons_of_mem a hmem)

/-- Holds when a mapping is what a merge key has, or an item of it. -/
def NamesSource (v : Value) (source : List (Value × Value)) : Prop :=
  v = .map source ∨ ∃ items, v = .seq items ∧ .map source ∈ items

/-- Every item of a list that is made item by item is made of one. -/
theorem exists_of_mapM_eq_some {α β : Type} {f : α → Option β} {xs : List α} {ys : List β}
    (h : xs.mapM f = some ys) {y : β} (hy : y ∈ ys) : ∃ x ∈ xs, f x = some y := by
  induction xs generalizing ys with
  | nil =>
    rw [List.mapM_nil] at h
    obtain rfl : [] = ys := Option.some.inj h
    exact absurd hy List.not_mem_nil
  | cons x xs ih =>
    rw [List.mapM_cons] at h
    obtain ⟨z, hx, h⟩ := Option.bind_eq_some_iff.mp h
    obtain ⟨zs, hxs, h⟩ := Option.bind_eq_some_iff.mp h
    obtain rfl : z :: zs = ys := Option.some.inj h
    rcases List.mem_cons.mp hy with rfl | hmem
    · exact ⟨x, List.mem_cons_self, hx⟩
    · obtain ⟨x', hx', hy'⟩ := ih hxs hmem
      exact ⟨x', List.mem_cons_of_mem x hx', hy'⟩

theorem namesSource_of_merged? {v : Value} {sources : List (List (Value × Value))}
    (hv : merged? v = some sources) {source : List (Value × Value)} (hsource : source ∈ sources) :
    NamesSource v source := by
  cases v with
  | map entries =>
    obtain rfl : [entries] = sources := Option.some.inj hv
    rw [List.mem_singleton.mp hsource]
    exact .inl rfl
  | seq items =>
    refine .inr ⟨items, rfl, ?_⟩
    obtain ⟨item, hitem, hmap⟩ := exists_of_mapM_eq_some hv hsource
    cases item with
    | map entries =>
      obtain rfl : entries = source := Option.some.inj hmap
      exact hitem
    | _ => exact absurd hmap (by simp)
  | _ => exact absurd hv (by simp [merged?])

/-- A mapping stays as it is, or has its merge key replaced by entries of the mappings that it
names. -/
theorem mergeEntries_eq_ok {entries merged : List (Value × Value)}
    (h : mergeEntries entries = .ok merged) :
    (find? mergeKey entries = none ∧ merged = entries) ∨
      ∃ v, find? mergeKey entries = some v ∧ ∀ e ∈ merged,
        e ∈ removeKey mergeKey entries ∨ ∃ source, NamesSource v source ∧ e ∈ source := by
  rw [mergeEntries] at h
  cases hfind : find? mergeKey entries with
  | none =>
    rw [hfind] at h
    exact .inl ⟨rfl, (Except.ok.inj h).symm⟩
  | some v =>
    rw [hfind] at h
    cases hsources : merged? v with
    | none =>
      simp only [hsources] at h
      exact absurd h (by simp)
    | some sources =>
      simp only [hsources] at h
      refine .inr ⟨v, rfl, fun e he ↦ ?_⟩
      rw [← Except.ok.inj h] at he
      refine (mem_of_mem_foldl_adopt he).imp_right fun hadopted ↦ ?_
      obtain ⟨source, hsource, hmem⟩ := List.mem_flatten.mp hadopted
      exact ⟨source, namesSource_of_merged? hsources hsource, hmem⟩

/-! ### The way to JSON -/

/-- The field of an entry. -/
def IsField (n : Nat) (e : Value × Value) (p : String × Json) : Prop :=
  keyString? e.1 = some p.1 ∧ toJsonWithin n e.2 = .ok p.2

/-- Holds when a value becomes a JSON value, collections being nested at most to the given depth. -/
inductive IsJson : Nat → Value → Json → Prop
  | atom {n : Nat} {s : String} {a : Atom} {v : Value} {j : Json} (hv : ofAtom s a = .ok v)
      (hj : jsonOfAtom s a = .ok j) : IsJson n v j
  | seq {n : Nat} {items : List Value} {js : List Json}
      (hitems : List.Forall₂ (fun v j ↦ toJsonWithin n v = .ok j) items js) :
      IsJson (n + 1) (.seq items) (.arr js)
  | map {n : Nat} {entries : List (Value × Value)} {pairs : List (String × Json)}
      (hpairs : List.Forall₂ (IsField n) (textKeys entries) pairs) :
      IsJson (n + 1) (.map entries) (.object pairs)

/-- A scalar becomes what the direct reader makes of it. -/
theorem toJsonWithin_of_ofAtom {s : String} {a : Atom} {v : Value} (hv : ofAtom s a = .ok v)
    (n : Nat) :
    toJsonWithin n v = jsonOfAtom s a := by
  cases a with
  | wide => exact absurd hv (by simp [ofAtom])
  | _ =>
    rw [← Except.ok.inj hv]
    cases n <;> rfl

theorem isField_iff {n : Nat} {e : Value × Value} {p : String × Json} :
    (match keyString? e.1 with
      | some k => do return (k, ← toJsonWithin n e.2)
      | none => throw .kind) = Except.ok (ε := Error) p ↔ IsField n e p := by
  rw [IsField]
  cases hkey : keyString? e.1 with
  | none => simp [throw, throwThe, MonadExceptOf.throw]
  | some k =>
    show (do return (k, ← toJsonWithin n e.2) : Except Error (String × Json)) = _ ↔ _
    rw [except_bind_eq_ok_iff, Option.some.injEq]
    constructor
    · rintro ⟨v, hv, hp⟩
      rw [← Except.ok.inj hp]
      exact ⟨rfl, hv⟩
    · rintro ⟨rfl, hv⟩
      exact ⟨p.2, hv, rfl⟩

theorem isJson_of_eq_ok {n : Nat} {v : Value} {j : Json} (h : toJsonWithin n v = .ok j) :
    IsJson n v j := by
  have hatom {s : String} {a : Atom} (hv : ofAtom s a = .ok v) : IsJson n v j :=
    .atom hv ((toJsonWithin_of_ofAtom hv n).symm.trans h)
  cases v with
  | null => exact hatom (s := "") (a := .null) rfl
  | bool b => exact hatom (s := "") (a := .bool b) rfl
  | int k => exact hatom (s := "") (a := .int k) rfl
  | float x => exact hatom (s := "") (a := .float x) rfl
  | str s => exact hatom (s := s) (a := .text) rfl
  | tagged name v => exact absurd h (by cases n <;> simp [toJsonWithin])
  | seq items =>
    cases n with
    | zero => exact absurd h (by simp [toJsonWithin])
    | succ n =>
      rw [toJsonWithin, except_bind_eq_ok_iff] at h
      obtain ⟨js, hjs, hj⟩ := h
      rw [← Except.ok.inj hj]
      exact .seq (mapM_eq_ok_iff_forall₂.mp hjs)
  | map entries =>
    cases n with
    | zero => exact absurd h (by simp [toJsonWithin])
    | succ n =>
      rw [toJsonWithin, except_bind_eq_ok_iff] at h
      obtain ⟨pairs, hpairs, hj⟩ := h
      rw [← Except.ok.inj hj]
      exact .map ((mapM_eq_ok_iff_forall₂.mp hpairs).imp fun e p ↦ isField_iff.mp)

theorem toJsonWithin_eq_ok_iff {n : Nat} {v : Value} {j : Json} :
    toJsonWithin n v = .ok j ↔ IsJson n v j := by
  refine ⟨isJson_of_eq_ok, fun h ↦ ?_⟩
  cases h with
  | atom hv hj => rw [toJsonWithin_of_ofAtom hv, hj]
  | seq hitems =>
    rw [toJsonWithin, mapM_eq_ok_iff_forall₂.mpr hitems]
    rfl
  | map hpairs =>
    rw [toJsonWithin, except_bind_eq_ok_iff]
    exact ⟨_, mapM_eq_ok_iff_forall₂.mpr (hpairs.imp fun e p ↦ isField_iff.mpr), rfl⟩

/-- A list becomes an array. -/
theorem items_of_toJsonWithin {n : Nat} {items : List Value} {j : Json}
    (h : toJsonWithin n (.seq items) = .ok j) :
    ∃ k js, List.Forall₂ (fun v j ↦ toJsonWithin k v = .ok j) items js ∧ j = .arr js := by
  cases toJsonWithin_eq_ok_iff.mp h with
  | @atom _ s a _ _ hv _ => exact absurd hv (by cases a <;> simp [ofAtom])
  | @seq k _ js hitems => exact ⟨k, js, hitems, rfl⟩

/-- A mapping becomes an object. -/
theorem fields_of_toJsonWithin {n : Nat} {entries : List (Value × Value)} {j : Json}
    (h : toJsonWithin n (.map entries) = .ok j) :
    ∃ k pairs, List.Forall₂ (IsField k) (textKeys entries) pairs ∧ j = .object pairs := by
  cases toJsonWithin_eq_ok_iff.mp h with
  | @atom _ s a _ _ hv _ => exact absurd hv (by cases a <;> simp [ofAtom])
  | @map k _ pairs hpairs => exact ⟨k, pairs, hpairs, rfl⟩

end ApiManifest.Yaml.Value
