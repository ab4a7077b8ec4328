import ApiManifest.Dictionary
import Mathlib.Algebra.GroupWithZero.Nat
import Mathlib.Data.List.Forall2
import Mathlib.Data.List.Induction
import Mathlib.Data.List.Nodup
import Mathlib.Tactic.Common

/-!
Laws of dictionaries. What a key stands for is told by `find?_insert`, and for a list of pairs by
`find?_ofList`: the last pair with the key. A dictionary made from a list ascends
(`ascending_ofList`), and one that ascends is told by what its keys stand for (`eq_of_find?`).
-/

set_option autoImplicit false
set_option relaxedAutoImplicit false

namespace ApiManifest.Dictionary

variable {α : Type} {k j : String} {v : α} {d : Dictionary α} {pairs : List (String × α)}

theorem key_ne {j k : String} (h : j < k) : j ≠ k := by
  rintro rfl
  exact String.lt_irrefl j h

/-- Of two different keys one comes first. -/
theorem key_lt_of_not_lt {j k : String} (hlt : ¬ j < k) (hne : j ≠ k) : k < j :=
  String.not_le.mp fun h ↦ hne (String.le_antisymm h (String.not_lt.mp hlt))

theorem find?_cons (j k : String) (v : α) (d : Dictionary α) :
    find? j ((k, v) :: d) = if j = k then some v else find? j d := by
  rw [find?, List.lookup_cons]
  by_cases h : j = k
  · rw [if_pos h, beq_iff_eq.mpr h]
  · rw [if_neg h, beq_eq_false_iff_ne.mpr h]
    rfl

/-- A value is looked up among values that are changed alike. -/
theorem lookup_map {β : Type} (f : α → β) (k : String) (pairs : List (String × α)) :
    (pairs.map fun p ↦ (p.1, f p.2)).lookup k = (pairs.lookup k).map f := by
  induction pairs with
  | nil => rfl
  | cons p pairs ih =>
    rw [List.map_cons, List.lookup_cons, List.lookup_cons, ih]
    cases k == p.1 <;> rfl

theorem mem_of_find? (h : find? k d = some v) : (k, v) ∈ d := by
  obtain ⟨front, back, rfl, _⟩ := List.lookup_eq_some_iff.mp h
  exact List.mem_append_right front List.mem_cons_self

/-- An inserted entry is what its key stands for, and other keys are left alone. -/
theorem find?_insert (j k : String) (v : α) (d : Dictionary α) :
    find? j (insert k v d) = if j = k then some v else find? j d := by
  induction d with
  | nil => exact find?_cons j k v []
  | cons p d ih =>
    obtain ⟨k', v'⟩ := p
    rw [insert]
    by_cases hlt : k < k'
    · rw [if_pos hlt, find?_cons]
    · rw [if_neg hlt]
      by_cases heq : k = k'
      · rw [if_pos heq, find?_cons, find?_cons, heq]
        split_ifs <;> rfl
      · rw [if_neg heq, find?_cons, find?_cons, ih]
        split_ifs with hj hk
        · exact absurd (hk.symm.trans hj) heq
        · rfl
        · rfl
        · rfl

theorem mem_of_mem_insert {p : String × α} (hp : p ∈ insert k v d) : p = (k, v) ∨ p ∈ d := by
  induction d with
  | nil => exact .inl (List.mem_singleton.mp hp)
  | cons q d ih =>
    obtain ⟨k', v'⟩ := q
    rw [insert] at hp
    split_ifs at hp with hlt heq
    · exact List.mem_cons.mp hp
    · exact (List.mem_cons.mp hp).imp_right (List.mem_cons_of_mem _)
    · rcases List.mem_cons.mp hp with rfl | hp
      · exact .inr List.mem_cons_self
      · exact (ih hp).imp_right (List.mem_cons_of_mem _)

theorem ascending_insert (hd : Ascending d) : Ascending (insert k v d) := by
  induction d with
  | nil => exact List.pairwise_singleton _ _
  | cons p d ih =>
    obtain ⟨k', v'⟩ := p
    obtain ⟨hhead, htail⟩ := List.pairwise_cons.mp hd
    rw [insert]
    split_ifs with hlt heq
    · refine List.pairwise_cons.mpr ⟨fun q hq ↦ ?_, hd⟩
      rcases List.mem_cons.mp hq with rfl | hq
      · exact hlt
      · exact String.lt_trans hlt (hhead q hq)
    · refine List.pairwise_cons.mpr ⟨fun q hq ↦ ?_, htail⟩
      rw [heq]
      exact hhead q hq
    · refine List.pairwise_cons.mpr ⟨fun q hq ↦ ?_, ih htail⟩
      rcases mem_of_mem_insert hq with rfl | hq
      · exact key_lt_of_not_lt hlt heq
      · exact hhead q hq

theorem ofList_append_singleton (pairs : List (String × α)) (p : String × α) :
    ofList (pairs ++ [p]) = insert p.1 p.2 (ofList pairs) := List.foldl_append

theorem ascending_ofList (pairs : List (String × α)) : Ascending (ofList pairs) := by
  induction pairs using List.reverseRecOn with
  | nil => exact List.Pairwise.nil
  | append_singleton pairs p ih =>
    rw [ofList_append_singleton]
    exact ascending_insert ih

theorem mem_of_mem_ofList {p : String × α} (hp : p ∈ ofList pairs) : p ∈ pairs := by
  induction pairs using List.reverseRecOn with
  | nil => exact absurd hp List.not_mem_nil
  | append_singleton pairs q ih =>
    rw [ofList_append_singleton] at hp
    rw [List.mem_append, List.mem_singleton]
    exact (mem_of_mem_insert hp).symm.imp_left ih

/-- Of pairs with the same key the last one counts. -/
theorem find?_ofList (k : String) (pairs : List (String × α)) :
    find? k (ofList pairs) = pairs.reverse.lookup k := by
  induction pairs using List.reverseRecOn with
  | nil => rfl
  | append_singleton pairs p ih =>
    rw [ofList_append_singleton, find?_insert, ih, List.reverse_append, List.reverse_singleton,
      List.singleton_append]
    exact (find?_cons k p.1 p.2 _).symm

theorem insert_of_forall_lt (hd : ∀ p ∈ d, p.1 < k) : insert k v d = d ++ [(k, v)] := by
  induction d with
  | nil => rfl
  | cons p d ih =>
    have hp := hd p List.mem_cons_self
    rw [insert, if_neg (String.lt_asymm hp), if_neg (key_ne hp).symm,
      ih fun q hq ↦ hd q (List.mem_cons_of_mem p hq)]
    rfl

theorem nodup_keys (hd : Ascending d) : d.keys.Nodup :=
  List.pairwise_map.mpr (hd.imp key_ne)

/-- Pairs whose keys ascend are a dictionary as they are. -/
theorem ofList_of_ascending (hd : Ascending d) : ofList d = d := by
  induction d using List.reverseRecOn with
  | nil => rfl
  | append_singleton d p ih =>
    obtain ⟨hfirst, _, hlast⟩ := List.pairwise_append.mp hd
    rw [ofList_append_singleton, ih hfirst,
      insert_of_forall_lt fun q hq ↦ hlast q hq p (List.mem_singleton_self p)]

theorem find?_eq_none_of_forall_lt (hd : ∀ p ∈ d, k < p.1) : find? k d = none := by
  induction d with
  | nil => rfl
  | cons p d ih =>
    rw [show p :: d = (p.1, p.2) :: d from rfl, find?_cons,
      if_neg (key_ne (hd p List.mem_cons_self)), ih fun q hq ↦ hd q (List.mem_cons_of_mem p hq)]

/-- A dictionary is told by what its keys stand for. -/
theorem eq_of_find? {a b : Dictionary α} (ha : Ascending a) (hb : Ascending b)
    (hsame : ∀ k, find? k a = find? k b) : a = b := by
  induction a generalizing b with
  | nil =>
    cases b with
    | nil => rfl
    | cons q b =>
      have hq := hsame q.1
      rw [show q :: b = (q.1, q.2) :: b from rfl, find?_cons, if_pos rfl] at hq
      exact absurd hq.symm (by simp [find?])
  | cons p a ih =>
    obtain ⟨hhead, htail⟩ := List.pairwise_cons.mp ha
    cases b with
    | nil =>
      have hp := hsame p.1
      rw [show p :: a = (p.1, p.2) :: a from rfl, find?_cons, if_pos rfl] at hp
      exact absurd hp (by simp [find?])
    | cons q b =>
      obtain ⟨hhead', htail'⟩ := List.pairwise_cons.mp hb
      obtain ⟨k, v⟩ := p
      obtain ⟨k', v'⟩ := q
      have hp := hsame k
      have hq := hsame k'
      simp only [find?_cons, if_true] at hp hq
      have hkeys : k = k' := by
        by_contra hne
        by_cases hlt : k < k'
        · rw [if_neg hne, find?_eq_none_of_forall_lt fun r hr ↦ String.lt_trans hlt (hhead' r hr)]
          at hp
          exact absurd hp (by simp)
        · have hlt' := key_lt_of_not_lt hlt hne
          rw [if_neg (key_ne hlt'),
            find?_eq_none_of_forall_lt fun r hr ↦ String.lt_trans hlt' (hhead r hr)] at hq
          exact absurd hq (by simp)
      subst hkeys
      rw [if_pos rfl, Option.some.injEq] at hp
      subst hp
      rw [ih htail htail' fun j ↦ ?_]
      have hj := hsame j
      simp only [find?_cons] at hj
      split_ifs at hj with h
      · rw [h, find?_eq_none_of_forall_lt hhead, find?_eq_none_of_forall_lt hhead']
      · exact hj

/-- The last entry of a key is replaced where it stands. -/
theorem ofList_replace {v' : α} {front back : List (String × α)} (hback : k ∉ back.map Prod.fst) :
    ofList (front ++ (k, v) :: back) = insert k v (ofList (front ++ (k, v') :: back)) := by
  refine eq_of_find? (ascending_ofList _) (ascending_insert (ascending_ofList _)) fun j ↦ ?_
  have hlookup (w : α) : find? j (ofList (front ++ (k, w) :: back)) =
      ((back.reverse.lookup j).or (if j = k then some w else front.reverse.lookup j)) := by
    rw [find?_ofList, List.reverse_append, List.reverse_cons, List.append_assoc, List.lookup_append]
    exact congrArg _ (find?_cons j k w front.reverse)
  rw [find?_insert, hlookup, hlookup]
  by_cases hj : j = k
  · have hnone : back.reverse.lookup j = none := by
      refine List.lookup_eq_none_iff.mpr fun p hp ↦ ?_
      rw [hj]
      exact bne_iff_ne.mpr fun hsame ↦
        hback (List.mem_map.mpr ⟨p, List.mem_reverse.mp hp, hsame.symm⟩)
    rw [if_pos hj, if_pos hj, hnone, Option.none_or]
  · rw [if_neg hj, if_neg hj, if_neg hj]

/-- Where keys differ, every pair is an entry of the dictionary. -/
theorem find?_ofList_of_mem (hkeys : (pairs.map Prod.fst).Nodup) (hmem : (k, v) ∈ pairs) :
    find? k (ofList pairs) = some v := by
  rw [find?_ofList, List.lookup_eq_some_iff]
  obtain ⟨front, back, rfl⟩ := List.append_of_mem hmem
  refine ⟨back.reverse, front.reverse, by simp, fun p hp ↦ ?_⟩
  rw [List.map_append, List.map_cons] at hkeys
  have hback := (List.nodup_cons.mp (List.nodup_append.mp hkeys).2.1).1
  exact bne_iff_ne.mpr fun hsame ↦
    hback (List.mem_map.mpr ⟨p, List.mem_reverse.mp hp, hsame.symm⟩)

/-- Where keys differ, the entries of the dictionary are the pairs. -/
theorem find?_ofList_eq_some_iff (hkeys : (pairs.map Prod.fst).Nodup) :
    find? k (ofList pairs) = some v ↔ (k, v) ∈ pairs :=
  ⟨fun h ↦ mem_of_mem_ofList (mem_of_find? h), find?_ofList_of_mem hkeys⟩

/-- Where keys differ, a dictionary has the pairs that it is made from in another order. -/
theorem ofList_perm (hkeys : (pairs.map Prod.fst).Nodup) : (ofList pairs).Perm pairs := by
  have hnodup : (ofList pairs).Nodup :=
    List.Nodup.of_map Prod.fst (nodup_keys (ascending_ofList pairs))
  refine (List.perm_ext_iff_of_nodup hnodup (List.Nodup.of_map _ hkeys)).mpr fun p ↦ ?_
  exact ⟨mem_of_mem_ofList, fun hp ↦ mem_of_find? (find?_ofList_of_mem hkeys hp)⟩

/-- Where keys differ, the order of the pairs does not matter. -/
theorem ofList_eq_of_perm {qs : List (String × α)} (hkeys : (pairs.map Prod.fst).Nodup)
    (h : pairs.Perm qs) : ofList pairs = ofList qs := by
  have hkeys' : (qs.map Prod.fst).Nodup := (h.map Prod.fst).nodup_iff.mp hkeys
  refine eq_of_find? (ascending_ofList pairs) (ascending_ofList qs) fun k ↦ Option.ext fun v ↦ ?_
  rw [find?_ofList_eq_some_iff hkeys, find?_ofList_eq_some_iff hkeys', h.mem_iff]

theorem has_iff : has k d = true ↔ k ∈ d.keys := by
  simp [has, find?, keys, List.lookup_isSome_iff, eq_comm (a := k)]

/-- The keys of the pairs that a dictionary is made from are those that have an entry. -/
theorem has_ofList_iff : has k (ofList pairs) = true ↔ k ∈ pairs.map Prod.fst := by
  simp [has, find?_ofList, List.lookup_isSome_iff, eq_comm (a := k)]

/-- Every pair that a dictionary is made from gives its key an entry. -/
theorem has_ofList_of_mem {p : String × α} (hp : p ∈ pairs) : has p.1 (ofList pairs) = true :=
  has_ofList_iff.mpr (List.mem_map_of_mem hp)

/-- Values that are related pair by pair are related under each key. -/
theorem rel_find?_ofList {β : Type} {R : α → β → Prop} {ps : List (String × α)}
    {qs : List (String × β)} (h : List.Forall₂ (fun p q ↦ p.1 = q.1 ∧ R p.2 q.2) ps qs)
    (k : String) : Option.Rel R (find? k (ofList ps)) (find? k (ofList qs)) := by
  have hreverse := List.forall₂_reverse_iff.mpr h
  rw [find?_ofList, find?_ofList]
  generalize ps.reverse = ps, qs.reverse = qs at hreverse
  induction hreverse with
  | nil => exact .none
  | @cons p q ps qs hpq _ ih =>
    obtain ⟨pk, pv⟩ := p
    obtain ⟨qk, qv⟩ := q
    obtain ⟨rfl, hR⟩ := hpq
    rw [List.lookup_cons, List.lookup_cons]
    cases k == pk with
    | true => exact .some hR
    | false => exact ih

/-- Inserting adds no more than the entry to a sum over the entries. -/
theorem sum_insert_le (f : String × α → Nat) (k : String) (v : α) (d : Dictionary α) :
    ((insert k v d).map f).sum ≤ (d.map f).sum + f (k, v) := by
  induction d with
  | nil => simp [insert]
  | cons p d ih =>
    obtain ⟨k', v'⟩ := p
    rw [insert]
    split_ifs
    · simp only [List.map_cons, List.sum_cons]
      omega
    · simp only [List.map_cons, List.sum_cons]
      omega
    · simp only [List.map_cons, List.sum_cons]
      omega

/-- A sum over the entries of a dictionary is at most that over the pairs it is made from. -/
theorem sum_ofList_le (f : String × α → Nat) (pairs : List (String × α)) :
    ((ofList pairs).map f).sum ≤ (pairs.map f).sum := by
  induction pairs using List.reverseRecOn with
  | nil => exact Nat.le_refl _
  | append_singleton pairs p ih =>
    have hinsert : ((insert p.1 p.2 (ofList pairs)).map f).sum ≤ ((ofList pairs).map f).sum + f p :=
      sum_insert_le f p.1 p.2 (ofList pairs)
    rw [ofList_append_singleton, List.map_append, List.sum_append, List.map_singleton,
      List.sum_singleton]
    omega

end ApiManifest.Dictionary
