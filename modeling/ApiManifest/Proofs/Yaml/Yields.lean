import ApiManifest.Proofs.Yaml.Merged

/-!
What a value becomes in a schema document (`Yields`). Merging and the way to JSON go as deep as the
value does, so that it becomes the same wherever it stands. An array comes from a list and an object
from a mapping alone; the fields of an object are the entries of the mapping with its merge key
applied, under the texts of their keys (`isYield_of_yields`).
-/

set_option autoImplicit false
set_option relaxedAutoImplicit false

namespace ApiManifest.Yaml.Value

/-- Holds of a value and the JSON value that it becomes. -/
def Yields (v : Value) (j : Json) : Prop := ∃ w, v.applyMerge = .ok w ∧ w.toJson = .ok j

/-- Holds of fields that are the entries with a property: each entry has a field under the text of
its key, and each field has the value of an entry whose key has that text. -/
structure AreFields (P : Value × Value → Prop) (fields : Dictionary Json) : Prop where
  field : ∀ e, P e → ∃ s, keyString? (textKey e.1) = some s ∧ fields.has s = true
  entry : ∀ s j, fields.find? s = some j →
    ∃ e, P e ∧ keyString? (textKey e.1) = some s ∧ Yields e.2 j

/-- What a value becomes, from what the values in it become. -/
inductive IsYield : Value → Json → Prop
  | atom {s : String} {a : Atom} {v : Value} {j : Json} (hv : ofAtom s a = .ok v)
      (hj : jsonOfAtom s a = .ok j) : IsYield v j
  | seq {items : List Value} {js : List Json} (hitems : List.Forall₂ Yields items js) :
      IsYield (.seq items) (.arr js)
  | map {entries merged : List (Value × Value)} {fields : Dictionary Json}
      (hmerged : mergeEntries entries = .ok merged) (hfields : AreFields (· ∈ merged) fields) :
      IsYield (.map entries) (.obj fields)

variable {n m : Nat} {v w : Value} {j : Json} {items : List Value}
  {entries merged es : List (Value × Value)} {e : Value × Value}

/-! ### Depth -/

/-- The values in a mapping that a merge key names are less deep than what it has. -/
theorem depth_lt_of_namesSource {source : List (Value × Value)} (hv : NamesSource v source)
    (he : e ∈ source) : e.2.depth < v.depth := by
  have hsource : e.2.depth < (map source).depth := Nat.lt_succ_of_le (depth_le_entry he)
  rcases hv with rfl | ⟨items, rfl, hitem⟩
  · exact hsource
  · exact lt_of_lt_of_le hsource (Nat.le_succ_of_le (depth_le_item hitem))

/-- A merge brings no value deeper. -/
theorem depth_le_of_mem_mergeEntries (h : mergeEntries entries = .ok merged) (he : e ∈ merged) :
    e.2.depth ≤ entriesDepth entries := by
  rcases mergeEntries_eq_ok h with ⟨_, rfl⟩ | ⟨v, hv, hmerged⟩
  · exact depth_le_entry he
  · obtain ⟨p, hp, rfl⟩ := Option.map_eq_some_iff.mp hv
    rcases hmerged e he with hown | ⟨source, hsource, hmem⟩
    · exact depth_le_entry (mem_of_mem_removeKey hown)
    · exact (depth_lt_of_namesSource hsource hmem).le.trans
        (depth_le_entry (List.mem_of_find?_eq_some hp))

/-- A bound that a collection is not too deep for leaves one for what is in it. -/
theorem exists_of_depth_le {d : Nat} (h : d + 1 ≤ n) : ∃ k, n = k + 1 ∧ d ≤ k :=
  ⟨n - 1, by omega, by omega⟩

/-- All bounds that a value is not too deep for are alike to a merge. -/
theorem mergeWithin_of_depth_le (hn : v.depth ≤ n) (hm : v.depth ≤ m)
    (h : mergeWithin n v = .ok w) : mergeWithin m v = .ok w := by
  induction n generalizing v w m with
  | zero =>
    cases v with
    | seq items => exact absurd hn (Nat.not_succ_le_zero _)
    | map entries => exact absurd hn (Nat.not_succ_le_zero _)
    | tagged name v => exact absurd hn (Nat.not_succ_le_zero _)
    | _ => cases m <;> exact h
  | succ n ih =>
    cases v with
    | seq items =>
      obtain ⟨m, rfl, hitems⟩ := exists_of_depth_le hm
      obtain ⟨vs, hvs, rfl⟩ := mergeWithin_seq_eq_ok_iff.mp h
      refine mergeWithin_seq_eq_ok_iff.mpr ⟨vs, forall₂_imp_of_mem hvs fun x hx w hw ↦ ?_, rfl⟩
      have hdepth := depth_le_item hx
      exact ih (hdepth.trans (Nat.le_of_succ_le_succ hn)) (hdepth.trans hitems) hw
    | map entries =>
      obtain ⟨m, rfl, hentries⟩ := exists_of_depth_le hm
      obtain ⟨merged, es, hmerged, hes, rfl⟩ := mergeWithin_map_eq_ok_iff.mp h
      refine mergeWithin_map_eq_ok_iff.mpr
        ⟨merged, es, hmerged, forall₂_imp_of_mem hes fun e he e' he' ↦ ⟨he'.1, ?_⟩, rfl⟩
      have hdepth := depth_le_of_mem_mergeEntries hmerged he
      exact ih (hdepth.trans (Nat.le_of_succ_le_succ hn)) (hdepth.trans hentries) he'.2
    | tagged name v =>
      obtain ⟨m, rfl, hvalue⟩ := exists_of_depth_le hm
      obtain ⟨v', hv', rfl⟩ := mergeWithin_tagged_eq_ok_iff.mp h
      exact mergeWithin_tagged_eq_ok_iff.mpr ⟨v', ih (Nat.le_of_succ_le_succ hn) hvalue hv', rfl⟩
    | _ => cases m <;> exact h

/-- Every bound that a value is not too deep for does on the way to JSON. -/
theorem toJsonWithin_of_depth_le (hm : v.depth ≤ m) (h : toJsonWithin n v = .ok j) :
    toJsonWithin m v = .ok j := by
  induction n using Nat.strong_induction_on generalizing v j m with
  | _ n ih =>
    cases toJsonWithin_eq_ok_iff.mp h with
    | atom hv hj => rw [toJsonWithin_of_ofAtom hv, hj]
    | @seq n items js hjs =>
      obtain ⟨m, rfl, hitems⟩ := exists_of_depth_le hm
      refine toJsonWithin_eq_ok_iff.mpr (.seq (forall₂_imp_of_mem hjs fun v hv j hj ↦ ?_))
      exact ih n (Nat.lt_succ_self n) ((depth_le_item hv).trans hitems) hj
    | @map n entries pairs hpairs =>
      obtain ⟨m, rfl, hentries⟩ := exists_of_depth_le hm
      refine toJsonWithin_eq_ok_iff.mpr (.map (forall₂_imp_of_mem hpairs fun r hr p hp ↦ ?_))
      obtain ⟨e, he, hvalue, _⟩ := exists_of_mem_textKeys hr
      refine ⟨hp.1, ih n (Nat.lt_succ_self n) ?_ hp.2⟩
      rw [← hvalue]
      exact (depth_le_entry he).trans hentries

/-- What becomes of a value does not depend on how deep it is read. -/
theorem yields_of_within (hn : v.depth ≤ n) (hmerge : mergeWithin n v = .ok w)
    (hjson : toJsonWithin m w = .ok j) : Yields v j :=
  ⟨w, mergeWithin_of_depth_le hn le_rfl hmerge, toJsonWithin_of_depth_le le_rfl hjson⟩

/-! ### Collections -/

/-- An entry that is set leaves the other keys and puts its own there. -/
theorem exists_of_putEntry (k v : Value) (entries : List (Value × Value)) :
    (∀ r ∈ entries, ∃ r' ∈ putEntry k v entries, r'.1 = r.1) ∧
      ∃ r ∈ putEntry k v entries, keyString? k = keyString? r.1 := by
  rcases putEntry_cases k v entries with ⟨_, hput⟩ | ⟨front, k', v', back, rfl, hsame, hput⟩
  · rw [hput]
    exact ⟨fun r hr ↦ ⟨r, List.mem_append_left _ hr, rfl⟩,
      (k, v), List.mem_append_right _ List.mem_cons_self, rfl⟩
  · rw [hput]
    have hset : (k', v) ∈ front ++ (k', v) :: back := List.mem_append_right _ List.mem_cons_self
    refine ⟨fun r hr ↦ ?_, (k', v), hset, keyString?_eq_of_same k hsame⟩
    rcases List.mem_append.mp hr with hfront | hrest
    · exact ⟨r, List.mem_append_left _ hfront, rfl⟩
    · rcases List.mem_cons.mp hrest with rfl | hback
      · exact ⟨_, hset, rfl⟩
      · exact ⟨r, List.mem_append_right _ (List.mem_cons_of_mem _ hback), rfl⟩

/-- Something stands under the text of every key. -/
theorem exists_textKey_of_mem (he : e ∈ es) :
    ∃ r ∈ textKeys es, keyString? (textKey e.1) = keyString? r.1 := by
  induction es using List.reverseRecOn with
  | nil => exact absurd he List.not_mem_nil
  | append_singleton es last ih =>
    obtain ⟨hkeep, hset⟩ := exists_of_putEntry (textKey last.1) last.2 (textKeys es)
    rw [textKeys_append_singleton]
    rcases List.mem_append.mp he with hmem | hmem
    · obtain ⟨r, hr, hkey⟩ := ih hmem
      obtain ⟨r', hr', hsame⟩ := hkeep r hr
      exact ⟨r', hr', by rw [hsame, hkey]⟩
    · rw [List.mem_singleton.mp hmem]
      exact hset

/-- The fields of an object are the entries of the mapping with its merge key applied. -/
theorem areFields_mergeEntries {pairs : List (String × Json)} (hn : entriesDepth entries ≤ n)
    (hmerged : mergeEntries entries = .ok merged)
    (hes : List.Forall₂ (fun e e' ↦ e'.1 = e.1 ∧ mergeWithin n e.2 = .ok e'.2) merged es)
    (hpairs : List.Forall₂ (IsField m) (textKeys es) pairs) :
    AreFields (· ∈ merged) (Dictionary.ofList pairs) where
  field e he := by
    obtain ⟨e', he', hkey, -⟩ := exists_mem_of_forall₂ hes he
    obtain ⟨r, hr, htext⟩ := exists_textKey_of_mem he'
    obtain ⟨p, hp, hfield⟩ := exists_mem_of_forall₂ hpairs hr
    rw [← hkey, htext, hfield.1]
    exact ⟨p.1, rfl, Dictionary.has_ofList_of_mem hp⟩
  entry s j hj := by
    obtain ⟨e, he, htext, w, hw, hj⟩ := exists_of_field hes hpairs hj
    have hdepth := (depth_le_of_mem_mergeEntries hmerged he).trans hn
    exact ⟨e, he, htext, yields_of_within hdepth hw hj⟩

/-- A value becomes something through what the values in it become. -/
theorem isYield_of_yields (h : Yields v j) : IsYield v j := by
  obtain ⟨w, hw, hj⟩ := h
  have hatom {s : String} {a : Atom} (hv : ofAtom s a = .ok v) : IsYield v j := by
    obtain rfl : v = w := Except.ok.inj ((mergeWithin_of_ofAtom hv v.depth).symm.trans hw)
    exact .atom hv ((toJsonWithin_of_ofAtom hv v.depth).symm.trans hj)
  cases v with
  | null => exact hatom (s := "") (a := .null) rfl
  | bool b => exact hatom (s := "") (a := .bool b) rfl
  | int k => exact hatom (s := "") (a := .int k) rfl
  | float x => exact hatom (s := "") (a := .float x) rfl
  | str s => exact hatom (s := s) (a := .text) rfl
  | tagged name v =>
    obtain ⟨v', _, rfl⟩ := mergeWithin_tagged_eq_ok_iff.mp hw
    exact absurd hj (by simp [toJson, depth, toJsonWithin])
  | seq items =>
    obtain ⟨vs, hvs, rfl⟩ := mergeWithin_seq_eq_ok_iff.mp hw
    obtain ⟨t, js, hjs, rfl⟩ := items_of_toJsonWithin hj
    refine .seq (forall₂_imp_of_mem (forall₂_of_common hvs.flip hjs) ?_)
    rintro x hx j ⟨v, -, hv, hj⟩
    exact yields_of_within (depth_le_item hx) hv hj
  | map entries =>
    obtain ⟨merged, es, hmerged, hes, rfl⟩ := mergeWithin_map_eq_ok_iff.mp hw
    obtain ⟨t, pairs, hpairs, rfl⟩ := fields_of_toJsonWithin hj
    exact .map hmerged (areFields_mergeEntries le_rfl hmerged hes hpairs)

end ApiManifest.Yaml.Value
