import ApiManifest.Proofs.Json.ReadBack
import ApiManifest.Proofs.Yaml.Keys
import ApiManifest.Proofs.Yaml.Nodes
import ApiManifest.Proofs.Yaml.Values

/-!
Nothing on the way of a schema document makes it deeper. A reader gives a value that is nested no
deeper than it may go, a merge takes entries from mappings that stand deeper than where they go to,
and the JSON value is nested at most as deep as the YAML value (`nesting_le_of_jsonOfText`). Its
fields are in key order at every level (`sorted_of_jsonOfText`).
-/

set_option autoImplicit false
set_option relaxedAutoImplicit false

namespace ApiManifest.Yaml

open Reading

namespace Value

mutual

/-- How deep collections are nested in the values of a value; tags and keys do not count. -/
def nesting : Value → Nat
  | .seq items => itemsNesting items + 1
  | .map entries => entriesNesting entries + 1
  | .tagged _ v => nesting v
  | _ => 0

def itemsNesting : List Value → Nat
  | [] => 0
  | v :: rest => max (nesting v) (itemsNesting rest)

def entriesNesting : List (Value × Value) → Nat
  | [] => 0
  | (_, v) :: rest => max (nesting v) (entriesNesting rest)

end

theorem itemsNesting_le_iff {items : List Value} {n : Nat} :
    itemsNesting items ≤ n ↔ ∀ v ∈ items, nesting v ≤ n := by
  induction items with
  | nil => simp [itemsNesting]
  | cons v rest ih => rw [itemsNesting, Nat.max_le, ih, List.forall_mem_cons]

theorem entriesNesting_le_iff {entries : List (Value × Value)} {n : Nat} :
    entriesNesting entries ≤ n ↔ ∀ e ∈ entries, nesting e.2 ≤ n := by
  induction entries with
  | nil => simp [entriesNesting]
  | cons e rest ih => rw [entriesNesting, Nat.max_le, ih, List.forall_mem_cons]

theorem nesting_underTag (tag : Option Tag) (v : Value) : nesting (underTag tag v) = nesting v := by
  rw [underTag]
  cases localName? tag with
  | none => rfl
  | some name => rfl

/-- A scalar is no collection. -/
theorem nesting_of_ofAtom {s : String} {a : Atom} {v : Value} (hv : ofAtom s a = .ok v) :
    nesting v = 0 := by
  cases a with
  | wide => exact absurd hv (by simp [ofAtom])
  | _ =>
    rw [← Except.ok.inj hv]
    rfl

/-! ### Reading -/

variable {d : Document} {depth : Nat}

theorem nesting_le_of_isRead {c : Node} {w : Value} {n m : Nat} (h : IsRead d depth c n w m)
    (ih : ∀ k, k < depth → ∀ {node : Node} {v : Value} {i j : Nat},
      ofNode d k node i = .ok (v, j) → nesting v ≤ k) :
    nesting w ≤ depth := by
  cases h with
  | scalar n hatom =>
    obtain ⟨a, _, hv⟩ := except_bind_eq_ok_iff.mp hatom
    rw [nesting_underTag, nesting_of_ofAtom hv]
    exact Nat.zero_le _
  | @sequence k _ _ _ _ _ hitems =>
    rw [nesting_underTag, nesting]
    refine Nat.succ_le_succ (itemsNesting_le_iff.mpr (forall_mem_of_forall₂ hitems.forall₂ ?_))
    rintro x _ v ⟨i, j, hv⟩
    exact ih k (Nat.lt_succ_self k) hv
  | @mapping k _ _ _ _ _ hentries =>
    rw [nesting_underTag, nesting]
    refine Nat.succ_le_succ (entriesNesting_le_iff.mpr (forall_mem_of_forall₂ hentries.forall₂ ?_))
    rintro e _ p ⟨_, i, j, hv⟩
    exact ih k (Nat.lt_succ_self k) hv

/-- A reader goes no deeper than it may. -/
theorem nesting_le_of_ofNode {node : Node} {w : Value} {n m : Nat}
    (h : ofNode d depth node n = .ok (w, m)) : nesting w ≤ depth := by
  induction depth using Nat.strong_induction_on generalizing node w n m with
  | _ depth ih =>
    obtain ⟨c, k, _, hread⟩ := ofNode_eq_ok_iff.mp h
    exact nesting_le_of_isRead hread fun k hk _ _ _ _ hv ↦ ih k hk hv

/-! ### Merging -/

/-- The values in a mapping that a merge key names are nested less deep than what it has. -/
theorem nesting_lt_of_namesSource {v : Value} {source : List (Value × Value)}
    (hv : NamesSource v source) {e : Value × Value} (he : e ∈ source) :
    nesting e.2 < nesting v := by
  have hsource : nesting e.2 < nesting (.map source) :=
    Nat.lt_succ_of_le (entriesNesting_le_iff.mp le_rfl e he)
  rcases hv with rfl | ⟨items, rfl, hitem⟩
  · exact hsource
  · exact lt_of_lt_of_le hsource (Nat.le_succ_of_le (itemsNesting_le_iff.mp le_rfl _ hitem))

theorem entriesNesting_mergeEntries_le {entries merged : List (Value × Value)}
    (h : mergeEntries entries = .ok merged) : entriesNesting merged ≤ entriesNesting entries := by
  have hbound := entriesNesting_le_iff.mp (le_refl (entriesNesting entries))
  refine entriesNesting_le_iff.mpr fun e he ↦ ?_
  rcases mergeEntries_eq_ok h with ⟨_, rfl⟩ | ⟨v, hv, hmerged⟩
  · exact hbound e he
  · obtain ⟨p, hp, rfl⟩ := Option.map_eq_some_iff.mp hv
    rcases hmerged e he with hown | ⟨source, hsource, hmem⟩
    · exact hbound e (mem_of_mem_removeKey hown)
    · exact le_trans (nesting_lt_of_namesSource hsource hmem).le
        (hbound p (List.mem_of_find?_eq_some hp))

theorem nesting_mergeWithin_le {n : Nat} {v w : Value} (h : mergeWithin n v = .ok w) :
    nesting w ≤ nesting v := by
  induction n generalizing v w with
  | zero =>
    rw [mergeWithin_zero] at h
    rw [Except.ok.inj h]
  | succ n ih =>
    cases v with
    | seq items =>
      obtain ⟨vs, hvs, rfl⟩ := mergeWithin_seq_eq_ok_iff.mp h
      refine Nat.succ_le_succ (itemsNesting_le_iff.mpr
        (forall_mem_of_forall₂ hvs fun v hv w hw ↦ ?_))
      exact le_trans (ih hw) (itemsNesting_le_iff.mp le_rfl v hv)
    | map entries =>
      obtain ⟨merged, es, hmerged, hes, rfl⟩ := mergeWithin_map_eq_ok_iff.mp h
      refine Nat.succ_le_succ (le_trans ?_ (entriesNesting_mergeEntries_le hmerged))
      refine entriesNesting_le_iff.mpr (forall_mem_of_forall₂ hes fun e he e' he' ↦ ?_)
      exact le_trans (ih he'.2) (entriesNesting_le_iff.mp le_rfl e he)
    | tagged name v =>
      obtain ⟨v', hv', rfl⟩ := mergeWithin_tagged_eq_ok_iff.mp h
      show nesting v' ≤ nesting v
      exact ih hv'
    | _ =>
      rw [← Except.ok.inj h]

/-! ### The way to JSON -/

theorem nesting_object_le {pairs : List (String × Json)} {n : Nat}
    (hpairs : ∀ p ∈ pairs, Json.nesting p.2 ≤ n) : Json.nesting (.object pairs) ≤ n + 1 :=
  Nat.succ_le_succ (Json.fieldNesting_le_iff.mpr fun p hp ↦
    hpairs p (Dictionary.mem_of_mem_ofList hp))

theorem nesting_of_jsonOfAtom {s : String} {a : Atom} {j : Json} (hj : jsonOfAtom s a = .ok j) :
    Json.nesting j = 0 := by
  cases a with
  | wide => exact absurd hj (by simp [jsonOfAtom])
  | float x =>
    rw [← Except.ok.inj hj, jsonOfDouble]
    cases Number.FiniteDouble.of? x <;> rfl
  | _ =>
    rw [← Except.ok.inj hj]
    rfl

theorem nesting_toJsonWithin_le {n : Nat} {v : Value} {j : Json} (h : toJsonWithin n v = .ok j) :
    Json.nesting j ≤ nesting v := by
  induction n using Nat.strong_induction_on generalizing v j with
  | _ n ih =>
    cases toJsonWithin_eq_ok_iff.mp h with
    | atom _ hj =>
      rw [nesting_of_jsonOfAtom hj]
      exact Nat.zero_le _
    | @seq n items js hitems =>
      refine Nat.succ_le_succ (Json.itemNesting_le_iff.mpr
        (forall_mem_of_forall₂ hitems fun v hv j hj ↦ ?_))
      exact le_trans (ih n (Nat.lt_succ_self n) hj) (itemsNesting_le_iff.mp le_rfl v hv)
    | @map n entries pairs hpairs =>
      refine nesting_object_le (forall_mem_of_forall₂ hpairs fun e he p hp ↦ ?_)
      obtain ⟨own, hown, hvalue, _⟩ := exists_of_mem_textKeys he
      rw [IsField, ← hvalue] at hp
      exact le_trans (ih n (Nat.lt_succ_self n) hp.2) (entriesNesting_le_iff.mp le_rfl own hown)

theorem sorted_of_jsonOfAtom {s : String} {a : Atom} {j : Json} (hj : jsonOfAtom s a = .ok j) :
    j.sorted = j := by
  cases a with
  | wide => exact absurd hj (by simp [jsonOfAtom])
  | float x =>
    rw [← Except.ok.inj hj, jsonOfDouble]
    cases Number.FiniteDouble.of? x <;> rfl
  | _ =>
    rw [← Except.ok.inj hj]
    rfl

theorem sorted_object {pairs : List (String × Json)} (hpairs : ∀ p ∈ pairs, p.2.sorted = p.2) :
    (Json.object pairs).sorted = Json.object pairs := by
  have hfields : (Dictionary.ofList pairs).map (fun p ↦ (p.1, p.2.sorted)) =
      Dictionary.ofList pairs := by
    refine (List.map_congr_left fun p hp ↦ ?_).trans (List.map_id _)
    rw [hpairs p (Dictionary.mem_of_mem_ofList hp), id]
  rw [Json.object, Json.sorted, Json.sortedFields_eq, hfields,
    Dictionary.ofList_of_ascending (Dictionary.ascending_ofList pairs)]

/-- The JSON value has its fields in key order. -/
theorem sorted_of_toJsonWithin {n : Nat} {v : Value} {j : Json} (h : toJsonWithin n v = .ok j) :
    j.sorted = j := by
  induction n using Nat.strong_induction_on generalizing v j with
  | _ n ih =>
    cases toJsonWithin_eq_ok_iff.mp h with
    | atom _ hj => exact sorted_of_jsonOfAtom hj
    | @seq n items js hitems =>
      have hsorted : js.map Json.sorted = js := (List.map_congr_left (forall_mem_of_forall₂ hitems
        fun _ _ _ hj ↦ ih n (Nat.lt_succ_self n) hj)).trans (List.map_id _)
      rw [Json.sorted, Json.sortedItems_eq, hsorted]
    | @map n entries pairs hpairs =>
      exact sorted_object (forall_mem_of_forall₂ hpairs fun _ _ _ hp ↦
        ih n (Nat.lt_succ_self n) hp.2)

end Value

open Value

/-- The steps of reading a schema document. -/
theorem jsonOfText_eq_ok_iff {text : String} {j : Json} :
    jsonOfText text = .ok j ↔ ∃ document v w, Document.ofText text = .ok document ∧
      ofDocument document = .ok v ∧ v.applyMerge = .ok w ∧ w.toJson = .ok j := by
  rw [jsonOfText]
  simp only [except_bind_eq_ok_iff]
  constructor
  · rintro ⟨document, hdocument, v, hv, w, hw, hj⟩
    exact ⟨document, v, w, hdocument, hv, hw, hj⟩
  · rintro ⟨document, v, w, hdocument, hv, hw, hj⟩
    exact ⟨document, hdocument, v, hv, w, hw, hj⟩

theorem Reading.run_eq_ok_iff {α : Type} {r : Reading α} {x : α} :
    r.run = .ok x ↔ ∃ n, r 0 = .ok (x, n) := by
  rw [Reading.run]
  cases r 0 with
  | error cause => simp [Except.map]
  | ok p =>
    obtain ⟨y, n⟩ := p
    simp [Except.map]

/-- A schema document is nested at most as deep as a reader may go. -/
theorem nesting_le_of_jsonOfText {text : String} {j : Json} (h : jsonOfText text = .ok j) :
    Json.nesting j ≤ Reading.depthLimit := by
  obtain ⟨document, v, w, _, hv, hw, hj⟩ := jsonOfText_eq_ok_iff.mp h
  refine le_trans (nesting_toJsonWithin_le hj) (le_trans (nesting_mergeWithin_le hw) ?_)
  cases document with
  | none =>
    rw [← Except.ok.inj hv]
    exact Nat.zero_le _
  | some d =>
    obtain ⟨n, hread⟩ := Reading.run_eq_ok_iff.mp hv
    exact nesting_le_of_ofNode hread

/-- The fields of a schema document are in key order. -/
theorem sorted_of_jsonOfText {text : String} {j : Json} (h : jsonOfText text = .ok j) :
    j.sorted = j := by
  obtain ⟨document, v, w, _, _, _, hj⟩ := jsonOfText_eq_ok_iff.mp h
  exact sorted_of_toJsonWithin hj

end ApiManifest.Yaml
