import ApiManifest.Proofs.Dictionary
import ApiManifest.Proofs.Json.Readable
import ApiManifest.Proofs.Number.Integer
import ApiManifest.Proofs.Yaml.Nodes
import Mathlib.Algebra.Order.BigOperators.Group.List

/-!
What a YAML reader gives back for the text of a JSON value: the value with every string reread, the
last of fields whose keys have become the same winning (`jsonOfNode_node`). Rereading makes no text
longer and leaves no U+0085 behind, so that a value comes back as it was only when every string of
it did (`readBack_eq_self_iff`).
-/

set_option autoImplicit false
set_option relaxedAutoImplicit false

namespace ApiManifest.Json

open Yaml

mutual

/-- The value that a YAML reader makes of the text of a value. -/
def readBack : Json → Json
  | .str s => .str (rereadText s)
  | .arr items => .arr (itemsBack items)
  | .obj fields => .object (fieldsBack fields)
  | v => v

def itemsBack : List Json → List Json
  | [] => []
  | v :: rest => readBack v :: itemsBack rest

def fieldsBack : List (String × Json) → List (String × Json)
  | [] => []
  | (k, v) :: rest => (rereadText k, readBack v) :: fieldsBack rest

end

mutual

/-- How deep collections are nested in a value. -/
def nesting : Json → Nat
  | .arr items => itemNesting items + 1
  | .obj fields => fieldNesting fields + 1
  | _ => 0

def itemNesting : List Json → Nat
  | [] => 0
  | v :: rest => max (nesting v) (itemNesting rest)

def fieldNesting : List (String × Json) → Nat
  | [] => 0
  | (_, v) :: rest => max (nesting v) (fieldNesting rest)

end

mutual

/-- The doubles in a value. -/
def floats : Json → List Number.FiniteDouble
  | .float x => [x]
  | .arr items => itemFloats items
  | .obj fields => fieldFloats fields
  | _ => []

def itemFloats : List Json → List Number.FiniteDouble
  | [] => []
  | v :: rest => floats v ++ itemFloats rest

def fieldFloats : List (String × Json) → List Number.FiniteDouble
  | [] => []
  | (_, v) :: rest => floats v ++ fieldFloats rest

end

theorem itemNodes_eq (items : List Json) : itemNodes items = items.map node := by
  induction items with
  | nil => rfl
  | cons v rest ih => rw [itemNodes, ih, List.map_cons]

theorem fieldNodes_eq (fields : List (String × Json)) :
    fieldNodes fields = fields.map fun f ↦ (.scalar none .marked (rereadText f.1), node f.2) := by
  induction fields with
  | nil => rfl
  | cons f rest ih => rw [fieldNodes, ih, List.map_cons]

theorem itemsBack_eq (items : List Json) : itemsBack items = items.map readBack := by
  induction items with
  | nil => rfl
  | cons v rest ih => rw [itemsBack, ih, List.map_cons]

theorem fieldsBack_eq (fields : List (String × Json)) :
    fieldsBack fields = fields.map fun f ↦ (rereadText f.1, readBack f.2) := by
  induction fields with
  | nil => rfl
  | cons f rest ih => rw [fieldsBack, ih, List.map_cons]

/-- Holds of the texts that a YAML reader takes from a JSON string as they are. -/
structure IsLegible (s : String) : Prop where
  allowed : ∀ c ∈ s.toList, c < ' ' ∨ isAllowed c = true
  lines : KeepsLines s.toList

instance (s : String) : Decidable (IsLegible s) :=
  decidable_of_iff (s.toList.all (fun c ↦ decide (c < ' ' ∨ isAllowed c = true)) = true ∧
      KeepsLines s.toList)
    ⟨fun h ↦ ⟨List.all_iff_forall_prop.mp h.1, h.2⟩,
      fun h ↦ ⟨List.all_iff_forall_prop.mpr h.allowed, h.lines⟩⟩

theorem IsLegible.reread {s : String} (hs : IsLegible s) : reread s = some s :=
  (reread_eq_some_iff s).mpr hs.lines

theorem IsLegible.rereadText {s : String} (hs : IsLegible s) : rereadText s = s := by
  rw [Json.rereadText, hs.reread, Option.getD_some]

/-- A string that is closed and comes out as it went in keeps its lines. -/
theorem keepsLines_of_rereadText {s : String} (hclosed : (reread s).isSome)
    (hs : Json.rereadText s = s) : KeepsLines s.toList := by
  obtain ⟨text, htext⟩ := Option.isSome_iff_exists.mp hclosed
  rw [Json.rereadText, htext, Option.getD_some] at hs
  rw [hs] at htext
  exact (reread_eq_some_iff s).mp htext

/-- Holds of the doubles that are read back from their text. -/
def FloatReadsBack (x : Number.FiniteDouble) : Prop :=
  atomOfPlain (Number.jsonLayout.text x.val) = .float x.val

/-- A number or a word is read back from its text. -/
theorem jsonOfAtom_chars {v : Json} (hv : IsPlain v) (hfloats : ∀ x ∈ floats v, FloatReadsBack x) :
    (atomOfScalar none .plain (String.ofList (chars v))).bind
      (jsonOfAtom (String.ofList (chars v))) =
      .ok (readBack v) := by
  cases v with
  | null => rfl
  | bool b => cases b <;> rfl
  | int n =>
    rw [chars, String.ofList_toList, atomOfScalar, if_pos rfl, atomOfPlain_integerText]
    rfl
  | float x =>
    rw [chars, String.ofList_toList, atomOfScalar, if_pos rfl, hfloats x List.mem_cons_self]
    show Except.ok (jsonOfDouble x.val) = _
    rw [jsonOfDouble, Number.FiniteDouble.of?, dif_pos x.finite]
    rfl
  | str _ => exact hv.elim
  | arr _ => exact hv.elim
  | obj _ => exact hv.elim

theorem itemFloats_eq (items : List Json) : itemFloats items = items.flatMap floats := by
  induction items with
  | nil => rfl
  | cons v rest ih => rw [itemFloats, ih, List.flatMap_cons]

theorem fieldFloats_eq (fields : List (String × Json)) :
    fieldFloats fields = fields.flatMap fun f ↦ floats f.2 := by
  induction fields with
  | nil => rfl
  | cons f rest ih => rw [fieldFloats, ih, List.flatMap_cons]

theorem itemNesting_le_iff {items : List Json} {n : Nat} :
    itemNesting items ≤ n ↔ ∀ v ∈ items, nesting v ≤ n := by
  induction items with
  | nil => simp [itemNesting]
  | cons v rest ih => rw [itemNesting, Nat.max_le, ih, List.forall_mem_cons]

theorem fieldNesting_le_iff {fields : List (String × Json)} {n : Nat} :
    fieldNesting fields ≤ n ↔ ∀ f ∈ fields, nesting f.2 ≤ n := by
  induction fields with
  | nil => simp [fieldNesting]
  | cons f rest ih => rw [fieldNesting, Nat.max_le, ih, List.forall_mem_cons]

/-- The node of a value that is not nested too deep is read as the value read back. -/
theorem jsonOfNode_node (d : Document) (v : Json) (hfloats : ∀ x ∈ floats v, FloatReadsBack x)
    (depth : Nat) (hdepth : nesting v ≤ depth) (n : Nat) :
    jsonOfNode d depth (node v) n = .ok (readBack v, n) := by
  induction v using inductionOnParts generalizing depth n with
  | plain v hv =>
    have hnode : node v = .scalar none .plain (String.ofList (chars v)) := by
      cases v <;> first | rfl | exact hv.elim
    rw [hnode]
    exact jsonOfNode_eq_ok_iff.mpr ⟨_, n, rfl, .scalar n rfl (jsonOfAtom_chars hv hfloats)⟩
  | str s => exact jsonOfNode_eq_ok_iff.mpr ⟨_, n, rfl, .scalar n rfl rfl⟩
  | arr items hitems =>
    cases depth with
    | zero => exact absurd hdepth (Nat.not_succ_le_zero _)
    | succ depth =>
      rw [floats, itemFloats_eq] at hfloats
      rw [node, itemNodes_eq, readBack, itemsBack_eq]
      refine jsonOfNode_eq_ok_iff.mpr ⟨_, n, rfl, .sequence rfl (Reading.mapM_eq_ok_iff.mp ?_)⟩
      rw [List.mapM_map]
      refine Reading.mapM_eq_ok (fun v hv n ↦ ?_) n
      refine hitems v hv (fun x hx ↦ hfloats x (List.mem_flatMap.mpr ⟨v, hv, hx⟩)) depth ?_ n
      exact itemNesting_le_iff.mp (Nat.le_of_succ_le_succ hdepth) v hv
  | obj fields hfields =>
    cases depth with
    | zero => exact absurd hdepth (Nat.not_succ_le_zero _)
    | succ depth =>
      rw [floats, fieldFloats_eq] at hfloats
      rw [node, fieldNodes_eq, readBack, fieldsBack_eq]
      refine jsonOfNode_eq_ok_iff.mpr ⟨_, n, rfl, .mapping rfl (Reading.mapM_eq_ok_iff.mp ?_)⟩
      rw [List.mapM_map]
      refine Reading.mapM_eq_ok (fun f hf n ↦ ?_) n
      have hvalue : jsonOfNode d depth (node f.2) n = .ok (readBack f.2, n) := by
        refine hfields f hf (fun x hx ↦ hfloats x (List.mem_flatMap.mpr ⟨f, hf, hx⟩)) depth ?_ n
        exact fieldNesting_le_iff.mp (Nat.le_of_succ_le_succ hdepth) f hf
      exact entryReading_eq_ok_iff.mpr ⟨n, rfl, hvalue⟩

/-! ### Values that come back as they were -/

theorem sortedItems_eq (items : List Json) : sortedItems items = items.map sorted := by
  induction items with
  | nil => rfl
  | cons v rest ih => rw [sortedItems, ih, List.map_cons]

theorem sortedFields_eq (fields : List (String × Json)) :
    sortedFields fields = fields.map fun f ↦ (f.1, sorted f.2) := by
  induction fields with
  | nil => rfl
  | cons f rest ih => rw [sortedFields, ih, List.map_cons]

/-- How much a text can lose under a YAML reader: its characters, and each U+0085 once more. -/
def textWeight (s : String) : Nat := s.toList.length + s.toList.count '\u0085'

/-- A text that does not come out as it went in comes out lighter. -/
theorem rereadText_eq_or_lighter (s : String) :
    rereadText s = s ∨ textWeight (rereadText s) < textWeight s := by
  cases hreread : reread s with
  | none => exact .inl (by rw [rereadText, hreread, Option.getD_none])
  | some text =>
    rw [rereadText, hreread, Option.getD_some]
    obtain ⟨cs, hread, rfl⟩ := Option.map_eq_some_iff.mp hreread
    have hclean := nextLine_not_mem_rereadFrom s.toList [] .empty false cs hread List.not_mem_nil
    rw [textWeight, String.toList_ofList, List.count_eq_zero.mpr hclean, Nat.add_zero, textWeight]
    by_cases hnext : '\u0085' ∈ s.toList
    · refine .inr ?_
      have hlength := length_rereadFrom_le s.toList [] .empty false cs hread
      have hcount := List.count_pos_iff.mpr hnext
      rw [show ((Gap.empty).flush []).length = 0 from rfl, Nat.zero_add] at hlength
      omega
    · rcases rereadFrom_eq_or_shorter s.toList hnext [] .empty
        (fun c hc ↦ absurd hc List.not_mem_nil) false cs hread with hsame | hshorter
      · refine .inl ?_
        rw [hsame]
        exact String.ofList_toList
      · refine .inr ?_
        rw [show ((Gap.empty).flush []).length = 0 from rfl, Nat.zero_add] at hshorter
        omega

/-- The weight of all strings in a value. -/
def weight (v : Json) : Nat := ((texts v).map textWeight).sum

theorem weight_arr (items : List Json) : weight (.arr items) = (items.map weight).sum := by
  rw [weight, texts, itemTexts_eq]
  induction items with
  | nil => rfl
  | cons v rest ih =>
    rw [List.flatMap_cons, List.map_append, List.sum_append, ih, List.map_cons, List.sum_cons,
      weight]

theorem weight_obj (fields : List (String × Json)) :
    weight (.obj fields) = (fields.map fun f ↦ textWeight f.1 + weight f.2).sum := by
  rw [weight, texts, fieldTexts_eq]
  induction fields with
  | nil => rfl
  | cons f rest ih =>
    rw [List.flatMap_cons, List.map_append, List.sum_append, ih, List.map_cons, List.sum_cons,
      List.map_cons, List.sum_cons, weight]

/-- What comes back weighs no more than the strings do once they are reread. -/
theorem weight_readBack_le (v : Json) :
    weight (readBack v) ≤ ((texts v).map fun t ↦ textWeight (rereadText t)).sum := by
  induction v using inductionOnParts with
  | plain v hv => cases v <;> first | exact le_rfl | exact hv.elim
  | str s => exact le_rfl
  | arr items hitems =>
    rw [readBack, itemsBack_eq, weight_arr, texts, itemTexts_eq]
    induction items with
    | nil => exact le_rfl
    | cons v rest ih =>
      rw [List.flatMap_cons, List.map_append, List.sum_append, List.map_cons, List.map_cons,
        List.sum_cons]
      exact Nat.add_le_add (hitems v List.mem_cons_self)
        (ih fun w hw ↦ hitems w (List.mem_cons_of_mem v hw))
  | obj fields hfields =>
    rw [readBack, object, weight_obj, fieldsBack_eq, texts, fieldTexts_eq]
    refine le_trans (Dictionary.sum_ofList_le _ _) ?_
    induction fields with
    | nil => exact le_rfl
    | cons f rest ih =>
      rw [List.flatMap_cons, List.map_append, List.sum_append, List.map_cons, List.map_cons,
        List.sum_cons, List.map_cons, List.sum_cons]
      exact Nat.add_le_add (Nat.add_le_add le_rfl (hfields f List.mem_cons_self))
        (ih fun g hg ↦ hfields g (List.mem_cons_of_mem f hg))

/-- A value whose strings come out as they went in comes back with its keys in order. -/
theorem readBack_of_fixed {v : Json} (hv : ∀ t ∈ texts v, rereadText t = t) :
    readBack v = v.sorted := by
  induction v using inductionOnParts with
  | plain v hplain => cases v <;> first | rfl | exact hplain.elim
  | str s => exact congrArg Json.str (hv s List.mem_cons_self)
  | arr items hitems =>
    rw [texts, itemTexts_eq] at hv
    rw [readBack, itemsBack_eq, sorted, sortedItems_eq]
    exact congrArg Json.arr (List.map_congr_left fun v hmem ↦
      hitems v hmem fun t ht ↦ hv t (List.mem_flatMap.mpr ⟨v, hmem, ht⟩))
  | obj fields hfields =>
    rw [texts, fieldTexts_eq] at hv
    rw [readBack, object, fieldsBack_eq, sorted, sortedFields_eq]
    refine congrArg (fun pairs ↦ Json.obj (Dictionary.ofList pairs))
      (List.map_congr_left fun f hmem ↦ ?_)
    rw [hv f.1 (List.mem_flatMap.mpr ⟨f, hmem, List.mem_cons_self⟩), hfields f hmem fun t ht ↦
      hv t (List.mem_flatMap.mpr ⟨f, hmem, List.mem_cons_of_mem _ ht⟩)]

/-- A value with its keys in order comes back as it was exactly when its strings do. -/
theorem readBack_eq_self_iff {v : Json} (hsorted : v.sorted = v) :
    readBack v = v ↔ ∀ t ∈ texts v, rereadText t = t := by
  refine ⟨fun hback t ht ↦ ?_, fun hv ↦ (readBack_of_fixed hv).trans hsorted⟩
  by_contra hchanged
  have hlighter := (rereadText_eq_or_lighter t).resolve_left hchanged
  have hsum : ((texts v).map fun t ↦ textWeight (rereadText t)).sum < weight v := by
    refine List.sum_lt_sum _ _ (fun s _ ↦ ?_) ⟨t, ht, hlighter⟩
    rcases rereadText_eq_or_lighter s with hsame | hless
    · rw [hsame]
    · exact hless.le
  have hbound := lt_of_le_of_lt (weight_readBack_le v) hsum
  rw [hback] at hbound
  exact lt_irrefl _ hbound

end ApiManifest.Json
