import ApiManifest.Proofs.Yaml.Clashes
import Mathlib.Data.List.Dedup

/-!
The keys of a mapping in a schema document. A merged mapping becomes an object with one field for
each text that its keys have (`fields_of_toJson`), so that it keeps as many fields as it has entries
exactly when no two of its keys have one text. Where two have, one of them is that text already, the
last one's value stands and the other is gone. A whole document keeps its entries exactly when the
keys of all its mappings have texts of their own (`keeps_iff_textsApart`).
-/

set_option autoImplicit false
set_option relaxedAutoImplicit false

namespace ApiManifest.Yaml.Value

/-- The texts of the keys of a mapping, in the order of its entries. -/
def texts (entries : List (Value × Value)) : List String := (textNamed entries).map Prod.fst

/-- Holds of a mapping in which no two keys have one text. -/
def TextsApart (entries : List (Value × Value)) : Prop := (texts entries).Nodup

/-- Holds of a key that is under no local tag. -/
def IsUntagged (k : Value) : Prop := ∀ name v, k ≠ .tagged name v

/-- Holds of a merged value and a JSON value in which no entry is lost: every object has as many
fields as its mapping has entries, and keeps the value of each entry under the text of its key. -/
inductive Keeps : Value → Json → Prop
  | atom {s : String} {a : Atom} {v : Value} {j : Json} (hv : ofAtom s a = .ok v)
      (hj : jsonOfAtom s a = .ok j) : Keeps v j
  | seq {items : List Value} {js : List Json} (hlength : js.length = items.length)
      (hitems : ∀ (i : Nat) (v : Value) (j : Json), items[i]? = some v → js[i]? = some j →
        Keeps v j) :
      Keeps (.seq items) (.arr js)
  | map {entries : List (Value × Value)} {fields : Dictionary Json}
      (hlength : fields.length = entries.length)
      (hkeys : ∀ e ∈ entries, ∃ s, keyString? (textKey e.1) = some s ∧ fields.has s = true)
      (hvalues : ∀ e ∈ entries, ∀ s j, keyString? (textKey e.1) = some s →
        fields.find? s = some j → Keeps e.2 j) :
      Keeps (.map entries) (.obj fields)

/-- Holds when an object inside a JSON value is what a mapping inside a merged value becomes, the
way to both being the same: to an item by its index, to an entry by the text of its key. -/
inductive BecomesAt (entries : List (Value × Value)) (fields : Dictionary Json) :
    Value → Json → Prop
  | here (h : (map entries).toJson = .ok (.obj fields)) :
      BecomesAt entries fields (.map entries) (.obj fields)
  | item {items : List Value} {js : List Json} {i : Nat} {v : Value} {j : Json}
      (hv : items[i]? = some v) (hj : js[i]? = some j) (h : BecomesAt entries fields v j) :
      BecomesAt entries fields (.seq items) (.arr js)
  | field {es : List (Value × Value)} {fs : Dictionary Json} {e : Value × Value} {s : String}
      {j : Json} (he : e ∈ es) (hs : keyString? (textKey e.1) = some s)
      (hj : fs.find? s = some j) (h : BecomesAt entries fields e.2 j) :
      BecomesAt entries fields (.map es) (.obj fs)

/-- Holds of a mapping and of fields that stand for its entries: there is one for each text of a
key, with the value of an entry whose key has that text. Of untagged keys the last one counts. -/
structure StandFor (entries : List (Value × Value)) (fields : Dictionary Json) : Prop where
  has_iff : ∀ s, fields.has s = true ↔ s ∈ texts entries
  length : fields.length = (texts entries).dedup.length
  keyed : ∀ e ∈ entries, ∃ s, keyString? (textKey e.1) = some s
  entry : ∀ s j, fields.find? s = some j →
    ∃ e ∈ entries, keyString? (textKey e.1) = some s ∧ e.2.toJson = .ok j
  last : (∀ e ∈ entries, IsUntagged e.1) → ∀ s,
    Option.Rel (fun v j ↦ v.toJson = .ok j)
      (Dictionary.find? s (Dictionary.ofList (textNamed entries))) (fields.find? s)

variable {n : Nat} {entries es : List (Value × Value)} {fields : Dictionary Json} {v w : Value}
  {j : Json} {e : Value × Value} {s : String}

/-! ### Texts -/

theorem textNamed_eq_filterMap (entries : List (Value × Value)) : textNamed entries =
    entries.filterMap fun e ↦ (keyString? (textKey e.1)).map fun s ↦ (s, e.2) :=
  List.filterMap_map

theorem mem_textNamed_iff : (s, v) ∈ textNamed entries ↔
    ∃ e ∈ entries, keyString? (textKey e.1) = some s ∧ e.2 = v := by
  rw [textNamed_eq_filterMap, List.mem_filterMap]
  refine exists_congr fun e ↦ and_congr_right fun _ ↦ ?_
  rw [Option.map_eq_some_iff]
  constructor
  · rintro ⟨t, ht, hpair⟩
    obtain ⟨rfl, rfl⟩ := Prod.mk.inj hpair
    exact ⟨ht, rfl⟩
  · rintro ⟨ht, rfl⟩
    exact ⟨s, ht, rfl⟩

theorem mem_texts_iff : s ∈ texts entries ↔ ∃ e ∈ entries, keyString? (textKey e.1) = some s := by
  rw [texts, List.mem_map]
  constructor
  · rintro ⟨⟨t, v⟩, hmem, rfl⟩
    obtain ⟨e, he, hs, -⟩ := mem_textNamed_iff.mp hmem
    exact ⟨e, he, hs⟩
  · rintro ⟨e, he, hs⟩
    exact ⟨(s, e.2), mem_textNamed_iff.mpr ⟨e, he, hs, rfl⟩, rfl⟩

/-- A mapping all of whose keys have a text has as many texts as entries. -/
theorem length_texts (hkeys : ∀ e ∈ entries, ∃ s, keyString? (textKey e.1) = some s) :
    (texts entries).length = entries.length := by
  rw [texts, List.length_map, textNamed_eq_filterMap]
  refine List.filterMap_length_eq_length.mpr fun e he ↦ ?_
  obtain ⟨s, hs⟩ := hkeys e he
  rw [hs]
  rfl

/-- Keys that have one text are one, in a mapping whose texts are apart. -/
theorem TextsApart.value_eq (h : TextsApart entries) {e' : Value × Value} (he : e ∈ entries)
    (he' : e' ∈ entries) (hs : keyString? (textKey e.1) = some s)
    (hs' : keyString? (textKey e'.1) = some s) : e.2 = e'.2 := by
  have hfind := Dictionary.find?_ofList_of_mem h (mem_textNamed_iff.mpr ⟨e, he, hs, rfl⟩)
  rw [Dictionary.find?_ofList_of_mem h (mem_textNamed_iff.mpr ⟨e', he', hs', rfl⟩)] at hfind
  exact (Option.some.inj hfind).symm

/-- An untagged key becomes its text. -/
theorem IsUntagged.textKey_eq {k : Value} (hk : IsUntagged k)
    (hs : keyString? (textKey k) = some s) : textKey k = .str s := by
  cases k with
  | tagged name v => exact absurd rfl (hk name v)
  | seq items => exact absurd hs (by simp [textKey, keyString?])
  | map entries => exact absurd hs (by simp [textKey, keyString?])
  | bool b =>
    cases b with
    | true => exact congrArg Value.str (Option.some.inj hs)
    | false => exact congrArg Value.str (Option.some.inj hs)
  | _ => exact congrArg Value.str (Option.some.inj hs)

/-! ### One mapping -/

/-- What a value becomes does not depend on the depth to which it is read. -/
theorem toJson_of_within (h : toJsonWithin n v = .ok j) : v.toJson = .ok j :=
  toJsonWithin_of_depth_le le_rfl h

theorem exists_isJson (h : v.toJson = .ok j) : ∃ n, IsJson n v j :=
  ⟨v.depth, toJsonWithin_eq_ok_iff.mp h⟩

/-- Of untagged keys with one text the last one counts: two of them are one key, and the later entry
takes the place of the earlier. -/
theorem rel_find?_of_untagged {pairs : List (String × Json)}
    (hkeys : ∀ e ∈ entries, ∃ s, keyString? (textKey e.1) = some s)
    (huntagged : ∀ e ∈ entries, IsUntagged e.1)
    (hpairs : List.Forall₂ (IsField n) (textKeys entries) pairs) (s : String) :
    Option.Rel (fun v j ↦ v.toJson = .ok j)
      (Dictionary.find? s (Dictionary.ofList (textNamed entries)))
      (Dictionary.find? s (Dictionary.ofList pairs)) := by
  have hsome : ∀ e ∈ entries, (keyString? (textKey e.1)).isSome = true := by
    intro e he
    obtain ⟨s, hs⟩ := hkeys e he
    rw [hs]
    rfl
  have hsame : entries.Pairwise fun e e' ↦
      keyString? (textKey e.1) = keyString? (textKey e'.1) →
        same (textKey e'.1) (textKey e.1) = true := by
    refine List.pairwise_of_forall_mem_list fun e he e' he' heq ↦ ?_
    obtain ⟨t, ht⟩ := hkeys e he
    rw [(huntagged e he).textKey_eq ht, (huntagged e' he').textKey_eq (heq ▸ ht)]
    exact same_refl _
  have hrel := rel_find?_fields hsome hsame hpairs s
  generalize Dictionary.find? s (Dictionary.ofList (textNamed entries)) = x at hrel ⊢
  generalize Dictionary.find? s (Dictionary.ofList pairs) = y at hrel ⊢
  cases hrel with
  | some hvalue => exact .some (toJson_of_within hvalue)
  | none => exact .none

/-- The fields of an object stand for the entries of its mapping. -/
theorem fields_of_toJson (h : (map entries).toJson = .ok (.obj fields)) :
    StandFor entries fields := by
  obtain ⟨n, pairs, hpairs, hj⟩ := fields_of_toJsonWithin h
  obtain rfl : fields = Dictionary.ofList pairs := Json.obj.inj hj
  have hkeys : ∀ e ∈ entries, ∃ s, keyString? (textKey e.1) = some s ∧
      s ∈ pairs.map Prod.fst := by
    intro e he
    obtain ⟨r, hr, htext⟩ := exists_textKey_of_mem he
    obtain ⟨p, hp, hfield⟩ := exists_mem_of_forall₂ hpairs hr
    exact ⟨p.1, htext.trans hfield.1, List.mem_map_of_mem hp⟩
  have hback : ∀ p ∈ pairs, ∃ e ∈ entries, keyString? (textKey e.1) = some p.1 ∧
      e.2.toJson = .ok p.2 := by
    intro p hp
    obtain ⟨r, hr, hfield⟩ := exists_mem_of_forall₂ hpairs.flip hp
    obtain ⟨e, he, hvalue, htext⟩ := exists_of_mem_textKeys hr
    exact ⟨e, he, htext.trans hfield.1, hvalue ▸ toJson_of_within hfield.2⟩
  have hhas (s : String) : Dictionary.has s (Dictionary.ofList pairs) = true ↔
      s ∈ texts entries := by
    rw [Dictionary.has_ofList_iff, mem_texts_iff]
    constructor
    · intro hmem
      obtain ⟨p, hp, rfl⟩ := List.mem_map.mp hmem
      obtain ⟨e, he, htext, -⟩ := hback p hp
      exact ⟨e, he, htext⟩
    · rintro ⟨e, he, hs⟩
      obtain ⟨t, ht, hmem⟩ := hkeys e he
      rw [hs] at ht
      rw [Option.some.inj ht]
      exact hmem
  refine ⟨hhas, ?length, ?keyed, ?entry, ?last⟩
  case length =>
    have hnodup := Dictionary.nodup_keys (Dictionary.ascending_ofList pairs)
    have hperm : (Dictionary.ofList pairs).keys.Perm (texts entries).dedup := by
      refine (List.perm_ext_iff_of_nodup hnodup (List.nodup_dedup _)).mpr fun s ↦ ?_
      rw [← Dictionary.has_iff, hhas, List.mem_dedup]
    rw [← hperm.length_eq, Dictionary.keys, List.length_map]
  case keyed =>
    intro e he
    obtain ⟨s, hs, -⟩ := hkeys e he
    exact ⟨s, hs⟩
  case entry =>
    intro s j hj
    exact hback (s, j) (Dictionary.mem_of_mem_ofList (Dictionary.mem_of_find? hj))
  case last =>
    intro huntagged s
    refine rel_find?_of_untagged (fun e he ↦ ?_) huntagged hpairs s
    obtain ⟨s, hs, -⟩ := hkeys e he
    exact ⟨s, hs⟩

/-- An object has a field for every entry exactly when the texts are apart. -/
theorem StandFor.length_eq_iff (h : StandFor entries fields) :
    fields.length = entries.length ↔ TextsApart entries := by
  rw [h.length, ← length_texts h.keyed, TextsApart, ← List.dedup_eq_self]
  constructor
  · exact (List.dedup_sublist _).eq_of_length
  · exact congrArg List.length

/-- Where texts are apart, each entry's value stands under the text of its key. -/
theorem StandFor.toJson_of_apart (h : StandFor entries fields) (hapart : TextsApart entries)
    (he : e ∈ entries) (hs : keyString? (textKey e.1) = some s) (hj : fields.find? s = some j) :
    e.2.toJson = .ok j := by
  obtain ⟨e', he', hs', hvalue⟩ := h.entry s j hj
  rw [hapart.value_eq he he' hs hs']
  exact hvalue

theorem StandFor.exists_field (h : StandFor entries fields) (he : e ∈ entries) :
    ∃ s, keyString? (textKey e.1) = some s ∧ fields.has s = true := by
  obtain ⟨s, hs⟩ := h.keyed e he
  exact ⟨s, hs, (h.has_iff s).mpr (mem_texts_iff.mpr ⟨e, he, hs⟩)⟩

/-! ### All mappings -/

/-- Nothing is lost only if the texts in every mapping are apart. -/
theorem Keeps.textsApart (h : Keeps w j) (hj : w.toJson = .ok j)
    (hentries : HasMapping entries w) : TextsApart entries := by
  induction h with
  | atom hv _ => exact absurd hentries (not_hasMapping_of_ofAtom hv)
  | @seq items js hlength _ ih =>
    obtain ⟨n, js', hjs, heq⟩ := items_of_toJsonWithin hj
    obtain rfl : js = js' := Json.arr.inj heq
    cases hentries with
    | item hv h =>
      obtain ⟨i, hi, rfl⟩ := List.mem_iff_getElem.mp hv
      have hi' : i < js.length := hlength.symm ▸ hi
      exact ih i _ _ (List.getElem?_eq_getElem hi) (List.getElem?_eq_getElem hi')
        (toJson_of_within (hjs.get hi hi')) h
  | @map es fields hlength hkeys _ ih =>
    have hfields := fields_of_toJson hj
    have hapart := hfields.length_eq_iff.mp hlength
    cases hentries with
    | here => exact hapart
    | @value _ e he h =>
      obtain ⟨s, hs, hhas⟩ := hkeys e he
      obtain ⟨j, hj⟩ := Option.isSome_iff_exists.mp hhas
      exact ih e he s j hs hj (hfields.toJson_of_apart hapart he hs hj) h

/-- Nothing is lost where the texts in every mapping are apart. -/
theorem keeps_of_textsApart (h : w.toJson = .ok j)
    (hapart : ∀ entries, HasMapping entries w → TextsApart entries) : Keeps w j := by
  induction hdepth : w.depth using Nat.strong_induction_on generalizing w j with
  | _ depth ih =>
    subst hdepth
    obtain ⟨n, hjson⟩ := exists_isJson h
    cases hjson with
    | atom hv hj => exact .atom hv hj
    | seq hjs =>
      refine .seq hjs.length_eq.symm fun i v j hv hj ↦ ?_
      obtain ⟨hi, rfl⟩ := List.getElem?_eq_some_iff.mp hv
      obtain ⟨hi', rfl⟩ := List.getElem?_eq_some_iff.mp hj
      have hmem := List.getElem_mem hi
      exact ih _ (Nat.lt_succ_of_le (depth_le_item hmem)) (toJson_of_within (hjs.get hi hi'))
        (fun entries hentries ↦ hapart entries (.item hmem hentries)) rfl
    | map _ =>
      have hfields := fields_of_toJson h
      have hhere := hapart _ .here
      refine .map (hfields.length_eq_iff.mpr hhere) (fun e he ↦ hfields.exists_field he) ?_
      intro e he s j hs hj
      exact ih _ (Nat.lt_succ_of_le (depth_le_entry he)) (hfields.toJson_of_apart hhere he hs hj)
        (fun es hes ↦ hapart es (.value he hes)) rfl

/-- Every object is what a mapping in its place becomes. -/
theorem exists_becomesAt (h : w.toJson = .ok j) (hfields : j.HasObject fields) :
    ∃ entries, BecomesAt entries fields w j := by
  induction hfields generalizing w with
  | here =>
    obtain ⟨n, hjson⟩ := exists_isJson h
    cases hjson with
    | atom _ hj => exact absurd .here (not_object_of_jsonOfAtom hj)
    | map _ => exact ⟨_, .here h⟩
  | item hj hfields ih =>
    obtain ⟨n, hjson⟩ := exists_isJson h
    cases hjson with
    | atom _ hj' => exact absurd (.item hj hfields) (not_object_of_jsonOfAtom hj')
    | seq hjs =>
      obtain ⟨i, hi, rfl⟩ := List.mem_iff_getElem.mp hj
      have hi' := hjs.length_eq ▸ hi
      obtain ⟨entries, hat⟩ := ih (toJson_of_within (hjs.get hi' hi))
      exact ⟨entries, .item (List.getElem?_eq_getElem hi') (List.getElem?_eq_getElem hi) hat⟩
  | field hj hfields ih =>
    obtain ⟨n, hjson⟩ := exists_isJson h
    cases hjson with
    | atom _ hj' => exact absurd (.field hj hfields) (not_object_of_jsonOfAtom hj')
    | map _ =>
      obtain ⟨e, he, hs, hvalue⟩ := (fields_of_toJson h).entry _ _ hj
      obtain ⟨entries, hat⟩ := ih hvalue
      exact ⟨entries, .field he hs hj hat⟩

theorem BecomesAt.toJson (h : BecomesAt entries fields w j) :
    (map entries).toJson = .ok (.obj fields) := by
  induction h with
  | here h => exact h
  | item _ _ _ ih => exact ih
  | field _ _ _ _ ih => exact ih

/-- The entries of a schema document. Each object is what a mapping becomes when merge keys are
applied, in the same place, and has a field for each text of a key there. So it keeps all entries
exactly when those texts are apart, and the document loses none exactly when they are in all its
mappings. Two keys there have one text only if one of them is that text. -/
theorem keeps_iff_textsApart {text : String} (h : jsonOfText text = .ok j) :
    ∃ document v w, Document.ofText text = .ok document ∧ ofDocument document = .ok v ∧
      v.applyMerge = .ok w ∧
      (∀ fields, j.HasObject fields → ∃ entries, BecomesAt entries fields w j) ∧
      (∀ entries fields, BecomesAt entries fields w j → StandFor entries fields ∧
        (fields.length = entries.length ↔ TextsApart entries)) ∧
      (∀ entries, HasMapping entries w → entries.Pairwise HasText) ∧
      (Keeps w j ↔ ∀ entries, HasMapping entries w → TextsApart entries) := by
  obtain ⟨document, v, w, hdocument, hv, hw, hj⟩ := jsonOfText_eq_ok_iff.mp h
  have hproper := isProper_of_ofDocument hv
  refine ⟨document, v, w, hdocument, hv, hw, fun fields ↦ exists_becomesAt hj, ?_, ?_, ?_⟩
  · intro entries fields hat
    have hfields := fields_of_toJson hat.toJson
    exact ⟨hfields, hfields.length_eq_iff⟩
  · intro entries hentries
    exact pairwise_hasText hproper hw hentries
  · exact ⟨fun hkeeps entries ↦ hkeeps.textsApart hj, keeps_of_textsApart hj⟩

/-- A mapping with a number and its text as keys. -/
def twiceText : String := "200: a\n\"200\": b\n"

/-- The text as a document. -/
def twiceDocument : Document where
  root := .mapping none [(.scalar none .plain "200", .scalar none .plain "a"),
    (.scalar none .marked "200", .scalar none .plain "b")]
  anchors := { names := [], latest := [], count := 0 }
  anchored := []

/-- The entries of the mapping. -/
def twiceEntries : List (Value × Value) :=
  [(.int ⟨200, by decide, by decide⟩, .str "a"), (.str "200", .str "b")]

set_option maxRecDepth 4000 in
/-- The document keeps one of two entries, since their keys have one text. -/
theorem keeps_iff_textsApart_twice :
    jsonOfText twiceText = .ok (.obj [("200", .str "b")]) ∧
      (map twiceEntries).applyMerge = .ok (.map twiceEntries) ∧
      ¬ Keeps (.map twiceEntries) (.obj [("200", .str "b")]) := by
  have hdocument : Document.ofText twiceText = .ok (some twiceDocument) := rfl
  have hvalue : ofDocument (some twiceDocument) = .ok (.map twiceEntries) := rfl
  have hmerge : (map twiceEntries).applyMerge = .ok (.map twiceEntries) := rfl
  have hjson : jsonOfText twiceText = .ok (.obj [("200", .str "b")]) :=
    jsonOfText_eq_ok_iff.mpr ⟨_, _, _, hdocument, hvalue, hmerge, rfl⟩
  refine ⟨hjson, hmerge, fun hkeeps ↦ ?_⟩
  obtain ⟨document, v, w, hdocument', hv, hw, _, _, _, hiff⟩ := keeps_iff_textsApart hjson
  obtain rfl := Except.ok.inj (hdocument.symm.trans hdocument')
  obtain rfl := Except.ok.inj (hvalue.symm.trans hv)
  obtain rfl := Except.ok.inj (hmerge.symm.trans hw)
  have hapart := hiff.mp hkeeps twiceEntries .here
  have htexts : texts twiceEntries = ["200", "200"] := rfl
  rw [TextsApart, htexts] at hapart
  exact (List.nodup_cons.mp hapart).1 List.mem_cons_self

end ApiManifest.Yaml.Value
