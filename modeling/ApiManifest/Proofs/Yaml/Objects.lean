import ApiManifest.Proofs.Yaml.Yields

/-!
The objects of a schema document. Each is what a mapping of the text becomes, in the place that the
keys and the lists on the way lead to (`YieldsAt`). It has the entries of the mapping and those that
the mapping takes over; that is all that is carried to the mapping unless this merges one with a
merge key of its own, and then a merge key is left (`objects_of_jsonOfText`).
-/

set_option autoImplicit false
set_option relaxedAutoImplicit false

namespace ApiManifest

/-- Holds of a JSON value that is an object with the fields, or has one inside. -/
inductive Json.HasObject (fields : Dictionary Json) : Json → Prop
  | here : HasObject fields (.obj fields)
  | item {items : List Json} {j : Json} (hj : j ∈ items) (h : HasObject fields j) :
      HasObject fields (.arr items)
  | field {fs : Dictionary Json} {s : String} {j : Json} (hj : fs.find? s = some j)
      (h : HasObject fields j) : HasObject fields (.obj fs)

namespace Yaml

open Reading

namespace Value

/-- Holds of a value that is a mapping with the entries, or has one inside; keys do not count. -/
inductive HasMapping (entries : List (Value × Value)) : Value → Prop
  | here : HasMapping entries (.map entries)
  | item {items : List Value} {v : Value} (hv : v ∈ items) (h : HasMapping entries v) :
      HasMapping entries (.seq items)
  | value {es : List (Value × Value)} {e : Value × Value} (he : e ∈ es)
      (h : HasMapping entries e.2) : HasMapping entries (.map es)
  | tagged {name : String} {v : Value} (h : HasMapping entries v) :
      HasMapping entries (.tagged name v)

/-- Holds of a value in which no mapping repeats a key. -/
def IsProper (v : Value) : Prop := ∀ entries, HasMapping entries v → DistinctKeys entries

/-- Holds when an object inside a JSON value is what a mapping inside a value becomes, the way to
both being the same: to an item by its index, to an entry that is merged into a mapping by the text
of its key. -/
inductive YieldsAt (entries : List (Value × Value)) (fields : Dictionary Json) :
    Value → Json → Prop
  | here (h : Yields (.map entries) (.obj fields)) :
      YieldsAt entries fields (.map entries) (.obj fields)
  | item {items : List Value} {js : List Json} {i : Nat} {v : Value} {j : Json}
      (hv : items[i]? = some v) (hj : js[i]? = some j) (h : YieldsAt entries fields v j) :
      YieldsAt entries fields (.seq items) (.arr js)
  | field {es : List (Value × Value)} {fs : Dictionary Json} {e : Value × Value} {s : String}
      {j : Json} (he : IsMergedInto e es) (hs : keyString? (textKey e.1) = some s)
      (hj : fs.find? s = some j) (h : YieldsAt entries fields e.2 j) :
      YieldsAt entries fields (.map es) (.obj fs)

variable {entries merged es source : List (Value × Value)} {fields : Dictionary Json} {v : Value}
  {j : Json} {e : Value × Value} {d : Document} {depth : Nat}

/-! ### Mappings that repeat no key -/

theorem hasMapping_underTag {tag : Option Tag} (h : HasMapping entries (underTag tag v)) :
    HasMapping entries v := by
  rw [underTag] at h
  split at h
  · cases h with
    | tagged h => exact h
  · exact h

theorem not_hasMapping_of_ofAtom {s : String} {a : Atom} (hv : ofAtom s a = .ok v) :
    ¬ HasMapping entries v := by
  intro h
  cases h <;> cases a <;> exact absurd hv (by simp [ofAtom])

/-- The entries that are read one after the other repeat no key. -/
theorem ReadsEntries.distinctKeys {read : List (Value × Value)} {nodes : List (Node × Node)}
    {n m : Nat} (h : ReadsEntries d depth read nodes es n m) :
    DistinctKeys es ∧ ∀ e ∈ es, hasKey e.1 read = false := by
  induction h with
  | nil read n => exact ⟨.nil, List.forall_mem_nil _⟩
  | @cons read _ _ k v es _ _ _ _ _ hnew _ _ ih =>
    obtain ⟨hdistinct, hfresh⟩ := ih
    have hboth : ∀ e ∈ es, same e.1 k = false ∧ hasKey e.1 read = false := by
      intro e he
      have hnone := hasKey_eq_false_iff.mp (hfresh e he)
      exact ⟨hnone _ List.mem_cons_self,
        hasKey_eq_false_iff.mpr fun r hr ↦ hnone r (List.mem_cons_of_mem _ hr)⟩
    exact ⟨List.pairwise_cons.mpr ⟨fun e he ↦ (hboth e he).1, hdistinct⟩,
      List.forall_mem_cons.mpr ⟨hnew, fun e he ↦ (hboth e he).2⟩⟩

/-- A value that is read from a text repeats no key. -/
theorem isProper_of_ofNode {node : Node} {n m : Nat} (h : ofNode d depth node n = .ok (v, m)) :
    IsProper v := by
  induction depth using Nat.strong_induction_on generalizing node v n m with
  | _ depth ih =>
    intro entries hentries
    obtain ⟨c, k, _, hread⟩ := ofNode_eq_ok_iff.mp h
    cases hread with
    | scalar _ hatom =>
      obtain ⟨a, _, ha⟩ := except_bind_eq_ok_iff.mp hatom
      exact absurd (hasMapping_underTag hentries) (not_hasMapping_of_ofAtom ha)
    | @sequence depth _ _ vs _ _ hitems =>
      have hproper : ∀ v ∈ vs, IsProper v := forall_mem_of_forall₂ hitems.forall₂
        fun _ _ v ⟨_, _, hv⟩ ↦ ih depth (Nat.lt_succ_self depth) hv
      cases hasMapping_underTag hentries with
      | item hv h => exact hproper _ hv _ h
    | @mapping depth _ _ es _ _ hreads =>
      have hproper : ∀ e ∈ es, IsProper e.2 := forall_mem_of_forall₂ hreads.forall₂
        fun _ _ e ⟨_, _, _, hv⟩ ↦ ih depth (Nat.lt_succ_self depth) hv
      cases hasMapping_underTag hentries with
      | here => exact hreads.distinctKeys.1
      | value he h => exact hproper _ he _ h

/-! ### Mappings that are taken over -/

theorem HasMapping.trans (hinner : HasMapping entries (.map es)) (houter : HasMapping es v) :
    HasMapping entries v := by
  induction houter with
  | here => exact hinner
  | item hv _ ih => exact .item hv ih
  | value he _ ih => exact .value he ih
  | tagged _ ih => exact .tagged ih

/-- The mappings that a merge key names stand inside. -/
theorem hasMapping_of_mem_sources (hsource : source ∈ sources entries) :
    HasMapping source (.map entries) := by
  obtain ⟨named, hnamed, hmem⟩ : ∃ named,
      (find? mergeKey entries).bind merged? = some named ∧ source ∈ named := by
    rw [sources] at hsource
    cases hnamed : (find? mergeKey entries).bind merged? with
    | none =>
      rw [hnamed] at hsource
      exact absurd hsource List.not_mem_nil
    | some named =>
      rw [hnamed] at hsource
      exact ⟨named, rfl, hsource⟩
  obtain ⟨v, hv, hmerged⟩ := Option.bind_eq_some_iff.mp hnamed
  obtain ⟨e, he, rfl⟩ := Option.map_eq_some_iff.mp hv
  refine .value (List.mem_of_find?_eq_some he) ?_
  rcases namesSource_of_merged? hmerged hmem with heq | ⟨items, heq, hitem⟩
  · rw [heq]
    exact .here
  · rw [heq]
    exact .item hitem .here

theorem hasMapping_of_isMergedInto (he : IsMergedInto e es) (h : HasMapping entries e.2) :
    HasMapping entries (.map es) := by
  cases he with
  | own he _ => exact .value he h
  | taken _ hsplit _ he =>
    exact (HasMapping.value he h).trans (hasMapping_of_mem_sources (mem_sources hsplit))

theorem YieldsAt.hasMapping (h : YieldsAt entries fields v j) : HasMapping entries v := by
  induction h with
  | here _ => exact .here
  | item hv _ _ ih => exact .item (List.mem_of_getElem? hv) ih
  | field he _ _ _ ih => exact hasMapping_of_isMergedInto he ih

theorem YieldsAt.yields (h : YieldsAt entries fields v j) :
    Yields (.map entries) (.obj fields) := by
  induction h with
  | here h => exact h
  | item _ _ _ ih => exact ih
  | field _ _ _ _ ih => exact ih

/-! ### Objects -/

theorem IsProper.mem_mergeEntries_iff (hproper : IsProper (.map entries))
    (h : mergeEntries entries = .ok merged) : e ∈ merged ↔ IsMergedInto e entries :=
  Value.mem_mergeEntries_iff h (hproper _ .here) fun source hsource ↦
    hproper source (hasMapping_of_mem_sources hsource)

theorem AreFields.congr {P Q : Value × Value → Prop} (hPQ : ∀ e, P e ↔ Q e)
    (h : AreFields P fields) : AreFields Q fields where
  field e he := h.field e ((hPQ e).mpr he)
  entry s j hj := by
    obtain ⟨e, he, hsame⟩ := h.entry s j hj
    exact ⟨e, (hPQ e).mp he, hsame⟩

/-- The fields of an object are the entries of the mapping and those that it takes over. -/
theorem areFields_of_yields (hproper : IsProper (.map entries))
    (h : Yields (.map entries) (.obj fields)) : AreFields (IsMergedInto · entries) fields := by
  cases isYield_of_yields h with
  | @atom s a _ _ hv _ => exact absurd hv (by cases a <;> simp [ofAtom])
  | map hmerged hfields => exact hfields.congr fun e ↦ hproper.mem_mergeEntries_iff hmerged

/-- An object has the text of a merge key as a field exactly when its mapping keeps one. -/
theorem has_mergeKey_iff (hproper : IsProper (.map entries))
    (h : Yields (.map entries) (.obj fields)) :
    fields.has "<<" = true ↔ KeepsMergeKey entries := by
  cases isYield_of_yields h with
  | @atom s a _ _ hv _ => exact absurd hv (by cases a <;> simp [ofAtom])
  | map hmerged hfields =>
    rw [← exists_mergeKey_iff hmerged (hproper _ .here) fun source hsource ↦
      hproper source (hasMapping_of_mem_sources hsource)]
    constructor
    · intro hhas
      obtain ⟨j, hj⟩ := Option.isSome_iff_exists.mp hhas
      obtain ⟨e, he, htext, _⟩ := hfields.entry "<<" j hj
      exact ⟨e, he, keyString?_textKey_iff.mp htext⟩
    · rintro ⟨e, he, hkey⟩
      obtain ⟨s, hs, hhas⟩ := hfields.field e he
      rw [keyString?_textKey_iff.mpr hkey] at hs
      rw [Option.some.inj hs]
      exact hhas

theorem not_object_of_jsonOfAtom {s : String} {a : Atom} (hj : jsonOfAtom s a = .ok j) :
    ¬ j.HasObject fields := by
  intro h
  cases a with
  | wide => exact absurd hj (by simp [jsonOfAtom])
  | float x =>
    rw [← Except.ok.inj hj, jsonOfDouble] at h
    cases hx : Number.FiniteDouble.of? x <;> rw [hx] at h <;> cases h
  | _ =>
    rw [← Except.ok.inj hj] at h
    cases h

/-- Every object is what a mapping in its place becomes. -/
theorem exists_yieldsAt_of_hasObject (hproper : IsProper v) (hv : Yields v j)
    (h : j.HasObject fields) : ∃ entries, YieldsAt entries fields v j := by
  induction h generalizing v with
  | here =>
    cases isYield_of_yields hv with
    | atom _ hj => exact absurd .here (not_object_of_jsonOfAtom hj)
    | map _ _ => exact ⟨_, .here hv⟩
  | item hj h ih =>
    cases isYield_of_yields hv with
    | atom _ hj' => exact absurd (.item hj h) (not_object_of_jsonOfAtom hj')
    | seq hitems =>
      obtain ⟨i, hi, rfl⟩ := List.mem_iff_getElem.mp hj
      have hlt := hitems.length_eq ▸ hi
      obtain ⟨entries, hat⟩ := ih (fun es hes ↦ hproper es (.item (List.getElem_mem hlt) hes))
        (hitems.get hlt hi)
      exact ⟨entries, .item (List.getElem?_eq_getElem hlt) (List.getElem?_eq_getElem hi) hat⟩
  | field hj h ih =>
    cases isYield_of_yields hv with
    | atom _ hj' => exact absurd (.field hj h) (not_object_of_jsonOfAtom hj')
    | map hmerged hfields =>
      obtain ⟨e, he, hs, hvalue⟩ := hfields.entry _ _ hj
      have hinto := (hproper.mem_mergeEntries_iff hmerged).mp he
      obtain ⟨entries, hat⟩ :=
        ih (fun es hes ↦ hproper es (hasMapping_of_isMergedInto hinto hes)) hvalue
      exact ⟨entries, .field hinto hs hj hat⟩

theorem isProper_of_ofDocument {document : Option Document} (h : ofDocument document = .ok v) :
    IsProper v := by
  cases document with
  | none =>
    rw [← Except.ok.inj h]
    intro entries hentries
    cases hentries
  | some d =>
    obtain ⟨n, hread⟩ := run_eq_ok_iff.mp h
    exact isProper_of_ofNode hread

/-- The objects of a schema document. Each is what a mapping of the text becomes, in the same place.
It has the text of a merge key as a field exactly when the mapping keeps one, its fields are the
entries of the mapping and those that this takes over, and they are all that is carried to the
mapping through merge keys to any depth unless it merges one with a merge key of its own. -/
theorem objects_of_jsonOfText {text : String} (h : jsonOfText text = .ok j) :
    ∃ document v, Document.ofText text = .ok document ∧ ofDocument document = .ok v ∧
      (∀ fields, j.HasObject fields → ∃ entries, YieldsAt entries fields v j) ∧
      ∀ entries fields, YieldsAt entries fields v j →
        (fields.has "<<" = true ↔ KeepsMergeKey entries) ∧
          AreFields (IsMergedInto · entries) fields ∧
          (¬ IsChained entries → AreFields (IsCarriedTo · entries) fields) := by
  obtain ⟨document, v, w, hdocument, hv, hw, hj⟩ := jsonOfText_eq_ok_iff.mp h
  have hproper := isProper_of_ofDocument hv
  refine ⟨document, v, hdocument, hv, fun fields hfields ↦ ?_, fun entries fields hat ↦ ?_⟩
  · exact exists_yieldsAt_of_hasObject hproper ⟨w, hw, hj⟩ hfields
  · have hmapping : IsProper (.map entries) := fun es hes ↦ hproper es (hes.trans hat.hasMapping)
    have hmerged := areFields_of_yields hmapping hat.yields
    exact ⟨has_mergeKey_iff hmapping hat.yields, hmerged, fun hchained ↦
      hmerged.congr fun e ↦ isMergedInto_iff_isCarriedTo hchained⟩

/-- A mapping that takes over an entry of another. -/
def sharedText : String := "a: &a\n  x: u\nb:\n  <<: *a\n  y: v\n"

/-- The mapping that is shared. -/
def sharedNode : Node := .mapping none [(.scalar none .plain "x", .scalar none .plain "u")]

/-- The text as a document. -/
def sharedDocument : Document where
  root := .mapping none [(.scalar none .plain "a", sharedNode),
    (.scalar none .plain "b", .mapping none [(.scalar none .plain "<<", .alias 0),
      (.scalar none .plain "y", .scalar none .plain "v")])]
  anchors := { names := [(['a'], 0)], latest := [(0, 0)], count := 1 }
  anchored := [(0, sharedNode)]

/-- The text as a value. -/
def sharedValue : Value := .map [(.str "a", .map [(.str "x", .str "u")]),
  (.str "b", .map [(mergeKey, .map [(.str "x", .str "u")]), (.str "y", .str "v")])]

/-- The object that the mapping becomes. -/
def sharedFields : Dictionary Json := [("x", .str "u"), ("y", .str "v")]

/-- The text as a schema document. -/
def sharedJson : Json := .obj [("a", .obj [("x", .str "u")]), ("b", .obj sharedFields)]

/-- The object has all that is carried to its mapping, and no merge key. -/
theorem objects_of_jsonOfText_shared : jsonOfText sharedText = .ok sharedJson ∧
    ∃ entries, YieldsAt entries sharedFields sharedValue sharedJson ∧ ¬ KeepsMergeKey entries ∧
      AreFields (IsCarriedTo · entries) sharedFields := by
  have hdocument : Document.ofText sharedText = .ok (some sharedDocument) := rfl
  have hvalue : ofDocument (some sharedDocument) = .ok sharedValue := rfl
  have hmerge : sharedValue.applyMerge = .ok (.map [(.str "a", .map [(.str "x", .str "u")]),
    (.str "b", .map [(.str "y", .str "v"), (.str "x", .str "u")])]) := rfl
  have hjson : jsonOfText sharedText = .ok sharedJson :=
    jsonOfText_eq_ok_iff.mpr ⟨_, _, _, hdocument, hvalue, hmerge, rfl⟩
  refine ⟨hjson, ?_⟩
  obtain ⟨document, v, hdocument', hv, hobjects, hfields⟩ := objects_of_jsonOfText hjson
  obtain rfl := Except.ok.inj (hdocument.symm.trans hdocument')
  obtain rfl := Except.ok.inj (hvalue.symm.trans hv)
  obtain ⟨entries, hat⟩ := hobjects sharedFields (.field (s := "b") rfl .here)
  obtain ⟨hkeeps, _, hcarried⟩ := hfields entries sharedFields hat
  have hno : ¬ KeepsMergeKey entries := fun h ↦ absurd (hkeeps.mpr h) (by decide)
  exact ⟨entries, hat, hno, hcarried fun hchained ↦ hno (.inl hchained)⟩

-- A merge key that is taken over stays.
example : (map [(mergeKey, .map [(mergeKey, .map [(.str "x", .str "u")]), (.str "y", .str "v")])]
    ).applyMerge = .ok (.map [(mergeKey, .map [(.str "x", .str "u")]), (.str "y", .str "v")]) := rfl

end Value

end Yaml

end ApiManifest
