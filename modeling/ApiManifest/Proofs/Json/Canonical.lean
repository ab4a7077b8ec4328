import ApiManifest.Proofs.Json.Reading
import ApiManifest.Proofs.Text.Octets
import ApiManifest.Proofs.Yaml.Nesting

/-!
The text of a JSON value is canonical. Nothing but what a string shows stands between its tokens
(`visible_chars`), the keys of every object in it ascend (`keysAscend_sorted`), and it is read back
as the value in that order. So two values have one text exactly when they differ in the order of
keys alone (`compact_canonical`).
-/

set_option autoImplicit false
set_option relaxedAutoImplicit false

namespace ApiManifest.Json

/-- Holds of a value and the values inside it, itself among them. -/
inductive IsPart (part : Json) : Json → Prop
  | here : IsPart part part
  | item {items : List Json} {v : Json} (hv : v ∈ items) (h : IsPart part v) :
      IsPart part (.arr items)
  | value {fields : List (String × Json)} {f : String × Json} (hf : f ∈ fields)
      (h : IsPart part f.2) : IsPart part (.obj fields)

/-- Holds of a value in which every object, at any depth, has fields with the property. -/
def EveryObject (P : List (String × Json) → Prop) (v : Json) : Prop :=
  ∀ fields, IsPart (.obj fields) v → P fields

/-- Holds of a value in which no object repeats a key. -/
def DistinctKeys : Json → Prop := EveryObject fun fields ↦ (fields.map Prod.fst).Nodup

/-- Holds of a value in which the keys of every object ascend by their octets. -/
def KeysAscend : Json → Prop :=
  EveryObject fun fields ↦ fields.Pairwise fun f g ↦ Text.octets f.1 < Text.octets g.1

/-- Holds of two values that are equal up to the order of the keys of their objects. -/
inductive Reordered : Json → Json → Prop
  | refl (v : Json) : Reordered v v
  | trans {u v w : Json} (huv : Reordered u v) (hvw : Reordered v w) : Reordered u w
  | perm {fields fields' : List (String × Json)} (h : fields.Perm fields') :
      Reordered (.obj fields) (.obj fields')
  | item {front back : List Json} {v w : Json} (h : Reordered v w) :
      Reordered (.arr (front ++ v :: back)) (.arr (front ++ w :: back))
  | value {front back : List (String × Json)} {k : String} {v w : Json} (h : Reordered v w) :
      Reordered (.obj (front ++ (k, v) :: back)) (.obj (front ++ (k, w) :: back))

/-- Where a character of a JSON text stands. -/
inductive Place where
  | outside
  | inside
  | escaped

/-- The characters of a text that stand outside of strings, the quotes among them. -/
def outsideFrom : Place → List Char → List Char
  | _, [] => []
  | .outside, c :: cs => c :: outsideFrom (if c = '"' then .inside else .outside) cs
  | .inside, c :: cs =>
    if c = '"' then c :: outsideFrom .outside cs
    else outsideFrom (if c = '\\' then .escaped else .inside) cs
  | .escaped, _ :: cs => outsideFrom .inside cs

/-- Holds of a text that shows nothing but visible ASCII characters outside of strings. -/
def Visible (cs : List Char) : Prop := ∀ c ∈ outsideFrom .outside cs, IsPrintable c ∧ c ≠ ' '

variable {P : List (String × Json) → Prop} {v w : Json} {items : List Json}
  {fields : List (String × Json)} {c : Char} {cs rest : List Char}

/-! ### Between the tokens -/

theorem outsideFrom_inside (hquote : c ≠ '"') (hslash : c ≠ '\\') (cs : List Char) :
    outsideFrom .inside (c :: cs) = outsideFrom .inside cs := by
  rw [outsideFrom, if_neg hquote, if_neg hslash]

theorem hexDigit_ne {d : Nat} (hd : d < 16) :
    Text.hexDigit d ≠ '"' ∧ Text.hexDigit d ≠ '\\' := by
  have hvalue := Text.hexValue?_hexDigit hd
  constructor
  · intro heq
    rw [heq] at hvalue
    exact absurd hvalue (by simp [Text.hexValue?])
  · intro heq
    rw [heq] at hvalue
    exact absurd hvalue (by simp [Text.hexValue?])

/-- What a string shows of a character stays inside. -/
theorem outsideFrom_escapedChar (c : Char) (rest : List Char) :
    outsideFrom .inside (escapedChar c ++ rest) = outsideFrom .inside rest := by
  have hbackslash (d : Char) (tail : List Char) :
      outsideFrom .inside ('\\' :: d :: tail) = outsideFrom .inside tail := rfl
  have hdigit (n : Nat) (tail : List Char) :
      outsideFrom .inside (Text.hexDigit (n % 16) :: tail) = outsideFrom .inside tail := by
    obtain ⟨hquote, hslash⟩ := hexDigit_ne (Nat.mod_lt n (by decide : 0 < 16))
    exact outsideFrom_inside hquote hslash tail
  rcases escapedChar_cases c with ⟨heq, hquote, hslash, _⟩ | ⟨_, ⟨letter, heq, _⟩ | ⟨heq, _⟩⟩
  · rw [heq]
    exact outsideFrom_inside hquote hslash rest
  · rw [heq]
    exact hbackslash letter rest
  · rw [heq, hexFixed_four]
    simp only [List.cons_append, List.nil_append, hbackslash, hdigit]

/-- Of a string only the quotes stand outside. -/
theorem outsideFrom_string (s : String) (rest : List Char) :
    outsideFrom .outside (stringChars s ++ rest) = '"' :: '"' :: outsideFrom .outside rest := by
  have hbody (cs : List Char) : outsideFrom .inside (cs.flatMap escapedChar ++ '"' :: rest) =
      '"' :: outsideFrom .outside rest := by
    induction cs with
    | nil => rfl
    | cons c cs ih => rw [List.flatMap_cons, List.append_assoc, outsideFrom_escapedChar, ih]
  rw [stringChars_append, outsideFrom, if_pos rfl, hbody]

theorem visible_cons_iff (hquote : c ≠ '"') :
    Visible (c :: cs) ↔ (IsPrintable c ∧ c ≠ ' ') ∧ Visible cs := by
  unfold Visible
  rw [outsideFrom, if_neg hquote, List.forall_mem_cons]

/-- A mark stands between tokens. -/
theorem visible_mark (hc : c ∈ ",:[]\x7b\x7d".toList) : Visible (c :: cs) ↔ Visible cs := by
  have hmarks : ∀ c ∈ ",:[]\x7b\x7d".toList, c ≠ '"' ∧ IsPrintable c ∧ c ≠ ' ' :=
    List.all_iff_forall_prop.mp (by decide)
  obtain ⟨hquote, hvisible⟩ := hmarks c hc
  rw [visible_cons_iff hquote, and_iff_right hvisible]

theorem visible_string (s : String) (hrest : Visible rest) : Visible (stringChars s ++ rest) := by
  unfold Visible
  rw [outsideFrom_string]
  have hmark : IsPrintable '"' ∧ '"' ≠ ' ' := by decide
  exact List.forall_mem_cons.mpr ⟨hmark, List.forall_mem_cons.mpr ⟨hmark, hrest⟩⟩

theorem visible_bare (hcs : ∀ c ∈ cs, IsBare c) (hrest : Visible rest) : Visible (cs ++ rest) := by
  induction cs with
  | nil => exact hrest
  | cons c cs ih =>
    have hc := hcs c List.mem_cons_self
    refine (visible_cons_iff (isBare_ne hc (by decide))).mpr ⟨?_, ?_⟩
    · exact ⟨isPrintable_of_isBare hc, isBare_ne hc (by decide)⟩
    · exact ih fun d hd ↦ hcs d (List.mem_cons_of_mem c hd)

theorem visible_itemChars (hitems : ∀ v ∈ items, ∀ rest, Visible rest → Visible (chars v ++ rest))
    (hrest : Visible rest) : Visible (itemChars items ++ rest) := by
  induction items with
  | nil => exact (visible_mark (by decide)).mpr hrest
  | cons v others ih =>
    rw [itemChars, List.append_assoc]
    refine hitems v List.mem_cons_self _ ?_
    have hothers := ih fun w hw ↦ hitems w (List.mem_cons_of_mem v hw)
    cases others with
    | nil => exact hothers
    | cons w others =>
      rw [moreItemChars_cons, List.cons_append]
      exact (visible_mark (by decide)).mpr hothers

theorem visible_fieldChars
    (hfields : ∀ f ∈ fields, ∀ rest, Visible rest → Visible (chars f.2 ++ rest))
    (hrest : Visible rest) : Visible (fieldChars fields ++ rest) := by
  induction fields with
  | nil => exact (visible_mark (by decide)).mpr hrest
  | cons f others ih =>
    rw [fieldChars_cons]
    refine visible_string f.1 ((visible_mark (by decide)).mpr (hfields f List.mem_cons_self _ ?_))
    have hothers := ih fun g hg ↦ hfields g (List.mem_cons_of_mem f hg)
    cases others with
    | nil => exact hothers
    | cons g others =>
      rw [moreFieldChars_cons, List.cons_append]
      exact (visible_mark (by decide)).mpr hothers

/-- Outside of strings the text of a value has its marks, words and numbers alone. -/
theorem visible_chars (v : Json) : ∀ rest, Visible rest → Visible (chars v ++ rest) := by
  induction v using inductionOnParts with
  | plain v hv => exact fun rest ↦ visible_bare (isBare_chars hv).2
  | str s => exact fun rest ↦ visible_string s
  | arr items ih =>
    intro rest hrest
    rw [chars, List.cons_append]
    exact (visible_mark (by decide)).mpr (visible_itemChars ih hrest)
  | obj fields ih =>
    intro rest hrest
    rw [chars, List.cons_append]
    exact (visible_mark (by decide)).mpr (visible_fieldChars ih hrest)

/-! ### Order -/

theorem everyObject_arr_iff : EveryObject P (.arr items) ↔ ∀ v ∈ items, EveryObject P v := by
  constructor
  · intro h v hv fields hpart
    exact h fields (.item hv hpart)
  · intro h fields hpart
    cases hpart with
    | item hv hpart => exact h _ hv fields hpart

theorem everyObject_obj_iff :
    EveryObject P (.obj fields) ↔ P fields ∧ ∀ f ∈ fields, EveryObject P f.2 := by
  constructor
  · intro h
    refine ⟨h fields .here, fun f hf fields' hpart ↦ ?_⟩
    exact h fields' (.value hf hpart)
  · rintro ⟨hhere, hvalues⟩ fields' hpart
    cases hpart with
    | here => exact hhere
    | value hf hpart => exact hvalues _ hf fields' hpart

theorem everyObject_plain (hv : IsPlain v) : EveryObject P v := by
  intro fields hpart
  cases hpart with
  | here => exact hv.elim
  | item _ _ => exact hv.elim
  | value _ _ => exact hv.elim

theorem everyObject_str (s : String) : EveryObject P (.str s) := by
  intro fields hpart
  cases hpart

theorem sorted_plain (hv : IsPlain v) : v.sorted = v := by
  cases v with
  | arr _ => exact hv.elim
  | obj _ => exact hv.elim
  | _ => rfl

/-- The fields of a sorted object are those of the object with sorted values. -/
theorem exists_of_mem_sortedFields {f : String × Json}
    (hf : f ∈ Dictionary.ofList (sortedFields fields)) :
    ∃ g ∈ fields, f.1 = g.1 ∧ f.2 = g.2.sorted := by
  have hmem := Dictionary.mem_of_mem_ofList hf
  rw [sortedFields_eq] at hmem
  obtain ⟨g, hg, rfl⟩ := List.mem_map.mp hmem
  exact ⟨g, hg, rfl, rfl⟩

/-- In a sorted value the keys of every object ascend. -/
theorem keysAscend_sorted (v : Json) : KeysAscend v.sorted := by
  unfold KeysAscend
  induction v using inductionOnParts with
  | plain v hv =>
    rw [sorted_plain hv]
    exact everyObject_plain hv
  | str s => exact everyObject_str s
  | arr items ih =>
    rw [sorted, sortedItems_eq, everyObject_arr_iff]
    intro w hw
    obtain ⟨v, hv, rfl⟩ := List.mem_map.mp hw
    exact ih v hv
  | obj fields ih =>
    rw [sorted, everyObject_obj_iff]
    refine ⟨(Dictionary.ascending_ofList _).imp Text.octets_lt_iff.mpr, fun f hf ↦ ?_⟩
    obtain ⟨g, hg, -, hvalue⟩ := exists_of_mem_sortedFields hf
    rw [hvalue]
    exact ih g hg

/-- Sorting brings in no double. -/
theorem mem_floats_of_sorted {x : Number.FiniteDouble} (hx : x ∈ floats v.sorted) :
    x ∈ floats v := by
  induction v using inductionOnParts with
  | plain v hv => exact sorted_plain hv ▸ hx
  | str s => exact hx
  | arr items ih =>
    rw [sorted, sortedItems_eq, floats, itemFloats_eq] at hx
    rw [floats, itemFloats_eq]
    obtain ⟨w, hw, hx⟩ := List.mem_flatMap.mp hx
    obtain ⟨v, hv, rfl⟩ := List.mem_map.mp hw
    exact List.mem_flatMap.mpr ⟨v, hv, ih v hv hx⟩
  | obj fields ih =>
    rw [sorted, floats, fieldFloats_eq] at hx
    rw [floats, fieldFloats_eq]
    obtain ⟨f, hf, hx⟩ := List.mem_flatMap.mp hx
    obtain ⟨g, hg, -, hvalue⟩ := exists_of_mem_sortedFields hf
    rw [hvalue] at hx
    exact List.mem_flatMap.mpr ⟨g, hg, ih g hg hx⟩

theorem sorted_sorted (v : Json) : v.sorted.sorted = v.sorted := by
  induction v using inductionOnParts with
  | plain v hv => rw [sorted_plain hv, sorted_plain hv]
  | str s => rfl
  | arr items ih =>
    rw [sorted, sorted, sortedItems_eq, sortedItems_eq, List.map_map]
    exact congrArg Json.arr (List.map_congr_left ih)
  | obj fields ih =>
    rw [sorted, sortedFields_eq]
    refine Yaml.Value.sorted_object fun p hp ↦ ?_
    obtain ⟨f, hf, rfl⟩ := List.mem_map.mp hp
    exact ih f hf

/-! ### Values that are equal up to the order of keys -/

theorem Reordered.symm (h : Reordered v w) : Reordered w v := by
  induction h with
  | refl v => exact .refl v
  | trans _ _ ihuv ihvw => exact ihvw.trans ihuv
  | perm h => exact .perm h.symm
  | item _ ih => exact .item ih
  | value _ ih => exact .value ih

/-- An array is equal to one with equal items. -/
theorem reordered_items {f : Json → Json} (hitems : ∀ v ∈ items, Reordered v (f v))
    (front : List Json) : Reordered (.arr (front ++ items)) (.arr (front ++ items.map f)) := by
  induction items generalizing front with
  | nil => exact .refl _
  | cons v others ih =>
    have hothers := ih (fun w hw ↦ hitems w (List.mem_cons_of_mem v hw)) (front ++ [f v])
    rw [List.append_assoc, List.append_assoc] at hothers
    exact (Reordered.item (hitems v List.mem_cons_self)).trans hothers

/-- An object is equal to one with equal values. -/
theorem reordered_fields {f : Json → Json} (hfields : ∀ p ∈ fields, Reordered p.2 (f p.2))
    (front : List (String × Json)) :
    Reordered (.obj (front ++ fields)) (.obj (front ++ fields.map fun p ↦ (p.1, f p.2))) := by
  induction fields generalizing front with
  | nil => exact .refl _
  | cons p others ih =>
    have hothers := ih (fun q hq ↦ hfields q (List.mem_cons_of_mem p hq)) (front ++ [(p.1, f p.2)])
    rw [List.append_assoc, List.append_assoc] at hothers
    exact (Reordered.value (hfields p List.mem_cons_self)).trans hothers

/-- Sorting changes the order of keys alone. -/
theorem reordered_sorted (hv : DistinctKeys v) : Reordered v v.sorted := by
  unfold DistinctKeys at hv
  induction v using inductionOnParts with
  | plain v hplain =>
    rw [sorted_plain hplain]
    exact .refl v
  | str s => exact .refl _
  | arr items ih =>
    rw [everyObject_arr_iff] at hv
    rw [sorted, sortedItems_eq]
    exact reordered_items (fun v hmem ↦ ih v hmem (hv v hmem)) []
  | obj fields ih =>
    obtain ⟨hkeys, hvalues⟩ := everyObject_obj_iff.mp hv
    have hmap : Reordered (.obj fields) (.obj (sortedFields fields)) := by
      rw [sortedFields_eq]
      exact reordered_fields (fun f hf ↦ ih f hf (hvalues f hf)) []
    have hsorted : ((sortedFields fields).map Prod.fst).Nodup := by
      rw [sortedFields_eq, List.map_map]
      exact hkeys
    rw [sorted]
    exact hmap.trans (.perm (Dictionary.ofList_perm hsorted).symm)

/-- What is equal up to the order of keys is sorted alike, and repeats no key either. -/
theorem Reordered.sorted_eq (h : Reordered v w) (hv : DistinctKeys v) :
    DistinctKeys w ∧ v.sorted = w.sorted := by
  unfold DistinctKeys at hv ⊢
  induction h with
  | refl v => exact ⟨hv, rfl⟩
  | trans _ _ ihuv ihvw =>
    obtain ⟨hmid, huv⟩ := ihuv hv
    obtain ⟨hw, hvw⟩ := ihvw hmid
    exact ⟨hw, huv.trans hvw⟩
  | @perm fields fields' h =>
    obtain ⟨hkeys, hvalues⟩ := everyObject_obj_iff.mp hv
    refine ⟨everyObject_obj_iff.mpr ⟨(h.map Prod.fst).nodup_iff.mp hkeys, fun f hf ↦ ?_⟩, ?_⟩
    · exact hvalues f (h.mem_iff.mpr hf)
    · have hsorted : ((fields.map fun f ↦ (f.1, sorted f.2)).map Prod.fst).Nodup := by
        rw [List.map_map]
        exact hkeys
      rw [sorted, sorted, sortedFields_eq, sortedFields_eq,
        Dictionary.ofList_eq_of_perm hsorted (h.map _)]
  | @item front back v w _ ih =>
    rw [everyObject_arr_iff, List.forall_mem_append, List.forall_mem_cons] at hv ⊢
    obtain ⟨hfront, hv, hback⟩ := hv
    obtain ⟨hw, hsorted⟩ := ih hv
    refine ⟨⟨hfront, hw, hback⟩, ?_⟩
    simp only [sorted, sortedItems_eq, List.map_append, List.map_cons, hsorted]
  | @value front back k v w _ ih =>
    rw [everyObject_obj_iff, List.forall_mem_append, List.forall_mem_cons] at hv ⊢
    obtain ⟨hkeys, hfront, hv, hback⟩ := hv
    obtain ⟨hw, hsorted⟩ := ih hv
    rw [List.map_append, List.map_cons] at hkeys ⊢
    refine ⟨⟨hkeys, hfront, hw, hback⟩, ?_⟩
    simp only [sorted, sortedFields_eq, List.map_append, List.map_cons, hsorted]

/-! ### Canonical texts -/

/-- The text of a value is read as the value with its keys in order. -/
theorem read?_compact (hfloats : ∀ x ∈ floats v, NumberReadsBack x) :
    read? (compact v) = some v.sorted :=
  read?_chars fun x hx ↦ hfloats x (mem_floats_of_sorted hx)

/-- Compact text is canonical and loses nothing. Outside of its strings it has visible characters
alone; it is read as a value in which the keys of every object ascend, and which is the written one
up to the order of keys; and two values have one text exactly when they are equal up to that order.
That the reader takes the doubles in them from their text is supposed. -/
theorem compact_canonical (hv : DistinctKeys v) (hfloats : ∀ x ∈ floats v, NumberReadsBack x) :
    Visible (compact v).toList ∧
      (∃ w, read? (compact v) = some w ∧ parse? (compact v) = some w ∧ KeysAscend w ∧
        Reordered v w) ∧
      ∀ v', DistinctKeys v' → (∀ x ∈ floats v', NumberReadsBack x) →
        (compact v = compact v' ↔ Reordered v v') := by
  have hread := read?_compact hfloats
  refine ⟨?visible, ⟨v.sorted, hread, ?parse, keysAscend_sorted v, reordered_sorted hv⟩, ?unique⟩
  case visible =>
    have hvisible := visible_chars v.sorted [] fun c hc ↦ absurd hc List.not_mem_nil
    rw [List.append_nil] at hvisible
    rw [compact, String.toList_ofList]
    exact hvisible
  case parse => rw [parse?, hread, Option.map_some, sorted_sorted]
  case unique =>
    intro v' hv' hfloats'
    constructor
    · intro heq
      have hread' := read?_compact hfloats'
      rw [← heq, hread] at hread'
      have hsorted : v.sorted = v'.sorted := Option.some.inj hread'
      have hback := (reordered_sorted hv').symm
      rw [← hsorted] at hback
      exact (reordered_sorted hv).trans hback
    · intro hreordered
      unfold compact
      rw [(hreordered.sorted_eq hv).2]

/-- One and a half. -/
def oneAndHalf : Number.FiniteDouble := ⟨⟨4609434218613702656⟩, by decide⟩

/-- A value whose keys do not ascend. -/
def unordered : Json :=
  .obj [("é", .arr [.float oneAndHalf, .str "\n \""]),
    ("a", .obj [("c", .null), ("b", .bool true)])]

/-- The value with its keys in another order. -/
def otherwise : Json :=
  .obj [("a", .obj [("b", .bool true), ("c", .null)]),
    ("é", .arr [.float oneAndHalf, .str "\n \""])]

theorem text_oneAndHalf : Number.jsonLayout.text oneAndHalf.val = "1.5" := by decide +kernel

/-- The reader takes the double from its text. -/
theorem numberReadsBack_oneAndHalf : NumberReadsBack oneAndHalf := by
  have hdouble : (Number.Numeral.mk false ['1'] ['5'] 0).toDouble = oneAndHalf.val := by
    decide +kernel
  have hnumber : number? "1.5".toList = ((Number.FiniteDouble.of?
      (Number.Numeral.mk false ['1'] ['5'] 0).toDouble).map Json.float).map fun v ↦ (v, []) := rfl
  unfold NumberReadsBack
  rw [text_oneAndHalf, hnumber, hdouble]
  rfl

/-- Both values have one text, and so are equal up to the order of keys. -/
theorem compact_canonical_unordered :
    DistinctKeys unordered ∧ (∀ x ∈ floats unordered, NumberReadsBack x) ∧
      DistinctKeys otherwise ∧ (∀ x ∈ floats otherwise, NumberReadsBack x) ∧
      Visible (compact unordered).toList ∧ read? (compact unordered) = some otherwise ∧
      compact unordered = compact otherwise ∧ Reordered unordered otherwise := by
  have hfloats : ∀ x ∈ [oneAndHalf], NumberReadsBack x :=
    List.forall_mem_singleton.mpr numberReadsBack_oneAndHalf
  have hitems : DistinctKeys (.arr [.float oneAndHalf, .str "\n \""]) :=
    everyObject_arr_iff.mpr (List.forall_mem_cons.mpr ⟨everyObject_plain trivial,
      List.forall_mem_singleton.mpr (everyObject_str _)⟩)
  have hpair {f g : String × Json} (hne : f.1 ≠ g.1) (hf : DistinctKeys f.2)
      (hg : DistinctKeys g.2) : DistinctKeys (.obj [f, g]) :=
    everyObject_obj_iff.mpr ⟨List.nodup_cons.mpr ⟨fun h ↦ hne (List.mem_singleton.mp h),
      List.nodup_singleton _⟩, List.forall_mem_cons.mpr ⟨hf, List.forall_mem_singleton.mpr hg⟩⟩
  have hnull : DistinctKeys .null := everyObject_plain trivial
  have htrue : DistinctKeys (.bool true) := everyObject_plain trivial
  have hunordered : DistinctKeys unordered :=
    hpair (by decide) hitems (hpair (by decide) hnull htrue)
  have hotherwise : DistinctKeys otherwise :=
    hpair (by decide) (hpair (by decide) htrue hnull) hitems
  have hsorted : unordered.sorted = otherwise := rfl
  have heq : compact unordered = compact otherwise := by
    unfold compact
    rw [← hsorted, sorted_sorted]
  obtain ⟨hvisible, ⟨w, hread, -, -, -⟩, hunique⟩ := compact_canonical hunordered hfloats
  have hw : w = otherwise := by
    rw [read?_compact (v := unordered) hfloats, hsorted] at hread
    exact (Option.some.inj hread).symm
  rw [hw] at hread
  exact ⟨hunordered, hfloats, hotherwise, hfloats, hvisible, hread, heq,
    (hunique otherwise hotherwise hfloats).mp heq⟩

-- Of a repeated key the text has the last field alone, so that keys must differ.
example : compact (.obj [("a", .null), ("a", .bool true)]) = compact (.obj [("a", .bool true)]) :=
  rfl

end ApiManifest.Json
