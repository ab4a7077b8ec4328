import ApiManifest.Proofs.Json.Nodes
import ApiManifest.Proofs.Json.Scan
import ApiManifest.Proofs.Text.Utf8
import ApiManifest.Yaml.Document

/-!
Which JSON texts a YAML reader can read at all. Three things may be in the way: a character that
YAML does not allow, a string that is not closed before a mark of a document, and a key that is too
long or on more than one line. The text of an object with none of them is the document of its `node`
(`ofOctets_chars`), and every other one is an error.
-/

set_option autoImplicit false
set_option relaxedAutoImplicit false

namespace ApiManifest.Json

open Yaml

/-- Induction over a value, with the parts of a collection taken together. -/
@[elab_as_elim]
theorem inductionOnParts {motive : Json → Prop} (v : Json)
    (plain : ∀ v, IsPlain v → motive v) (str : ∀ s, motive (.str s))
    (arr : ∀ items, (∀ v ∈ items, motive v) → motive (.arr items))
    (obj : ∀ fields : List (String × Json), (∀ f ∈ fields, motive f.2) → motive (.obj fields)) :
    motive v := by
  match v with
  | .null => exact plain _ trivial
  | .bool b => exact plain _ trivial
  | .int n => exact plain _ trivial
  | .float x => exact plain _ trivial
  | .str s => exact str s
  | .arr items => exact arr items fun v _ ↦ inductionOnParts v plain str arr obj
  | .obj fields => exact obj fields fun f _ ↦ inductionOnParts f.2 plain str arr obj
  termination_by v
  decreasing_by
    · rename_i hmem
      have hitem := List.sizeOf_lt_of_mem hmem
      simp only [Json.arr.sizeOf_spec]
      omega
    · rename_i hmem
      have hfield := List.sizeOf_lt_of_mem hmem
      obtain ⟨k, w⟩ := f
      simp only [Json.obj.sizeOf_spec, Prod.mk.sizeOf_spec] at hfield ⊢
      omega

mutual

/-- The strings in a value, the keys of its objects among them. -/
def texts : Json → List String
  | .str s => [s]
  | .arr items => itemTexts items
  | .obj fields => fieldTexts fields
  | _ => []

def itemTexts : List Json → List String
  | [] => []
  | v :: rest => texts v ++ itemTexts rest

def fieldTexts : List (String × Json) → List String
  | [] => []
  | (k, v) :: rest => k :: (texts v ++ fieldTexts rest)

end

theorem isPrintable_of_isBare {c : Char} (hc : IsBare c) : IsPrintable c := by
  rcases hc with halnum | rfl | rfl | rfl
  · have hbetween : ((decide (c.val ≥ 'A'.val ∧ c.val ≤ 'Z'.val) ||
        (decide (c.val ≥ 'a'.val) && decide (c.val ≤ 'z'.val))) ||
        (decide (c.val ≥ '0'.val) && decide (c.val ≤ '9'.val))) = true := halnum
    simp only [Bool.or_eq_true, Bool.and_eq_true, decide_eq_true_eq] at hbetween
    have hrange : (65 ≤ c.toNat ∧ c.toNat ≤ 90 ∨ 97 ≤ c.toNat ∧ c.toNat ≤ 122) ∨
        48 ≤ c.toNat ∧ c.toNat ≤ 57 := hbetween
    unfold IsPrintable
    omega
  · decide
  · decide
  · decide

theorem itemTexts_eq (items : List Json) : itemTexts items = items.flatMap texts := by
  induction items with
  | nil => rfl
  | cons v rest ih => rw [itemTexts, ih, List.flatMap_cons]

theorem fieldTexts_eq (fields : List (String × Json)) :
    fieldTexts fields = fields.flatMap fun f ↦ f.1 :: texts f.2 := by
  induction fields with
  | nil => rfl
  | cons f rest ih => rw [fieldTexts, ih, List.flatMap_cons, List.cons_append]

theorem itemKeys_eq (items : List Json) : itemKeys items = items.flatMap keys := by
  induction items with
  | nil => rfl
  | cons v rest ih => rw [itemKeys, ih, List.flatMap_cons]

theorem fieldKeys_eq (fields : List (String × Json)) :
    fieldKeys fields = fields.flatMap fun f ↦ f.1 :: keys f.2 := by
  induction fields with
  | nil => rfl
  | cons f rest ih => rw [fieldKeys, ih, List.flatMap_cons, List.cons_append]

/-- A property of every printable character holds of a text when it holds of the characters that its
strings show. -/
theorem all_stringChars {P : Char → Bool} (hP : ∀ c, IsPrintable c → P c = true) (s : String) :
    (stringChars s).all P = s.toList.all fun c ↦ c < ' ' || P c := by
  have hchar (c : Char) : (escapedChar c).all P = (c < ' ' || P c) := by
    rcases escapedChar_cases c with ⟨hraw, _, _, hcontrol⟩ | ⟨hescaped, _⟩
    · rw [hraw, decide_eq_false hcontrol, List.all_cons, List.all_nil, Bool.and_true, Bool.false_or]
    · have hall : (escapedChar c).all P = true :=
        List.all_eq_true.mpr fun d hd ↦ hP d (isPrintable_of_mem_escape hescaped d hd)
      rw [hall]
      rcases hescaped with rfl | rfl | hcontrol
      · exact (hP '"' (by decide)).symm
      · exact (hP '\\' (by decide)).symm
      · rw [decide_eq_true hcontrol, Bool.true_or]
  rw [stringChars, List.all_cons, List.all_append, List.all_flatMap, hP '"' (by decide)]
  simp [hchar, hP '"' (by decide)]

theorem all_chars {P : Char → Bool} (hP : ∀ c, IsPrintable c → P c = true) (v : Json) :
    (chars v).all P = (texts v).all fun s ↦ s.toList.all fun c ↦ c < ' ' || P c := by
  have hmark {c : Char} (cs : List Char) (hc : IsPrintable c) : (c :: cs).all P = cs.all P := by
    rw [List.all_cons, hP c hc, Bool.true_and]
  induction v using inductionOnParts with
  | plain v hv =>
    have hchars : (chars v).all P = true :=
      List.all_eq_true.mpr fun c hc ↦ hP c (isPrintable_of_isBare ((isBare_chars hv).2 c hc))
    rw [hchars]
    cases v <;> first | rfl | exact hv.elim
  | str s => rw [chars, all_stringChars hP, texts, List.all_cons, List.all_nil, Bool.and_true]
  | arr items hitems =>
    have hmore : (moreItemChars items).all P =
        (itemTexts items).all fun s ↦ s.toList.all fun c ↦ c < ' ' || P c := by
      induction items with
      | nil => exact hmark [] (by decide)
      | cons v rest ih =>
        rw [moreItemChars, hmark _ (by decide), List.all_append, hitems v List.mem_cons_self,
          ih fun w hw ↦ hitems w (List.mem_cons_of_mem v hw), itemTexts, List.all_append]
    rw [chars, hmark _ (by decide), texts, ← hmore]
    cases items with
    | nil => rfl
    | cons v rest => rw [itemChars, moreItemChars, hmark _ (by decide)]
  | obj fields hfields =>
    have hmore : (moreFieldChars fields).all P =
        (fieldTexts fields).all fun s ↦ s.toList.all fun c ↦ c < ' ' || P c := by
      induction fields with
      | nil => exact hmark [] (by decide)
      | cons f rest ih =>
        obtain ⟨k, v⟩ := f
        rw [moreFieldChars, hmark _ (by decide), List.all_append, all_stringChars hP,
          hmark _ (by decide), List.all_append, hfields (k, v) List.mem_cons_self,
          ih fun w hw ↦ hfields w (List.mem_cons_of_mem _ hw), fieldTexts, List.all_cons,
          List.all_append]
    rw [chars, hmark _ (by decide), texts, ← hmore]
    cases fields with
    | nil => rfl
    | cons f rest =>
      obtain ⟨k, v⟩ := f
      rw [fieldChars, moreFieldChars, hmark _ (by decide)]

theorem isSome_bind_map {α β γ : Type} (x : Option α) (y : Option β) (f : α → β → γ) :
    (x.bind fun a ↦ y.map (f a)).isSome = (x.isSome && y.isSome) := by
  cases x with
  | none => rfl
  | some a => exact Option.isSome_map

/-- A text has tokens when every string in it is closed. -/
theorem isSome_tokens? (v : Json) :
    (tokens? v).isSome = (texts v).all fun s ↦ (reread s).isSome := by
  induction v using inductionOnParts with
  | plain v hv => cases v <;> first | rfl | exact hv.elim
  | str s => rw [tokens?, Option.isSome_map, texts, List.all_cons, List.all_nil, Bool.and_true]
  | arr items hitems =>
    have hmore : (moreItemTokens? items).isSome =
        (itemTexts items).all fun s ↦ (reread s).isSome := by
      induction items with
      | nil => rfl
      | cons v rest ih =>
        rw [moreItemTokens?, Option.isSome_map, isSome_bind_map, hitems v List.mem_cons_self,
          ih fun w hw ↦ hitems w (List.mem_cons_of_mem v hw), itemTexts, List.all_append]
    rw [tokens?, Option.isSome_map, texts, ← hmore]
    cases items with
    | nil => rfl
    | cons v rest => rw [itemTokens?, moreItemTokens?, Option.isSome_map]
  | obj fields hfields =>
    have hkey (k : String) : (keyTokens? k).isSome = (reread k).isSome := Option.isSome_map
    have hmore : (moreFieldTokens? fields).isSome =
        (fieldTexts fields).all fun s ↦ (reread s).isSome := by
      induction fields with
      | nil => rfl
      | cons f rest ih =>
        obtain ⟨k, v⟩ := f
        rw [moreFieldTokens?, Option.isSome_map, isSome_bind_map, isSome_bind_map, hkey,
          hfields (k, v) List.mem_cons_self, ih fun w hw ↦ hfields w (List.mem_cons_of_mem _ hw),
          fieldTexts, List.all_cons, List.all_append]
    rw [tokens?, Option.isSome_map, texts, ← hmore]
    cases fields with
    | nil => rfl
    | cons f rest =>
      obtain ⟨k, v⟩ := f
      rw [fieldTokens?, moreFieldTokens?, Option.isSome_map]

/-- Holds of the values whose text a YAML reader can read: every character is allowed, every string
closed, and every key on one line and short. -/
structure Readable (v : Json) : Prop where
  allowed : ∀ s ∈ texts v, ∀ c ∈ s.toList, c < ' ' ∨ isAllowed c = true
  closed : ∀ s ∈ texts v, (reread s).isSome
  keys : ∀ k ∈ keys v, fitsKey k = true

/-- The document that is its root alone. -/
def documentOf (n : Node) : Document := ⟨n, {}, []⟩

theorem isAllowed_of_isPrintable {c : Char} (hc : IsPrintable c) : isAllowed c = true := by
  unfold IsPrintable at hc
  have hrange : (decide (0x20 ≤ c.toNat) && decide (c.toNat ≤ 0x7E)) = true := by
    rw [Bool.and_eq_true, decide_eq_true_eq, decide_eq_true_eq]
    omega
  simp only [isAllowed, hrange, Bool.or_true, Bool.true_or]

theorem all_isAllowed_chars (v : Json) :
    (chars v).all isAllowed = true ↔ ∀ s ∈ texts v, ∀ c ∈ s.toList,
    c < ' ' ∨ isAllowed c = true := by
  rw [all_chars (fun c ↦ isAllowed_of_isPrintable) v]
  simp only [List.all_eq_true, Bool.or_eq_true, decide_eq_true_eq]

/-- A carriage return is escaped wherever it stands in a value. -/
theorem return_not_mem_chars (v : Json) : '\r' ∉ chars v := by
  have hprintable : ∀ c, IsPrintable c → (c != '\r') = true := by
    intro c hc
    refine bne_iff_ne.mpr ?_
    rintro rfl
    exact absurd hc (by decide)
  have htexts : ((texts v).all fun s ↦ s.toList.all fun c ↦ c < ' ' || c != '\r') = true := by
    refine List.all_eq_true.mpr fun s _ ↦ List.all_eq_true.mpr fun c _ ↦ ?_
    by_cases hc : c = '\r'
    · subst hc
      rfl
    · rw [bne_iff_ne.mpr hc, Bool.or_true]
  rw [← all_chars hprintable, List.all_eq_true] at htexts
  exact fun hmem ↦ absurd (htexts _ hmem) (by decide)

/-- The tokens of an object are a document when every key of it fits. -/
theorem ofTokens_object {fields : List (String × Json)} {ts : List Token}
    (hts : tokens? (.obj fields) = some ts) :
    Document.ofTokens (ts ++ [.streamEnd]) =
      if (keys (.obj fields)).all fitsKey then .ok (some (documentOf (node (.obj fields))))
      else .error .unexpected := by
  have hrun := run_tokens (.obj fields) hts (a := Assembly.start ([] ++ defaultHandles))
    ⟨⟨rfl, rfl⟩, .inl rfl⟩ [.streamEnd]
  obtain ⟨us, hus, rfl⟩ := Option.map_eq_some_iff.mp hts
  rw [List.cons_append] at hrun
  rw [List.cons_append, ofTokens_of_opens (.inl rfl), ← List.nil_append defaultHandles, hrun]
  split_ifs
  · rfl
  · rfl

theorem readable_iff (v : Json) :
    Readable v ↔ (chars v).all isAllowed = true ∧ (tokens? v).isSome = true ∧
      (keys v).all fitsKey = true := by
  rw [all_isAllowed_chars, isSome_tokens?, List.all_eq_true, List.all_eq_true]
  exact ⟨fun h ↦ ⟨h.allowed, h.closed, h.keys⟩, fun h ↦ ⟨h.1, h.2.1, h.2.2⟩⟩

/-- The text of an object is the document of its node if it can be read, and an error otherwise. -/
theorem ofChars_object (fields : List (String × Json)) :
    (Readable (.obj fields) →
        Document.ofChars (chars (.obj fields)) = .ok (some (documentOf (node (.obj fields))))) ∧
      (¬ Readable (.obj fields) →
        ∃ cause, Document.ofChars (chars (.obj fields)) = .error cause) := by
  have hscan := scan_object fields
  have hchars : Document.ofChars (chars (.obj fields)) =
      if (chars (.obj fields)).all isAllowed then
        (scan (place .start ((chars (.obj fields)).map lineFeed))).bind Document.ofTokens
      else .error .character := by
    rw [Document.ofChars, glyphs_eq (return_not_mem_chars (.obj fields))]
    split_ifs <;> rfl
  rw [readable_iff, hchars]
  cases (chars (.obj fields)).all isAllowed with
  | false => exact ⟨fun h ↦ absurd h.1 Bool.false_ne_true, fun _ ↦ ⟨_, rfl⟩⟩
  | true =>
    cases htokens : tokens? (.obj fields) with
    | none =>
      rw [htokens] at hscan
      obtain ⟨cause, hscan⟩ := hscan
      rw [hscan]
      exact ⟨fun h ↦ absurd h.2.1 Bool.false_ne_true, fun _ ↦ ⟨cause, rfl⟩⟩
    | some ts =>
      rw [htokens] at hscan
      rw [show scan _ = _ from hscan, if_pos rfl, Except.bind, ofTokens_object htokens]
      cases (keys (.obj fields)).all fitsKey with
      | false => exact ⟨fun h ↦ absurd h.2.2 Bool.false_ne_true, fun _ ↦ ⟨_, rfl⟩⟩
      | true => exact ⟨fun _ ↦ rfl, fun h ↦ absurd ⟨rfl, rfl, rfl⟩ h⟩

/-- The document of the octets of a text is that of its characters. -/
theorem ofOctets_ofList (cs : List Char) :
    Document.ofOctets (Text.octets (String.ofList cs)) = Document.ofChars cs := by
  rw [Document.ofOctets, decodeOctets, Text.octets, String.toList_ofList, Text.decode?_encode]
  rfl

end ApiManifest.Json
