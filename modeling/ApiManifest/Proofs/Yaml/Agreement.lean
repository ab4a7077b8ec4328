import ApiManifest.Proofs.Json.Tokens
import ApiManifest.Proofs.Yaml.Nesting
import ApiManifest.Proofs.Yaml.Verbatim
import Mathlib.Data.List.Pairwise

/-!
Where the two readers of a document agree, every key stands for its spelling
(`isVerbatim_of_agree`), unless two keys of a mapping are spelled alike. A merge key in particular
stays a field of the direct reader's object; the other reader could have such a field only from
inside the value of the merge key, which is nested deeper than anything in it.
-/

set_option autoImplicit false
set_option relaxedAutoImplicit false

namespace ApiManifest.Yaml

open Reading Value

/-! ### The text of a merge key -/

/-- A number is not spelled like a merge key. -/
theorem ne_mergeKey_of_isBare {s : String} (hs : ∀ c ∈ s.toList, Json.IsBare c) : s ≠ "<<" := by
  rintro rfl
  exact absurd (hs '<' (by decide)) (by decide)

theorem Value.eq_of_keyString?_ofAtom {s t : String} {a : Atom} {v : Value}
    (hv : ofAtom s a = .ok v) (ht : keyString? v = some t) : s = t := by
  cases a with
  | wide => exact absurd hv (by simp [ofAtom])
  | text =>
    rw [← Except.ok.inj hv] at ht
    exact Option.some.inj ht
  | _ =>
    rw [← Except.ok.inj hv] at ht
    exact absurd ht (by simp [keyString?])

/-- Of all scalars only the text itself becomes the text of a merge key. -/
theorem Value.eq_of_textKey_ofAtom {s : String} {a : Atom} {v : Value} (hv : ofAtom s a = .ok v)
    (ht : keyString? (textKey v) = some "<<") : s = "<<" := by
  cases a with
  | wide => exact absurd hv (by simp [ofAtom])
  | text =>
    rw [← Except.ok.inj hv] at ht
    exact Option.some.inj ht
  | null =>
    rw [← Except.ok.inj hv] at ht
    exact absurd (Option.some.inj ht) (by decide)
  | bool b =>
    rw [← Except.ok.inj hv] at ht
    cases b <;> exact absurd (Option.some.inj ht) (by decide)
  | int n =>
    rw [← Except.ok.inj hv] at ht
    exact absurd (Option.some.inj ht) (ne_mergeKey_of_isBare (Json.isBare_integerText n.val).2)
  | float x =>
    rw [← Except.ok.inj hv] at ht
    exact absurd (Option.some.inj ht)
      (ne_mergeKey_of_isBare (Json.isBare_floatText Json.isBareLayout_key x).2)

namespace Document

/-- Holds when two keys are not spelled alike, and one that is spelled like the text of the other
becomes that text itself. -/
def KeysApart (d : Document) (e e' : Node × Node) : Prop :=
  d.spelling? e.1 ≠ d.spelling? e'.1 ∧
    (d.keyText? e.1 = d.spelling? e'.1 → d.keyText? e'.1 = d.spelling? e'.1) ∧
    (d.keyText? e'.1 = d.spelling? e.1 → d.keyText? e.1 = d.spelling? e.1)

instance (d : Document) (e e' : Node × Node) : Decidable (d.KeysApart e e') :=
  inferInstanceAs (Decidable (_ ∧ _ ∧ _))

/-- Whether the keys of every mapping down to a depth are apart. -/
def isDistinctWithin (d : Document) : Nat → Node → Bool
  | 0, _ => true
  | depth + 1, n =>
    match d.resolve n with
    | .sequence _ items => items.all fun n ↦ isDistinctWithin d depth n
    | .mapping _ entries =>
      decide (entries.Pairwise d.KeysApart) && entries.all fun e ↦ isDistinctWithin d depth e.2
    | _ => true

/-- Whether the keys of every mapping of a document are apart. -/
def isDistinct (d : Document) : Bool := d.isDistinctWithin Reading.depthLimit d.root

variable {d : Document} {depth : Nat} {n : Node}

theorem isDistinct_sequence_iff {tag : Option Tag} {items : List Node}
    (hn : d.resolve n = .sequence tag items) :
    d.isDistinctWithin (depth + 1) n = true ↔
      ∀ item ∈ items, d.isDistinctWithin depth item = true := by
  rw [isDistinctWithin, hn, List.all_eq_true]

theorem isDistinct_mapping_iff {tag : Option Tag} {entries : List (Node × Node)}
    (hn : d.resolve n = .mapping tag entries) :
    d.isDistinctWithin (depth + 1) n = true ↔
      entries.Pairwise d.KeysApart ∧ ∀ e ∈ entries, d.isDistinctWithin depth e.2 = true := by
  rw [isDistinctWithin, hn, Bool.and_eq_true, decide_eq_true_eq, List.all_eq_true]

/-- A key that becomes the text of a merge key is spelled like one. -/
theorem spelling_of_mergeKey {k : Value} {s : String} (hk : d.keyValue? n = some k)
    (hs : d.spelling? n = some s) (htext : keyString? (textKey k) = some "<<") : s = "<<" := by
  rw [keyValue?] at hk
  rw [spelling?] at hs
  cases hn : d.resolve n with
  | scalar tag style text =>
    rw [hn] at hk hs
    obtain rfl := Option.some.inj hs
    obtain ⟨v, hv, rfl⟩ := Option.map_eq_some_iff.mp hk
    cases hatom : (atomOfScalar tag style text).bind (ofAtom text) with
    | error cause =>
      rw [hatom] at hv
      exact absurd hv (by simp [Except.toOption])
    | ok w =>
      rw [hatom] at hv
      obtain rfl := Option.some.inj hv
      obtain ⟨a, _, ha⟩ := except_bind_eq_ok_iff.mp hatom
      rw [underTag] at htext
      split at htext
      · exact eq_of_keyString?_ofAtom ha htext
      · exact eq_of_textKey_ofAtom ha htext
  | _ =>
    rw [hn] at hk
    exact absurd hk (by simp)

end Document

variable {d : Document} {depth : Nat}

namespace EntryReadings

/-- Holds when two entries are not spelled alike, and one that is spelled like the text of the other
has that text itself. -/
structure Apart (z z' : EntryReadings) : Prop where
  spelling : z.spelling ≠ z'.spelling
  left : keyString? (textKey z.key) = some z'.spelling →
    keyString? (textKey z'.key) = some z'.spelling
  right : keyString? (textKey z'.key) = some z.spelling →
    keyString? (textKey z.key) = some z.spelling

theorem apart_of_keysApart {zs : List EntryReadings} (hzs : ∀ z ∈ zs, z.HasKey d)
    (hnodes : (zs.map (·.node)).Pairwise d.KeysApart) : zs.Pairwise Apart := by
  refine (List.pairwise_map.mp hnodes).imp_of_mem fun {z z'} hz hz' happart ↦ ?_
  obtain ⟨hspelling, hleft, hright⟩ := happart
  rw [Document.keyText?, (hzs z hz).value, Document.keyText?, (hzs z' hz').value,
    (hzs z' hz').spelling] at hleft
  rw [Document.keyText?, (hzs z' hz').value, Document.keyText?, (hzs z hz).value,
    (hzs z hz).spelling] at hright
  rw [(hzs z hz).spelling, (hzs z' hz').spelling] at hspelling
  exact ⟨fun h ↦ hspelling (congrArg some h), hleft, hright⟩

instance : Std.Symm Apart := ⟨fun _ _ h ↦ ⟨h.spelling.symm, h.right, h.left⟩⟩

/-- Where entries are apart, entries that are spelled alike are one. -/
theorem eq_of_spelling {zs : List EntryReadings} (hzs : zs.Pairwise Apart) {z z' : EntryReadings}
    (hz : z ∈ zs) (hz' : z' ∈ zs) (hsame : z.spelling = z'.spelling) : z = z' := by
  by_contra hne
  exact (hzs.forall hz hz' hne).spelling hsame

/-- Where entries are apart, one that is spelled like the text of any has that text. -/
theorem text_of_spelling {zs : List EntryReadings} (hzs : zs.Pairwise Apart) {z z' : EntryReadings}
    (hz : z ∈ zs) (hz' : z' ∈ zs) (htext : keyString? (textKey z'.key) = some z.spelling) :
    keyString? (textKey z.key) = some z.spelling := by
  by_cases hsame : z' = z
  · rw [hsame] at htext
    exact htext
  · exact (hzs.forall hz' hz hsame).left htext

theorem nodup_spellings {zs : List EntryReadings} (hzs : zs.Pairwise Apart) :
    ((zs.map (·.field)).map Prod.fst).Nodup := by
  rw [List.map_map]
  exact List.pairwise_map.mpr (hzs.imp fun h ↦ h.spelling)

/-- Where entries are apart, each has its field. -/
theorem find?_field {zs : List EntryReadings} (hzs : zs.Pairwise Apart) {z : EntryReadings}
    (hz : z ∈ zs) :
    Dictionary.find? z.spelling (Dictionary.ofList (zs.map (·.field))) = some z.json :=
  Dictionary.find?_ofList_of_mem (nodup_spellings hzs) (List.mem_map_of_mem hz)

end EntryReadings

/-! ### Nesting under the direct reader -/

theorem itemNesting_eq {vs : List Value} {js : List Json}
    (h : List.Forall₂ (fun v j ↦ Json.nesting j = nesting v) vs js) :
    Json.itemNesting js = itemsNesting vs := by
  induction h with
  | nil => rfl
  | cons hv _ ih => rw [Json.itemNesting, itemsNesting, hv, ih]

/-- Where entries are apart, an object is nested as deep as its mapping. -/
theorem nesting_object_eq {zs : List EntryReadings} (hzs : zs.Pairwise EntryReadings.Apart)
    (hjson : ∀ z ∈ zs, Json.nesting z.json = nesting z.value) :
    Json.nesting (.object (zs.map (·.field))) = nesting (.map (zs.map (·.entry))) := by
  refine congrArg Nat.succ (le_antisymm ?_ ?_)
  · refine Json.fieldNesting_le_iff.mpr fun p hp ↦ ?_
    obtain ⟨z, hz, rfl⟩ := List.mem_map.mp (Dictionary.mem_of_mem_ofList hp)
    show Json.nesting z.json ≤ _
    rw [hjson z hz]
    exact entriesNesting_le_iff.mp le_rfl z.entry (List.mem_map_of_mem hz)
  · refine entriesNesting_le_iff.mpr (List.forall_mem_map.mpr fun z hz ↦ ?_)
    show nesting z.value ≤ _
    rw [← hjson z hz]
    exact Json.fieldNesting_le_iff.mp le_rfl z.field
      (Dictionary.mem_of_find? (EntryReadings.find?_field hzs hz))

/-- What both readers have read is nested equally deep where keys are apart. -/
theorem nesting_jsonOfNode {node : Node} {w : Value} {j : Json} {n m i l : Nat}
    (hvalue : ofNode d depth node n = .ok (w, m)) (hjson : jsonOfNode d depth node i = .ok (j, l))
    (hdistinct : d.isDistinctWithin depth node = true) : Json.nesting j = nesting w := by
  induction depth using Nat.strongRecOn generalizing node w j n m i l with
  | ind depth ih =>
    obtain ⟨c, n', hc, hread⟩ := ofNode_eq_ok_iff.mp hvalue
    obtain ⟨c', i', hc', hdirect⟩ := jsonOfNode_eq_ok_iff.mp hjson
    have hresolve := content_eq_resolve hc
    obtain rfl : c' = c := (content_eq_resolve hc').trans hresolve.symm
    cases hread with
    | scalar _ hatom =>
      cases hdirect with
      | scalar _ htag hatom' =>
        obtain ⟨a, ha, hv⟩ := except_bind_eq_ok_iff.mp hatom
        obtain ⟨a', _, hj⟩ := except_bind_eq_ok_iff.mp hatom'
        rw [nesting_underTag, nesting_of_ofAtom hv, nesting_of_jsonOfAtom hj]
    | @sequence depth tag items vs _ _ hitems =>
      cases hdirect with
      | @sequence _ _ _ js _ _ htag hitems' =>
        have hall := (Document.isDistinct_sequence_iff hresolve.symm).mp hdistinct
        rw [nesting_underTag]
        refine congrArg Nat.succ (itemNesting_eq ?_)
        refine (forall₂_of_common hitems.forall₂ hitems'.forall₂).imp ?_
        rintro v j ⟨item, hitem, ⟨_, _, hv⟩, _, _, hj⟩
        exact ih depth (Nat.lt_succ_self depth) hv hj (hall item hitem)
    | @mapping depth tag entries es _ _ hentries =>
      cases hdirect with
      | mapping htag hentries' =>
        obtain ⟨hapart, hall⟩ := (Document.isDistinct_mapping_iff hresolve.symm).mp hdistinct
        obtain ⟨zs, rfl, rfl, rfl, hzs⟩ := exists_entryReadings hentries hentries'
        rw [nesting_underTag]
        refine nesting_object_eq
          (EntryReadings.apart_of_keysApart (fun z hz ↦ (hzs z hz).1) hapart) fun z hz ↦ ?_
        obtain ⟨_, ⟨_, _, hv⟩, _, _, hj⟩ := hzs z hz
        exact ih depth (Nat.lt_succ_self depth) hv hj (hall _ (List.mem_map_of_mem hz))

/-! ### Merge keys -/

/-- What is left when the only entry of a key is removed stands under other keys. -/
theorem Value.same_of_mem_removeKey {k : Value} {es : List (Value × Value)}
    (hes : es.Pairwise fun e e' ↦ same k e.1 = true → same k e'.1 = false) {e : Value × Value}
    (he : e ∈ removeKey k es) : same k e.1 = false := by
  rcases removeKey_cases k es with ⟨hother, hsame⟩ | ⟨front, _, back, rfl, hfront, hkey, hperm⟩
  · rw [hsame] at he
    exact hother e he
  · rcases List.mem_append.mp (hperm.mem_iff.mp he) with hbefore | hafter
    · exact hfront e hbefore
    · exact (List.pairwise_cons.mp (List.pairwise_append.mp hes).2.1).1 e hafter hkey

/-- A merge key is spelled like one. -/
theorem EntryReadings.HasKey.spelling_of_mergeKey {z : EntryReadings} (hz : z.HasKey d)
    (hkey : same mergeKey z.key = true) : z.spelling = "<<" := by
  refine Document.spelling_of_mergeKey hz.value hz.spelling ?_
  rw [same_str_left hkey]
  rfl

/-- Where a field of the object comes from. -/
theorem exists_of_field {k t : Nat} {merged es : List (Value × Value)}
    {pairs : List (String × Json)}
    (hes : List.Forall₂ (fun e e' ↦ e'.1 = e.1 ∧ mergeWithin k e.2 = .ok e'.2) merged es)
    (hpairs : List.Forall₂ (IsField t) (textKeys es) pairs) {s : String} {j : Json}
    (hfield : Dictionary.find? s (Dictionary.ofList pairs) = some j) :
    ∃ e ∈ merged, keyString? (textKey e.1) = some s ∧
      ∃ v, mergeWithin k e.2 = .ok v ∧ toJsonWithin t v = .ok j := by
  have hmem := Dictionary.mem_of_mem_ofList (Dictionary.mem_of_find? hfield)
  obtain ⟨r, hr, hkey, hj⟩ := forall_mem_of_forall₂ hpairs
    (P := fun p ↦ ∃ r ∈ textKeys es, IsField t r p) (fun r hr p hp ↦ ⟨r, hr, hp⟩) _ hmem
  obtain ⟨e', he', hvalue, htext⟩ := exists_of_mem_textKeys hr
  obtain ⟨e, he, hsame, hmerge⟩ := forall_mem_of_forall₂ hes
    (P := fun e' ↦ ∃ e ∈ merged, e'.1 = e.1 ∧ mergeWithin k e.2 = .ok e'.2)
    (fun e he e' he' ↦ ⟨e, he, he'⟩) _ he'
  refine ⟨e, he, ?_, e'.2, hmerge, ?_⟩
  · rw [← hsame, htext, hkey]
  · rw [hvalue]
    exact hj

/-- The readers do not agree on a mapping with a merge key. -/
theorem not_mergeKey_of_agree {zs : List EntryReadings} (hkeys : ∀ z ∈ zs, z.HasKey d)
    (hapart : zs.Pairwise EntryReadings.Apart)
    (hnesting : ∀ z ∈ zs, Json.nesting z.json = nesting z.value) {k t : Nat}
    {merged es : List (Value × Value)} {pairs : List (String × Json)}
    (hmerged : mergeEntries (zs.map (·.entry)) = .ok merged)
    (hes : List.Forall₂ (fun e e' ↦ e'.1 = e.1 ∧ mergeWithin k e.2 = .ok e'.2) merged es)
    (hpairs : List.Forall₂ (IsField t) (textKeys es) pairs)
    (hagree : Dictionary.ofList (zs.map (·.field)) = Dictionary.ofList pairs) :
    find? mergeKey (zs.map (·.entry)) = none := by
  rcases mergeEntries_eq_ok hmerged with ⟨hnone, _⟩ | ⟨v, hv, hfrom⟩
  · exact hnone
  obtain ⟨e, he, rfl⟩ := Option.map_eq_some_iff.mp hv
  have hmerge : same mergeKey e.1 = true := (List.find?_some he :)
  obtain ⟨z, hz, rfl⟩ := List.mem_map.mp (List.mem_of_find?_eq_some he)
  have hspelling := (hkeys z hz).spelling_of_mergeKey hmerge
  -- The direct reader has the value of the merge key as a field, so the other has one like it.
  have hfield := EntryReadings.find?_field hapart hz
  rw [hspelling, hagree] at hfield
  obtain ⟨own, hown, htext, w, hw, hj⟩ := exists_of_field hes hpairs hfield
  rcases hfrom own hown with hleft | ⟨source, hsource, hmem⟩
  · have hother : same mergeKey own.1 = false := by
      refine same_of_mem_removeKey (List.pairwise_map.mpr (hapart.imp_of_mem ?_)) hleft
      intro z z' hz hz' hne hkey
      by_contra hkey'
      rw [Bool.not_eq_false] at hkey'
      exact hne.spelling (((hkeys z hz).spelling_of_mergeKey hkey).trans
        ((hkeys z' hz').spelling_of_mergeKey hkey').symm)
    obtain ⟨z', hz', rfl⟩ := List.mem_map.mp (mem_of_mem_removeKey hleft)
    have hspelling' := Document.spelling_of_mergeKey (hkeys z' hz').value
      (hkeys z' hz').spelling htext
    rw [EntryReadings.eq_of_spelling hapart hz' hz (hspelling'.trans hspelling.symm)] at hother
    exact absurd (hother.symm.trans hmerge) (by simp)
  · have hinside := nesting_lt_of_namesSource hsource hmem
    have hshallow := le_trans (nesting_toJsonWithin_le hj) (nesting_mergeWithin_le hw)
    have hdeep : Json.nesting z.json = nesting z.entry.2 := hnesting z hz
    omega

/-- A key that becomes the text that it is spelled like, and is no merge key, stands for its
spelling. -/
theorem EntryReadings.HasKey.isVerbatimKey {z : EntryReadings} (hz : z.HasKey d)
    (htext : keyString? (textKey z.key) = some z.spelling) (hmerge : same mergeKey z.key = false) :
    d.isVerbatimKey z.node.1 = true := by
  refine Document.isVerbatimKey_iff.mpr ⟨?_, ?_, fun v hv ↦ ?_⟩
  · rw [hz.spelling]
    rfl
  · rw [Document.keyText?, hz.value, hz.spelling]
    exact htext
  · rw [hz.value] at hv
    rw [← Option.some.inj hv]
    exact hmerge

/-- Where the readers agree on a mapping without a merge key, every entry has its spelling as its
text and gives the same value to both. -/
theorem own_of_agree {zs : List EntryReadings}
    (hapart : zs.Pairwise EntryReadings.Apart) {k t : Nat} {es : List (Value × Value)}
    {pairs : List (String × Json)}
    (hes : List.Forall₂ (fun e e' ↦ e'.1 = e.1 ∧ mergeWithin k e.2 = .ok e'.2)
      (zs.map (·.entry)) es)
    (hpairs : List.Forall₂ (IsField t) (textKeys es) pairs)
    (hagree : Dictionary.ofList (zs.map (·.field)) = Dictionary.ofList pairs) :
    ∀ z ∈ zs, keyString? (textKey z.key) = some z.spelling ∧
      ∃ v, mergeWithin k z.value = .ok v ∧ toJsonWithin t v = .ok z.json := by
  have hfrom : ∀ z ∈ zs, ∃ z' ∈ zs, keyString? (textKey z'.key) = some z.spelling ∧
      ∃ v, mergeWithin k z'.value = .ok v ∧ toJsonWithin t v = .ok z.json := by
    intro z hz
    have hfield := EntryReadings.find?_field hapart hz
    rw [hagree] at hfield
    obtain ⟨e, he, hfrom⟩ := exists_of_field hes hpairs hfield
    obtain ⟨z', hz', rfl⟩ := List.mem_map.mp he
    exact ⟨z', hz', hfrom⟩
  have htext : ∀ z ∈ zs, keyString? (textKey z.key) = some z.spelling := by
    intro z hz
    obtain ⟨z', hz', hkey, _⟩ := hfrom z hz
    exact EntryReadings.text_of_spelling hapart hz hz' hkey
  intro z hz
  refine ⟨htext z hz, ?_⟩
  -- The field under the spelling of a key comes from a key with that text, which is itself.
  obtain ⟨z', hz', hkey, hvalue⟩ := hfrom z hz
  have hsame : z'.spelling = z.spelling := Option.some.inj ((htext z' hz').symm.trans hkey)
  rw [EntryReadings.eq_of_spelling hapart hz' hz hsame] at hvalue
  exact hvalue

theorem depth_le_item {items : List Value} {v : Value} (hv : v ∈ items) :
    v.depth ≤ itemsDepth items := by
  induction items with
  | nil => exact absurd hv List.not_mem_nil
  | cons w rest ih =>
    rw [itemsDepth]
    rcases List.mem_cons.mp hv with rfl | hmem
    · exact le_max_left _ _
    · exact le_trans (ih hmem) (le_max_right _ _)

theorem depth_le_entry {entries : List (Value × Value)} {e : Value × Value} (he : e ∈ entries) :
    e.2.depth ≤ entriesDepth entries := by
  induction entries with
  | nil => exact absurd he List.not_mem_nil
  | cons p rest ih =>
    rw [entriesDepth]
    rcases List.mem_cons.mp he with rfl | hmem
    · exact le_max_left _ _
    · exact le_trans (ih hmem) (le_max_right _ _)

/-- What is made of an item in three steps by the one reader and in one by the other. -/
theorem exists_of_agree {α β γ δ : Type} {P : α → β → Prop} {Q : β → γ → Prop} {R : γ → δ → Prop}
    {S : α → δ → Prop} {as : List α} {bs : List β} {cs : List γ} {ds : List δ}
    (hP : List.Forall₂ P as bs) (hQ : List.Forall₂ Q bs cs) (hR : List.Forall₂ R cs ds)
    (hS : List.Forall₂ S as ds) : ∀ a ∈ as, ∃ b ∈ bs, ∃ c d, P a b ∧ Q b c ∧ R c d ∧ S a d := by
  induction hP generalizing cs ds with
  | nil => exact List.forall_mem_nil _
  | cons hab _ ih =>
    cases hQ with
    | cons hbc hQ =>
      cases hR with
      | cons hcd hR =>
        cases hS with
        | cons had hS =>
          refine List.forall_mem_cons.mpr ⟨⟨_, List.mem_cons_self, _, _, hab, hbc, hcd, had⟩, ?_⟩
          intro a ha
          obtain ⟨b, hb, hrest⟩ := ih hQ hR hS a ha
          exact ⟨b, List.mem_cons_of_mem _ hb, hrest⟩

/-- Where keys are apart, the readers agree only if every key stands for its spelling. -/
theorem isVerbatim_of_agree {node : Node} {w w' : Value} {j : Json} {n m i l k t : Nat}
    (hvalue : ofNode d depth node n = .ok (w, m)) (hk : w.depth ≤ k)
    (hmerge : mergeWithin k w = .ok w') (hvalueJson : toJsonWithin t w' = .ok j)
    (hjson : jsonOfNode d depth node i = .ok (j, l))
    (hdistinct : d.isDistinctWithin depth node = true) : d.isVerbatimWithin depth node = true := by
  induction depth using Nat.strongRecOn generalizing node w w' j n m i l k t with
  | ind depth ih =>
    obtain ⟨c, n', hc, hread⟩ := ofNode_eq_ok_iff.mp hvalue
    obtain ⟨c', i', hc', hdirect⟩ := jsonOfNode_eq_ok_iff.mp hjson
    have hresolve := content_eq_resolve hc
    obtain rfl : c' = c := (content_eq_resolve hc').trans hresolve.symm
    cases hread with
    | scalar _ _ =>
      cases hdirect with
      | scalar _ htag _ => exact (Document.isVerbatim_scalar_iff hresolve.symm).mpr htag
    | @sequence depth tag items vs _ _ hitems =>
      cases hdirect with
      | @sequence _ _ _ js _ _ htag hitems' =>
        have hall := (Document.isDistinct_sequence_iff hresolve.symm).mp hdistinct
        rw [underTag_of_localText? htag] at hk hmerge
        obtain ⟨k, rfl⟩ : ∃ k', k = k' + 1 := ⟨k - 1, by rw [Value.depth] at hk; omega⟩
        obtain ⟨vs', hvs', rfl⟩ := mergeWithin_seq_eq_ok_iff.mp hmerge
        obtain ⟨t, js', hjs', hsame⟩ := items_of_toJsonWithin hvalueJson
        obtain rfl : js = js' := Json.arr.inj hsame
        refine (Document.isVerbatim_sequence_iff hresolve.symm).mpr ⟨htag, fun item hitem ↦ ?_⟩
        obtain ⟨v, hmem, v', j, ⟨_, _, hv⟩, hv', hvjson, _, _, hj⟩ :=
          exists_of_agree hitems.forall₂ hvs' hjs' hitems'.forall₂ item hitem
        have hbound : v.depth ≤ k := by
          rw [Value.depth] at hk
          exact le_trans (depth_le_item hmem) (Nat.le_of_succ_le_succ hk)
        exact ih depth (Nat.lt_succ_self depth) hv hbound hv' hvjson hj (hall _ hitem)
    | @mapping depth tag entries es _ _ hentries =>
      cases hdirect with
      | mapping htag hentries' =>
        obtain ⟨hapart, hall⟩ := (Document.isDistinct_mapping_iff hresolve.symm).mp hdistinct
        obtain ⟨zs, rfl, rfl, rfl, hzs⟩ := exists_entryReadings hentries hentries'
        have hkeys : ∀ z ∈ zs, z.HasKey d := fun z hz ↦ (hzs z hz).1
        have hzsApart := EntryReadings.apart_of_keysApart hkeys hapart
        rw [underTag_of_localText? htag] at hk hmerge
        obtain ⟨k, rfl⟩ : ∃ k', k = k' + 1 := ⟨k - 1, by rw [Value.depth] at hk; omega⟩
        obtain ⟨merged, es', hmerged, hes', rfl⟩ := mergeWithin_map_eq_ok_iff.mp hmerge
        obtain ⟨t, pairs, hpairs, hobject⟩ := fields_of_toJsonWithin hvalueJson
        have hagree : Dictionary.ofList (zs.map (·.field)) = Dictionary.ofList pairs :=
          Json.obj.inj hobject
        have hnesting : ∀ z ∈ zs, Json.nesting z.json = nesting z.value := by
          intro z hz
          obtain ⟨_, ⟨_, _, hv⟩, _, _, hj⟩ := hzs z hz
          exact nesting_jsonOfNode hv hj (hall _ (List.mem_map_of_mem hz))
        have hnone := not_mergeKey_of_agree hkeys hzsApart hnesting hmerged hes' hpairs hagree
        obtain rfl : merged = zs.map (·.entry) := by
          rw [mergeEntries, hnone] at hmerged
          exact (Except.ok.inj hmerged).symm
        have hown := own_of_agree hzsApart hes' hpairs hagree
        refine (Document.isVerbatim_mapping_iff hresolve.symm).mpr
          ⟨htag, List.forall_mem_map.mpr fun z hz ↦ ⟨?_, ?_⟩, hapart.imp fun happart hsame ↦
            absurd hsame happart.1⟩
        · rw [find?, Option.map_eq_none_iff, List.find?_eq_none] at hnone
          exact (hkeys z hz).isVerbatimKey (hown z hz).1
            (Bool.eq_false_iff.mpr (hnone z.entry (List.mem_map_of_mem hz)))
        · obtain ⟨_, ⟨_, _, hv⟩, _, _, hj⟩ := hzs z hz
          obtain ⟨_, v, hv', hvjson⟩ := hown z hz
          have hbound : z.value.depth ≤ k := by
            have hentry := depth_le_entry (List.mem_map_of_mem (f := (·.entry)) hz)
            rw [Value.depth] at hk
            exact le_trans hentry (Nat.le_of_succ_le_succ hk)
          exact ih depth (Nat.lt_succ_self depth) hv hbound hv' hvjson hj
            (hall _ (List.mem_map_of_mem hz))

end ApiManifest.Yaml
