import ApiManifest.Proofs.Dictionary
import ApiManifest.Proofs.Yaml.Values
import Mathlib.Data.List.Induction

/-!
The keys of a mapping as text. Setting the entries one after the other gives the same dictionary as
taking the text of each key, the last of equal texts winning (`ofList_named_textKeys`). A key under
a local tag is not the same as one without, so that this needs keys of one text to be the same.
-/

set_option autoImplicit false
set_option relaxedAutoImplicit false

namespace ApiManifest.Yaml.Value

/-- Only the text itself is the same key as a text. -/
theorem same_str_left {s : String} {b : Value} (h : same (.str s) b = true) : b = .str s := by
  cases b with
  | str t => rw [show s = t from beq_iff_eq.mp h]
  | _ => exact absurd h Bool.false_ne_true

theorem same_tagged_left {name : String} {a b : Value} (h : same (.tagged name a) b = true) :
    ∃ b', b = .tagged name b' ∧ same a b' = true := by
  cases b with
  | tagged name' b' =>
    have hboth : (name == name' && same a b') = true := h
    obtain ⟨hname, hsame⟩ := Bool.and_eq_true_iff.mp hboth
    exact ⟨b', by rw [show name = name' from beq_iff_eq.mp hname], hsame⟩
  | _ => exact absurd h Bool.false_ne_true

/-- The same keys have the same text. -/
theorem keyString?_eq_of_same (a : Value) {b : Value} (h : same a b = true) :
    keyString? a = keyString? b := by
  match a with
  | .str s => rw [same_str_left h]
  | .tagged name a =>
    obtain ⟨b', rfl, hsame⟩ := same_tagged_left h
    show keyString? a = keyString? b'
    exact keyString?_eq_of_same a hsame
  | .null => cases b <;> first | rfl | exact absurd h Bool.false_ne_true
  | .bool _ => cases b <;> first | rfl | exact absurd h Bool.false_ne_true
  | .int _ => cases b <;> first | rfl | exact absurd h Bool.false_ne_true
  | .float _ => cases b <;> first | rfl | exact absurd h Bool.false_ne_true
  | .seq _ => cases b <;> first | rfl | exact absurd h Bool.false_ne_true
  | .map _ => cases b <;> first | rfl | exact absurd h Bool.false_ne_true

/-- An entry is set at the end, or where the same key stands. -/
theorem putEntry_cases (k v : Value) (entries : List (Value × Value)) :
    ((∀ e ∈ entries, same k e.1 = false) ∧ putEntry k v entries = entries ++ [(k, v)]) ∨
      ∃ front k' v' back, entries = front ++ (k', v') :: back ∧ same k k' = true ∧
        putEntry k v entries = front ++ (k', v) :: back := by
  induction entries with
  | nil => exact .inl ⟨fun e he ↦ absurd he List.not_mem_nil, rfl⟩
  | cons e rest ih =>
    obtain ⟨k', v'⟩ := e
    rw [putEntry]
    split_ifs with hsame
    · exact .inr ⟨[], k', v', rest, rfl, hsame, rfl⟩
    · rcases ih with ⟨hnew, hput⟩ | ⟨front, k'', v'', back, rfl, hsame', hput⟩
      · refine .inl ⟨List.forall_mem_cons.mpr ⟨Bool.eq_false_iff.mpr hsame, hnew⟩, ?_⟩
        rw [hput, List.cons_append]
      · exact .inr ⟨(k', v') :: front, k'', v'', back, rfl, hsame', by rw [hput, List.cons_append]⟩

/-- What is there after an entry is set: the key is set or was there, and so is the value, which
then stands under the same text. -/
theorem mem_putEntry {k v : Value} {entries : List (Value × Value)} {r : Value × Value}
    (hr : r ∈ putEntry k v entries) : (r.1 = k ∨ r.1 ∈ entries.map Prod.fst) ∧
      ((r.2 = v ∧ keyString? k = keyString? r.1) ∨ r ∈ entries) := by
  have hold (hmem : r ∈ entries) : (r.1 = k ∨ r.1 ∈ entries.map Prod.fst) ∧
      ((r.2 = v ∧ keyString? k = keyString? r.1) ∨ r ∈ entries) :=
    ⟨.inr (List.mem_map_of_mem hmem), .inr hmem⟩
  rcases putEntry_cases k v entries with ⟨_, hput⟩ | ⟨front, k', v', back, rfl, hsame, hput⟩
  · rw [hput] at hr
    rcases List.mem_append.mp hr with hmem | hmem
    · exact hold hmem
    · rw [List.mem_singleton.mp hmem]
      exact ⟨.inl rfl, .inl ⟨rfl, rfl⟩⟩
  · rw [hput] at hr
    rcases List.mem_append.mp hr with hmem | hmem
    · exact hold (List.mem_append_left _ hmem)
    · rcases List.mem_cons.mp hmem with rfl | hback
      · exact ⟨.inr (List.mem_map.mpr ⟨(k', v'), List.mem_append_right _ List.mem_cons_self, rfl⟩),
          .inl ⟨rfl, keyString?_eq_of_same k hsame⟩⟩
      · exact hold (List.mem_append_right _ (List.mem_cons_of_mem _ hback))

theorem textKeys_append_singleton (es : List (Value × Value)) (e : Value × Value) :
    textKeys (es ++ [e]) = putEntry (textKey e.1) e.2 (textKeys es) := List.foldl_append

/-- What stands under a text stood under a key with that text. -/
theorem exists_of_mem_textKeys {es : List (Value × Value)} {r : Value × Value}
    (hr : r ∈ textKeys es) : ∃ e ∈ es, e.2 = r.2 ∧ keyString? (textKey e.1) = keyString? r.1 := by
  induction es using List.reverseRecOn with
  | nil => exact absurd hr List.not_mem_nil
  | append_singleton es e ih =>
    rw [textKeys_append_singleton] at hr
    rcases (mem_putEntry hr).2 with ⟨hvalue, hkey⟩ | hmem
    · exact ⟨e, List.mem_append_right _ List.mem_cons_self, hvalue.symm, hkey⟩
    · obtain ⟨e', he', hsame⟩ := ih hmem
      exact ⟨e', List.mem_append_left _ he', hsame⟩

/-- Every key that is left is that of an entry as text. -/
theorem key_of_mem_textKeys {es : List (Value × Value)} {k : Value}
    (hk : k ∈ (textKeys es).map Prod.fst) : ∃ e ∈ es, textKey e.1 = k := by
  induction es using List.reverseRecOn with
  | nil => exact absurd hk List.not_mem_nil
  | append_singleton es e ih =>
    obtain ⟨r, hr, rfl⟩ := List.mem_map.mp hk
    rw [textKeys_append_singleton] at hr
    rcases (mem_putEntry hr).1 with hkey | hmem
    · exact ⟨e, List.mem_append_right _ List.mem_cons_self, hkey.symm⟩
    · obtain ⟨e', he', hsame⟩ := ih hmem
      exact ⟨e', List.mem_append_left _ he', hsame⟩

/-- The entries whose keys have a text, under that text. -/
def named (es : List (Value × Value)) : List (String × Value) :=
  es.filterMap fun e ↦ (keyString? e.1).map fun s ↦ (s, e.2)

theorem named_append (es es' : List (Value × Value)) : named (es ++ es') = named es ++ named es' :=
  List.filterMap_append

theorem named_cons {k v : Value} {s : String} (hk : keyString? k = some s)
    (es : List (Value × Value)) : named ((k, v) :: es) = (s, v) :: named es := by
  rw [named, List.filterMap_cons, hk]
  rfl

theorem mem_named {es : List (Value × Value)} {s : String} {v : Value} (h : (s, v) ∈ named es) :
    ∃ k, (k, v) ∈ es ∧ keyString? k = some s := by
  obtain ⟨e, he, hname⟩ := List.mem_filterMap.mp h
  obtain ⟨t, ht, hpair⟩ := Option.map_eq_some_iff.mp hname
  obtain ⟨rfl, rfl⟩ := Prod.mk.inj hpair
  exact ⟨e.1, he, ht⟩

/-- Setting entries keeps texts apart, and gives the dictionary of the texts, as long as a key is
the same as every earlier one with its text. -/
theorem ofList_named_textKeys_and_nodup {es : List (Value × Value)}
    (hkeys : ∀ e ∈ es, (keyString? (textKey e.1)).isSome = true)
    (hsame : es.Pairwise fun e e' ↦
      keyString? (textKey e.1) = keyString? (textKey e'.1) →
        same (textKey e'.1) (textKey e.1) = true) :
    ((named (textKeys es)).map Prod.fst).Nodup ∧ Dictionary.ofList (named (textKeys es)) =
      Dictionary.ofList (named (es.map fun e ↦ (textKey e.1, e.2))) := by
  induction es using List.reverseRecOn with
  | nil => exact ⟨List.nodup_nil, rfl⟩
  | append_singleton es e ih =>
    obtain ⟨hpairs, _, hlast⟩ := List.pairwise_append.mp hsame
    obtain ⟨hnodup, hdict⟩ := ih (fun e' he' ↦ hkeys e' (List.mem_append_left _ he')) hpairs
    obtain ⟨s, hs⟩ := Option.isSome_iff_exists.mp
      (hkeys e (List.mem_append_right _ List.mem_cons_self))
    have htarget : Dictionary.ofList (named ((es ++ [e]).map fun e ↦ (textKey e.1, e.2))) =
        Dictionary.insert s e.2 (Dictionary.ofList (named (textKeys es))) := by
      rw [List.map_append, named_append, List.map_singleton, named_cons hs]
      rw [show named [] = [] from rfl, Dictionary.ofList_append_singleton, hdict]
    rw [htarget, textKeys_append_singleton]
    rcases putEntry_cases (textKey e.1) e.2 (textKeys es) with
      ⟨hnew, hput⟩ | ⟨front, k, v, back, hread, hk, hput⟩
    · have hfresh : s ∉ (named (textKeys es)).map Prod.fst := by
        intro hmem
        obtain ⟨p, hp, rfl⟩ := List.mem_map.mp hmem
        obtain ⟨k, hk, hname⟩ := mem_named hp
        obtain ⟨e', he', rfl⟩ := key_of_mem_textKeys (List.mem_map_of_mem hk)
        have hold := hlast e' he' e List.mem_cons_self (hname.trans hs.symm)
        rw [hnew _ hk] at hold
        exact Bool.false_ne_true hold
      rw [hput, named_append, named_cons hs, show named [] = [] from rfl,
        Dictionary.ofList_append_singleton, List.map_append]
      refine ⟨List.nodup_append.mpr ⟨hnodup, List.pairwise_singleton _ _, ?_⟩, rfl⟩
      intro a ha b hb hab
      have hb' : b = s := List.mem_singleton.mp hb
      rw [hab, hb'] at ha
      exact hfresh ha
    · have hname : keyString? k = some s := (keyString?_eq_of_same _ hk).symm.trans hs
      rw [hread, named_append, named_cons hname, List.map_append, List.map_cons] at hnodup
      rw [hput, hread, named_append, named_append, named_cons hname, named_cons hname,
        List.map_append, List.map_cons]
      refine ⟨hnodup, Dictionary.ofList_replace ?_⟩
      exact (List.nodup_cons.mp (List.nodup_append.mp hnodup).2.1).1

/-- The keys of a mapping as text make the dictionary of their texts. -/
theorem ofList_named_textKeys {es : List (Value × Value)}
    (hkeys : ∀ e ∈ es, (keyString? (textKey e.1)).isSome = true)
    (hsame : es.Pairwise fun e e' ↦
      keyString? (textKey e.1) = keyString? (textKey e'.1) →
        same (textKey e'.1) (textKey e.1) = true) :
    Dictionary.ofList (named (textKeys es)) =
      Dictionary.ofList (named (es.map fun e ↦ (textKey e.1, e.2))) :=
  (ofList_named_textKeys_and_nodup hkeys hsame).2

/-- The entries under their keys as text. -/
def textNamed (es : List (Value × Value)) : List (String × Value) :=
  named (es.map fun e ↦ (textKey e.1, e.2))

theorem textNamed_cons {k v : Value} {s : String} (hk : keyString? (textKey k) = some s)
    (es : List (Value × Value)) : textNamed ((k, v) :: es) = (s, v) :: textNamed es :=
  named_cons hk _

/-- The fields of a mapping stand under the texts of its keys. -/
theorem rel_find?_fields {n : Nat} {es : List (Value × Value)} {pairs : List (String × Json)}
    (hkeys : ∀ e ∈ es, (keyString? (textKey e.1)).isSome = true)
    (hsame : es.Pairwise fun e e' ↦
      keyString? (textKey e.1) = keyString? (textKey e'.1) →
        same (textKey e'.1) (textKey e.1) = true)
    (hpairs : List.Forall₂ (IsField n) (textKeys es) pairs) (s : String) :
    Option.Rel (fun v j ↦ toJsonWithin n v = .ok j)
      (Dictionary.find? s (Dictionary.ofList (textNamed es)))
      (Dictionary.find? s (Dictionary.ofList pairs)) := by
  have hnamed {es : List (Value × Value)} {pairs : List (String × Json)}
      (hpairs : List.Forall₂ (IsField n) es pairs) :
      List.Forall₂ (fun p q ↦ p.1 = q.1 ∧ toJsonWithin n p.2 = .ok q.2) (named es) pairs := by
    induction hpairs with
    | nil => exact .nil
    | @cons e p _ _ hfield _ ih =>
      obtain ⟨k, v⟩ := e
      rw [named_cons hfield.1]
      exact .cons ⟨rfl, hfield.2⟩ ih
  rw [textNamed, ← ofList_named_textKeys hkeys hsame]
  exact Dictionary.rel_find?_ofList (hnamed hpairs) s

end ApiManifest.Yaml.Value
