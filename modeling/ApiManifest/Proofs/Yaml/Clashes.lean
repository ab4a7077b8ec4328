import ApiManifest.Proofs.Number.Spelling
import ApiManifest.Proofs.Yaml.Objects

/-!
Keys of one text. Null, the truth values, whole numbers and doubles have different texts
(`BecomesText.same`). So of two keys of a mapping that have one text, one is that text already.
Merge keys bring no key into a mapping that has it (`KeysDiffer.mergeEntries`), so that this holds
of every mapping after they are applied (`pairwise_hasText`).
-/

set_option autoImplicit false
set_option relaxedAutoImplicit false

namespace ApiManifest.Yaml.Value

open Number

/-- The values with a word for their text. -/
def words : List (Value × String) := [(.null, "null"), (.bool true, "true"), (.bool false, "false")]

/-- Holds of a value that is neither text nor a collection, and of the text that it becomes as a
key. -/
inductive BecomesText : Value → String → Prop
  | word {k : Value} {s : String} (h : (k, s) ∈ words) : BecomesText k s
  | int (n : Whole) : BecomesText (.int n) (integerText n.val)
  | float (x : Double) : BecomesText (.float x) (keyLayout.text x)

/-- Holds of two keys that are not the same. -/
def Differ (k k' : Value) : Prop := ¬ (same k k' = true ∧ same k' k = true)

/-- Holds of the entries of a mapping no two keys of which are the same. -/
def KeysDiffer (entries : List (Value × Value)) : Prop := (entries.map Prod.fst).Pairwise Differ

/-- Holds of two entries whose keys have one text only if one of them is that text, by itself or
under local tags. -/
def HasText (e e' : Value × Value) : Prop :=
  ∀ s, keyString? (textKey e.1) = some s → keyString? (textKey e'.1) = some s →
    keyString? e.1 = some s ∨ keyString? e'.1 = some s

variable {n : Nat} {entries merged : List (Value × Value)} {e : Value × Value} {k v w : Value}
  {s : String}

/-! ### Texts -/

/-- A key that has a text is that text or becomes it. -/
theorem becomesText_or (h : keyString? (textKey k) = some s) :
    BecomesText k s ∨ keyString? k = some s := by
  cases k with
  | null =>
    rw [← Option.some.inj h]
    exact .inl (.word List.mem_cons_self)
  | bool b =>
    cases b with
    | true =>
      rw [← Option.some.inj h]
      exact .inl (.word (List.mem_cons_of_mem _ List.mem_cons_self))
    | false =>
      rw [← Option.some.inj h]
      exact .inl (.word (List.mem_cons_of_mem _ (List.mem_cons_of_mem _ List.mem_cons_self)))
  | int n =>
    rw [← Option.some.inj h]
    exact .inl (.int n)
  | float x =>
    rw [← Option.some.inj h]
    exact .inl (.float x)
  | _ => exact .inr h

/-- A word starts with a letter, and so is the text of no number. -/
theorem ne_of_mem_words (h : (k, s) ∈ words) :
    (∀ n : Int, s ≠ integerText n) ∧ ∀ x : Double, s ≠ keyLayout.text x := by
  have hwords : ∀ p ∈ words, ∃ c ∈ p.2.toList.head?, ¬ (c = '-' ∨ c = '.' ∨ c.isDigit = true) :=
    List.forall_mem_cons.mpr ⟨⟨'n', rfl, by decide⟩, List.forall_mem_cons.mpr
      ⟨⟨'t', rfl, by decide⟩, List.forall_mem_singleton.mpr ⟨'f', rfl, by decide⟩⟩⟩
  obtain ⟨c, hc, hletter⟩ := hwords _ h
  constructor
  · rintro n rfl
    rcases isDigit_of_mem_integerText (List.mem_of_head? hc) with hdigit | hminus
    · exact hletter (.inr (.inr hdigit))
    · exact hletter (.inl hminus)
  · rintro x rfl
    obtain ⟨d, hd, hstart⟩ := (isDoubleText_key x).starts
    obtain rfl : c = d := Option.some.inj (hc.symm.trans hd)
    exact hletter hstart

/-- A value is the only one with its word. -/
theorem eq_of_mem_words {k' : Value} (h : (k, s) ∈ words) (h' : (k', s) ∈ words) : k = k' := by
  have hnodup : (words.map Prod.snd).Nodup := by decide
  exact congrArg Prod.fst (List.inj_on_of_nodup_map hnodup h h' rfl)

/-- Values that become one text are the same. -/
theorem BecomesText.same {k' : Value} {s' : String} (h : BecomesText k s) (h' : BecomesText k' s')
    (htext : s = s') : same k k' = true := by
  cases h with
  | word hw =>
    cases h' with
    | word hw' =>
      subst htext
      rw [eq_of_mem_words hw hw']
      exact same_refl k'
    | int n => exact absurd htext ((ne_of_mem_words hw).1 n.val)
    | float x => exact absurd htext ((ne_of_mem_words hw).2 x)
  | int n =>
    cases h' with
    | word hw' => exact absurd htext.symm ((ne_of_mem_words hw').1 n.val)
    | int m =>
      obtain ⟨n, hlow, hhigh⟩ := n
      obtain ⟨m, hlow', hhigh'⟩ := m
      obtain rfl : n = m := integerText_injective htext
      exact same_refl _
    | float x => exact absurd htext.symm ((isDoubleText_key x).ne_integerText n.val)
  | float x =>
    cases h' with
    | word hw' => exact absurd htext.symm ((ne_of_mem_words hw').2 x)
    | int n => exact absurd htext ((isDoubleText_key x).ne_integerText n.val)
    | float y =>
      rcases text_key_eq_iff.mp htext with rfl | hnan
      · exact same_refl _
      · exact Double.same_iff.mpr (.inr (.inl hnan))

/-! ### Mappings -/

theorem IsProper.keysDiffer (hv : IsProper v) (hentries : HasMapping entries v) :
    KeysDiffer entries := by
  refine List.pairwise_map.mpr ((hv entries hentries).imp ?_)
  intro e e' hne hsame
  exact Bool.eq_false_iff.mp hne hsame.2

instance : Std.Symm Differ := ⟨fun _ _ h hsame ↦ h ⟨hsame.2, hsame.1⟩⟩

theorem KeysDiffer.removeKey (h : KeysDiffer entries) (k : Value) :
    KeysDiffer (removeKey k entries) := by
  rcases removeKey_cases k entries with ⟨-, hsame⟩ | ⟨front, e, back, rfl, -, -, hperm⟩
  · rw [hsame]
    exact h
  · have hsublist : (front ++ back).Sublist (front ++ e :: back) :=
      (List.sublist_cons_self e back).append_left front
    exact (hperm.map Prod.fst).pairwise_iff (fun {_ _} ↦ symm) |>.mpr
      (h.sublist (hsublist.map Prod.fst))

theorem KeysDiffer.adopt (h : KeysDiffer entries) (e : Value × Value) :
    KeysDiffer (adopt entries e) := by
  unfold Value.adopt
  by_cases hkey : hasKey e.1 entries = true
  · rw [if_pos hkey]
    exact h
  · rw [if_neg hkey, KeysDiffer, List.map_append]
    refine List.pairwise_append.mpr ⟨h, List.pairwise_singleton _ _, ?_⟩
    intro k hk k' hk' hsame
    obtain ⟨a, ha, rfl⟩ := List.mem_map.mp hk
    rw [List.map_singleton, List.mem_singleton] at hk'
    rw [hk'] at hsame
    exact hkey (hasKey_iff.mpr ⟨a, ha, hsame.2⟩)

theorem KeysDiffer.foldl_adopt (h : KeysDiffer entries) (adopted : List (Value × Value)) :
    KeysDiffer (adopted.foldl Value.adopt entries) := by
  induction adopted generalizing entries with
  | nil => exact h
  | cons a adopted ih => exact ih (h.adopt a)

/-- Applying a merge key brings in no key that is there. -/
theorem KeysDiffer.mergeEntries (h : KeysDiffer entries)
    (hmerged : Value.mergeEntries entries = .ok merged) : KeysDiffer merged := by
  rw [mergeEntries_eq_foldl hmerged]
  exact (h.removeKey mergeKey).foldl_adopt _

/-- No mapping repeats a key after merge keys are applied. -/
theorem keysDiffer_of_mergeWithin (hv : IsProper v) (h : mergeWithin n v = .ok w)
    (hentries : HasMapping entries w) : KeysDiffer entries := by
  induction n generalizing v w with
  | zero =>
    rw [mergeWithin_zero] at h
    rw [← Except.ok.inj h] at hentries
    exact hv.keysDiffer hentries
  | succ n ih =>
    cases v with
    | seq items =>
      obtain ⟨ws, hws, rfl⟩ := mergeWithin_seq_eq_ok_iff.mp h
      cases hentries with
      | item hw hin =>
        obtain ⟨v, hmem, hmerge⟩ := exists_mem_of_forall₂ hws.flip hw
        have hproper : IsProper v := fun es hes ↦ hv es (.item hmem hes)
        exact ih hproper hmerge hin
    | map es =>
      obtain ⟨merged, es', hmerged, hes', rfl⟩ := mergeWithin_map_eq_ok_iff.mp h
      cases hentries with
      | here =>
        have hkeys : List.Forall₂ (· = ·) (merged.map Prod.fst) (entries.map Prod.fst) := by
          rw [List.forall₂_map_left_iff, List.forall₂_map_right_iff]
          exact hes'.imp fun _ _ hentry ↦ hentry.1.symm
        rw [List.forall₂_eq_eq_eq] at hkeys
        rw [KeysDiffer, ← hkeys]
        exact (hv.keysDiffer .here).mergeEntries hmerged
      | value he hin =>
        obtain ⟨e, hmem, -, hmerge⟩ := exists_mem_of_forall₂ hes'.flip he
        have hinto := (hv.mem_mergeEntries_iff hmerged).mp hmem
        have hproper : IsProper e.2 := fun es hes ↦ hv es (hasMapping_of_isMergedInto hinto hes)
        exact ih hproper hmerge hin
    | tagged name v =>
      obtain ⟨v', hv', rfl⟩ := mergeWithin_tagged_eq_ok_iff.mp h
      cases hentries with
      | tagged hin =>
        have hproper : IsProper v := fun es hes ↦ hv es (.tagged hes)
        exact ih hproper hv' hin
    | _ =>
      rw [← Except.ok.inj h] at hentries
      exact hv.keysDiffer hentries

/-- Two keys of a mapping whose merge keys are applied have one text only if one is that text. -/
theorem pairwise_hasText (hv : IsProper v) (hw : v.applyMerge = .ok w)
    (hentries : HasMapping entries w) : entries.Pairwise HasText := by
  have hdiffer := keysDiffer_of_mergeWithin hv hw hentries
  refine (List.pairwise_map.mp hdiffer).imp fun {e e'} hne s hs hs' ↦ ?_
  rcases becomesText_or hs with hbecomes | htext
  · rcases becomesText_or hs' with hbecomes' | htext'
    · exact absurd ⟨hbecomes.same hbecomes' rfl, hbecomes'.same hbecomes rfl⟩ hne
    · exact .inr htext'
  · exact .inl htext

end ApiManifest.Yaml.Value
