import ApiManifest.Proofs.Yaml.Agreement
import ApiManifest.Proofs.Yaml.Same

/-!
A mapping with its merge key applied. It has its own entries but the merge key, and of the mappings
that the merge key names the entries whose keys neither it nor an earlier one of them has
(`mem_mergeEntries_iff`). What those mappings name by merge keys of their own is not looked at:
their merge keys are taken over like any other key. So the mapping has all that is carried to it,
through merge keys to any depth (`IsCarriedTo`), when no mapping that it names has a merge key
(`isMergedInto_iff_isCarriedTo`), and otherwise keeps a merge key (`exists_mergeKey_iff`).
-/

set_option autoImplicit false
set_option relaxedAutoImplicit false

namespace ApiManifest.Yaml.Value

/-- Holds of the entries of a mapping in which no key is repeated. -/
def DistinctKeys (entries : List (Value × Value)) : Prop :=
  entries.Pairwise fun e e' ↦ same e'.1 e.1 = false

/-- The mappings that the merge key of a mapping names, in their order. -/
def sources (entries : List (Value × Value)) : List (List (Value × Value)) :=
  ((find? mergeKey entries).bind merged?).getD []

/-- Holds of a mapping that has no entry for a key and merges none that carries one. -/
inductive Lacks (k : Value) : List (Value × Value) → Prop
  | intro {entries : List (Value × Value)} (hown : hasKey k entries = false)
      (hsources : ∀ source ∈ sources entries, Lacks k source) : Lacks k entries

/-- Holds of an entry that a mapping has or that is carried to it by merge keys, one behind the
other to any depth: its own entries come first, and then those of the first mapping that has one. -/
inductive IsCarriedTo (e : Value × Value) : List (Value × Value) → Prop
  | own {entries : List (Value × Value)} (he : e ∈ entries) (hkey : e.1 ≠ mergeKey) :
      IsCarriedTo e entries
  | taken {entries source : List (Value × Value)} {front back : List (List (Value × Value))}
      (hown : hasKey e.1 entries = false) (hsources : sources entries = front ++ source :: back)
      (hfront : ∀ s ∈ front, Lacks e.1 s) (hsource : IsCarriedTo e source) : IsCarriedTo e entries

/-- Holds of a mapping that merges one with a merge key of its own. -/
def IsChained (entries : List (Value × Value)) : Prop :=
  ∃ source ∈ sources entries, hasKey mergeKey source = true

/-- Holds of an entry that a mapping has or takes over from the mappings that it names, no matter
what these name in turn. -/
inductive IsMergedInto (e : Value × Value) : List (Value × Value) → Prop
  | own {entries : List (Value × Value)} (he : e ∈ entries) (hkey : e.1 ≠ mergeKey) :
      IsMergedInto e entries
  | taken {entries source : List (Value × Value)} {front back : List (List (Value × Value))}
      (hown : e.1 = mergeKey ∨ hasKey e.1 entries = false)
      (hsources : sources entries = front ++ source :: back)
      (hfront : ∀ s ∈ front, hasKey e.1 s = false) (he : e ∈ source) : IsMergedInto e entries

/-- Holds of a mapping that is left with a merge key: it merges one that has one, or a key of it or
of one that it merges is the text of a merge key under a local tag. -/
def KeepsMergeKey (entries : List (Value × Value)) : Prop :=
  IsChained entries ∨ ∃ e, (e ∈ entries ∨ ∃ source ∈ sources entries, e ∈ source) ∧
    ∃ name k, e.1 = .tagged name k ∧ keyString? k = some "<<"

theorem Lacks.hasKey {k : Value} {entries : List (Value × Value)} (h : Lacks k entries) :
    Value.hasKey k entries = false := by
  cases h with
  | intro hown _ => exact hown

variable {k v : Value} {entries source adopted merged : List (Value × Value)} {e : Value × Value}

/-! ### The merge key itself -/

theorem same_mergeKey_left : same mergeKey k = true ↔ k = mergeKey := by
  constructor
  · intro h
    exact same_str_left h
  · rintro rfl
    exact beq_self_eq_true _

theorem same_mergeKey_right (h : same k mergeKey = true) : k = mergeKey := by
  cases k with
  | str s => rw [mergeKey, show s = "<<" from beq_iff_eq.mp h]
  | _ => exact absurd h Bool.false_ne_true

theorem hasKey_mergeKey_iff : hasKey mergeKey entries = true ↔ ∃ e ∈ entries, e.1 = mergeKey := by
  rw [hasKey_iff]
  exact exists_congr fun e ↦ and_congr_right fun _ ↦ same_mergeKey_left

/-- The keys whose text is that of a merge key. -/
theorem keyString?_eq_mergeKey_iff : keyString? k = some "<<" ↔
    k = mergeKey ∨ ∃ name k', k = .tagged name k' ∧ keyString? k' = some "<<" := by
  constructor
  · intro h
    cases k with
    | str s => exact .inl (congrArg Value.str (Option.some.inj h))
    | tagged name k' => exact .inr ⟨name, k', rfl, h⟩
    | _ => exact absurd h (by simp [keyString?])
  · rintro (rfl | ⟨name, k', rfl, h⟩)
    · rfl
    · exact h

/-- A number, a truth value and null do not become the text of a merge key. -/
theorem keyString?_textKey_iff :
    keyString? (textKey k) = some "<<" ↔ keyString? k = some "<<" := by
  cases k with
  | int n =>
    refine ⟨fun h ↦ absurd (Option.some.inj h) ?_, fun h ↦ absurd h (by simp [keyString?])⟩
    exact ne_mergeKey_of_isBare (Json.isBare_integerText n.val).2
  | float x =>
    refine ⟨fun h ↦ absurd (Option.some.inj h) ?_, fun h ↦ absurd h (by simp [keyString?])⟩
    exact ne_mergeKey_of_isBare (Json.isBare_floatText Json.isBareLayout_key x).2
  | bool b => cases b <;> decide
  | null => decide
  | _ => rfl

/-! ### Removing the merge key -/

/-- Every entry but that of the merge key is left when it is removed. -/
theorem mem_removeKey_iff (hentries : DistinctKeys entries) :
    e ∈ removeKey mergeKey entries ↔ e ∈ entries ∧ e.1 ≠ mergeKey := by
  rcases removeKey_cases mergeKey entries with
    ⟨hother, hsame⟩ | ⟨front, a, back, rfl, hfront, ha, hperm⟩
  · rw [hsame]
    refine (and_iff_left_of_imp fun he heq ↦ ?_).symm
    exact Bool.eq_false_iff.mp (hother e he) (same_mergeKey_left.mpr heq)
  · have hback : ∀ e ∈ back, e.1 ≠ mergeKey := by
      intro e he heq
      have hother := (List.pairwise_cons.mp (List.pairwise_append.mp hentries).2.1).1 e he
      rw [heq] at hother
      exact Bool.eq_false_iff.mp hother ha
    rw [hperm.mem_iff, List.mem_append, List.mem_append, List.mem_cons]
    constructor
    · rintro (he | he)
      · exact ⟨.inl he, fun heq ↦
          Bool.eq_false_iff.mp (hfront e he) (same_mergeKey_left.mpr heq)⟩
      · exact ⟨.inr (.inr he), hback e he⟩
    · rintro ⟨he | rfl | he, hne⟩
      · exact .inl he
      · exact absurd (same_mergeKey_left.mp ha) hne
      · exact .inr he

theorem hasKey_removeKey_eq_false_iff (hentries : DistinctKeys entries) :
    hasKey k (removeKey mergeKey entries) = false ↔ k = mergeKey ∨ hasKey k entries = false := by
  rw [hasKey_eq_false_iff, hasKey_eq_false_iff]
  constructor
  · intro h
    by_cases hk : k = mergeKey
    · exact .inl hk
    · refine .inr fun e he ↦ ?_
      by_cases hkey : e.1 = mergeKey
      · rw [hkey]
        exact Bool.eq_false_iff.mpr fun hsame ↦ hk (same_mergeKey_right hsame)
      · exact h e ((mem_removeKey_iff hentries).mpr ⟨he, hkey⟩)
  · rintro (rfl | h) e he
    · have hne := ((mem_removeKey_iff hentries).mp he).2
      exact Bool.eq_false_iff.mpr fun hsame ↦ hne (same_mergeKey_left.mp hsame)
    · exact h e ((mem_removeKey_iff hentries).mp he).1

/-! ### Taking entries over -/

theorem mem_adopt_iff {a : Value × Value} :
    e ∈ adopt entries a ↔ e ∈ entries ∨ e = a ∧ hasKey a.1 entries = false := by
  rw [adopt]
  cases hkey : hasKey a.1 entries with
  | true => simp
  | false => simp

/-- A key that was there before or is taken over is there, and no other. -/
theorem hasKey_adopt (k : Value) (entries : List (Value × Value)) (a : Value × Value) :
    hasKey k (adopt entries a) = (hasKey k entries || same k a.1) := by
  rw [adopt]
  split_ifs with hkey
  · refine (Bool.or_eq_left_iff_imp.mpr fun hsame ↦ ?_).symm
    exact hasKey_of_same hsame hkey
  · rw [hasKey, List.any_append]
    simp [hasKey]

theorem hasKey_foldl_adopt (k : Value) (entries adopted : List (Value × Value)) :
    hasKey k (adopted.foldl adopt entries) = (hasKey k entries || hasKey k adopted) := by
  induction adopted generalizing entries with
  | nil => exact (Bool.or_false _).symm
  | cons a adopted ih =>
    rw [List.foldl_cons, ih, hasKey_adopt, Bool.or_assoc]
    rfl

/-- Of a mapping those entries are taken over whose keys are not there. -/
theorem mem_foldl_adopt_iff (hadopted : DistinctKeys adopted) :
    e ∈ adopted.foldl adopt entries ↔ e ∈ entries ∨ e ∈ adopted ∧ hasKey e.1 entries = false := by
  induction adopted generalizing entries with
  | nil => simp
  | cons a adopted ih =>
    obtain ⟨hfirst, hrest⟩ := List.pairwise_cons.mp hadopted
    rw [List.foldl_cons, ih hrest, mem_adopt_iff, List.mem_cons, or_assoc]
    refine or_congr_right ?_
    constructor
    · rintro (⟨rfl, hnew⟩ | ⟨he, hnew⟩)
      · exact ⟨.inl rfl, hnew⟩
      · rw [hasKey_adopt, Bool.or_eq_false_iff] at hnew
        exact ⟨.inr he, hnew.1⟩
    · rintro ⟨rfl | he, hnew⟩
      · exact .inl ⟨rfl, hnew⟩
      · refine .inr ⟨he, ?_⟩
        rw [hasKey_adopt, hnew, hfirst e he]
        rfl

/-- Of several mappings the first that has a key gives its entry. -/
theorem mem_foldl_adopt_flatten_iff {sources : List (List (Value × Value))}
    (hsources : ∀ source ∈ sources, DistinctKeys source) :
    e ∈ sources.flatten.foldl adopt entries ↔ e ∈ entries ∨ ∃ front source back,
      sources = front ++ source :: back ∧ hasKey e.1 entries = false ∧
        (∀ s ∈ front, hasKey e.1 s = false) ∧ e ∈ source := by
  induction sources generalizing entries with
  | nil => simp
  | cons first rest ih =>
    obtain ⟨hfirst, hrest⟩ := List.forall_mem_cons.mp hsources
    rw [List.flatten_cons, List.foldl_append, ih hrest, mem_foldl_adopt_iff hfirst, or_assoc]
    refine or_congr_right ?_
    constructor
    · rintro (⟨he, hnew⟩ | ⟨front, source, back, rfl, hnew, hfront, he⟩)
      · exact ⟨[], first, rest, rfl, hnew, fun s hs ↦ absurd hs List.not_mem_nil, he⟩
      · rw [hasKey_foldl_adopt, Bool.or_eq_false_iff] at hnew
        exact ⟨first :: front, source, back, rfl, hnew.1,
          List.forall_mem_cons.mpr ⟨hnew.2, hfront⟩, he⟩
    · rintro ⟨_ | ⟨s, front⟩, source, back, hsplit, hnew, hfront, he⟩
      · obtain ⟨rfl, rfl⟩ := List.cons.inj hsplit
        exact .inl ⟨he, hnew⟩
      · obtain ⟨rfl, rfl⟩ := List.cons.inj hsplit
        obtain ⟨hs, hfront⟩ := List.forall_mem_cons.mp hfront
        refine .inr ⟨front, source, back, rfl, ?_, hfront, he⟩
        rw [hasKey_foldl_adopt, hnew, hs]
        rfl

/-! ### A mapping with its merge key applied -/

/-- A mapping without a merge key names no mappings. -/
theorem sources_of_hasKey_eq_false (h : hasKey mergeKey entries = false) :
    sources entries = [] := by
  have hnone : find? mergeKey entries = none := by
    rw [find?, Option.map_eq_none_iff, List.find?_eq_none]
    intro e he
    rw [hasKey_eq_false_iff.mp h e he]
    exact Bool.false_ne_true
  rw [sources, hnone]
  rfl

/-- Applying a merge key takes the mappings over that it names. -/
theorem mergeEntries_eq_foldl (h : mergeEntries entries = .ok merged) :
    merged = (sources entries).flatten.foldl adopt (removeKey mergeKey entries) := by
  rw [mergeEntries] at h
  cases hfind : find? mergeKey entries with
  | none =>
    rw [hfind] at h
    have hother : entries.findIdx? (fun e ↦ same mergeKey e.1) = none := by
      rw [find?, Option.map_eq_none_iff, List.find?_eq_none] at hfind
      exact List.findIdx?_eq_none_iff.mpr fun e he ↦ Bool.eq_false_iff.mpr (hfind e he)
    rw [sources, hfind, removeKey, hother]
    exact (Except.ok.inj h).symm
  | some v =>
    rw [hfind] at h
    cases hsources : merged? v with
    | none =>
      simp only [hsources] at h
      exact absurd h (by simp)
    | some named =>
      simp only [hsources] at h
      rw [sources, hfind, Option.bind_some, hsources]
      exact (Except.ok.inj h).symm

/-- A mapping whose merge key is applied has its own entries and those that it takes over. -/
theorem mem_mergeEntries_iff (h : mergeEntries entries = .ok merged)
    (hentries : DistinctKeys entries) (hsources : ∀ source ∈ sources entries, DistinctKeys source) :
    e ∈ merged ↔ IsMergedInto e entries := by
  rw [mergeEntries_eq_foldl h, mem_foldl_adopt_flatten_iff hsources, mem_removeKey_iff hentries,
    hasKey_removeKey_eq_false_iff hentries]
  constructor
  · rintro (⟨he, hkey⟩ | ⟨front, source, back, hsplit, hown, hfront, he⟩)
    · exact .own he hkey
    · exact .taken hown hsplit hfront he
  · rintro (⟨he, hkey⟩ | ⟨hown, hsplit, hfront, he⟩)
    · exact .inl ⟨he, hkey⟩
    · exact .inr ⟨_, _, _, hsplit, hown, hfront, he⟩

theorem mem_sources {front back : List (List (Value × Value))}
    (hsplit : sources entries = front ++ source :: back) : source ∈ sources entries := by
  rw [hsplit]
  exact List.mem_append_right front List.mem_cons_self

/-- A mapping that merges none with a merge key has what is carried to it. -/
theorem isMergedInto_iff_isCarriedTo (h : ¬ IsChained entries) :
    IsMergedInto e entries ↔ IsCarriedTo e entries := by
  have hplain {source : List (Value × Value)} (hsource : source ∈ sources entries) :
      hasKey mergeKey source = false :=
    Bool.eq_false_iff.mpr fun hkey ↦ h ⟨source, hsource, hkey⟩
  constructor
  · rintro (⟨he, hkey⟩ | ⟨hown, hsplit, hfront, he⟩)
    · exact .own he hkey
    · have hkey : e.1 ≠ mergeKey := fun hkey ↦
        Bool.eq_false_iff.mp (hplain (mem_sources hsplit)) (hasKey_mergeKey_iff.mpr ⟨e, he, hkey⟩)
      refine .taken (hown.resolve_left hkey) hsplit (fun s hs ↦ ?_) (.own he hkey)
      refine .intro (hfront s hs) fun s' hs' ↦ ?_
      have hsource : s ∈ sources entries := hsplit ▸ List.mem_append_left _ hs
      rw [sources_of_hasKey_eq_false (hplain hsource)] at hs'
      exact absurd hs' List.not_mem_nil
  · rintro (⟨he, hkey⟩ | ⟨hown, hsplit, hfront, hsource⟩)
    · exact .own he hkey
    · refine .taken (.inr hown) hsplit (fun s hs ↦ (hfront s hs).hasKey) ?_
      have hnone := sources_of_hasKey_eq_false (hplain (mem_sources hsplit))
      cases hsource with
      | own he _ => exact he
      | taken _ hsplit' _ _ => exact absurd (mem_sources hsplit') (hnone ▸ List.not_mem_nil)

/-- A key of a mapping that is taken over is there afterwards. -/
theorem hasKey_mergeEntries_of_mem (h : mergeEntries entries = .ok merged)
    (hsource : source ∈ sources entries) (he : e ∈ source) : hasKey e.1 merged = true := by
  rw [mergeEntries_eq_foldl h, hasKey_foldl_adopt, Bool.or_eq_true]
  exact .inr (hasKey_iff.mpr ⟨e, List.mem_flatten_of_mem hsource he, same_refl e.1⟩)

/-- The text of a merge key is left among the keys exactly of a mapping that keeps one. -/
theorem exists_mergeKey_iff (h : mergeEntries entries = .ok merged)
    (hentries : DistinctKeys entries) (hsources : ∀ source ∈ sources entries, DistinctKeys source) :
    (∃ e ∈ merged, keyString? e.1 = some "<<") ↔ KeepsMergeKey entries := by
  have hiff (e : Value × Value) := mem_mergeEntries_iff (e := e) h hentries hsources
  have htaken {e : Value × Value} {source : List (Value × Value)}
      (hsource : source ∈ sources entries) (he : e ∈ source) (htext : keyString? e.1 = some "<<") :
      ∃ e ∈ merged, keyString? e.1 = some "<<" := by
    obtain ⟨e', he', hsame⟩ := hasKey_iff.mp (hasKey_mergeEntries_of_mem h hsource he)
    exact ⟨e', he', (keyString?_eq_of_same e.1 hsame).symm.trans htext⟩
  constructor
  · rintro ⟨e, he, htext⟩
    rcases (hiff e).mp he with ⟨hown, hkey⟩ | ⟨_, hsplit, _, hmem⟩
    · exact .inr ⟨e, .inl hown, (keyString?_eq_mergeKey_iff.mp htext).resolve_left hkey⟩
    · rcases keyString?_eq_mergeKey_iff.mp htext with hkey | htagged
      · exact .inl ⟨_, mem_sources hsplit, hasKey_mergeKey_iff.mpr ⟨e, hmem, hkey⟩⟩
      · exact .inr ⟨e, .inr ⟨_, mem_sources hsplit, hmem⟩, htagged⟩
  · rintro (⟨source, hsource, hkey⟩ | ⟨e, hmem, name, k, hkey, htext⟩)
    · obtain ⟨e, he, heq⟩ := hasKey_mergeKey_iff.mp hkey
      exact htaken hsource he (keyString?_eq_mergeKey_iff.mpr (.inl heq))
    · have htext' : keyString? e.1 = some "<<" :=
        keyString?_eq_mergeKey_iff.mpr (.inr ⟨name, k, hkey, htext⟩)
      rcases hmem with hown | ⟨source, hsource, he⟩
      · refine ⟨e, (hiff e).mpr (.own hown fun heq ↦ ?_), htext'⟩
        rw [heq] at hkey
        exact absurd hkey (by simp [mergeKey])
      · exact htaken hsource he htext'

end ApiManifest.Yaml.Value
