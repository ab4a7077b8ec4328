import ApiManifest.Proofs.Yaml.Objects

/-!
The fields of an object, told by the nodes of the text. A mapping has a field for each of its own
entries and for those that it takes over from the mappings that its merge key names
(`Document.IsEntry`). A field of an object has what becomes of the value of such a node, and where
there is one node under a name the object has that field (`IsField.find?`).
-/

set_option autoImplicit false
set_option relaxedAutoImplicit false

namespace ApiManifest

/-- A list that goes with one in three parts has three parts. -/
theorem exists_append_of_forall₂ {α β : Type} {R : α → β → Prop} {xs front back : List α} {x : α}
    {ys : List β} (h : List.Forall₂ R xs ys) (hsplit : xs = front ++ x :: back) :
    ∃ front' y back', ys = front' ++ y :: back' ∧ List.Forall₂ R front front' ∧ R x y := by
  subst hsplit
  induction front generalizing ys with
  | nil =>
    obtain ⟨y, back', hxy, -, rfl⟩ := List.forall₂_cons_left_iff.mp h
    exact ⟨[], y, back', rfl, .nil, hxy⟩
  | cons a front ih =>
    obtain ⟨b, ys, hab, hrest, rfl⟩ := List.forall₂_cons_left_iff.mp h
    obtain ⟨front', y, back', rfl, hfront, hxy⟩ := ih hrest
    exact ⟨b :: front', y, back', rfl, .cons hab hfront, hxy⟩

namespace Yaml

open Reading Value

namespace Document

/-- Holds of a node and the value that is read from it. -/
def Stands (d : Document) (n : Node) (v : Value) : Prop :=
  ∃ depth i j, ofNode d depth n i = .ok (v, j)

/-- Holds of an entry with a key and a value that are read from its nodes. -/
structure EntryStands (d : Document) (p : Node × Node) (e : Value × Value) : Prop where
  key : d.Stands p.1 e.1
  value : d.Stands p.2 e.2

/-- Holds of two keys that stand for the same. -/
def SameKey (d : Document) (k k' : Node) : Prop :=
  ∃ v v', d.Stands k v ∧ d.Stands k' v' ∧ same v v' = true

/-- The entries of a mapping. -/
def entries? (d : Document) (n : Node) : Option (List (Node × Node)) :=
  match d.resolve n with
  | .mapping _ entries => some entries
  | _ => none

/-- The mappings that are named by what stands under a merge key. -/
def named (d : Document) (n : Node) : List (List (Node × Node)) :=
  match d.resolve n with
  | .mapping _ entries => [entries]
  | .sequence _ items => items.filterMap d.entries?
  | _ => []

/-- Holds of the entries that a mapping has or takes over. It has its own, the merge key left out;
of the mappings that the merge key names, the first with a key gives the entry that the mapping
itself does not have. -/
inductive IsEntry (d : Document) (p : Node × Node) : List (Node × Node) → Prop
  | own {entries : List (Node × Node)} (hp : p ∈ entries) (hkey : ¬ d.Stands p.1 mergeKey) :
      IsEntry d p entries
  | taken {entries source : List (Node × Node)} {front back : List (List (Node × Node))}
      {merge : Node × Node} (hown : d.Stands p.1 mergeKey ∨ ∀ p' ∈ entries, ¬ d.SameKey p.1 p'.1)
      (hmerge : merge ∈ entries) (hkey : d.Stands merge.1 mergeKey)
      (hnamed : d.named merge.2 = front ++ source :: back)
      (hfront : ∀ s ∈ front, ∀ p' ∈ s, ¬ d.SameKey p.1 p'.1) (hp : p ∈ source) :
      IsEntry d p entries

/-- Holds of the nodes under a name in the mapping that a node stands for. -/
def HasField (d : Document) (n : Node) (name : String) (m : Node) : Prop :=
  ∃ entries k v, d.entries? n = some entries ∧ d.IsEntry (k, m) entries ∧ d.Stands k v ∧
    keyString? (textKey v) = some name

/-- Holds of the one node under a name in the mapping that a node stands for. -/
structure IsField (d : Document) (n : Node) (name : String) (m : Node) : Prop where
  has : d.HasField n name m
  unique : ∀ m', d.HasField n name m' → m' = m

variable {d : Document} {n m k : Node} {v w : Value} {entries : List (Node × Node)}
  {es merged : List (Value × Value)} {p : Node × Node} {e : Value × Value}

/-! ### What a node stands for -/

theorem exists_isRead (h : d.Stands n v) : ∃ depth i j, IsRead d depth (d.resolve n) i v j := by
  obtain ⟨depth, i, j, hread⟩ := h
  obtain ⟨c, i', hc, hcontent⟩ := ofNode_eq_ok_iff.mp hread
  rw [← content_eq_resolve hc]
  exact ⟨depth, i', j, hcontent⟩

/-- A node stands for one value. -/
theorem Stands.unique (hv : d.Stands n v) (hw : d.Stands n w) : v = w := by
  obtain ⟨depth, i, j, hread⟩ := hv
  obtain ⟨depth', i', j', hread'⟩ := hw
  induction depth using Nat.strong_induction_on generalizing n v w i j depth' i' j' with
  | _ depth ih =>
    obtain ⟨c, k, hc, hcontent⟩ := ofNode_eq_ok_iff.mp hread
    obtain ⟨c', k', hc', hcontent'⟩ := ofNode_eq_ok_iff.mp hread'
    obtain rfl : c = c' := (content_eq_resolve hc).trans (content_eq_resolve hc').symm
    cases hcontent with
    | scalar _ hatom =>
      cases hcontent' with
      | scalar _ hatom' => rw [Except.ok.inj (hatom.symm.trans hatom')]
    | @sequence depth _ _ vs _ _ hitems =>
      cases hcontent' with
      | @sequence _ _ _ vs' _ _ hitems' =>
        have hsame : List.Forall₂ Eq vs vs' := by
          refine (forall₂_of_common hitems.forall₂ hitems'.forall₂).imp ?_
          rintro x y ⟨_, -, ⟨_, _, hx⟩, _, _, hy⟩
          exact ih depth (Nat.lt_succ_self depth) _ _ hx _ _ _ hy
        rw [List.forall₂_eq_eq_eq] at hsame
        rw [hsame]
    | @mapping depth _ _ es _ _ hentries =>
      cases hcontent' with
      | @mapping _ _ _ es' _ _ hentries' =>
        have hsame : List.Forall₂ Eq es es' := by
          refine (forall₂_of_common hentries.forall₂ hentries'.forall₂).imp ?_
          rintro x y ⟨_, -, ⟨⟨_, _, hkey⟩, _, _, hvalue⟩, ⟨_, _, hkey'⟩, _, _, hvalue'⟩
          exact Prod.ext (ih depth (Nat.lt_succ_self depth) _ _ hkey _ _ _ hkey')
            (ih depth (Nat.lt_succ_self depth) _ _ hvalue _ _ _ hvalue')
        rw [List.forall₂_eq_eq_eq] at hsame
        rw [hsame]

/-- What a scalar stands for is neither a list nor a mapping, and under no tag of its own. -/
theorem ne_of_ofAtom {s : String} {a : Atom} (h : ofAtom s a = .ok v) :
    (∀ vs, v ≠ .seq vs) ∧ (∀ es, v ≠ .map es) ∧ ∀ name w, v ≠ .tagged name w := by
  cases a with
  | wide => exact nomatch h
  | _ =>
    rw [← Except.ok.inj h]
    exact ⟨fun _ ↦ (nomatch ·), fun _ ↦ (nomatch ·), fun _ _ ↦ (nomatch ·)⟩

/-- What is under no local tag is the value itself. -/
theorem eq_of_underTag {tag : Option Tag} (h : underTag tag w = v)
    (hv : ∀ name u, v ≠ .tagged name u) : w = v := by
  rw [underTag] at h
  split at h
  · exact absurd h.symm (hv _ _)
  · exact h

/-- A mapping is read from the entries of a mapping. -/
theorem exists_entries_of_stands (h : d.Stands n (.map es)) :
    ∃ entries, d.entries? n = some entries ∧ List.Forall₂ d.EntryStands entries es := by
  obtain ⟨depth, i, j, hread⟩ := exists_isRead h
  generalize hv : Value.map es = v at hread
  generalize hn : d.resolve n = c at hread
  have hplain : ∀ name u, Value.map es ≠ .tagged name u := fun _ _ ↦ (nomatch ·)
  cases hread with
  | @scalar _ _ _ s w _ hatom =>
    obtain ⟨a, -, ha⟩ := except_bind_eq_ok_iff.mp hatom
    rw [eq_of_underTag hv.symm hplain] at ha
    exact absurd rfl ((ne_of_ofAtom ha).2.1 _)
  | sequence _ => exact absurd (eq_of_underTag hv.symm hplain) (nomatch ·)
  | @mapping depth _ entries es' _ _ hentries =>
    obtain rfl := Value.map.inj (eq_of_underTag hv.symm hplain)
    refine ⟨entries, by rw [entries?, hn], hentries.forall₂.imp ?_⟩
    rintro p e ⟨⟨i, j, hkey⟩, i', j', hvalue⟩
    exact ⟨⟨depth, i, j, hkey⟩, depth, i', j', hvalue⟩

/-- A list is read from the items of a list. -/
theorem exists_items_of_stands {vs : List Value} (h : d.Stands n (.seq vs)) :
    ∃ tag items, d.resolve n = .sequence tag items ∧ List.Forall₂ d.Stands items vs := by
  obtain ⟨depth, i, j, hread⟩ := exists_isRead h
  generalize hv : Value.seq vs = v at hread
  generalize d.resolve n = c at hread
  have hplain : ∀ name u, Value.seq vs ≠ .tagged name u := fun _ _ ↦ (nomatch ·)
  cases hread with
  | @scalar _ _ _ s w _ hatom =>
    obtain ⟨a, -, ha⟩ := except_bind_eq_ok_iff.mp hatom
    rw [eq_of_underTag hv.symm hplain] at ha
    exact absurd rfl ((ne_of_ofAtom ha).1 _)
  | @sequence depth tag items vs' _ _ hitems =>
    obtain rfl := Value.seq.inj (eq_of_underTag hv.symm hplain)
    refine ⟨tag, items, rfl, hitems.forall₂.imp ?_⟩
    rintro x v ⟨i, j, hv⟩
    exact ⟨depth, i, j, hv⟩
  | mapping _ => exact absurd (eq_of_underTag hv.symm hplain) (nomatch ·)

/-! ### Mappings that are taken over -/

/-- A mapping has a key exactly when one of the keys in the text stands for it. -/
theorem hasKey_iff_exists_sameKey (hentries : List.Forall₂ d.EntryStands entries es)
    (hk : d.Stands k v) : hasKey v es = true ↔ ∃ p ∈ entries, d.SameKey k p.1 := by
  rw [hasKey_iff]
  constructor
  · rintro ⟨e, he, hsame⟩
    obtain ⟨p, hp, hstands⟩ := exists_mem_of_forall₂ hentries.flip he
    exact ⟨p, hp, v, e.1, hk, hstands.key, hsame⟩
  · rintro ⟨p, hp, v', w, hk', hp', hsame⟩
    obtain ⟨e, he, hstands⟩ := exists_mem_of_forall₂ hentries hp
    rw [hk'.unique hk, hp'.unique hstands.key] at hsame
    exact ⟨e, he, hsame⟩

theorem hasKey_eq_false_iff_forall_not_sameKey (hentries : List.Forall₂ d.EntryStands entries es)
    (hk : d.Stands k v) : hasKey v es = false ↔ ∀ p ∈ entries, ¬ d.SameKey k p.1 := by
  rw [← Bool.not_eq_true, hasKey_iff_exists_sameKey hentries hk]
  simp only [not_exists, not_and]

/-- The mappings that a merge key names are read from those that are named in the text. -/
theorem forall₂_named {sources : List (List (Value × Value))} (h : d.Stands n v)
    (hsources : merged? v = some sources) :
    List.Forall₂ (List.Forall₂ d.EntryStands) (d.named n) sources := by
  cases v with
  | map es =>
    obtain rfl : [es] = sources := Option.some.inj hsources
    obtain ⟨entries, hentries, hstands⟩ := exists_entries_of_stands h
    rw [entries?] at hentries
    split at hentries
    · rename_i hn
      rw [named, hn, Option.some.inj hentries]
      exact .cons hstands .nil
    · exact absurd hentries (nomatch ·)
  | seq vs =>
    obtain ⟨tag, items, hn, hitems⟩ := exists_items_of_stands h
    rw [named, hn]
    rw [merged?] at hsources
    clear h hn
    dsimp only
    induction hitems generalizing sources with
    | nil =>
      obtain rfl : [] = sources := Option.some.inj hsources
      exact .nil
    | @cons item v items vs hitem _ ih =>
      rw [List.mapM_cons] at hsources
      obtain ⟨source, hsource, hsources⟩ := Option.bind_eq_some_iff.mp hsources
      obtain ⟨rest, hrest, hsources⟩ := Option.bind_eq_some_iff.mp hsources
      obtain rfl : source :: rest = sources := Option.some.inj hsources
      cases v with
      | map es =>
        obtain rfl : es = source := Option.some.inj hsource
        obtain ⟨entries, hentries, hstands⟩ := exists_entries_of_stands hitem
        rw [List.filterMap_cons, hentries]
        exact .cons hstands (ih hrest)
      | _ => exact absurd hsource (by simp)
  | _ => exact absurd hsources (by simp [merged?])

/-- In a mapping that repeats no key, an entry of the merge key is what is found under it. -/
theorem find?_mergeKey_of_mem (hdistinct : DistinctKeys es) (he : e ∈ es) (hkey : e.1 = mergeKey) :
    find? mergeKey es = some e.2 := by
  obtain ⟨front, back, rfl⟩ := List.append_of_mem he
  have hfront : front.find? (fun a ↦ same mergeKey a.1) = none := by
    rw [List.find?_eq_none]
    intro a ha
    rw [← hkey, (List.pairwise_append.mp hdistinct).2.2 a ha e List.mem_cons_self]
    exact Bool.false_ne_true
  rw [find?, List.find?_append, hfront, Option.none_or, List.find?_cons,
    same_mergeKey_left.mpr hkey]
  rfl

/-- The mappings that a mapping takes over are read from those that its merge key names. -/
theorem forall₂_sources {merge : Node × Node} (hentries : List.Forall₂ d.EntryStands entries es)
    (hdistinct : DistinctKeys es) (hmerged : mergeEntries es = .ok merged)
    (hmerge : merge ∈ entries) (hkey : d.Stands merge.1 mergeKey) :
    List.Forall₂ (List.Forall₂ d.EntryStands) (d.named merge.2) (sources es) := by
  obtain ⟨e, he, hstands⟩ := exists_mem_of_forall₂ hentries hmerge
  have hfind := find?_mergeKey_of_mem hdistinct he (hstands.key.unique hkey)
  rw [mergeEntries, hfind] at hmerged
  rw [sources, hfind, Option.bind_some]
  cases hnamed : merged? e.2 with
  | none =>
    simp only [hnamed] at hmerged
    cases hmerged
  | some named => exact forall₂_named hstands.value hnamed

/-- A mapping that takes others over has a merge key. -/
theorem exists_merge_of_mem_sources {source : List (Value × Value)}
    (hentries : List.Forall₂ d.EntryStands entries es) (h : source ∈ sources es) :
    ∃ merge ∈ entries, d.Stands merge.1 mergeKey := by
  cases hmerge : hasKey mergeKey es with
  | false =>
    rw [sources_of_hasKey_eq_false hmerge] at h
    exact absurd h List.not_mem_nil
  | true =>
    obtain ⟨e, he, hkey⟩ := hasKey_mergeKey_iff.mp hmerge
    obtain ⟨merge, hmem, hstands⟩ := exists_mem_of_forall₂ hentries.flip he
    exact ⟨merge, hmem, hkey ▸ hstands.key⟩

/-- What is merged into a mapping is read from what its mapping in the text has or takes over. -/
theorem exists_isEntry_of_isMergedInto (hentries : List.Forall₂ d.EntryStands entries es)
    (hdistinct : DistinctKeys es) (hmerged : mergeEntries es = .ok merged)
    (h : IsMergedInto e es) : ∃ p, d.IsEntry p entries ∧ d.EntryStands p e := by
  cases h with
  | own he hkey =>
    obtain ⟨p, hp, hstands⟩ := exists_mem_of_forall₂ hentries.flip he
    exact ⟨p, .own hp fun hmerge ↦ hkey (hstands.key.unique hmerge), hstands⟩
  | taken hown hsources hfront he =>
    obtain ⟨merge, hmerge, hkey⟩ :=
      exists_merge_of_mem_sources hentries (mem_sources hsources)
    obtain ⟨front', source', back', hnamed, hfront', hsource⟩ := exists_append_of_forall₂
      (forall₂_sources hentries hdistinct hmerged hmerge hkey).flip hsources
    obtain ⟨p, hp, hstands⟩ := exists_mem_of_forall₂ (List.Forall₂.flip hsource) he
    refine ⟨p, .taken ?_ hmerge hkey hnamed (fun s hs ↦ ?_) hp, hstands⟩
    · rcases hown with heq | hnone
      · exact .inl (heq ▸ hstands.key)
      · exact .inr ((hasKey_eq_false_iff_forall_not_sameKey hentries hstands.key).mp hnone)
    · obtain ⟨s', hs', hsame⟩ := exists_mem_of_forall₂ hfront'.flip hs
      exact (hasKey_eq_false_iff_forall_not_sameKey hsame hstands.key).mp (hfront s' hs')

/-- What a mapping in the text has or takes over is merged into the mapping that is read from it. -/
theorem exists_isMergedInto_of_isEntry (hentries : List.Forall₂ d.EntryStands entries es)
    (hdistinct : DistinctKeys es) (hmerged : mergeEntries es = .ok merged)
    (h : d.IsEntry p entries) : ∃ e, IsMergedInto e es ∧ d.EntryStands p e := by
  cases h with
  | own hp hkey =>
    obtain ⟨e, he, hstands⟩ := exists_mem_of_forall₂ hentries hp
    exact ⟨e, .own he fun heq ↦ hkey (heq ▸ hstands.key), hstands⟩
  | taken hown hmerge hkey hnamed hfront hp =>
    obtain ⟨front', source', back', hsources, hfront', hsource⟩ := exists_append_of_forall₂
      (forall₂_sources hentries hdistinct hmerged hmerge hkey) hnamed
    obtain ⟨e, he, hstands⟩ := exists_mem_of_forall₂ hsource hp
    refine ⟨e, .taken ?_ hsources (fun s hs ↦ ?_) he, hstands⟩
    · rcases hown with hown | hnone
      · exact .inl (hstands.key.unique hown)
      · exact .inr ((hasKey_eq_false_iff_forall_not_sameKey hentries hstands.key).mpr hnone)
    · obtain ⟨s', hs', hsame⟩ := exists_mem_of_forall₂ hfront'.flip hs
      exact (hasKey_eq_false_iff_forall_not_sameKey hsame hstands.key).mpr (hfront s' hs')

/-! ### Fields -/

/-- A mapping that becomes an object is merged. -/
theorem exists_mergeEntries_of_yields {fields : Dictionary Json}
    (h : Yields (.map es) (.obj fields)) : ∃ merged, mergeEntries es = .ok merged := by
  cases isYield_of_yields h with
  | atom hv _ => exact absurd rfl ((ne_of_ofAtom hv).2.1 _)
  | map hmerged _ => exact ⟨_, hmerged⟩

variable {fields : Dictionary Json} {name : String} {j : Json}

/-- A field of an object has what becomes of the value of a node under its name. -/
theorem exists_hasField_of_find? (hn : d.Stands n (.map es)) (hproper : IsProper (.map es))
    (h : Yields (.map es) (.obj fields)) (hj : fields.find? name = some j) :
    ∃ m v, d.HasField n name m ∧ d.Stands m v ∧ Yields v j := by
  obtain ⟨merged, hmerged⟩ := exists_mergeEntries_of_yields h
  obtain ⟨entries, hentries, hstands⟩ := exists_entries_of_stands hn
  obtain ⟨e, he, hname, hvalue⟩ := (areFields_of_yields hproper h).entry name j hj
  obtain ⟨p, hp, hkey, hstands⟩ :=
    exists_isEntry_of_isMergedInto hstands (hproper _ .here) hmerged he
  exact ⟨p.2, e.2, ⟨entries, p.1, e.1, hentries, hp, hkey, hname⟩, hstands, hvalue⟩

/-- A name that a node is under is that of a field. -/
theorem HasField.has (hm : d.HasField n name m) (hn : d.Stands n (.map es))
    (hproper : IsProper (.map es)) (h : Yields (.map es) (.obj fields)) :
    fields.has name = true := by
  obtain ⟨merged, hmerged⟩ := exists_mergeEntries_of_yields h
  obtain ⟨entries, k, v, hentries, hp, hk, hname⟩ := hm
  obtain ⟨entries', hentries', hstands⟩ := exists_entries_of_stands hn
  obtain rfl := Option.some.inj (hentries.symm.trans hentries')
  obtain ⟨e, he, hkey, -⟩ :=
    exists_isMergedInto_of_isEntry hstands (hproper _ .here) hmerged hp
  obtain ⟨s, hs, hhas⟩ := (areFields_of_yields hproper h).field e he
  rw [hkey.unique hk, hname] at hs
  rw [Option.some.inj hs]
  exact hhas

/-- Under a name that one node is under, an object has what becomes of its value. -/
theorem IsField.find? (hm : d.IsField n name m) (hn : d.Stands n (.map es))
    (hproper : IsProper (.map es)) (h : Yields (.map es) (.obj fields)) :
    ∃ v j, d.Stands m v ∧ Yields v j ∧ fields.find? name = some j := by
  obtain ⟨j, hj⟩ := Option.isSome_iff_exists.mp (hm.has.has hn hproper h)
  obtain ⟨m', v, hm', hv, hvalue⟩ := exists_hasField_of_find? hn hproper h hj
  exact ⟨v, j, hm.unique m' hm' ▸ hv, hvalue, hj⟩

/-- A mapping whose keys are texts, none of them a merge key, has its own entries alone. -/
theorem hasField_iff (hn : d.entries? n = some entries)
    (hkeys : ∀ p ∈ entries, ∃ s, d.Stands p.1 (.str s) ∧ s ≠ "<<") :
    d.HasField n name m ↔ ∃ k, (k, m) ∈ entries ∧ d.Stands k (.str name) := by
  constructor
  · rintro ⟨entries', k, v, hn', hp, hk, hname⟩
    obtain rfl := Option.some.inj (hn.symm.trans hn')
    cases hp with
    | own hp _ =>
      obtain ⟨s, hs, -⟩ := hkeys _ hp
      obtain rfl := hk.unique hs
      obtain rfl : s = name := Option.some.inj hname
      exact ⟨k, hp, hk⟩
    | taken _ hmerge hkey _ _ _ =>
      obtain ⟨s, hs, hne⟩ := hkeys _ hmerge
      exact absurd (Value.str.inj (hs.unique hkey)) hne
  · rintro ⟨k, hp, hk⟩
    refine ⟨entries, k, .str name, hn, .own hp fun hmerge ↦ ?_, hk, rfl⟩
    obtain ⟨s, hs, hne⟩ := hkeys _ hp
    exact hne (Value.str.inj (hs.unique hmerge))

theorem stands_plain_iff {s : String} (hs : atomOfPlain s = .text) :
    d.Stands (.scalar none .plain s) v ↔ v = .str s := by
  have hatom : (atomOfScalar none .plain s).bind (ofAtom s) = .ok (.str s) := by
    simp [atomOfScalar, hs, Except.bind, ofAtom]
  have hstands : d.Stands (.scalar none .plain s) (.str s) :=
    ⟨0, 0, 0, ofScalar_eq_ok_iff.mpr ⟨_, hatom, rfl, rfl⟩⟩
  exact ⟨fun hv ↦ hv.unique hstands, fun hv ↦ hv ▸ hstands⟩

/-- The fields of a mapping whose keys are plain texts are those that are written. -/
theorem hasField_iff_of_plain (hn : d.entries? n = some entries)
    (hkeys : ∀ p ∈ entries, ∃ s, p.1 = .scalar none .plain s ∧ atomOfPlain s = .text ∧ s ≠ "<<") :
    d.HasField n name m ↔ (.scalar none .plain name, m) ∈ entries := by
  rw [hasField_iff hn]
  · constructor
    · rintro ⟨k, hmem, hk⟩
      obtain ⟨s, rfl, hs, -⟩ := hkeys _ hmem
      obtain rfl := Value.str.inj ((stands_plain_iff hs).mp hk)
      exact hmem
    · intro hmem
      obtain ⟨s, heq, hs, -⟩ := hkeys _ hmem
      obtain rfl : name = s := (Node.scalar.inj heq).2.2
      exact ⟨_, hmem, (stands_plain_iff hs).mpr rfl⟩
  · intro p hp
    obtain ⟨s, hkey, hs, hne⟩ := hkeys p hp
    exact ⟨s, hkey ▸ (stands_plain_iff hs).mpr rfl, hne⟩

end Document

end Yaml

end ApiManifest
