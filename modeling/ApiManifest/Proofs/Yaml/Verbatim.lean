import ApiManifest.Proofs.Yaml.Keys
import ApiManifest.Proofs.Yaml.Nodes
import ApiManifest.Proofs.Yaml.Values

/-!
Documents in which every key stands for its spelling. There is no merge key in such a document, no
value is under a local tag, and a key that is not text is spelled like the text that it becomes. The
two readers of a document agree on it (`jsonOfNode_of_isVerbatim`).
-/

set_option autoImplicit false
set_option relaxedAutoImplicit false

namespace ApiManifest.Yaml

open Reading Value

/-- The tag of a node. -/
def Node.tag? : Node → Option Tag
  | .scalar tag _ _ => tag
  | .sequence tag _ => tag
  | .mapping tag _ => tag
  | .alias _ => none

/-- A value without a local tag stands for itself. -/
theorem Value.underTag_of_localText? {tag : Option Tag} (h : localText? tag = none) (v : Value) :
    underTag tag v = v := by
  have hname : localName? tag = none := by
    rw [localName?, h]
    rfl
  rw [underTag, hname]

/-- The value of a scalar becomes a text as a key. -/
theorem Value.textKey_of_ofAtom {s : String} {a : Atom} {v : Value} (hv : ofAtom s a = .ok v) :
    ∃ t, textKey v = .str t := by
  cases a with
  | wide => exact absurd hv (by simp [ofAtom])
  | bool b =>
    rw [← Except.ok.inj hv]
    cases b <;> exact ⟨_, rfl⟩
  | _ =>
    rw [← Except.ok.inj hv]
    exact ⟨_, rfl⟩

namespace Document

/-- Whether what a node stands for has a local tag. -/
def hasLocalTag (d : Document) (n : Node) : Bool := (localText? (d.resolve n).tag?).isSome

/-- How a key is spelled, if it is a scalar. -/
def spelling? (d : Document) (n : Node) : Option String :=
  match d.resolve n with
  | .scalar _ _ s => some s
  | _ => none

/-- The value of a key, if it is a scalar. -/
def keyValue? (d : Document) (n : Node) : Option Value :=
  match d.resolve n with
  | .scalar tag style s => ((atomOfScalar tag style s).bind (ofAtom s)).toOption.map (underTag tag)
  | _ => none

/-- The text that a key becomes. -/
def keyText? (d : Document) (n : Node) : Option String :=
  (d.keyValue? n).bind fun v ↦ keyString? (textKey v)

/-- Whether a key becomes the text that it is spelled like and is no merge key. -/
def isVerbatimKey (d : Document) (n : Node) : Bool :=
  (d.spelling? n).isSome && d.keyText? n == d.spelling? n &&
    (d.keyValue? n).all fun v ↦ !same mergeKey v

theorem isVerbatimKey_iff {d : Document} {n : Node} :
    d.isVerbatimKey n = true ↔ (d.spelling? n).isSome = true ∧ d.keyText? n = d.spelling? n ∧
      ∀ v ∈ d.keyValue? n, same mergeKey v = false := by
  rw [isVerbatimKey, Bool.and_eq_true, Bool.and_eq_true, beq_iff_eq, and_assoc]
  refine and_congr_right fun _ ↦ and_congr_right fun _ ↦ ?_
  cases d.keyValue? n with
  | none => simp
  | some v => simp

/-- Whether every key down to a depth stands for its spelling, and no value is under a local tag. A
key may be under one where no other is spelled like it. -/
def isVerbatimWithin (d : Document) : Nat → Node → Bool
  | 0, n => !d.hasLocalTag n
  | depth + 1, n => !d.hasLocalTag n &&
    match d.resolve n with
    | .sequence _ items => items.all fun n ↦ isVerbatimWithin d depth n
    | .mapping _ entries =>
      (entries.all fun e ↦ d.isVerbatimKey e.1 && isVerbatimWithin d depth e.2) &&
        decide (entries.Pairwise fun e e' ↦ d.spelling? e.1 = d.spelling? e'.1 →
          d.hasLocalTag e.1 = false ∧ d.hasLocalTag e'.1 = false)
    | _ => true

/-- Whether every key of a document stands for its spelling. -/
def isVerbatim (d : Document) : Bool := d.isVerbatimWithin Reading.depthLimit d.root

variable {d : Document} {depth : Nat} {n : Node}

theorem hasLocalTag_eq_false_iff {c : Node} (hn : d.resolve n = c) :
    d.hasLocalTag n = false ↔ localText? c.tag? = none := by
  rw [hasLocalTag, hn, Option.isSome_eq_false_iff, Option.isNone_iff_eq_none]

theorem isVerbatim_scalar_iff {tag : Option Tag} {style : ScalarStyle} {s : String}
    (hn : d.resolve n = .scalar tag style s) :
    d.isVerbatimWithin depth n = true ↔ localText? tag = none := by
  have hsame : d.isVerbatimWithin depth n = !d.hasLocalTag n := by
    cases depth with
    | zero => rfl
    | succ depth =>
      rw [isVerbatimWithin, hn]
      exact Bool.and_true _
  rw [hsame, Bool.not_eq_true', hasLocalTag_eq_false_iff hn, Node.tag?]

theorem isVerbatim_sequence_iff {tag : Option Tag} {items : List Node}
    (hn : d.resolve n = .sequence tag items) :
    d.isVerbatimWithin (depth + 1) n = true ↔
      localText? tag = none ∧ ∀ item ∈ items, d.isVerbatimWithin depth item = true := by
  rw [isVerbatimWithin, hn, Bool.and_eq_true, Bool.not_eq_true', hasLocalTag_eq_false_iff hn,
    Node.tag?, List.all_eq_true]

theorem isVerbatim_mapping_iff {tag : Option Tag} {entries : List (Node × Node)}
    (hn : d.resolve n = .mapping tag entries) :
    d.isVerbatimWithin (depth + 1) n = true ↔ localText? tag = none ∧
      (∀ e ∈ entries, d.isVerbatimKey e.1 = true ∧ d.isVerbatimWithin depth e.2 = true) ∧
      entries.Pairwise fun e e' ↦ d.spelling? e.1 = d.spelling? e'.1 →
        d.hasLocalTag e.1 = false ∧ d.hasLocalTag e'.1 = false := by
  rw [isVerbatimWithin, hn, Bool.and_eq_true, Bool.not_eq_true', hasLocalTag_eq_false_iff hn,
    Node.tag?, Bool.and_eq_true, decide_eq_true_eq, List.all_eq_true]
  simp only [Bool.and_eq_true]

/-- The key of an entry is read as its value by the one reader and as its spelling by the other. -/
theorem keyValue?_of_ofNode {k : Value} {s : String} {i j : Nat}
    (hk : ofNode d depth n i = .ok (k, j)) (hs : d.spelling? n = some s) :
    d.keyValue? n = some k ∧ Reading.text d n i = .ok (s, j) := by
  obtain ⟨c, i', hc, hread⟩ := ofNode_eq_ok_iff.mp hk
  have hresolve := content_eq_resolve hc
  rw [spelling?, ← hresolve] at hs
  cases hread with
  | scalar _ hatom =>
    obtain rfl := Option.some.inj hs
    refine ⟨?_, text_eq_ok_iff.mpr ⟨_, _, hc⟩⟩
    rw [keyValue?, ← hresolve]
    simp only [hatom]
    rfl
  | sequence _ => exact absurd hs (by simp)
  | mapping _ => exact absurd hs (by simp)

theorem spelling?_of_text {s : String} {i j : Nat} (hs : Reading.text d n i = .ok (s, j)) :
    d.spelling? n = some s := by
  obtain ⟨tag, style, hc⟩ := text_eq_ok_iff.mp hs
  rw [spelling?, ← content_eq_resolve hc]

/-- A key without a local tag becomes a text without one. -/
theorem textKey_of_keyValue? {k : Value} {s : String} (hk : d.keyValue? n = some k)
    (htag : d.hasLocalTag n = false) (hs : keyString? (textKey k) = some s) :
    textKey k = .str s := by
  rw [hasLocalTag, Option.isSome_eq_false_iff, Option.isNone_iff_eq_none] at htag
  rw [keyValue?] at hk
  cases hn : d.resolve n with
  | scalar tag style t =>
    rw [hn] at hk htag
    obtain ⟨v, hv, rfl⟩ := Option.map_eq_some_iff.mp hk
    have hlocal : localText? tag = none := htag
    rw [underTag_of_localText? hlocal] at hs ⊢
    cases hatom : (atomOfScalar tag style t).bind (ofAtom t) with
    | error cause =>
      rw [hatom] at hv
      exact absurd hv (by simp [Except.toOption])
    | ok w =>
      rw [hatom] at hv
      obtain rfl := Option.some.inj hv
      obtain ⟨a, _, ha⟩ := except_bind_eq_ok_iff.mp hatom
      obtain ⟨text, htext⟩ := textKey_of_ofAtom ha
      rw [htext] at hs ⊢
      rw [Option.some.inj hs]
  | _ =>
    rw [hn] at hk
    exact absurd hk (by simp)

end Document

/-! ### Entries under both readers -/

/-- An entry of a mapping with what the two readers make of it. -/
structure EntryReadings where
  node : Node × Node
  key : Value
  value : Value
  spelling : String
  json : Json

namespace EntryReadings

/-- The entry of the value. -/
def entry (z : EntryReadings) : Value × Value := (z.key, z.value)

/-- The field of the JSON value. -/
def field (z : EntryReadings) : String × Json := (z.spelling, z.json)

/-- Holds when an entry has the key of its node, for both readers. -/
structure HasKey (d : Document) (z : EntryReadings) : Prop where
  value : d.keyValue? z.node.1 = some z.key
  spelling : d.spelling? z.node.1 = some z.spelling

end EntryReadings

variable {d : Document} {depth : Nat}

/-- Entries that both readers have read. -/
theorem exists_entryReadings {read es : List (Value × Value)} {entries : List (Node × Node)}
    {pairs : List (String × Json)} {n m i j : Nat}
    (hread : ReadsEntries d depth read entries es n m)
    (hpairs : Reads (entryReading d depth) entries pairs i j) :
    ∃ zs : List EntryReadings, entries = zs.map (·.node) ∧ es = zs.map (·.entry) ∧
      pairs = zs.map (·.field) ∧ ∀ z ∈ zs, z.HasKey d ∧
        (∃ n m, ofNode d depth z.node.2 n = .ok (z.value, m)) ∧
        ∃ n m, jsonOfNode d depth z.node.2 n = .ok (z.json, m) := by
  induction hread generalizing pairs i with
  | nil read n =>
    cases hpairs
    exact ⟨[], rfl, rfl, rfl, fun z hz ↦ absurd hz List.not_mem_nil⟩
  | @cons read e entries k v es n n' n'' m hkey hnew hvalue hrest ih =>
    cases hpairs with
    | @cons _ p _ pairs _ l _ hp hpairs =>
      obtain ⟨zs, rfl, rfl, rfl, hzs⟩ := ih hpairs
      obtain ⟨l', htext, hjson⟩ := entryReading_eq_ok_iff.mp hp
      have hspelling := Document.spelling?_of_text htext
      have hk := (Document.keyValue?_of_ofNode hkey hspelling).1
      exact ⟨⟨e, k, v, p.1, p.2⟩ :: zs, rfl, rfl, rfl,
        List.forall_mem_cons.mpr ⟨⟨⟨hk, hspelling⟩, ⟨_, _, hvalue⟩, ⟨_, _, hjson⟩⟩, hzs⟩⟩

/-- Holds when a value can become no other JSON value than the given one. -/
def Becomes (v : Value) (j : Json) : Prop := ∀ n j', toJsonWithin n v = .ok j' → j' = j

/-- Entries that the one reader has read, and the other reads too. -/
theorem exists_entryReadings_of_isVerbatim {read es : List (Value × Value)}
    {entries : List (Node × Node)} {n m : Nat} (hread : ReadsEntries d depth read entries es n m)
    (hkeys : ∀ e ∈ entries, (d.spelling? e.1).isSome = true)
    (hvalues : ∀ e ∈ entries, ∀ v i j, ofNode d depth e.2 i = .ok (v, j) →
      ∃ b, jsonOfNode d depth e.2 i = .ok (b, j) ∧ Becomes v b) :
    ∃ zs : List EntryReadings, entries = zs.map (·.node) ∧ es = zs.map (·.entry) ∧
      Reads (entryReading d depth) entries (zs.map (·.field)) n m ∧
      ∀ z ∈ zs, z.HasKey d ∧ Becomes z.value z.json := by
  induction hread with
  | nil read n => exact ⟨[], rfl, rfl, .nil n, fun z hz ↦ absurd hz List.not_mem_nil⟩
  | @cons read e entries k v es n n' n'' m hkey hnew hvalue hrest ih =>
    obtain ⟨hkeyE, hkeys⟩ := List.forall_mem_cons.mp hkeys
    obtain ⟨hvalueE, hvalues⟩ := List.forall_mem_cons.mp hvalues
    obtain ⟨zs, rfl, rfl, hpairs, hzs⟩ := ih hkeys hvalues
    obtain ⟨s, hspelling⟩ := Option.isSome_iff_exists.mp hkeyE
    obtain ⟨hk, htext⟩ := Document.keyValue?_of_ofNode hkey hspelling
    obtain ⟨b, hjson, hbecomes⟩ := hvalueE v n' n'' hvalue
    refine ⟨⟨e, k, v, s, b⟩ :: zs, rfl, rfl, ?_,
      List.forall_mem_cons.mpr ⟨⟨⟨hk, hspelling⟩, hbecomes⟩, hzs⟩⟩
    exact .cons (entryReading_eq_ok_iff.mpr ⟨n', htext, hjson⟩) hpairs

/-- Values that can become only the given JSON values become these. -/
theorem eq_of_becomes {vs : List Value} {js js' : List Json} (h : List.Forall₂ Becomes vs js)
    {n : Nat} (h' : List.Forall₂ (fun v j ↦ toJsonWithin n v = .ok j) vs js') : js' = js := by
  induction h generalizing js' with
  | nil =>
    cases h'
    rfl
  | cons hv _ ih =>
    cases h' with
    | cons hv' h' => rw [hv n _ hv', ih h']

/-- The entries under their texts, which are their spellings. -/
theorem textNamed_entries {zs : List EntryReadings}
    (hzs : ∀ z ∈ zs, keyString? (textKey z.key) = some z.spelling) :
    textNamed (zs.map (·.entry)) = zs.map fun z ↦ (z.spelling, z.value) := by
  induction zs with
  | nil => rfl
  | cons z zs ih =>
    obtain ⟨hz, hzs⟩ := List.forall_mem_cons.mp hzs
    rw [List.map_cons, List.map_cons, ← ih hzs]
    exact textNamed_cons hz _

/-- A key that stands for its spelling has it as its text. -/
theorem EntryReadings.HasKey.text_of_isVerbatimKey {z : EntryReadings} (hz : z.HasKey d)
    (hkey : d.isVerbatimKey z.node.1 = true) : keyString? (textKey z.key) = some z.spelling := by
  have htext := (Document.isVerbatimKey_iff.mp hkey).2.1
  rw [Document.keyText?, hz.value, hz.spelling] at htext
  exact htext

/-- What the object of the fields must be, whatever becomes of the entries that others replace. -/
theorem becomes_map {zs : List EntryReadings}
    (htext : ∀ z ∈ zs, keyString? (textKey z.key) = some z.spelling)
    (hsame : (zs.map (·.entry)).Pairwise fun e e' ↦
      keyString? (textKey e.1) = keyString? (textKey e'.1) →
        same (textKey e'.1) (textKey e.1) = true)
    (hjson : ∀ z ∈ zs, Becomes z.value z.json) :
    Becomes (.map (zs.map (·.entry))) (.object (zs.map (·.field))) := by
  intro n j hj
  obtain ⟨n, pairs, hpairs, rfl⟩ := fields_of_toJsonWithin hj
  have hkeys : ∀ e ∈ zs.map (·.entry), (keyString? (textKey e.1)).isSome = true := by
    refine List.forall_mem_map.mpr fun z hz ↦ ?_
    exact Option.isSome_iff_exists.mpr ⟨_, htext z hz⟩
  have hmine : List.Forall₂ (fun p q : String × _ ↦ p.1 = q.1 ∧ Becomes p.2 q.2)
      (zs.map fun z ↦ (z.spelling, z.value)) (zs.map (·.field)) :=
    List.forall₂_map_left_iff.mpr (List.forall₂_map_right_iff.mpr
      (List.forall₂_same.mpr fun z hz ↦ ⟨rfl, hjson z hz⟩))
  refine congrArg Json.obj (Dictionary.eq_of_find? (Dictionary.ascending_ofList _)
    (Dictionary.ascending_ofList _) fun s ↦ ?_)
  have htheirs := rel_find?_fields hkeys hsame hpairs s
  have hours := Dictionary.rel_find?_ofList hmine s
  rw [textNamed_entries htext] at htheirs
  generalize Dictionary.find? s (Dictionary.ofList (zs.map fun z ↦ (z.spelling, z.value))) = v,
    Dictionary.find? s (Dictionary.ofList pairs) = theirs,
    Dictionary.find? s (Dictionary.ofList (zs.map (·.field))) = ours at htheirs hours ⊢
  cases htheirs with
  | none =>
    cases hours
    rfl
  | some hv =>
    cases hours with
    | some hb => rw [hb n _ hv]

/-- On a document in which every key stands for its spelling, the direct reader makes what becomes
of the other's value. -/
theorem jsonOfNode_of_isVerbatim {node : Node} {w : Value} {n m : Nat}
    (h : ofNode d depth node n = .ok (w, m)) (hv : d.isVerbatimWithin depth node = true) :
    ∃ j, jsonOfNode d depth node n = .ok (j, m) ∧ Becomes w j := by
  induction depth using Nat.strongRecOn generalizing node w n m with
  | ind depth ih =>
    obtain ⟨c, k, hc, hread⟩ := ofNode_eq_ok_iff.mp h
    have hresolve := content_eq_resolve hc
    cases hread with
    | @scalar _ tag style s v _ hatom =>
      have htag := (Document.isVerbatim_scalar_iff hresolve.symm).mp hv
      obtain ⟨a, ha, hav⟩ := except_bind_eq_ok_iff.mp hatom
      obtain ⟨j, hj⟩ : ∃ j, jsonOfAtom s a = .ok j := by
        cases a with
        | wide => exact absurd hav (by simp [ofAtom])
        | _ => exact ⟨_, rfl⟩
      refine ⟨j, jsonOfNode_eq_ok_iff.mpr ⟨_, _, hc, .scalar _ htag ?_⟩, fun n j' hj' ↦ ?_⟩
      · rw [ha]
        exact hj
      · rw [underTag_of_localText? htag, toJsonWithin_of_ofAtom hav, hj] at hj'
        exact (Except.ok.inj hj').symm
    | @sequence depth tag items vs _ _ hitems =>
      obtain ⟨htag, hall⟩ := (Document.isVerbatim_sequence_iff hresolve.symm).mp hv
      obtain ⟨js, hjs, hbecome⟩ := hitems.exists_of_forall fun item hitem v i j hv ↦
        ih depth (Nat.lt_succ_self depth) hv (hall item hitem)
      refine ⟨.arr js, jsonOfNode_eq_ok_iff.mpr ⟨_, _, hc, .sequence htag hjs⟩, fun n j' hj' ↦ ?_⟩
      rw [underTag_of_localText? htag] at hj'
      obtain ⟨_, js', hjs', rfl⟩ := items_of_toJsonWithin hj'
      rw [eq_of_becomes hbecome hjs']
    | @mapping depth tag entries es _ _ hentries =>
      obtain ⟨htag, hall, hpairs⟩ := (Document.isVerbatim_mapping_iff hresolve.symm).mp hv
      obtain ⟨zs, rfl, rfl, hfields, hzs⟩ := exists_entryReadings_of_isVerbatim hentries
        (fun e he ↦ (Document.isVerbatimKey_iff.mp (hall e he).1).1)
        (fun e he v i j hread ↦ ih depth (Nat.lt_succ_self depth) hread (hall e he).2)
      have htext : ∀ z ∈ zs, keyString? (textKey z.key) = some z.spelling := fun z hz ↦
        (hzs z hz).1.text_of_isVerbatimKey (hall _ (List.mem_map_of_mem hz)).1
      refine ⟨_, jsonOfNode_eq_ok_iff.mpr ⟨_, _, hc, .mapping htag hfields⟩, ?_⟩
      rw [underTag_of_localText? htag]
      refine becomes_map htext ?_ fun z hz ↦ (hzs z hz).2
      refine List.pairwise_map.mpr ((List.pairwise_map.mp hpairs).imp_of_mem ?_)
      intro z z' hz hz' hlocal hkey
      have hspelling : z.spelling = z'.spelling :=
        Option.some.inj ((htext z hz).symm.trans (hkey.trans (htext z' hz')))
      obtain ⟨hfirst, hsecond⟩ := hlocal
        (by rw [(hzs z hz).1.spelling, (hzs z' hz').1.spelling, hspelling])
      show same (textKey z'.key) (textKey z.key) = true
      rw [Document.textKey_of_keyValue? (hzs z hz).1.value hfirst (htext z hz),
        Document.textKey_of_keyValue? (hzs z' hz').1.value hsecond (htext z' hz'), hspelling]
      exact beq_self_eq_true _

/-- There is nothing to merge in a document in which every key stands for its spelling. -/
theorem mergeWithin_of_isVerbatim {node : Node} {w : Value} {n m : Nat}
    (h : ofNode d depth node n = .ok (w, m)) (hv : d.isVerbatimWithin depth node = true) (k : Nat) :
    mergeWithin k w = .ok w := by
  induction depth using Nat.strongRecOn generalizing node w n m k with
  | ind depth ih =>
    obtain ⟨c, i, hc, hread⟩ := ofNode_eq_ok_iff.mp h
    have hresolve := content_eq_resolve hc
    cases hread with
    | scalar _ hatom =>
      have htag := (Document.isVerbatim_scalar_iff hresolve.symm).mp hv
      obtain ⟨a, _, hav⟩ := except_bind_eq_ok_iff.mp hatom
      rw [underTag_of_localText? htag]
      exact mergeWithin_of_ofAtom hav k
    | @sequence depth tag items vs _ _ hitems =>
      obtain ⟨htag, hall⟩ := (Document.isVerbatim_sequence_iff hresolve.symm).mp hv
      rw [underTag_of_localText? htag]
      cases k with
      | zero => exact mergeWithin_zero _
      | succ k =>
        refine mergeWithin_seq_eq_ok_iff.mpr ⟨vs, List.forall₂_same.mpr ?_, rfl⟩
        refine forall_mem_of_forall₂ hitems.forall₂ fun item hitem v ⟨_, _, hitem'⟩ ↦ ?_
        exact ih depth (Nat.lt_succ_self depth) hitem' (hall item hitem) k
    | @mapping depth tag entries es _ _ hentries =>
      obtain ⟨htag, hall, _⟩ := (Document.isVerbatim_mapping_iff hresolve.symm).mp hv
      rw [underTag_of_localText? htag]
      cases k with
      | zero => exact mergeWithin_zero _
      | succ k =>
        have hplain : ∀ e ∈ es, same mergeKey e.1 = false ∧ mergeWithin k e.2 = .ok e.2 := by
          refine forall_mem_of_forall₂ hentries.forall₂ ?_
          rintro e he p ⟨⟨_, _, hkey⟩, _, _, hvalue⟩
          obtain ⟨hspelling, _, hmerge⟩ := Document.isVerbatimKey_iff.mp (hall e he).1
          obtain ⟨s, hs⟩ := Option.isSome_iff_exists.mp hspelling
          exact ⟨hmerge _ (Document.keyValue?_of_ofNode hkey hs).1,
            ih depth (Nat.lt_succ_self depth) hvalue (hall e he).2 k⟩
        have hnone : find? mergeKey es = none := by
          rw [find?, Option.map_eq_none_iff, List.find?_eq_none]
          exact fun e he ↦ Bool.eq_false_iff.mp (hplain e he).1
        have hsame : mergeEntries es = .ok es := by rw [mergeEntries, hnone]
        exact mergeWithin_map_eq_ok_iff.mpr
          ⟨es, es, hsame, List.forall₂_same.mpr fun e he ↦ ⟨rfl, (hplain e he).2⟩, rfl⟩

end ApiManifest.Yaml
