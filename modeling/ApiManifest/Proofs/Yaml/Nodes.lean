import ApiManifest.Proofs.Yaml.Reading
import ApiManifest.Yaml.Json

/-!
What the two readers of a document do at one node. Both look through an alias first; then a scalar
is judged by itself, the items of a sequence are read one after the other, and so are the entries of
a mapping, keys before values (`Value.ofNode_eq_ok_iff`, `jsonOfNode_eq_ok_iff`).
-/

set_option autoImplicit false
set_option relaxedAutoImplicit false

namespace ApiManifest.Yaml

open Reading

/-- The text of a key is that of the scalar it stands for. -/
theorem Reading.text_eq_ok_iff {d : Document} {n : Node} {s : String} {i j : Nat} :
    Reading.text d n i = .ok (s, j) ↔
      ∃ tag style, Reading.content d n i = .ok (.scalar tag style s, j) := by
  rw [Reading.text, bind_eq_ok_iff]
  constructor
  · rintro ⟨c, k, hc, htext⟩
    cases c with
    | scalar tag style t =>
      obtain ⟨rfl, rfl⟩ := pure_eq_ok_iff.mp htext
      exact ⟨tag, style, hc⟩
    | _ => exact absurd htext (by simp [Reading.fail])
  · rintro ⟨tag, style, hc⟩
    exact ⟨_, j, hc, rfl⟩

/-- The node that has the content of a node: an alias has that of its target. -/
def Document.resolve (d : Document) : Node → Node
  | .alias number => (d.target? number).getD (.alias number)
  | n => n

theorem Reading.content_eq_resolve {d : Document} {n c : Node} {i j : Nat}
    (hc : Reading.content d n i = .ok (c, j)) : c = d.resolve n := by
  cases n with
  | scalar tag style s => exact (pure_eq_ok_iff.mp hc).1.symm
  | sequence tag items => exact (pure_eq_ok_iff.mp hc).1.symm
  | mapping tag entries => exact (pure_eq_ok_iff.mp hc).1.symm
  | _ number =>
    rw [Document.resolve]
    unfold Reading.content at hc
    dsimp only at hc
    cases htarget : d.target? number with
    | none =>
      rw [htarget] at hc
      split_ifs at hc
    | some target =>
      rw [htarget] at hc
      split_ifs at hc
      exact (Prod.mk.inj (Except.ok.inj hc)).1.symm

namespace Value

variable {d : Document} {depth : Nat}

/-- Reads an entry of a mapping after the ones read so far, the last one first. -/
def readEntry (d : Document) (depth : Nat) (read : List (Value × Value)) (e : Node × Node) :
    Reading (List (Value × Value)) := do
  let k ← ofNode d depth e.1
  if hasKey k read then Reading.fail .repeatedKey
  let v ← ofNode d depth e.2
  return (k, v) :: read

theorem readEntry_eq_ok_iff {read out : List (Value × Value)} {e : Node × Node} {n m : Nat} :
    readEntry d depth read e n = .ok (out, m) ↔
      ∃ k v n', ofNode d depth e.1 n = .ok (k, n') ∧ hasKey k read = false ∧
        ofNode d depth e.2 n' = .ok (v, m) ∧ out = (k, v) :: read := by
  rw [readEntry, bind_eq_ok_iff]
  constructor
  · rintro ⟨k, n', hkey, hrest⟩
    cases hnew : hasKey k read with
    | true =>
      rw [hnew] at hrest
      exact absurd hrest (by simp [Reading.fail, bind, StateT.bind, Except.bind])
    | false =>
      rw [hnew] at hrest
      obtain ⟨v, m', hvalue, hout⟩ := bind_eq_ok_iff.mp hrest
      obtain ⟨rfl, rfl⟩ := pure_eq_ok_iff.mp hout
      exact ⟨k, v, n', hkey, hnew, hvalue, rfl⟩
  · rintro ⟨k, v, n', hkey, hnew, hvalue, rfl⟩
    refine ⟨k, n', hkey, ?_⟩
    rw [hnew]
    exact bind_eq_ok_iff.mpr ⟨v, m, hvalue, rfl⟩

/-- Holds when the entries of a mapping are read one after the other, each key being new. -/
inductive ReadsEntries (d : Document) (depth : Nat) :
    List (Value × Value) → List (Node × Node) → List (Value × Value) → Nat → Nat → Prop
  | nil (read : List (Value × Value)) (n : Nat) : ReadsEntries d depth read [] [] n n
  | cons {read : List (Value × Value)} {e : Node × Node} {entries : List (Node × Node)}
      {k v : Value} {es : List (Value × Value)} {n n' n'' m : Nat}
      (hkey : ofNode d depth e.1 n = .ok (k, n')) (hnew : hasKey k read = false)
      (hvalue : ofNode d depth e.2 n' = .ok (v, n''))
      (hrest : ReadsEntries d depth ((k, v) :: read) entries es n'' m) :
      ReadsEntries d depth read (e :: entries) ((k, v) :: es) n m

/-- Every entry that is read has a key and a value that are read. -/
theorem ReadsEntries.forall₂ {read es : List (Value × Value)} {entries : List (Node × Node)}
    {n m : Nat} (h : ReadsEntries d depth read entries es n m) :
    List.Forall₂ (fun e p ↦ (∃ i j, ofNode d depth e.1 i = .ok (p.1, j)) ∧
      ∃ i j, ofNode d depth e.2 i = .ok (p.2, j)) entries es := by
  induction h with
  | nil read n => exact .nil
  | cons hkey _ hvalue _ ih => exact .cons ⟨⟨_, _, hkey⟩, ⟨_, _, hvalue⟩⟩ ih

theorem foldlM_readEntry_eq_ok_iff {read out : List (Value × Value)} {entries : List (Node × Node)}
    {n m : Nat} :
    entries.foldlM (readEntry d depth) read n = .ok (out, m) ↔
      ∃ es, ReadsEntries d depth read entries es n m ∧ out = es.reverse ++ read := by
  induction entries generalizing read n with
  | nil =>
    rw [List.foldlM_nil, pure_eq_ok_iff]
    constructor
    · rintro ⟨rfl, rfl⟩
      exact ⟨[], .nil read n, rfl⟩
    · rintro ⟨es, hes, rfl⟩
      cases hes
      exact ⟨rfl, rfl⟩
  | cons e entries ih =>
    rw [List.foldlM_cons, bind_eq_ok_iff]
    constructor
    · rintro ⟨next, n'', hentry, hentries⟩
      obtain ⟨k, v, n', hkey, hnew, hvalue, rfl⟩ := readEntry_eq_ok_iff.mp hentry
      obtain ⟨es, hes, rfl⟩ := ih.mp hentries
      exact ⟨(k, v) :: es, .cons hkey hnew hvalue hes, by simp⟩
    · rintro ⟨es, hes, rfl⟩
      cases hes with
      | cons hkey hnew hvalue hrest =>
        exact ⟨_, _, readEntry_eq_ok_iff.mpr ⟨_, _, _, hkey, hnew, hvalue, rfl⟩,
          ih.mpr ⟨_, hrest, by simp⟩⟩

/-- Holds when a value is read from the content of a node, the counts of aliases before and after
being given. -/
inductive IsRead (d : Document) : Nat → Node → Nat → Value → Nat → Prop
  | scalar {depth : Nat} {tag : Option Tag} {style : ScalarStyle} {s : String} {v : Value} (n : Nat)
      (hatom : (atomOfScalar tag style s).bind (ofAtom s) = .ok v) :
      IsRead d depth (.scalar tag style s) n (underTag tag v) n
  | sequence {depth : Nat} {tag : Option Tag} {items : List Node} {vs : List Value} {n m : Nat}
      (hitems : Reads (ofNode d depth) items vs n m) :
      IsRead d (depth + 1) (.sequence tag items) n (underTag tag (.seq vs)) m
  | mapping {depth : Nat} {tag : Option Tag} {entries : List (Node × Node)}
      {es : List (Value × Value)} {n m : Nat} (hentries : ReadsEntries d depth [] entries es n m) :
      IsRead d (depth + 1) (.mapping tag entries) n (underTag tag (.map es)) m

theorem ofScalar_eq_ok_iff {tag : Option Tag} {style : ScalarStyle} {s : String} {w : Value}
    {n m : Nat} :
    ofScalar tag style s n = .ok (w, m) ↔
      ∃ v, (atomOfScalar tag style s).bind (ofAtom s) = .ok v ∧ underTag tag v = w ∧ n = m := by
  rw [ofScalar]
  cases hatom : (atomOfScalar tag style s).bind (ofAtom s) with
  | ok v =>
    simp only [Except.ok.injEq, exists_eq_left']
    exact pure_eq_ok_iff
  | error cause => simp [Reading.fail]

theorem isRead_scalar_iff {tag : Option Tag} {style : ScalarStyle} {s : String} {w : Value}
    {n m : Nat} :
    IsRead d depth (.scalar tag style s) n w m ↔ ofScalar tag style s n = .ok (w, m) := by
  rw [ofScalar_eq_ok_iff]
  constructor
  · rintro ⟨⟩
    exact ⟨_, ‹_›, rfl, rfl⟩
  · rintro ⟨v, hatom, rfl, rfl⟩
    exact .scalar n hatom

/-- What is read from a node is read from its content. -/
theorem ofNode_eq_ok_iff {node : Node} {w : Value} {n m : Nat} :
    ofNode d depth node n = .ok (w, m) ↔
      ∃ c k, Reading.content d node n = .ok (c, k) ∧ IsRead d depth c k w m := by
  cases depth with
  | zero =>
    rw [ofNode, bind_eq_ok_iff]
    refine exists_congr fun c ↦ exists_congr fun k ↦ and_congr_right fun _ ↦ ?_
    cases c with
    | scalar tag style s => exact isRead_scalar_iff.symm
    | _ => exact ⟨fun h ↦ absurd h (by simp [Reading.fail]), fun h ↦ nomatch h⟩
  | succ depth =>
    rw [ofNode, bind_eq_ok_iff]
    refine exists_congr fun c ↦ exists_congr fun k ↦ and_congr_right fun _ ↦ ?_
    cases c with
    | scalar tag style s => exact isRead_scalar_iff.symm
    | sequence tag items =>
      constructor
      · intro h
        obtain ⟨vs, m', hitems, hout⟩ := bind_eq_ok_iff.mp h
        obtain ⟨rfl, rfl⟩ := pure_eq_ok_iff.mp hout
        exact .sequence (mapM_eq_ok_iff.mp hitems)
      · rintro ⟨⟩
        exact bind_eq_ok_iff.mpr ⟨_, m, mapM_eq_ok_iff.mpr ‹_›, rfl⟩
    | mapping tag entries =>
      constructor
      · intro h
        obtain ⟨read, m', hentries, hout⟩ := bind_eq_ok_iff.mp h
        obtain ⟨rfl, rfl⟩ := pure_eq_ok_iff.mp hout
        obtain ⟨es, hes, rfl⟩ := foldlM_readEntry_eq_ok_iff.mp hentries
        rw [List.append_nil, List.reverse_reverse]
        exact .mapping hes
      · rintro ⟨⟩
        refine bind_eq_ok_iff.mpr ⟨_, m, foldlM_readEntry_eq_ok_iff.mpr ⟨_, ‹_›, rfl⟩, ?_⟩
        rw [List.append_nil, List.reverse_reverse]
        rfl
    | _ => exact ⟨fun h ↦ absurd h (by simp [Reading.fail]), fun h ↦ nomatch h⟩

end Value

/-! ### The direct reader -/

variable {d : Document} {depth : Nat}

/-- Reads the key and the value of an entry. -/
def entryReading (d : Document) (depth : Nat) (e : Node × Node) : Reading (String × Json) := do
  let k ← Reading.text d e.1
  return (k, ← jsonOfNode d depth e.2)

theorem entryReading_eq_ok_iff {e : Node × Node} {p : String × Json} {n m : Nat} :
    entryReading d depth e n = .ok (p, m) ↔
      ∃ k, Reading.text d e.1 n = .ok (p.1, k) ∧ jsonOfNode d depth e.2 k = .ok (p.2, m) := by
  rw [entryReading, bind_eq_ok_iff]
  constructor
  · rintro ⟨s, k, hkey, hrest⟩
    obtain ⟨v, m', hvalue, hout⟩ := bind_eq_ok_iff.mp hrest
    obtain ⟨rfl, rfl⟩ := pure_eq_ok_iff.mp hout
    exact ⟨k, hkey, hvalue⟩
  · rintro ⟨k, hkey, hvalue⟩
    exact ⟨p.1, k, hkey, bind_eq_ok_iff.mpr ⟨p.2, m, hvalue, rfl⟩⟩

/-- Holds when a JSON value is read from the content of a node directly. -/
inductive IsReadDirectly (d : Document) : Nat → Node → Nat → Json → Nat → Prop
  | scalar {depth : Nat} {tag : Option Tag} {style : ScalarStyle} {s : String} {v : Json} (n : Nat)
      (htag : localText? tag = none)
      (hatom : (atomOfScalar tag style s).bind (jsonOfAtom s) = .ok v) :
      IsReadDirectly d depth (.scalar tag style s) n v n
  | sequence {depth : Nat} {tag : Option Tag} {items : List Node} {vs : List Json} {n m : Nat}
      (htag : localText? tag = none) (hitems : Reads (jsonOfNode d depth) items vs n m) :
      IsReadDirectly d (depth + 1) (.sequence tag items) n (.arr vs) m
  | mapping {depth : Nat} {tag : Option Tag} {entries : List (Node × Node)}
      {pairs : List (String × Json)} {n m : Nat} (htag : localText? tag = none)
      (hentries : Reads (entryReading d depth) entries pairs n m) :
      IsReadDirectly d (depth + 1) (.mapping tag entries) n (.object pairs) m

/-- A reader that first refuses a local tag. -/
theorem refuseLocal_bind_eq_ok_iff {tag : Option Tag} {r : Reading Json} {v : Json} {n m : Nat} :
    (refuseLocal tag >>= fun _ ↦ r) n = .ok (v, m) ↔ localText? tag = none ∧ r n = .ok (v, m) := by
  rw [bind_eq_ok_iff, refuseLocal]
  cases htag : localText? tag with
  | some name => simp [Reading.fail]
  | none =>
    constructor
    · rintro ⟨_, k, hpass, hr⟩
      obtain ⟨_, rfl⟩ := pure_eq_ok_iff.mp hpass
      exact ⟨rfl, hr⟩
    · rintro ⟨_, hr⟩
      exact ⟨(), n, rfl, hr⟩

theorem jsonOfScalar_eq_ok_iff {tag : Option Tag} {style : ScalarStyle} {s : String} {v : Json}
    {n m : Nat} :
    jsonOfScalar tag style s n = .ok (v, m) ↔
      localText? tag = none ∧ (atomOfScalar tag style s).bind (jsonOfAtom s) = .ok v ∧ n = m := by
  rw [jsonOfScalar, refuseLocal_bind_eq_ok_iff]
  refine and_congr_right fun _ ↦ ?_
  cases hatom : (atomOfScalar tag style s).bind (jsonOfAtom s) with
  | ok w =>
    rw [Except.ok.injEq]
    exact pure_eq_ok_iff
  | error cause => simp [Reading.fail]

theorem isReadDirectly_scalar_iff {tag : Option Tag} {style : ScalarStyle} {s : String} {v : Json}
    {n m : Nat} :
    IsReadDirectly d depth (.scalar tag style s) n v m ↔
      jsonOfScalar tag style s n = .ok (v, m) := by
  rw [jsonOfScalar_eq_ok_iff]
  constructor
  · rintro ⟨⟩
    exact ⟨‹_›, ‹_›, rfl⟩
  · rintro ⟨htag, hatom, rfl⟩
    exact .scalar n htag hatom

theorem jsonOfNode_eq_ok_iff {node : Node} {v : Json} {n m : Nat} :
    jsonOfNode d depth node n = .ok (v, m) ↔
      ∃ c k, Reading.content d node n = .ok (c, k) ∧ IsReadDirectly d depth c k v m := by
  cases depth with
  | zero =>
    rw [jsonOfNode, bind_eq_ok_iff]
    refine exists_congr fun c ↦ exists_congr fun k ↦ and_congr_right fun _ ↦ ?_
    cases c with
    | scalar tag style s => exact isReadDirectly_scalar_iff.symm
    | _ => exact ⟨fun h ↦ absurd h (by simp [Reading.fail]), fun h ↦ nomatch h⟩
  | succ depth =>
    rw [jsonOfNode, bind_eq_ok_iff]
    refine exists_congr fun c ↦ exists_congr fun k ↦ and_congr_right fun _ ↦ ?_
    cases c with
    | scalar tag style s => exact isReadDirectly_scalar_iff.symm
    | sequence tag items =>
      refine refuseLocal_bind_eq_ok_iff.trans ?_
      constructor
      · rintro ⟨htag, hrest⟩
        obtain ⟨vs, m', hitems, hout⟩ := bind_eq_ok_iff.mp hrest
        obtain ⟨rfl, rfl⟩ := pure_eq_ok_iff.mp hout
        exact .sequence htag (mapM_eq_ok_iff.mp hitems)
      · rintro ⟨⟩
        exact ⟨‹_›, bind_eq_ok_iff.mpr ⟨_, m, mapM_eq_ok_iff.mpr ‹_›, rfl⟩⟩
    | mapping tag entries =>
      refine refuseLocal_bind_eq_ok_iff.trans ?_
      constructor
      · rintro ⟨htag, hrest⟩
        obtain ⟨pairs, m', hentries, hout⟩ := bind_eq_ok_iff.mp hrest
        obtain ⟨rfl, rfl⟩ := pure_eq_ok_iff.mp hout
        exact .mapping htag (mapM_eq_ok_iff.mp hentries)
      · rintro ⟨⟩
        exact ⟨‹_›, bind_eq_ok_iff.mpr ⟨_, m, mapM_eq_ok_iff.mpr ‹_›, rfl⟩⟩
    | _ => exact ⟨fun h ↦ absurd h (by simp [Reading.fail]), fun h ↦ nomatch h⟩

end ApiManifest.Yaml
