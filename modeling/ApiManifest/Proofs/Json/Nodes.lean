import ApiManifest.Proofs.Json.Tokens
import ApiManifest.Yaml.Assembly

/-!
JSON text as YAML nodes. The tokens of a value are assembled to `node` of it wherever a value may
come next (`run_tokens`), unless one of its keys is too long or on more than one line: what follows
such a key is then a second item in the place of its value, which nothing expects.
-/

set_option autoImplicit false
set_option relaxedAutoImplicit false

namespace ApiManifest.Json

open Yaml Assembly

/-- What a YAML reader makes of the text of a string that it can close. -/
def rereadText (s : String) : String := (reread s).getD s

mutual

/-- The node that the text of a value stands for. -/
def node : Json → Node
  | .str s => .scalar none .marked (rereadText s)
  | .arr items => .sequence none (itemNodes items)
  | .obj fields => .mapping none (fieldNodes fields)
  | v => .scalar none .plain (String.ofList (chars v))

def itemNodes : List Json → List Node
  | [] => []
  | v :: rest => node v :: itemNodes rest

def fieldNodes : List (String × Json) → List (Node × Node)
  | [] => []
  | (k, v) :: rest => (.scalar none .marked (rereadText k), node v) :: fieldNodes rest

end

mutual

/-- The keys of all objects in a value. -/
def keys : Json → List String
  | .arr items => itemKeys items
  | .obj fields => fieldKeys fields
  | _ => []

def itemKeys : List Json → List String
  | [] => []
  | v :: rest => keys v ++ itemKeys rest

def fieldKeys : List (String × Json) → List String
  | [] => []
  | (k, v) :: rest => k :: (keys v ++ fieldKeys rest)

end

/-- Goes on after a node is attached: to the end when it was the root. -/
def resume (r : Except Error Assembly) (rest : List Token) : Except Error (Assembly × List Token) :=
  match r with
  | .error e => .error e
  | .ok a => if a.root.isSome then .ok (a, rest) else a.run rest

/-- The document of a run: its root, when nothing is left after it. -/
def documentOfRun (r : Assembly × List Token) : Except Error (Option Document) :=
  r.1.root.elim (.error .unexpected) fun root ↦
    if streamEnds r.2 then .ok (some ⟨root, r.1.anchors, r.1.anchored⟩) else .error .secondDocument

/-- A document without a mark that begins with a mapping is that of the run over its tokens. -/
theorem ofTokens_of_opens {t : Token} (ht : t = .flowMappingStart ∨ t = .blockMappingStart)
    (ts : List Token) :
    Document.ofTokens (t :: ts) =
      ((Assembly.start defaultHandles).run (t :: ts)).bind documentOfRun := by
  obtain rfl | rfl := ht
  all_goals
    refine congrArg (Except.bind _) (funext fun r ↦ ?_)
    dsimp only
    rw [documentOfRun]
    cases r.1.root with
    | none => rfl
    | some root => rfl

/-- An assembly whose root is not complete, with no properties read. -/
structure IsOpen (a : Assembly) : Prop where
  props : a.props = {}
  root : a.root = none

/-- Holds of an assembly in which the root, an item of a list or the value of a field comes next. -/
structure Awaits (a : Assembly) : Prop extends IsOpen a where
  place : a.stack = [] ∨ (∃ p items up, a.stack = .sequence .flow p items .item :: up) ∨
    ∃ p entries k up, a.stack = .mapping .flow p entries (.value k) :: up

variable {a : Assembly} {rest : List Token}

theorem IsOpen.push (ha : IsOpen a) (f : Frame) : IsOpen (a.push f) := ⟨rfl, ha.root⟩

theorem run_scalar (ha : Awaits a) (style : ScalarStyle) (text : String) :
    a.run (.scalar style text :: rest) = resume (a.attach (.scalar none style text)) rest := by
  obtain ⟨handles, stack, props, root, anchors, anchored⟩ := a
  obtain ⟨⟨rfl, rfl⟩, rfl | ⟨p, items, up, rfl⟩ | ⟨p, entries, k, up, rfl⟩⟩ := ha
  · rfl
  · rfl
  · rfl

theorem run_bracket (ha : Awaits a) :
    a.run (.flowSequenceStart :: rest) = (a.push (.sequence .flow {} [] .item)).run rest := by
  obtain ⟨handles, stack, props, root, anchors, anchored⟩ := a
  obtain ⟨⟨rfl, rfl⟩, rfl | ⟨p, items, up, rfl⟩ | ⟨p, entries, k, up, rfl⟩⟩ := ha
  · rfl
  · rfl
  · rfl

theorem run_brace (ha : Awaits a) :
    a.run (.flowMappingStart :: rest) = (a.push (.mapping .flow {} [] .item)).run rest := by
  obtain ⟨handles, stack, props, root, anchors, anchored⟩ := a
  obtain ⟨⟨rfl, rfl⟩, rfl | ⟨p, items, up, rfl⟩ | ⟨p, entries, k, up, rfl⟩⟩ := ha
  · rfl
  · rfl
  · rfl

/-- A key that fits leads to the place of its value. -/
theorem run_key (ha : IsOpen a) (k : String) {ks : List Token} (hks : keyTokens? k = some ks)
    (entries : List (Node × Node)) :
    (a.push (.mapping .flow {} entries .item)).run (ks ++ rest) =
      if fitsKey k then
        (a.push (.mapping .flow {} entries (.value (.scalar none .marked (rereadText k))))).run rest
      else .error .unexpected := by
  obtain ⟨text, htext, rfl⟩ := Option.map_eq_some_iff.mp hks
  obtain ⟨handles, stack, props, root, anchors, anchored⟩ := a
  obtain ⟨rfl, rfl⟩ := ha
  rw [rereadText, htext, Option.getD_some]
  cases fitsKey k with
  | true => rfl
  | false => rfl

/-- An item that is complete leads to what separates items. -/
theorem resume_push_item (ha : IsOpen a) (before : List Node) (n : Node) :
    resume ((a.push (.sequence .flow {} before .item)).attach n) rest =
      (a.push (.sequence .flow {} (n :: before) .separator)).run rest := by
  obtain ⟨handles, stack, props, root, anchors, anchored⟩ := a
  obtain ⟨rfl, rfl⟩ := ha
  rfl

/-- A value that is complete leads to what separates fields. -/
theorem resume_push_value (ha : IsOpen a) (before : List (Node × Node)) (k n : Node) :
    resume ((a.push (.mapping .flow {} before (.value k))).attach n) rest =
      (a.push (.mapping .flow {} ((k, n) :: before) .separator)).run rest := by
  obtain ⟨handles, stack, props, root, anchors, anchored⟩ := a
  obtain ⟨rfl, rfl⟩ := ha
  rfl

theorem run_entry_sequence (ha : IsOpen a) (before : List Node) :
    (a.push (.sequence .flow {} before .separator)).run (.flowEntry :: rest) =
      (a.push (.sequence .flow {} before .item)).run rest := by
  obtain ⟨handles, stack, props, root, anchors, anchored⟩ := a
  obtain ⟨rfl, rfl⟩ := ha
  rfl

theorem run_entry_mapping (ha : IsOpen a) (before : List (Node × Node)) :
    (a.push (.mapping .flow {} before .separator)).run (.flowEntry :: rest) =
      (a.push (.mapping .flow {} before .item)).run rest := by
  obtain ⟨handles, stack, props, root, anchors, anchored⟩ := a
  obtain ⟨rfl, rfl⟩ := ha
  rfl

mutual

/-- Where a value may come next its tokens are assembled to its node. -/
theorem run_tokens (v : Json) {ts : List Token} (hts : tokens? v = some ts) {a : Assembly}
    (ha : Awaits a) (rest : List Token) :
    a.run (ts ++ rest) =
      if (keys v).all fitsKey then resume (a.attach (node v)) rest else .error .unexpected := by
  match v with
  | .null => exact Option.some.inj hts ▸ run_scalar ha _ _
  | .bool b => exact Option.some.inj hts ▸ run_scalar ha _ _
  | .int n => exact Option.some.inj hts ▸ run_scalar ha _ _
  | .float x => exact Option.some.inj hts ▸ run_scalar ha _ _
  | .str s =>
    obtain ⟨text, htext, rfl⟩ := Option.map_eq_some_iff.mp hts
    rw [node, rereadText, htext]
    exact run_scalar ha _ _
  | .arr items =>
    obtain ⟨us, hus, rfl⟩ := Option.map_eq_some_iff.mp hts
    rw [List.cons_append, run_bracket ha, node, keys]
    exact run_items items hus ha.toIsOpen rest
  | .obj fields =>
    obtain ⟨us, hus, rfl⟩ := Option.map_eq_some_iff.mp hts
    rw [List.cons_append, run_brace ha, node, keys]
    exact run_fields fields hus ha.toIsOpen rest

theorem run_items (items : List Json) {ts : List Token} (hts : itemTokens? items = some ts)
    {a : Assembly} (ha : IsOpen a) (rest : List Token) :
    (a.push (.sequence .flow {} [] .item)).run (ts ++ rest) =
      if (itemKeys items).all fitsKey then
        resume (a.attach (.sequence none (itemNodes items))) rest
      else .error .unexpected := by
  match items with
  | [] =>
    obtain rfl := Option.some.inj hts
    obtain ⟨handles, stack, props, root, anchors, anchored⟩ := a
    obtain ⟨rfl, rfl⟩ := ha
    rfl
  | v :: more =>
    obtain ⟨us, hus, hmore⟩ := Option.bind_eq_some_iff.mp hts
    obtain ⟨ws, hws, rfl⟩ := Option.map_eq_some_iff.mp hmore
    have hplace : Awaits (a.push (.sequence .flow {} [] .item)) :=
      ⟨ha.push _, .inr (.inl ⟨_, _, _, rfl⟩)⟩
    rw [List.append_assoc, run_tokens v hus hplace, itemKeys, List.all_append]
    cases (keys v).all fitsKey with
    | false => rfl
    | true =>
      rw [if_pos rfl, Bool.true_and, resume_push_item ha]
      exact run_moreItems more hws ha [node v] rest

theorem run_moreItems (items : List Json) {ts : List Token} (hts : moreItemTokens? items = some ts)
    {a : Assembly} (ha : IsOpen a) (before : List Node) (rest : List Token) :
    (a.push (.sequence .flow {} before .separator)).run (ts ++ rest) =
      if (itemKeys items).all fitsKey then
        resume (a.attach (.sequence none (before.reverse ++ itemNodes items))) rest
      else .error .unexpected := by
  match items with
  | [] =>
    obtain rfl := Option.some.inj hts
    obtain ⟨handles, stack, props, root, anchors, anchored⟩ := a
    obtain ⟨rfl, rfl⟩ := ha
    rw [itemNodes, List.append_nil]
    rfl
  | v :: more =>
    obtain ⟨joined, hjoined, rfl⟩ := Option.map_eq_some_iff.mp hts
    obtain ⟨us, hus, hmore⟩ := Option.bind_eq_some_iff.mp hjoined
    obtain ⟨ws, hws, rfl⟩ := Option.map_eq_some_iff.mp hmore
    have hplace : Awaits (a.push (.sequence .flow {} before .item)) :=
      ⟨ha.push _, .inr (.inl ⟨_, _, _, rfl⟩)⟩
    rw [List.cons_append, List.append_assoc, run_entry_sequence ha, run_tokens v hus hplace,
      itemKeys, List.all_append]
    cases (keys v).all fitsKey with
    | false => rfl
    | true =>
      rw [if_pos rfl, Bool.true_and, resume_push_item ha,
        run_moreItems more hws ha (node v :: before) rest, List.reverse_cons, List.append_assoc]
      rfl

theorem run_fields (fields : List (String × Json)) {ts : List Token}
    (hts : fieldTokens? fields = some ts) {a : Assembly} (ha : IsOpen a) (rest : List Token) :
    (a.push (.mapping .flow {} [] .item)).run (ts ++ rest) =
      if (fieldKeys fields).all fitsKey then
        resume (a.attach (.mapping none (fieldNodes fields))) rest
      else .error .unexpected := by
  match fields with
  | [] =>
    obtain rfl := Option.some.inj hts
    obtain ⟨handles, stack, props, root, anchors, anchored⟩ := a
    obtain ⟨rfl, rfl⟩ := ha
    rfl
  | (k, v) :: more =>
    obtain ⟨ks, hks, hvalue⟩ := Option.bind_eq_some_iff.mp hts
    obtain ⟨joined, hjoined, rfl⟩ := Option.map_eq_some_iff.mp hvalue
    obtain ⟨us, hus, hmore⟩ := Option.bind_eq_some_iff.mp hjoined
    obtain ⟨ws, hws, rfl⟩ := Option.map_eq_some_iff.mp hmore
    have hplace : Awaits
        (a.push (.mapping .flow {} [] (.value (.scalar none .marked (rereadText k))))) :=
      ⟨ha.push _, .inr (.inr ⟨_, _, _, _, rfl⟩)⟩
    rw [List.append_assoc, List.append_assoc, run_key ha k hks, run_tokens v hus hplace, fieldKeys,
      List.all_cons, List.all_append]
    cases fitsKey k with
    | false => rfl
    | true =>
      cases (keys v).all fitsKey with
      | false => rfl
      | true =>
        rw [if_pos rfl, if_pos rfl, Bool.true_and, Bool.true_and, resume_push_value ha]
        exact run_moreFields more hws ha [(_, node v)] rest

theorem run_moreFields (fields : List (String × Json)) {ts : List Token}
    (hts : moreFieldTokens? fields = some ts) {a : Assembly} (ha : IsOpen a)
    (before : List (Node × Node)) (rest : List Token) :
    (a.push (.mapping .flow {} before .separator)).run (ts ++ rest) =
      if (fieldKeys fields).all fitsKey then
        resume (a.attach (.mapping none (before.reverse ++ fieldNodes fields))) rest
      else .error .unexpected := by
  match fields with
  | [] =>
    obtain rfl := Option.some.inj hts
    obtain ⟨handles, stack, props, root, anchors, anchored⟩ := a
    obtain ⟨rfl, rfl⟩ := ha
    rw [fieldNodes, List.append_nil]
    rfl
  | (k, v) :: more =>
    obtain ⟨entry, hentry, rfl⟩ := Option.map_eq_some_iff.mp hts
    obtain ⟨ks, hks, hvalue⟩ := Option.bind_eq_some_iff.mp hentry
    obtain ⟨joined, hjoined, rfl⟩ := Option.map_eq_some_iff.mp hvalue
    obtain ⟨us, hus, hmore⟩ := Option.bind_eq_some_iff.mp hjoined
    obtain ⟨ws, hws, rfl⟩ := Option.map_eq_some_iff.mp hmore
    have hplace :
        Awaits (a.push (.mapping .flow {} before (.value (.scalar none .marked (rereadText k))))) :=
      ⟨ha.push _, .inr (.inr ⟨_, _, _, _, rfl⟩)⟩
    rw [List.cons_append, List.append_assoc, List.append_assoc, run_entry_mapping ha,
      run_key ha k hks, run_tokens v hus hplace, fieldKeys, List.all_cons, List.all_append]
    cases fitsKey k with
    | false => rfl
    | true =>
      cases (keys v).all fitsKey with
      | false => rfl
      | true =>
        rw [if_pos rfl, if_pos rfl, Bool.true_and, Bool.true_and, resume_push_value ha,
          run_moreFields more hws ha (_ :: before) rest, List.reverse_cons, List.append_assoc]
        rfl

end

end ApiManifest.Json
