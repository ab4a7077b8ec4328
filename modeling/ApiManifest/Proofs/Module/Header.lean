import ApiManifest.Manifest.Basic
import Mathlib.Tactic.Common

/-!
What the header of a document is read from. It is refused for its `$id` first and for its `info`
second (`ofDocument_eq_error_id_iff`, `ofDocument_eq_error_info_iff`), and else each field of the
entry is the text of the first scalar under the keys of that field (`firstText_resolvedVersion` and
its companions). Nothing else in a document has a part in it: documents that agree under the `$id`
and five keys of `info` have the same header (`ofDocument_of_agree`).
-/

set_option autoImplicit false
set_option relaxedAutoImplicit false

namespace ApiManifest

/-! ### Scalars -/

namespace Json

/-- Holds of a scalar other than null and its text. -/
inductive HasText : Json → String → Prop where
  | str (s : String) : HasText (.str s) s
  | int (n : Number.Whole) : HasText (.int n) (Number.integerText n.val)
  | float (x : Number.FiniteDouble) : HasText (.float x) (Number.jsonLayout.text x.val)
  | true : HasText (.bool Bool.true) "true"
  | false : HasText (.bool Bool.false) "false"

/-- Holds of the values that count as absent: null, lists and objects. -/
inductive CountsAbsent : Json → Prop where
  | null : CountsAbsent .null
  | arr (items : List Json) : CountsAbsent (.arr items)
  | obj (fields : List (String × Json)) : CountsAbsent (.obj fields)

variable {v : Json} {s : String}

theorem hasText_iff : v.HasText s ↔ scalarText? v = some s := by
  constructor
  · rintro (_ | _ | _ | _ | _) <;> rfl
  · intro h
    cases v with
    | str t => exact Option.some.inj h ▸ .str t
    | int n => exact Option.some.inj h ▸ .int n
    | float x => exact Option.some.inj h ▸ .float x
    | bool b =>
      cases b with
      | true => exact Option.some.inj h ▸ .true
      | false => exact Option.some.inj h ▸ .false
    | null => exact nomatch h
    | arr items => exact nomatch h
    | obj fields => exact nomatch h

theorem countsAbsent_iff : v.CountsAbsent ↔ scalarText? v = none := by
  constructor
  · rintro (_ | _ | _) <;> rfl
  · intro h
    cases v with
    | null => exact .null
    | arr items => exact .arr items
    | obj fields => exact .obj fields
    | str t => exact nomatch h
    | int n => exact nomatch h
    | float x => exact nomatch h
    | bool b => exact nomatch h

end Json

/-- Holds of the text of the first scalar under some keys, and of a fallback when all that stands
under them counts as absent. -/
inductive FirstText (fields : List (String × Json)) (fallback : String) :
    List String → String → Prop where
  | exhausted : FirstText fields fallback [] fallback
  | here {key s : String} {keys : List String} {v : Json}
      (hfield : Dictionary.find? key fields = some v) (htext : v.HasText s) :
      FirstText fields fallback (key :: keys) s
  | later {key s : String} {keys : List String}
      (hfield : ∀ v, Dictionary.find? key fields = some v → v.CountsAbsent)
      (hrest : FirstText fields fallback keys s) : FirstText fields fallback (key :: keys) s

/-! ### The table -/

section Table

variable {extension fallback key : String} {keys : List String} {fields : List (String × Json)}

/-- A key more is asked before the others. -/
theorem FirstText.cons {found : Option String} {s : String}
    (hfound : (Dictionary.find? key fields).bind scalarText? = found)
    (hrest : found = none → FirstText fields fallback keys s) :
    FirstText fields fallback (key :: keys) (found.getD s) := by
  cases found with
  | some text =>
    obtain ⟨v, hfield, htext⟩ := Option.bind_eq_some_iff.mp hfound
    exact .here hfield (Json.hasText_iff.mpr htext)
  | none =>
    refine .later (fun v hfield ↦ Json.countsAbsent_iff.mpr ?_) (hrest rfl)
    rwa [hfield] at hfound

theorem firstText_resolvedVersion :
    FirstText fields "" [extension ++ "-version", "version"]
      (Info.ofFields extension fields).resolvedVersion := by
  rw [Info.resolvedVersion, Option.getD_or]
  exact .cons rfl fun _ ↦ .cons rfl fun _ ↦ .exhausted

theorem firstText_resolvedDescription :
    FirstText fields "" [extension ++ "-description", "description"]
      (Info.ofFields extension fields).resolvedDescription := by
  rw [Info.resolvedDescription, Option.getD_or]
  exact .cons rfl fun _ ↦ .cons rfl fun _ ↦ .exhausted

theorem firstText_resolvedSummary :
    FirstText fields (Info.ofFields extension fields).resolvedDescription ["summary"]
      (Info.ofFields extension fields).resolvedSummary :=
  .cons rfl fun _ ↦ .exhausted

end Table

namespace Header

variable {extension : String} {v w : Json}

/-! ### Refusals -/

/-- Holds of a document without a `$id` that can stand for it. -/
inductive LacksId (v : Json) : Prop where
  | absent (hfield : v.field? "$id" = none)
  | noScalar {id : Json} (hfield : v.field? "$id" = some id) (hid : id.CountsAbsent)
  | blank {id : Json} {s : String} (hfield : v.field? "$id" = some id) (htext : id.HasText s)
      (hblank : ∀ c ∈ s.toList, Text.isBlank c = true)

/-- Holds of a document without an object under `info`. -/
inductive LacksInfo (v : Json) : Prop where
  | absent (hfield : v.field? "info" = none)
  | noObject {info : Json} (hfield : v.field? "info" = some info)
      (hinfo : ∀ fields, info ≠ .obj fields)

/-- The fields of the object under `info`, if there is one. -/
def info? (v : Json) : Option (List (String × Json)) :=
  match v.field? "info" with
  | some (.obj fields) => some fields
  | _ => none

/-- What the `$id` of a document must be. -/
theorem not_lacksId_iff : ¬ LacksId v ↔ ∃ id s, v.field? "$id" = some id ∧ id.HasText s ∧
    Text.AllBlank s = false := by
  constructor
  · intro h
    cases hfield : v.field? "$id" with
    | none => exact absurd (.absent hfield) h
    | some id =>
      cases htext : scalarText? id with
      | none => exact absurd (.noScalar hfield (Json.countsAbsent_iff.mpr htext)) h
      | some s =>
        refine ⟨id, s, rfl, Json.hasText_iff.mpr htext, Bool.eq_false_iff.mpr fun hblank ↦ h ?_⟩
        exact .blank hfield (Json.hasText_iff.mpr htext) (List.all_eq_true.mp hblank)
  · rintro ⟨id, s, hfield, htext, hblank⟩ h
    rw [Json.hasText_iff] at htext
    cases h with
    | absent hnone => exact nomatch hnone.symm.trans hfield
    | noScalar hfield' hid =>
      obtain rfl := Option.some.inj (hfield.symm.trans hfield')
      exact nomatch (Json.countsAbsent_iff.mp hid).symm.trans htext
    | blank hfield' htext' hall =>
      obtain rfl := Option.some.inj (hfield.symm.trans hfield')
      obtain rfl := Option.some.inj (htext.symm.trans (Json.hasText_iff.mp htext'))
      exact absurd (List.all_eq_true.mpr hall) (Bool.eq_false_iff.mp hblank)

theorem info?_eq_some_iff {fields : List (String × Json)} :
    info? v = some fields ↔ v.field? "info" = some (.obj fields) := by
  rw [info?]
  split
  · rename_i hfield
    rw [hfield, Option.some_inj, Option.some_inj, Json.obj.injEq]
  · rename_i hother
    exact iff_of_false (fun h ↦ nomatch h) fun h ↦ hother fields h

theorem info?_eq_none_iff : info? v = none ↔ LacksInfo v := by
  constructor
  · intro h
    cases hfield : v.field? "info" with
    | none => exact .absent hfield
    | some info =>
      refine .noObject hfield fun fields hinfo ↦ ?_
      exact nomatch h.symm.trans (info?_eq_some_iff.mpr (hfield.trans (congrArg some hinfo)))
  · intro h
    refine Option.eq_none_iff_forall_ne_some.mpr fun fields hfields ↦ ?_
    rw [info?_eq_some_iff] at hfields
    cases h with
    | absent hnone => exact nomatch hnone.symm.trans hfields
    | noObject hfield hinfo => exact hinfo fields (Option.some.inj (hfield.symm.trans hfields))

/-- A document without a `$id` is refused for that, whatever its `info` is. -/
theorem ofDocument_of_lacksId (h : LacksId v) : ofDocument extension v = .error .id := by
  rw [ofDocument]
  cases h with
  | absent hfield => rw [hfield]; rfl
  | noScalar hfield hid =>
    rw [hfield, Option.bind_some, Json.countsAbsent_iff.mp hid]
  | blank hfield htext hblank =>
    rw [hfield, Option.bind_some, Json.hasText_iff.mp htext]
    exact if_pos (List.all_eq_true.mpr hblank)

/-- A document with a `$id` has a header if it has an `info`, and is refused for that if not. -/
theorem ofDocument_of_id {id : Json} {s : String} (hfield : v.field? "$id" = some id)
    (htext : id.HasText s) (hblank : Text.AllBlank s = false) :
    ofDocument extension v = match (info? v).map (Info.ofFields extension) with
      | some info => .ok ⟨s, info⟩
      | none => .error .info := by
  rw [ofDocument, hfield, Option.bind_some, Json.hasText_iff.mp htext]
  refine (if_neg (Bool.eq_false_iff.mp hblank)).trans ?_
  cases hinfo : info? v with
  | some fields => rw [info?_eq_some_iff.mp hinfo, Option.map_some]
  | none =>
    split
    · rename_i hfields
      exact nomatch hinfo.symm.trans (info?_eq_some_iff.mpr hfields)
    · rfl

theorem ofDocument_of_lacksInfo (hid : ¬ LacksId v) (h : LacksInfo v) :
    ofDocument extension v = .error .info := by
  obtain ⟨id, s, hfield, htext, hblank⟩ := not_lacksId_iff.mp hid
  rw [ofDocument_of_id hfield htext hblank, info?_eq_none_iff.mpr h, Option.map_none]

theorem exists_ofDocument (extension : String) (hid : ¬ LacksId v) (hinfo : ¬ LacksInfo v) :
    ∃ id s fields, v.field? "$id" = some id ∧ id.HasText s ∧
      v.field? "info" = some (.obj fields) ∧
        ofDocument extension v = .ok ⟨s, .ofFields extension fields⟩ := by
  obtain ⟨id, s, hfield, htext, hblank⟩ := not_lacksId_iff.mp hid
  obtain ⟨fields, hfields⟩ := Option.ne_none_iff_exists'.mp (mt info?_eq_none_iff.mp hinfo)
  refine ⟨id, s, fields, hfield, htext, info?_eq_some_iff.mp hfields, ?_⟩
  rw [ofDocument_of_id hfield htext hblank, hfields, Option.map_some]

theorem ofDocument_eq_error_id_iff : ofDocument extension v = .error .id ↔ LacksId v := by
  refine ⟨fun h ↦ ?_, ofDocument_of_lacksId⟩
  by_contra hid
  by_cases hinfo : LacksInfo v
  · exact nomatch h.symm.trans (ofDocument_of_lacksInfo hid hinfo)
  · obtain ⟨id, s, fields, -, -, -, hok⟩ := exists_ofDocument extension hid hinfo
    exact nomatch h.symm.trans hok

theorem ofDocument_eq_error_info_iff :
    ofDocument extension v = .error .info ↔ ¬ LacksId v ∧ LacksInfo v := by
  refine ⟨fun h ↦ ?_, fun h ↦ ofDocument_of_lacksInfo h.1 h.2⟩
  have hid : ¬ LacksId v := fun hid ↦ nomatch h.symm.trans (ofDocument_of_lacksId hid)
  refine ⟨hid, ?_⟩
  by_contra hinfo
  obtain ⟨id, s, fields, -, -, -, hok⟩ := exists_ofDocument extension hid hinfo
  exact nomatch h.symm.trans hok

/-! ### What is read -/

/-- What a document has under a key of its `info`: a value or none, and neither if there is no
object under `info`. -/
def infoField? (key : String) (v : Json) : Option (Option Json) :=
  (info? v).map (Dictionary.find? key)

/-- The keys of `info` from which a header is read. -/
def infoKeys (extension : String) : List String :=
  [extension ++ "-version", "version", extension ++ "-description", "description", "summary"]

/-- Holds of documents that have the same under the `$id` and the keys of `info`. -/
structure Agree (extension : String) (v w : Json) : Prop where
  id : v.field? "$id" = w.field? "$id"
  info : ∀ key ∈ infoKeys extension, infoField? key v = infoField? key w

theorem LacksId.of_field_eq (h : LacksId v) (hsame : v.field? "$id" = w.field? "$id") :
    LacksId w := by
  cases h with
  | absent hfield => exact .absent (hsame.symm.trans hfield)
  | noScalar hfield hid => exact .noScalar (hsame.symm.trans hfield) hid
  | blank hfield htext hblank => exact .blank (hsame.symm.trans hfield) htext hblank

/-- The fields of a header come from the five keys alone. -/
theorem ofFields_of_agree {fields fields' : List (String × Json)}
    (h : ∀ key ∈ infoKeys extension, Dictionary.find? key fields = Dictionary.find? key fields') :
    Info.ofFields extension fields = Info.ofFields extension fields' := by
  simp only [infoKeys, List.forall_mem_cons] at h
  obtain ⟨hextendedVersion, hversion, hextendedDescription, hdescription, hsummary, -⟩ := h
  simp only [Info.ofFields, hextendedVersion, hversion, hextendedDescription, hdescription,
    hsummary]

theorem Agree.map_ofFields (h : Agree extension v w) :
    (info? v).map (Info.ofFields extension) = (info? w).map (Info.ofFields extension) := by
  have hinfo := h.info
  have hkey : "version" ∈ infoKeys extension := by simp [infoKeys]
  simp only [infoField?] at hinfo
  generalize info? v = fields at hinfo ⊢
  generalize info? w = fields' at hinfo ⊢
  cases fields with
  | none =>
    cases fields' with
    | none => rfl
    | some fields' => exact nomatch hinfo "version" hkey
  | some fields =>
    cases fields' with
    | none => exact nomatch hinfo "version" hkey
    | some fields' =>
      exact congrArg some (ofFields_of_agree fun key hkey ↦ Option.some.inj (hinfo key hkey))

/-- Documents that agree have the same header or the same refusal, whatever else is in them. -/
theorem ofDocument_of_agree (h : Agree extension v w) :
    ofDocument extension v = ofDocument extension w := by
  by_cases hid : LacksId v
  · rw [ofDocument_of_lacksId hid, ofDocument_of_lacksId (hid.of_field_eq h.id)]
  · obtain ⟨id, s, hfield, htext, hblank⟩ := not_lacksId_iff.mp hid
    rw [ofDocument_of_id hfield htext hblank,
      ofDocument_of_id (h.id.symm.trans hfield) htext hblank, h.map_ofFields]

end Header

/-- Holds of the entry that a `$id` and the fields of an `info` make. -/
structure Entry.Tells (extension name path : String) (id : Json) (fields : List (String × Json))
    (e : Entry) : Prop where
  name : e.name = name
  path : e.path = path
  url : id.HasText e.url
  version : FirstText fields "" [extension ++ "-version", "version"] e.version
  description : FirstText fields "" [extension ++ "-description", "description"] e.description
  summary : FirstText fields e.description ["summary"] e.summary

/-- A document is refused for its `$id`, and else for its `info`, or its entry is made of both, each
field from the first scalar under its keys; and all that has a part in it is what stands under the
`$id` and five keys of `info`. -/
theorem entry_of_document (extension name path : String) (v : Json) :
    (Header.ofDocument extension v = .error .id ↔ Header.LacksId v) ∧
    (Header.ofDocument extension v = .error .info ↔ ¬ Header.LacksId v ∧ Header.LacksInfo v) ∧
    (¬ Header.LacksId v → ¬ Header.LacksInfo v →
      ∃ id fields header, v.field? "$id" = some id ∧ v.field? "info" = some (.obj fields) ∧
        Header.ofDocument extension v = .ok header ∧
        (Entry.ofHeader name path header).Tells extension name path id fields) ∧
    ∀ w, Header.Agree extension v w →
      Header.ofDocument extension v = Header.ofDocument extension w := by
  refine ⟨Header.ofDocument_eq_error_id_iff, Header.ofDocument_eq_error_info_iff,
    fun hid hinfo ↦ ?_, fun w hagree ↦ Header.ofDocument_of_agree hagree⟩
  obtain ⟨id, s, fields, hfield, htext, hfields, hok⟩ :=
    Header.exists_ofDocument extension hid hinfo
  exact ⟨id, fields, _, hfield, hfields, hok, rfl, rfl, htext, firstText_resolvedVersion,
    firstText_resolvedDescription, firstText_resolvedSummary⟩

/-- A document that gives its extension version as null and its version as an empty text. -/
def emptyVersion (rest : List (String × Json)) : Json :=
  .obj [("$id", .bool true), ("info", .obj (("x-version", .null) :: ("version", .str "") ::
    ("x-description", .str "d") :: ("summary", .arr []) :: rest))]

theorem not_lacksId_emptyVersion (rest : List (String × Json)) :
    ¬ Header.LacksId (emptyVersion rest) :=
  Header.not_lacksId_iff.mpr ⟨.bool true, "true", rfl, .true, by decide⟩

/-- Null and lists are passed over, an empty text is not, and another field adds nothing. -/
theorem entry_of_document_empty :
    ¬ Header.LacksId (emptyVersion []) ∧ ¬ Header.LacksInfo (emptyVersion []) ∧
    Header.Agree "x" (emptyVersion []) (emptyVersion [("title", .str "t")]) ∧
    (∃ id fields header, (emptyVersion []).field? "$id" = some id ∧
      (emptyVersion []).field? "info" = some (.obj fields) ∧
      Header.ofDocument "x" (emptyVersion []) = .ok header ∧
      (Entry.ofHeader "a" "p" header).Tells "x" "a" "p" id fields ∧
      Entry.ofHeader "a" "p" header = ⟨"a", "true", "p", "", "d", "d"⟩) ∧
    Header.ofDocument "x" (emptyVersion []) =
      Header.ofDocument "x" (emptyVersion [("title", .str "t")]) := by
  have hid := not_lacksId_emptyVersion []
  have hinfo : ¬ Header.LacksInfo (emptyVersion []) :=
    mt Header.info?_eq_none_iff.mpr (fun h ↦ nomatch h)
  have hagree : Header.Agree "x" (emptyVersion []) (emptyVersion [("title", .str "t")]) := by
    refine ⟨rfl, ?_⟩
    simp only [Header.infoKeys, List.forall_mem_cons]
    exact ⟨rfl, rfl, rfl, rfl, rfl, fun key hkey ↦ nomatch hkey⟩
  obtain ⟨-, -, hmade, hsame⟩ := entry_of_document "x" "a" "p" (emptyVersion [])
  obtain ⟨id, fields, header, hfield, hfields, hok, htells⟩ := hmade hid hinfo
  obtain rfl : ⟨"true", some "", none, none, none, some "d"⟩ = header :=
    Except.ok.inj (Eq.trans rfl hok)
  exact ⟨hid, hinfo, hagree, ⟨id, fields, _, hfield, hfields, hok, htells, rfl⟩, hsame _ hagree⟩

end ApiManifest
