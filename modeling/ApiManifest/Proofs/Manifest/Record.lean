import ApiManifest.Manifest.Text
import ApiManifest.Proofs.Yaml.Reading
import Mathlib.Data.List.Forall2
import Mathlib.Data.List.Perm.Basic

/-!
Manifests read from nodes. A record is read from the texts of its fields, whatever their order and
however they are written: a mapping whose keys and values spell the fields of an entry is read as
that entry (`entryOfNode_eq`), and one that spells the version and has such entries under the
modules as the manifest (`ofNode_eq`).
-/

set_option autoImplicit false
set_option relaxedAutoImplicit false

namespace ApiManifest.Manifest

open Yaml

/-- Holds of the nodes that are a scalar with the given text. -/
def Spells (n : Node) (s : String) : Prop := ∃ tag style, n = .scalar tag style s

variable {d : Document} {fields : List (String × Node)} {name : String} {n : Node}

theorem text_of_spells {s : String} (hn : Spells n s) (count : Nat) :
    Reading.text d n count = .ok (s, count) := by
  obtain ⟨tag, style, rfl⟩ := hn
  rfl

/-- The fields of a record are its keys with their nodes. -/
theorem fields_of_spells {entries : List (Node × Node)}
    (hentries : List.Forall₂ (fun e f ↦ Spells e.1 f.1 ∧ e.2 = f.2) entries fields)
    (tag : Option Tag) (count : Nat) :
    Record.fields d (.mapping tag entries) count = .ok (fields, count) := by
  have hbind : Record.fields d (.mapping tag entries) =
      entries.mapM fun e ↦ do return (← Reading.text d e.1, e.2) := rfl
  rw [hbind]
  refine Reading.mapM_of_forall₂ (hentries.imp fun e f hfield n ↦ ?_) count
  rw [Reading.bind_of_ok (text_of_spells hfield.1 n), hfield.2]
  rfl

/-- A field that a record has once is found. -/
theorem field_of_filter (hfields : fields.filter (·.1 == name) = [(name, n)]) (count : Nat) :
    Record.field name fields count = .ok (n, count) := by
  have hfield : Record.field? name fields count = .ok (some n, count) := by
    rw [Record.field?, hfields]
    rfl
  rw [Record.field, Reading.bind_of_ok hfield]
  rfl

/-- Holds of the fields of a record that have the given names and texts. -/
def SpellFields (fields : List (String × Node)) (fs : List (String × String)) : Prop :=
  List.Forall₂ (fun x f ↦ x.1 = f.1 ∧ Spells x.2 f.2) fields fs

/-- The text of a field is the one that the record spells under its name. -/
theorem text_of_filter {fs : List (String × String)} {s : String} (hfields : SpellFields fields fs)
    (hname : fs.filter (·.1 == name) = [(name, s)]) (count : Nat) :
    Record.text d name fields count = .ok (s, count) := by
  have hsame : Relator.LiftFun (fun (x : String × Node) (f : String × String) ↦
      x.1 = f.1 ∧ Spells x.2 f.2) (· ↔ ·) (fun x ↦ (x.1 == name) = true)
      (fun f ↦ (f.1 == name) = true) := fun x f h ↦ by
    show (x.1 == name) = true ↔ (f.1 == name) = true
    rw [h.1]
  have hfilter := List.rel_filter hsame hfields
  rw [hname] at hfilter
  obtain ⟨⟨k, n⟩, rest, ⟨hkey, hspells⟩, hrest, hcons⟩ := List.forall₂_cons_right_iff.mp hfilter
  rw [List.forall₂_nil_right_iff.mp hrest] at hcons
  obtain rfl : k = name := hkey
  rw [Record.text, Reading.bind_of_ok (field_of_filter hcons count), text_of_spells hspells]

/-- Among fields whose names are told apart a filter finds the one with the name. -/
theorem filter_of_perm {fs gs : List (String × String)} {s : String} (hperm : fs.Perm gs)
    (hname : gs.filter (·.1 == name) = [(name, s)]) : fs.filter (·.1 == name) = [(name, s)] := by
  have h := hperm.filter (·.1 == name)
  rw [hname] at h
  exact List.perm_singleton.mp h

/-- A record whose keys and values spell the given fields has fields that spell them. -/
theorem exists_fields {entries : List (Node × Node)} {fs : List (String × String)}
    (hentries : List.Forall₂ (fun x f ↦ Spells x.1 f.1 ∧ Spells x.2 f.2) entries fs) :
    ∃ fields : List (String × Node),
      List.Forall₂ (fun e f ↦ Spells e.1 f.1 ∧ e.2 = f.2) entries fields ∧
        SpellFields fields fs := by
  induction hentries with
  | nil => exact ⟨[], .nil, .nil⟩
  | @cons e f entries fs hfield _ ih =>
    obtain ⟨fields, hkeys, hvalues⟩ := ih
    exact ⟨(f.1, e.2) :: fields, .cons ⟨hfield.1, rfl⟩ hkeys, .cons ⟨rfl, hfield.2⟩ hvalues⟩

/-- Holds of the nodes that are a mapping which spells the given fields. -/
def SpellsRecord (n : Node) (fs : List (String × String)) : Prop :=
  ∃ tag entries, n = .mapping tag entries ∧
    List.Forall₂ (fun x f ↦ Spells x.1 f.1 ∧ Spells x.2 f.2) entries fs

/-- An entry is read from a mapping that spells its fields in any order. -/
theorem entryOfNode_eq {e : Entry} {fs : List (String × String)} (hn : SpellsRecord n fs)
    (hfs : fs.Perm e.fields) (count : Nat) : entryOfNode d n count = .ok (e, count) := by
  obtain ⟨tag, entries, rfl, hentries⟩ := hn
  obtain ⟨fields, hkeys, hvalues⟩ := exists_fields hentries
  have htext (name s : String) (hname : e.fields.filter (·.1 == name) = [(name, s)]) :
      Record.text d name fields count = .ok (s, count) :=
    text_of_filter hvalues (filter_of_perm hfs hname) count
  rw [entryOfNode, Reading.bind_of_ok (fields_of_spells hkeys tag count),
    Reading.bind_of_ok (htext "name" e.name rfl), Reading.bind_of_ok (htext "url" e.url rfl),
    Reading.bind_of_ok (htext "path" e.path rfl),
    Reading.bind_of_ok (htext "version" e.version rfl),
    Reading.bind_of_ok (htext "description" e.description rfl),
    Reading.bind_of_ok (htext "summary" e.summary rfl)]
  rfl

/-- A manifest is read from a mapping with its version and, under the modules, its entries. -/
theorem ofNode_eq {m : Manifest} {fs : Entry → List (String × String)}
    (hfs : ∀ e, (fs e).Perm e.fields) {entries : List (Node × Node)}
    {version : Node} {items : List Node} {tag : Option Tag}
    (hentries : List.Forall₂ (fun e f ↦ Spells e.1 f.1 ∧ e.2 = f.2) entries fields)
    (hfields : fields.Perm [("version", version), ("modules", .sequence tag items)])
    (hversion : Spells version m.version)
    (hitems : List.Forall₂ (fun n e ↦ SpellsRecord n (fs e)) items m.modules)
    (tag' : Option Tag) (count : Nat) :
    ofNode d (.mapping tag' entries) count = .ok (m, count) := by
  have hfilter (name : String) (n : Node)
      (h : [("version", version), ("modules", .sequence tag items)].filter (·.1 == name) =
        [(name, n)]) :
      fields.filter (·.1 == name) = [(name, n)] := by
    have hperm := hfields.filter (·.1 == name)
    rw [h] at hperm
    exact List.perm_singleton.mp hperm
  have htext : Record.text d "version" fields count = .ok (m.version, count) := by
    rw [Record.text, Reading.bind_of_ok (field_of_filter (hfilter "version" version rfl) count),
      text_of_spells hversion]
  have hlist : Record.items d (.sequence tag items) count = .ok (items, count) := rfl
  have hread : items.mapM (entryOfNode d) count = .ok (m.modules, count) :=
    Reading.mapM_of_forall₂ (hitems.imp fun n e hn ↦ entryOfNode_eq hn (hfs e)) count
  rw [ofNode, Reading.bind_of_ok (fields_of_spells hentries tag' count), Reading.bind_of_ok htext,
    Reading.bind_of_ok (field_of_filter (hfilter "modules" _ rfl) count),
    Reading.bind_of_ok hlist, Reading.bind_of_ok hread]
  rfl

end ApiManifest.Manifest
