import ApiManifest.Proofs.Discovery.Partition
import ApiManifest.Proofs.Yaml.Fields
import ApiManifest.Proofs.Yaml.Numbers

/-!
The version of a module whose document gives it as a plain scalar that stands for a number. It is
the text of that number (`version_of_number`), which stands for the same number and is the scalar as
it is written only where that is how the number is spelled in JSON: `2.0` stays, and `1.10` becomes
`1.1`.
-/

set_option autoImplicit false
set_option relaxedAutoImplicit false

namespace ApiManifest

open Files Number Yaml Yaml.Value

namespace Yaml.Document

/-- Holds of a scalar that counts as the text of a field: it stands for something other than null,
and for no infinity or NaN. -/
def Counts (d : Document) (m : Node) : Prop :=
  ∃ tag style s a, d.resolve m = .scalar tag style s ∧ atomOfScalar tag style s = .ok a ∧
    a ≠ .null ∧ ∀ x, a = .float x → x.isFinite = true

/-- Holds of the node that the version of a module is taken from: the field of the extension in
`info` if it counts, and the plain one if none does. -/
inductive ResolvesVersion (d : Document) (extension : String) (m : Node) : Prop
  | extended {info : Node} (hinfo : d.IsField d.root "info" info)
      (hm : d.IsField info (extension ++ "-version") m) (hcounts : d.Counts m) :
      ResolvesVersion d extension m
  | plain {info : Node} (hinfo : d.IsField d.root "info" info)
      (hother : ∀ m', d.HasField info (extension ++ "-version") m' → ¬ d.Counts m')
      (hm : d.IsField info "version" m) : ResolvesVersion d extension m

variable {d : Document} {m n : Node} {v : Value} {j : Json} {tag : Option Tag}
  {style : ScalarStyle} {s : String}

/-! ### Scalars as texts -/

theorem not_yields_tagged {name : String} : ¬ Yields (.tagged name v) j := by
  intro h
  cases isYield_of_yields h with
  | atom hv _ => exact absurd rfl ((ne_of_ofAtom hv).2.2 _ _)

theorem yields_of_underTag {tag : Option Tag} (h : Yields (underTag tag v) j) : Yields v j := by
  rw [underTag] at h
  split at h
  · exact absurd h not_yields_tagged
  · exact h

theorem jsonOfAtom_of_yields {s : String} {a : Atom} (hv : ofAtom s a = .ok v) (hj : Yields v j) :
    jsonOfAtom s a = .ok j := by
  obtain ⟨w, hw, hj⟩ := hj
  obtain rfl : v = w := Except.ok.inj ((mergeWithin_of_ofAtom hv v.depth).symm.trans hw)
  exact (toJsonWithin_of_ofAtom hv v.depth).symm.trans hj

/-- A scalar becomes what it stands for. -/
theorem exists_atom_of_yields (hn : d.resolve n = .scalar tag style s) (hv : d.Stands n v)
    (hj : Yields v j) :
    ∃ a, atomOfScalar tag style s = .ok a ∧ jsonOfAtom s a = .ok j := by
  obtain ⟨depth, i, i', hread⟩ := exists_isRead hv
  rw [hn] at hread
  cases hread with
  | scalar _ hatom =>
    obtain ⟨a, ha, hw⟩ := except_bind_eq_ok_iff.mp hatom
    exact ⟨a, ha, jsonOfAtom_of_yields hw (yields_of_underTag hj)⟩

/-- A list or a mapping has no text. -/
theorem exists_scalar_of_scalarText? (hv : d.Stands n v) (hj : Yields v j)
    (h : (scalarText? j).isSome = true) :
    ∃ tag style s, d.resolve n = .scalar tag style s := by
  obtain ⟨depth, i, i', hread⟩ := exists_isRead hv
  generalize d.resolve n = c at hread ⊢
  cases hread with
  | scalar _ _ => exact ⟨_, _, _, rfl⟩
  | sequence _ =>
    cases isYield_of_yields (yields_of_underTag hj) with
    | atom hv _ => exact absurd rfl ((ne_of_ofAtom hv).1 _)
    | seq _ => exact absurd h Bool.false_ne_true
  | mapping _ =>
    cases isYield_of_yields (yields_of_underTag hj) with
    | atom hv _ => exact absurd rfl ((ne_of_ofAtom hv).2.1 _)
    | map _ _ => exact absurd h Bool.false_ne_true

theorem isSome_scalarText?_of_jsonOfAtom {a : Atom} (h : jsonOfAtom s a = .ok j) :
    (scalarText? j).isSome = true ↔ a ≠ .null ∧ ∀ x, a = .float x → x.isFinite = true := by
  cases a with
  | wide => exact absurd h (by simp [jsonOfAtom])
  | float x =>
    rw [← Except.ok.inj h, jsonOfDouble, FiniteDouble.of?]
    by_cases hx : x.isFinite = true
    · simp [hx, scalarText?]
    · simp [hx, scalarText?]
  | _ =>
    rw [← Except.ok.inj h]
    simp [scalarText?]

/-- What a node becomes has a text exactly when the node counts. -/
theorem isSome_scalarText?_iff (hv : d.Stands n v) (hj : Yields v j) :
    (scalarText? j).isSome = true ↔ d.Counts n := by
  constructor
  · intro h
    obtain ⟨tag, style, s, hn⟩ := exists_scalar_of_scalarText? hv hj h
    obtain ⟨a, ha, hatom⟩ := exists_atom_of_yields hn hv hj
    obtain ⟨hnull, hfinite⟩ := (isSome_scalarText?_of_jsonOfAtom hatom).mp h
    exact ⟨tag, style, s, a, hn, ha, hnull, hfinite⟩
  · rintro ⟨tag, style, s, a, hn, ha, hcounts⟩
    obtain ⟨a', ha', hatom⟩ := exists_atom_of_yields hn hv hj
    obtain rfl := Except.ok.inj (ha.symm.trans ha')
    exact (isSome_scalarText?_of_jsonOfAtom hatom).mpr hcounts

theorem Stands.isProper (h : d.Stands n v) : IsProper v := by
  obtain ⟨depth, i, i', hread⟩ := h
  exact isProper_of_ofNode hread

/-- What becomes an object is a mapping. -/
theorem exists_map_of_yields_obj {fields : Dictionary Json} (h : Yields v (.obj fields)) :
    ∃ es, v = .map es := by
  cases isYield_of_yields h with
  | @atom s a _ _ hv hj =>
    exact absurd .here (not_object_of_jsonOfAtom hj)
  | map _ _ => exact ⟨_, rfl⟩

end Yaml.Document

/-- The fields that a header is read from. -/
theorem Header.exists_fields_of_ofDocument {extension : String} {v : Json} {header : Header}
    (h : ofDocument extension v = .ok header) :
    ∃ fields info : Dictionary Json, v = .obj fields ∧ fields.find? "info" = some (.obj info) ∧
      header.info = .ofFields extension info := by
  obtain ⟨fields, rfl⟩ := exists_obj_of_header h
  rw [ofDocument] at h
  split at h
  · cases h
  split_ifs at h
  split at h
  · rename_i info hinfo
    rw [← Except.ok.inj h]
    exact ⟨fields, info, rfl, hinfo, rfl⟩
  · cases h

theorem loadDocument_eq_ok_iff {d : Disk} {path : String} {v : Json} :
    loadDocument d path = .ok v ↔ ∃ text, d.readText path = .ok text ∧ jsonOfText text = .ok v := by
  rw [loadDocument]
  cases d.readText path with
  | error cause => simp
  | ok text =>
    cases hread : jsonOfText text with
    | error cause => simp [hread]
    | ok document => simp [hread]

open Yaml.Document

/-- The version that is taken from a scalar is the text of what it stands for. -/
theorem resolvedVersion_of_scalar {extension text : String} {d : Document} {v : Json}
    {header : Header} {m : Node} {tag : Option Tag} {style : ScalarStyle} {s : String}
    (hdocument : Document.ofText text = .ok (some d)) (hread : jsonOfText text = .ok v)
    (hheader : Header.ofDocument extension v = .ok header) (hm : d.ResolvesVersion extension m)
    (hscalar : d.resolve m = .scalar tag style s) :
    ∃ a j, atomOfScalar tag style s = .ok a ∧ jsonOfAtom s a = .ok j ∧
      header.info.resolvedVersion = (scalarText? j).getD "" := by
  obtain ⟨document, root, w, hdocument', hroot, hw, hj⟩ := jsonOfText_eq_ok_iff.mp hread
  obtain rfl := Except.ok.inj (hdocument.symm.trans hdocument')
  obtain ⟨n, hroot⟩ := Reading.run_eq_ok_iff.mp hroot
  have hstands : d.Stands d.root root := ⟨_, _, _, hroot⟩
  obtain ⟨fields, info, rfl, hinfo, hfields⟩ := Header.exists_fields_of_ofDocument hheader
  have hyields : Yields root (.obj fields) := ⟨w, hw, hj⟩
  obtain ⟨es, rfl⟩ := exists_map_of_yields_obj hyields
  -- What is known of a field of the root holds of the fields of its `info`.
  have hinside {n : Node} (hn : d.IsField d.root "info" n) :
      ∃ es, d.Stands n (.map es) ∧ IsProper (.map es) ∧ Yields (.map es) (.obj info) := by
    obtain ⟨u, j, hu, hyields', hj⟩ := hn.find? hstands hstands.isProper hyields
    obtain rfl := Option.some.inj (hinfo.symm.trans hj)
    obtain ⟨es, rfl⟩ := exists_map_of_yields_obj hyields'
    exact ⟨es, hu, hu.isProper, hyields'⟩
  rw [hfields]
  cases hm with
  | extended hn hm hcounts =>
    obtain ⟨es, hstands, hproper, hyields⟩ := hinside hn
    obtain ⟨u, j, hu, hyields', hj⟩ := hm.find? hstands hproper hyields
    obtain ⟨a, ha, hatom⟩ := exists_atom_of_yields hscalar hu hyields'
    obtain ⟨version, hversion⟩ :=
      Option.isSome_iff_exists.mp ((isSome_scalarText?_iff hu hyields').mpr hcounts)
    refine ⟨a, j, ha, hatom, ?_⟩
    simp [Info.resolvedVersion, Info.ofFields, hj, hversion]
  | plain hn hother hm =>
    obtain ⟨es, hstands, hproper, hyields⟩ := hinside hn
    obtain ⟨u, j, hu, hyields', hj⟩ := hm.find? hstands hproper hyields
    obtain ⟨a, ha, hatom⟩ := exists_atom_of_yields hscalar hu hyields'
    have hnone : (info.find? (extension ++ "-version")).bind scalarText? = none := by
      cases hfind : info.find? (extension ++ "-version") with
      | none => rfl
      | some j' =>
        obtain ⟨m', u', hm', hu', hj'⟩ := exists_hasField_of_find? hstands hproper hyields hfind
        rw [Option.bind_some, ← Option.not_isSome_iff_eq_none, isSome_scalarText?_iff hu' hj']
        exact hother m' hm'
    refine ⟨a, j, ha, hatom, ?_⟩
    simp [Info.resolvedVersion, Info.ofFields, hj, hnone]

/-- Holds of the version that comes of a scalar which stands for a number. It is the text of that
number, and has the number as its own meaning; a scalar that is neither infinite nor NaN is its own
text if it is spelled so, and only then. -/
structure TellsNumber (spelled : String) (a : Atom) (version : String) : Prop where
  whole : ∀ n : Whole, a = .int n → version = integerText n.val ∧ atomOfPlain version = .int n ∧
    (version = spelled ↔ IsPlainInteger spelled.toList)
  double : ∀ x, a = .float x → x.isFinite = true →
    version = jsonLayout.text x ∧ atomOfPlain version = .float x ∧ IsStandardText version ∧
      (IsShortText spelled → (version = spelled ↔ IsStandardText spelled))
  other : ∀ x, a = .float x → x.isFinite = false → version = ""

theorem tellsNumber_of_jsonOfAtom {tag : Option Tag} {spelled : String} {a : Atom} {j : Json}
    (ha : atomOfScalar tag .plain spelled = .ok a) (hj : jsonOfAtom spelled a = .ok j) :
    TellsNumber spelled a ((scalarText? j).getD "") := by
  refine ⟨?_, ?_, ?_⟩
  · rintro n rfl
    rw [← Except.ok.inj hj]
    exact ⟨rfl, atomOfPlain_integerText n, integerText_eq_iff_of_scalar ha⟩
  · rintro x rfl hx
    have htext : (scalarText? j).getD "" = jsonLayout.text x := by
      rw [← Except.ok.inj hj, jsonOfDouble, FiniteDouble.of?, dif_pos hx]
      rfl
    rw [htext]
    exact ⟨rfl, atomOfPlain_text hx, isStandardText_text hx, text_eq_iff_of_scalar ha hx⟩
  · rintro x rfl hx
    rw [← Except.ok.inj hj, jsonOfDouble, FiniteDouble.of?,
      dif_neg (Bool.eq_false_iff.mp hx)]
    rfl

/-- A document with a header is no empty text. -/
theorem exists_document_of_header {extension text : String} {v : Json} {header : Header}
    (hread : jsonOfText text = .ok v) (hheader : Header.ofDocument extension v = .ok header) :
    ∃ d, Document.ofText text = .ok (some d) := by
  obtain ⟨document, root, w, hdocument, hroot, hw, hj⟩ := jsonOfText_eq_ok_iff.mp hread
  cases document with
  | some d => exact ⟨d, hdocument⟩
  | none =>
    obtain ⟨fields, info, rfl, -⟩ := Header.exists_fields_of_ofDocument hheader
    obtain ⟨es, rfl⟩ := exists_map_of_yields_obj ⟨w, hw, hj⟩
    exact nomatch hroot

/-- The version of a module whose document gives it as a plain scalar that stands for a number. -/
theorem version_of_number {d : Disk} {s : Search} {found : Discovery} {e : Entry}
    (h : discover d s = .ok found) (he : e ∈ found.manifest.modules) :
    ∃ text document, d.readText (Path.join s.source (documentFilename e.name)) = .ok text ∧
      Document.ofText text = .ok (some document) ∧
      ∀ m tag spelled, document.ResolvesVersion s.extension m →
        document.resolve m = .scalar tag .plain spelled →
        ∃ a, atomOfScalar tag .plain spelled = .ok a ∧ TellsNumber spelled a e.version := by
  obtain ⟨v, hmodule, -⟩ := exists_moduleAt_of_discover h he
  obtain ⟨hload, header, hheader, hentry⟩ := Discovery.moduleAt_eq_ok_iff.mp hmodule
  have hversion : e.version = header.info.resolvedVersion := congrArg Entry.version hentry
  obtain ⟨text, htext, hread⟩ := loadDocument_eq_ok_iff.mp hload
  obtain ⟨document, hdocument⟩ := exists_document_of_header hread hheader
  refine ⟨text, document, htext, hdocument, fun m tag spelled hm hscalar ↦ ?_⟩
  obtain ⟨a, j, ha, hj, hresolved⟩ := resolvedVersion_of_scalar hdocument hread hheader hm hscalar
  rw [hversion, hresolved]
  exact ⟨a, ha, tellsNumber_of_jsonOfAtom ha hj⟩

/-- The text of a document whose version is spelled with a zero at its end. -/
def trailingText : String := "$id: u\ninfo:\n  version: 1.10\n"

/-- The node of its `info`. -/
def trailingInfo : Node :=
  .mapping none [(.scalar none .plain "version", .scalar none .plain "1.10")]

/-- The text as a document. -/
def trailingDocument : Document :=
  ⟨.mapping none [(.scalar none .plain "$id", .scalar none .plain "u"),
    (.scalar none .plain "info", trailingInfo)], {}, []⟩

/-- A directory with that document alone. -/
def trailingDisk : Disk :=
  ⟨.directory [(Text.octets "a.openapi.yaml", .file (Text.octets trailingText))], []⟩

theorem discover_trailingDisk : ∃ found, discover trailingDisk ⟨".", ".", "x"⟩ = .ok found ∧
    found.manifest.modules = [⟨"a", "u", "a.openapi.yaml", "1.1", "", ""⟩] := by
  have hnames : Discovery.listNames trailingDisk "." = .ok ["a.openapi.yaml"] :=
    Discovery.listNames_of_list rfl
  have hmodules : (discover trailingDisk ⟨".", ".", "x"⟩).toOption.map (·.manifest.modules) =
      some [⟨"a", "u", "a.openapi.yaml", "1.1", "", ""⟩] := by
    rw [discover, hnames]
    decide +kernel
  obtain ⟨found, hfound, hmodules⟩ := Option.map_eq_some_iff.mp hmodules
  refine ⟨found, ?_, hmodules⟩
  revert hfound
  cases discover trailingDisk ⟨".", ".", "x"⟩ <;> simp [Except.toOption]

theorem hasField_trailingInfo (name : String) (m : Node) :
    trailingDocument.HasField trailingInfo name m ↔
      name = "version" ∧ m = .scalar none .plain "1.10" := by
  rw [hasField_iff_of_plain rfl (List.forall_mem_singleton.mpr ⟨"version", rfl, rfl, by decide⟩)]
  simp

theorem hasField_trailingDocument (name : String) (m : Node) :
    trailingDocument.HasField trailingDocument.root name m ↔
      name = "$id" ∧ m = .scalar none .plain "u" ∨ name = "info" ∧ m = trailingInfo := by
  rw [hasField_iff_of_plain rfl (List.forall_mem_cons.mpr ⟨⟨"$id", rfl, rfl, by decide⟩,
    List.forall_mem_singleton.mpr ⟨"info", rfl, rfl, by decide⟩⟩)]
  simp

theorem resolvesVersion_trailing :
    trailingDocument.ResolvesVersion "x" (.scalar none .plain "1.10") := by
  have hinfo : trailingDocument.IsField trailingDocument.root "info" trailingInfo :=
    ⟨(hasField_trailingDocument _ _).mpr (.inr ⟨rfl, rfl⟩),
      fun m hm ↦ by simpa using (hasField_trailingDocument _ _).mp hm⟩
  have hversion : trailingDocument.IsField trailingInfo "version" (.scalar none .plain "1.10") :=
    ⟨(hasField_trailingInfo _ _).mpr ⟨rfl, rfl⟩,
      fun m hm ↦ ((hasField_trailingInfo _ _).mp hm).2⟩
  refine .plain hinfo (fun m hm ↦ ?_) hversion
  exact absurd ((hasField_trailingInfo _ _).mp hm).1 (by decide)

/-- The zero at the end is lost, and nothing else of the number. -/
theorem version_of_number_trailing : ∃ found e,
    discover trailingDisk ⟨".", ".", "x"⟩ = .ok found ∧ e ∈ found.manifest.modules ∧
      trailingDocument.ResolvesVersion "x" (.scalar none .plain "1.10") ∧
      TellsNumber "1.10" (atomOfPlain "1.10") e.version ∧ e.version = "1.1" := by
  obtain ⟨found, hfound, hmodules⟩ := discover_trailingDisk
  have he : ⟨"a", "u", "a.openapi.yaml", "1.1", "", ""⟩ ∈ found.manifest.modules :=
    hmodules ▸ List.mem_singleton_self _
  obtain ⟨text, document, htext, hdocument, hversion⟩ := version_of_number hfound he
  obtain rfl : trailingText = text := Except.ok.inj (Eq.trans rfl htext)
  obtain rfl : trailingDocument = document :=
    Option.some.inj (Except.ok.inj (Eq.trans rfl hdocument))
  obtain ⟨a, ha, htells⟩ := hversion _ none "1.10" resolvesVersion_trailing rfl
  obtain rfl : atomOfPlain "1.10" = a := Except.ok.inj ha
  exact ⟨found, _, hfound, he, resolvesVersion_trailing, htells, rfl⟩

end ApiManifest
