import ApiManifest.Manifest.Validation
import ApiManifest.Proofs.Path.Lexical
import Mathlib.Data.List.Nodup
import Mathlib.Data.List.TakeWhile

/-!
Manifests with which nothing is wrong. They have the current format, every entry is valid by itself,
and no name is repeated (`Manifest.problems_eq_nil_iff`). The path of a valid entry ends in the file
name of its module (`Entry.pathMatches_iff`), whatever directories stand before it.
-/

set_option autoImplicit false
set_option relaxedAutoImplicit false

namespace ApiManifest

variable {name path : String}

/-! ### File names of modules -/

theorem isNameChar_of_mem (hname : isModuleName name = true) {c : Char} (hc : c ∈ name.toList) :
    isNameChar c = true := by
  rw [isModuleName, Bool.and_eq_true] at hname
  exact List.all_eq_true.mp hname.2 c hc

/-- The file name of a document is a name in a directory. -/
theorem isName_documentFilename (hname : isModuleName name = true) :
    Path.IsName (documentFilename name) := by
  have hsuffix : ∀ s : String, s.length < moduleSuffix.length → documentFilename name ≠ s := by
    rintro s hs rfl
    rw [documentFilename, String.length_append] at hs
    exact absurd hs (Nat.not_lt.mpr (Nat.le_add_left _ _))
  refine ⟨⟨hsuffix "" (by decide), fun hmem ↦ ?_⟩, hsuffix "." (by decide),
    hsuffix ".." (by decide)⟩
  rw [documentFilename, String.toList_append] at hmem
  rcases List.mem_append.mp hmem with hslash | hslash
  · exact absurd (isNameChar_of_mem hname hslash) (by decide)
  · exact absurd hslash (by decide)

/-- A document has the file name of one module only. -/
theorem documentFilename_injective : Function.Injective documentFilename := by
  intro name name' h
  have hlists : name.toList ++ moduleSuffix.toList = name'.toList ++ moduleSuffix.toList := by
    rw [← String.toList_append, ← String.toList_append]
    exact congrArg String.toList h
  exact String.ext (List.append_cancel_right hlists)

theorem moduleOfFilename?_documentFilename (hname : isModuleName name = true) :
    moduleOfFilename? (documentFilename name) = some name := by
  have hchars : ∀ c ∈ name.toList, isNameChar c = true := fun _ ↦ isNameChar_of_mem hname
  have hlist : (documentFilename name).toList = name.toList ++ moduleSuffix.toList := by
    rw [documentFilename, String.toList_append]
  have htake : moduleSuffix.toList.takeWhile isNameChar = [] := by decide
  have hdrop : moduleSuffix.toList.dropWhile isNameChar = moduleSuffix.toList := by decide
  have hnonempty : name.isEmpty = false := by
    rw [isModuleName, Bool.and_eq_true, Bool.not_eq_true'] at hname
    exact hname.1
  rw [moduleOfFilename?, hlist, List.takeWhile_append_of_pos hchars,
    List.dropWhile_append_of_pos hchars, htake, hdrop, List.append_nil, String.ofList_toList,
    hnonempty, bne_self_eq_false]
  rfl

/-- A module and the file name of its document determine each other. -/
theorem moduleOfFilename?_eq_some_iff {filename name : String} :
    moduleOfFilename? filename = some name ↔
      filename = documentFilename name ∧ isModuleName name = true := by
  constructor
  · intro h
    rw [moduleOfFilename?] at h
    split_ifs at h with hbad
    obtain rfl := Option.some.inj h
    simp only [Bool.or_eq_true, not_or, Bool.not_eq_true, bne_eq_false_iff_eq] at hbad
    obtain ⟨hname, hrest⟩ := hbad
    constructor
    · refine String.ext ?_
      rw [documentFilename, String.toList_append, String.toList_ofList, ← hrest,
        List.takeWhile_append_dropWhile]
    · rw [isModuleName, hname, String.toList_ofList]
      exact List.all_takeWhile
  · rintro ⟨rfl, hname⟩
    exact moduleOfFilename?_documentFilename hname

theorem stripSuffix?_append (s suffix : String) : stripSuffix? suffix (s ++ suffix) = some s := by
  have hsuffix : suffix.toList.isSuffixOf (s ++ suffix).toList = true := by
    rw [String.toList_append]
    exact List.isSuffixOf_iff_suffix.mpr (List.suffix_append _ _)
  rw [stripSuffix?, if_pos hsuffix, String.length_append, Nat.add_sub_cancel, String.toList_append,
    ← String.length_toList, List.take_left, String.ofList_toList]

theorem eq_append_of_stripSuffix? {suffix s : String} (h : stripSuffix? suffix s = some name) :
    s = name ++ suffix := by
  rw [stripSuffix?] at h
  split_ifs at h with hsuffix
  obtain ⟨front, hfront⟩ := List.isSuffixOf_iff_suffix.mp hsuffix
  have hlength : s.length - suffix.length = front.length := by
    rw [← String.length_toList, ← String.length_toList, ← hfront, List.length_append,
      Nat.add_sub_cancel]
  obtain rfl := Option.some.inj h
  refine String.ext ?_
  rw [hlength, String.toList_append, String.toList_ofList, ← hfront, List.take_left]

/-! ### Last segments -/

/-- A path without a slash is its own last segment. -/
theorem lastSegment_of_not_mem (h : '/' ∉ path.toList) : lastSegment path = path := by
  have hall : path.toList.reverse.takeWhile (· != '/') = path.toList.reverse := by
    refine List.takeWhile_eq_self_iff.mpr fun c hc ↦ bne_iff_ne.mpr ?_
    rintro rfl
    exact h (List.mem_reverse.mp hc)
  rw [lastSegment, hall, List.reverse_reverse, String.ofList_toList]

theorem lastSegment_documentFilename (hname : isModuleName name = true) :
    lastSegment (documentFilename name) = documentFilename name :=
  lastSegment_of_not_mem (isName_documentFilename hname).noSlash

theorem lastSegment_append_slash (p q : String) : lastSegment (p ++ "/" ++ q) = lastSegment q := by
  have hlist : (p ++ "/" ++ q).toList.reverse = q.toList.reverse ++ '/' :: p.toList.reverse := by
    simp
  rw [lastSegment, lastSegment, hlist, List.takeWhile_append]
  split_ifs with hall
  · have hself := (List.takeWhile_prefix (· != '/')).eq_of_length hall
    rw [List.takeWhile_cons_of_neg (by simp), List.append_nil, hself]
  · rfl

/-- The last part of a path is looked at alone. -/
theorem lastSegment_intercalate (parts : List String) (s : String) :
    lastSegment ("/".intercalate (parts ++ [s])) = lastSegment s := by
  induction parts with
  | nil => rw [List.nil_append, String.intercalate_singleton]
  | cons part parts ih =>
    rw [List.cons_append, String.intercalate_cons_of_ne_nil (by simp), lastSegment_append_slash, ih]

/-! ### Valid entries -/

theorem Entry.pathMatches_iff {e : Entry} :
    e.pathMatches = true ↔ lastSegment e.path = documentFilename e.name := by
  rw [pathMatches, beq_iff_eq]
  constructor
  · exact eq_append_of_stripSuffix?
  · intro h
    rw [h]
    exact stripSuffix?_append e.name moduleSuffix

/-- Holds of an entry with which nothing is wrong by itself. -/
structure Entry.IsValid (e : Entry) : Prop where
  name : isModuleName e.name = true
  url : Text.AllBlank e.url = false
  path : e.pathMatches = true

/-- The path of a valid entry ends in the file name of its module. -/
theorem Entry.IsValid.lastSegment_path {e : Entry} (he : e.IsValid) :
    lastSegment e.path = documentFilename e.name :=
  pathMatches_iff.mp he.path

theorem Entry.problems_eq_nil_iff {taken : List String} {e : Entry}
    (hname : isModuleName e.name = true) :
    e.problems taken = [] ↔ e.IsValid ∧ e.name ∉ taken := by
  rw [problems, List.append_eq_nil_iff, List.append_eq_nil_iff]
  simp only [ite_eq_left_iff, ite_eq_right_iff, List.contains_iff_mem, List.cons_ne_nil, imp_false,
    Bool.not_eq_true]
  constructor
  · rintro ⟨⟨hnew, hurl⟩, hpath⟩
    exact ⟨⟨hname, hurl, by simpa using hpath⟩, hnew⟩
  · rintro ⟨⟨-, hurl, hpath⟩, hnew⟩
    exact ⟨⟨hnew, hurl⟩, by simpa using hpath⟩

theorem entryProblems_eq_nil_iff {taken : List String} {entries : List Entry} :
    entryProblems taken entries = [] ↔ (∀ e ∈ entries, e.IsValid) ∧
      (entries.map (·.name)).Nodup ∧ ∀ e ∈ entries, e.name ∉ taken := by
  induction entries generalizing taken with
  | nil => simp [entryProblems]
  | cons e entries ih =>
    rw [entryProblems, List.map_cons, List.nodup_cons, List.forall_mem_cons, List.forall_mem_cons]
    split_ifs with hname
    · rw [List.append_eq_nil_iff, Entry.problems_eq_nil_iff hname, ih]
      simp only [List.mem_cons, not_or, List.mem_map, not_exists, not_and]
      constructor
      · rintro ⟨⟨hvalid, hnew⟩, hrest, hnodup, hfresh⟩
        exact ⟨⟨hvalid, hrest⟩, ⟨fun e' he' ↦ (hfresh e' he').1, hnodup⟩, hnew,
          fun e' he' ↦ (hfresh e' he').2⟩
      · rintro ⟨⟨hvalid, hrest⟩, ⟨hother, hnodup⟩, hnew, hfresh⟩
        exact ⟨⟨hvalid, hnew⟩, hrest, hnodup, fun e' he' ↦ ⟨hother e' he', hfresh e' he'⟩⟩
    · refine iff_of_false (by simp) ?_
      rintro ⟨⟨hvalid, -⟩, -⟩
      exact hname hvalid.name

/-- Nothing is wrong with a manifest of the current format whose entries are valid and have
different names, and with no other. -/
theorem Manifest.problems_eq_nil_iff {m : Manifest} :
    m.problems = [] ↔ m.version = formatVersion ∧ (∀ e ∈ m.modules, e.IsValid) ∧
      (m.modules.map (·.name)).Nodup := by
  rw [problems]
  split_ifs with hversion
  · rw [entryProblems_eq_nil_iff]
    simp [hversion]
  · simp [hversion]

/-! ### Finding entries -/

theorem Manifest.find?_eq_some {m : Manifest} {e : Entry} (h : m.find? name = some e) :
    e ∈ m.modules ∧ e.name = name :=
  ⟨List.mem_of_find?_eq_some h, beq_iff_eq.mp (List.find?_some h :)⟩

theorem Manifest.find?_eq_none_iff {m : Manifest} :
    m.find? name = none ↔ ∀ e ∈ m.modules, e.name ≠ name := by
  rw [find?, List.find?_eq_none]
  simp only [beq_iff_eq]

/-- Where names are different, an entry is found under its name. -/
theorem Manifest.find?_of_mem {m : Manifest} (hnames : (m.modules.map (·.name)).Nodup) {e : Entry}
    (he : e ∈ m.modules) : m.find? e.name = some e := by
  obtain ⟨e', hfind⟩ : ∃ e', m.find? e.name = some e' :=
    Option.isSome_iff_exists.mp (List.find?_isSome.mpr ⟨e, he, beq_self_eq_true e.name⟩)
  obtain ⟨hmem, hname⟩ := find?_eq_some hfind
  rw [hfind, List.inj_on_of_nodup_map hnames hmem he hname]

theorem Manifest.valid_of_problems {m : Manifest} (h : m.problems = []) :
    ∀ e ∈ m.modules, isModuleName e.name = true ∧ e.pathMatches = true := fun e he ↦
  let hvalid := (problems_eq_nil_iff.mp h).2.1 e he
  ⟨hvalid.name, hvalid.path⟩

end ApiManifest
