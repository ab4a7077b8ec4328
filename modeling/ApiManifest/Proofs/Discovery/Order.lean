import ApiManifest.Proofs.Discovery.Faults
import ApiManifest.Proofs.Files.Alike

/-!
What a search depends on. It sees the names in its directory, the texts of its documents and where
it is made from, and nothing else (`discover_of_seesSame`): not the order in which the system lists
the names, and not what stands under a name that is no document's. It fails exactly where something
is wrong with a document, and then at the document whose file name comes first (`discover_order`).
-/

set_option autoImplicit false
set_option relaxedAutoImplicit false

namespace ApiManifest

open Files

namespace Discovery

variable {d d' : Disk} {s : Search} {names : List String} {raw raw' : List Name}
  {failure failure' : Failure} {filename : String} {found : Findings}

/-! ### What a search sees -/

/-- Holds of two disks of which a search sees the same: the directory from which it is made, the
names in the source directory, in whatever order, and the texts of the documents among them. -/
structure SeesSame (s : Search) (d d' : Disk) : Prop where
  cwd : d'.cwd = d.cwd
  listed : (∃ cause, d.list s.source = .error cause ∧ d'.list s.source = .error cause) ∨
    ∃ raw raw', d.list s.source = .ok raw ∧ d'.list s.source = .ok raw' ∧ raw.Perm raw'
  documents : ∀ raw filename, d.list s.source = .ok raw → Text.octets filename ∈ raw →
    isDocument filename = true →
      d'.readText (Path.join s.source filename) = d.readText (Path.join s.source filename)

/-- Names are sorted the same in whatever order they come. -/
theorem sorted_of_perm {names' : List String} (h : names.Perm names') :
    sorted names' = sorted names :=
  sorted_eq (h.symm.trans (List.mergeSort_perm _ _).symm) (pairwise_sorted _)

/-- The file name of a document is listed as it is shown. -/
theorem octets_mem_iff (hdocument : isDocument filename = true) :
    Text.octets filename ∈ raw ↔ filename ∈ sorted (raw.map Text.textLossy) := by
  rw [sorted, List.mem_mergeSort, List.mem_map]
  constructor
  · exact fun hmem ↦ ⟨_, hmem, Text.textLossy_octets filename⟩
  · rintro ⟨n, hn, rfl⟩
    rwa [Text.octets_textLossy (not_mem_of_isDocument hdocument)]

/-- A step looks at nothing but the text of a document. -/
theorem Findings.take_of_readText (hcwd : d'.cwd = d.cwd)
    (h : isDocument filename = true →
      d'.readText (Path.join s.source filename) = d.readText (Path.join s.source filename)) :
    found.take d' s filename = found.take d s filename := by
  cases hdocument : isDocument filename with
  | false => rw [take_of_not_isDocument hdocument, take_of_not_isDocument hdocument]
  | true =>
    rw [take, take]
    simp only [moduleAt_of_readText hcwd (h hdocument)]

theorem foldlM_take_of_readText (found : Findings) (hcwd : d'.cwd = d.cwd)
    (h : ∀ filename ∈ names, isDocument filename = true →
      d'.readText (Path.join s.source filename) = d.readText (Path.join s.source filename)) :
    names.foldlM (Findings.take d' s) found = names.foldlM (Findings.take d s) found := by
  induction names generalizing found with
  | nil => rfl
  | cons filename names ih =>
    obtain ⟨hfirst, hrest⟩ := List.forall_mem_cons.mp h
    simp only [List.foldlM_cons, Findings.take_of_readText hcwd hfirst, fun found ↦ ih found hrest]

/-- A search that sees the same has the same result. -/
theorem discover_of_seesSame (h : SeesSame s d d') : discover d' s = discover d s := by
  rcases h.listed with ⟨cause, hlist, hlist'⟩ | ⟨raw, raw', hlist, hlist', hperm⟩
  · rw [discover_of_not_listed hlist, discover_of_not_listed hlist']
  · have hsame := foldlM_take_of_readText .empty h.cwd
      fun filename hmem hdocument ↦ h.documents raw filename hlist
        ((octets_mem_iff hdocument).mpr hmem) hdocument
    rw [discover, discover, listNames_of_ok hlist, listNames_of_ok hlist',
      sorted_of_perm (hperm.map Text.textLossy)]
    dsimp only
    rw [hsame]

/-- Disks that are the same but for the order of names look the same to every search. -/
theorem seesSame_of_alike (h : d.Alike d') (s : Search) : SeesSame s d d' where
  cwd := h.cwd
  listed := Disk.list_of_alike (h.resolve _) fun l _ ↦ h.views l
  documents := fun _ _ _ _ _ ↦ Disk.readText_of_alike (h.resolve _) fun l _ ↦ h.views l

/-- Holds of two disks with the same source directory in the same place: it lists the same names in
both, in whatever order, and what stands there under the file name of a document is the same, unless
it is a link, which then has to lead to the same text. -/
structure SameDocuments (s : Search) (d d' : Disk) (place : Location) : Prop where
  cwd : d'.cwd = d.cwd
  source : d.locate s.source = some place
  source' : d'.locate s.source = some place
  names : d.tree.AlikeAt d'.tree place
  documents : ∀ raw filename, d.list s.source = .ok raw → Text.octets filename ∈ raw →
    isDocument filename = true → d.tree.AlikeAt d'.tree (Text.octets filename :: place) ∧
      ∀ target, d.tree.kind? (Text.octets filename :: place) = some (.link target) →
        d'.readText (Path.join s.source filename) = d.readText (Path.join s.source filename)

/-- Whatever stands under other names, and elsewhere, is not seen. -/
theorem SameDocuments.seesSame {place : Location} (h : SameDocuments s d d' place) :
    SeesSame s d d' := by
  have hresolve : resolve d'.tree .look d'.cwd s.source = resolve d.tree .look d.cwd s.source := by
    rw [Disk.locate_eq_some_iff.mp h.source, Disk.locate_eq_some_iff.mp h.source']
  have hlisted := Disk.list_of_alike hresolve fun l hl ↦ by
    rw [← Option.some.inj (h.source.symm.trans hl)]
    exact h.names
  refine ⟨h.cwd, hlisted, fun raw filename hlist hmem hdocument ↦ ?_⟩
  obtain ⟨hsame, hlink⟩ := h.documents raw filename hlist hmem hdocument
  by_cases hfollow : ∃ target, d.tree.kind? (Text.octets filename :: place) = some (.link target)
  · obtain ⟨target, htarget⟩ := hfollow
    exact hlink target htarget
  have hdir : d.tree.kind? place = some .directory := by
    obtain ⟨l, hl, hview⟩ := Disk.list_eq_ok_iff.mp hlist
    rw [Option.some.inj (h.source.symm.trans hl), Tree.kind?_eq_directory_iff]
    exact ⟨raw, hview⟩
  have hname : Path.IsName filename := by
    obtain ⟨name, rfl, hvalid⟩ := exists_name_of_isDocument hdocument
    exact isName_documentFilename hvalid
  have hnul : '\x00' ∉ filename.toList := fun hmem ↦
    absurd (mem_of_isDocument hdocument hmem) (by decide)
  have hjoin := Disk.resolve_join h.source hdir hname hnul (not_exists.mp hfollow)
  have hjoin' := Disk.resolve_join h.source' (h.names.kind?.trans hdir) hname hnul
    (by rw [hsame.kind?]; exact not_exists.mp hfollow)
  rw [hsame.kind?, ← hjoin] at hjoin'
  refine Disk.readText_of_alike hjoin' fun l hl ↦ ?_
  -- What is found under the file name stands in its place in the source directory.
  rw [Disk.locate_eq_some_iff, hjoin] at hl
  split_ifs at hl
  · rw [← Reached.found.inj (Except.ok.inj hl)]
    exact hsame
  · cases hl

/-! ### Where a search fails -/

/-- Only one failure tells of what is wrong with a document. -/
theorem Fault.eq (h : Fault d (Path.join s.source filename) failure)
    (h' : Fault d (Path.join s.source filename) failure') : failure = failure' := by
  have hmodule : moduleAt d s "" filename = .error failure := moduleAt_eq_error_iff.mpr h
  exact Except.error.inj (hmodule.symm.trans (moduleAt_eq_error_iff.mpr h'))

/-- Holds of the document at which a search of the listed names fails, with its failure: something
is wrong with it, and with no document whose file name comes before. -/
structure FailsAt (d : Disk) (s : Search) (raw : List Name) (filename : String)
    (failure : Failure) : Prop where
  listed : Text.octets filename ∈ raw
  document : isDocument filename = true
  fault : Fault d (Path.join s.source filename) failure
  first : ∀ other failure', Text.octets other ∈ raw → isDocument other = true →
    Fault d (Path.join s.source other) failure' → Text.octets filename ≤ Text.octets other

/-- A document with which something is wrong makes a search fail. -/
theorem exists_failure_of_fault (hlist : d.list s.source = .ok raw)
    (hmem : Text.octets filename ∈ raw) (hdocument : isDocument filename = true)
    (hfault : Fault d (Path.join s.source filename) failure') :
    ∃ failure, discover d s = .error failure := by
  cases h : discover d s with
  | error failure => exact ⟨failure, rfl⟩
  | ok found =>
    obtain ⟨v, header, hload, hheader⟩ := exists_header_of_discover h (listNames_of_ok hlist)
      ((octets_mem_iff hdocument).mp hmem) hdocument
    have hmodule : ∃ t, moduleAt d s "" filename = .ok t :=
      ⟨_, moduleAt_eq_ok_iff.mpr ⟨hload, header, hheader, rfl⟩⟩
    rw [moduleAt_eq_error_iff.mpr hfault] at hmodule
    exact nomatch hmodule

/-- A search that fails fails at the first document with which something is wrong. -/
theorem exists_failsAt (hlist : d.list s.source = .ok raw) (hraw : raw.Nodup)
    (h : discover d s = .error failure) : ∃ filename, FailsAt d s raw filename failure := by
  obtain ⟨before, filename, after, taken, hnames, hdocument, htakes, hfault⟩ :=
    exists_fault_of_foldlM (nodup_documents hraw) ((discover_eq_error_iff hlist).mp h)
  have hsorted := pairwise_sorted (raw.map Text.textLossy)
  rw [hnames, List.pairwise_append, List.pairwise_cons] at hsorted
  refine ⟨filename, ?_, hdocument, hfault, fun other failure' hother hother' hfault' ↦ ?_⟩
  · rw [octets_mem_iff hdocument, hnames]
    exact List.mem_append_right _ List.mem_cons_self
  · rw [octets_mem_iff hother', hnames, List.mem_append, List.mem_cons] at hother
    rw [Text.octets_le_iff]
    rcases hother with hbefore | rfl | hafter
    · -- A document before it has been taken, so that nothing is wrong with that one.
      have hmem : other ∈ before.filter isDocument := List.mem_filter.mpr ⟨hbefore, hother'⟩
      rw [htakes.filenames] at hmem
      obtain ⟨t, ht, rfl⟩ := List.mem_map.mp hmem
      exact nomatch (moduleAt_eq_error_iff.mpr hfault').symm.trans (htakes.modules t ht)
    · exact String.le_refl _
    · exact hsorted.2.1.1 other hafter

theorem discover_eq_error_iff_failsAt (hlist : d.list s.source = .ok raw) (hraw : raw.Nodup) :
    discover d s = .error failure ↔ ∃ filename, FailsAt d s raw filename failure := by
  refine ⟨exists_failsAt hlist hraw, ?_⟩
  rintro ⟨filename, h⟩
  obtain ⟨failure', hfailure'⟩ := exists_failure_of_fault hlist h.listed h.document h.fault
  obtain ⟨filename', h'⟩ := exists_failsAt hlist hraw hfailure'
  have hle := Text.octets_le_iff.mp (h.first _ _ h'.listed h'.document h'.fault)
  have hge := Text.octets_le_iff.mp (h'.first _ _ h.listed h.document h.fault)
  obtain rfl := String.le_antisymm hle hge
  rw [hfailure', h'.fault.eq h.fault]

end Discovery

/-- A search has the same result in whatever order the system lists names, and whatever stands under
a name that is no document's. It fails where its directory cannot be listed, or else exactly where
something is wrong with a document, at the one among these whose file name has the smallest octets.
-/
theorem discover_order {d : Disk} {s : Search}
    (hdistinct : ∀ raw, d.list s.source = .ok raw → raw.Nodup) :
    (∀ d', d.Alike d' → discover d' s = discover d s) ∧
    (∀ d', Discovery.SeesSame s d d' → discover d' s = discover d s) ∧
    (∀ d' place, Discovery.SameDocuments s d d' place → discover d' s = discover d s) ∧
    (∀ cause, d.list s.source = .error cause → discover d s = .error (.list s.source cause)) ∧
    ∀ raw, d.list s.source = .ok raw →
      ((∃ failure, discover d s = .error failure) ↔ ∃ filename failure,
        Text.octets filename ∈ raw ∧ Discovery.isDocument filename = true ∧
          Discovery.Fault d (Path.join s.source filename) failure) ∧
      ∀ failure, discover d s = .error failure ↔
        ∃ filename, Discovery.FailsAt d s raw filename failure := by
  refine ⟨fun d' h ↦ Discovery.discover_of_seesSame (Discovery.seesSame_of_alike h s),
    fun d' ↦ Discovery.discover_of_seesSame, fun d' place h ↦
      Discovery.discover_of_seesSame h.seesSame, fun cause ↦ Discovery.discover_of_not_listed,
    fun raw hlist ↦ ⟨⟨?_, ?_⟩, fun failure ↦
      Discovery.discover_eq_error_iff_failsAt hlist (hdistinct raw hlist)⟩⟩
  · rintro ⟨failure, h⟩
    obtain ⟨filename, hfails⟩ := Discovery.exists_failsAt hlist (hdistinct raw hlist) h
    exact ⟨filename, failure, hfails.listed, hfails.document, hfails.fault⟩
  · rintro ⟨filename, failure, hmem, hdocument, hfault⟩
    exact Discovery.exists_failure_of_fault hlist hmem hdocument hfault

/-- The entries of a directory with two documents of which both lack a field. -/
def faultyEntries : List (Name × Tree) :=
  [(Text.octets "b.openapi.yaml", .file (Text.octets "$id: u\n")),
    (Text.octets "a.openapi.yaml", .file (Text.octets "info: \x7b\x7d\n")),
    (Text.octets "index.openapi.yaml", .file []), (Text.octets "README", .file [])]

/-- The directory with the same documents and other things beside them. -/
def alteredDirectory : Disk :=
  ⟨.directory [(Text.octets "b.openapi.yaml", .file (Text.octets "$id: u\n")),
    (Text.octets "a.openapi.yaml", .file (Text.octets "info: \x7b\x7d\n")),
    (Text.octets "README", .directory []), (Text.octets "index.openapi.yaml", .file [0xFF])], []⟩

/-- The first document is told of, in either order and whatever stands beside it. -/
theorem discover_order_faulty :
    discover ⟨.directory faultyEntries, []⟩ ⟨".", ".", "x"⟩ =
        .error (.invalid "./a.openapi.yaml" (.missing .id)) ∧
      discover ⟨.directory faultyEntries.reverse, []⟩ ⟨".", ".", "x"⟩ =
        .error (.invalid "./a.openapi.yaml" (.missing .id)) ∧
      discover alteredDirectory ⟨".", ".", "x"⟩ =
        .error (.invalid "./a.openapi.yaml" (.missing .id)) := by
  have hlist : (⟨.directory faultyEntries, []⟩ : Disk).list "." =
      .ok (faultyEntries.map Prod.fst) := rfl
  have hdistinct : (faultyEntries.map Prod.fst).Nodup := by decide
  have hnames {filename : String} (h : Text.octets filename ∈ faultyEntries.map Prod.fst) :
      filename ∈ ["b.openapi.yaml", "a.openapi.yaml", "index.openapi.yaml", "README"] := by
    obtain ⟨name, hname, hsame⟩ := List.mem_map.mp (show Text.octets filename ∈
      ["b.openapi.yaml", "a.openapi.yaml", "index.openapi.yaml", "README"].map Text.octets from h)
    rwa [← Text.octets_inj.mp hsame]
  obtain ⟨horder, -, hbeside, -, hfails⟩ := discover_order (s := ⟨".", ".", "x"⟩)
    (d := ⟨.directory faultyEntries, []⟩) fun raw hraw ↦
      Except.ok.inj (hlist.symm.trans hraw) ▸ hdistinct
  have hfirst : discover ⟨.directory faultyEntries, []⟩ ⟨".", ".", "x"⟩ =
      .error (.invalid "./a.openapi.yaml" (.missing .id)) := by
    refine ((hfails _ hlist).2 _).mpr ⟨"a.openapi.yaml", by decide, by decide, ?_, ?_⟩
    · exact .incomplete rfl rfl (fun text htext ↦ nomatch htext) (fun h ↦ nomatch h)
    · intro other _ hmem hdocument _
      revert hdocument
      exact (by decide : ∀ other ∈ ["b.openapi.yaml", "a.openapi.yaml", "index.openapi.yaml",
        "README"], Discovery.isDocument other = true →
          Text.octets "a.openapi.yaml" ≤ Text.octets other) other (hnames hmem)
  refine ⟨hfirst, ?_, ?_⟩
  · rw [← hfirst]
    exact horder _ ⟨rfl, Tree.alikeAt_of_perm (List.reverse_perm _).symm hdistinct⟩
  · rw [← hfirst]
    refine hbeside _ [] ⟨rfl, rfl, rfl, .some (.directory (by decide)), ?_⟩
    intro raw filename hraw hmem hdocument
    rw [← Except.ok.inj (hlist.symm.trans hraw)] at hmem
    obtain ⟨hview, hlink⟩ := (by decide : ∀ other ∈ ["b.openapi.yaml", "a.openapi.yaml",
      "index.openapi.yaml", "README"], Discovery.isDocument other = true →
        alteredDirectory.tree.view? [Text.octets other] =
            (Tree.directory faultyEntries).view? [Text.octets other] ∧
          (Tree.directory faultyEntries).kind? [Text.octets other] = some .file)
      filename (hnames hmem) hdocument
    exact ⟨Tree.alikeAt_of_view? hview, fun target htarget ↦ nomatch hlink.symm.trans htarget⟩

end ApiManifest
