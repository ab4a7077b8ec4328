import ApiManifest.Proofs.Discovery.Partition
import ApiManifest.Proofs.Results

/-!
Why a search ends early. A document ends it by what is wrong with that document by itself: it cannot
be read, it is no YAML, or a field is missing (`moduleAt_eq_error_iff`). It never does by what
stands in another document, because the files of a directory have different names, a module has the
name of its file, and a name that is no text is not shown as that of a document: so whatever a
search offers to its builder is taken (`push_of_distinct`).
-/

set_option autoImplicit false
set_option relaxedAutoImplicit false

namespace ApiManifest

open Files

/-- Holds of a document without a field that it must have. -/
def Json.Lacks (v : Json) : RequiredField → Prop
  | .id => ∀ text, (v.field? "$id").bind scalarText? = some text → ∀ c ∈ text.toList,
      Text.isBlank c = true
  | .info => ∀ fields, v.field? "info" ≠ some (.obj fields)

/-- A document is told to lack its `$id`, or else its `info`. -/
theorem Header.ofDocument_eq_error_iff {extension : String} {v : Json} {field : RequiredField} :
    ofDocument extension v = .error field ↔ v.Lacks field ∧ (field = .info → ¬ v.Lacks .id) := by
  have hinfo : v.Lacks .info ↔ ∀ fields, v.field? "info" ≠ some (.obj fields) := Iff.rfl
  rw [ofDocument]
  cases hid : (v.field? "$id").bind scalarText? with
  | none =>
    have hlacks : v.Lacks .id := fun text htext ↦
      absurd (htext.symm.trans hid) (Option.some_ne_none text)
    cases field <;> simp [hlacks]
  | some text =>
    have hlacks : v.Lacks .id ↔ Text.AllBlank text = true := by
      simp [Json.Lacks, hid, Text.AllBlank]
    dsimp only
    split_ifs with hblank
    · cases field <;> simp [hlacks, hblank]
    · split
      · rename_i fields hfields
        cases field <;> simp [hlacks, hblank, hinfo, hfields]
      · rename_i hnone
        have hlacks' : v.Lacks .info := fun fields hfields ↦ hnone fields hfields
        cases field <;> simp [hlacks, hblank, hlacks']

namespace Discovery

/-- What can be wrong with the document at a path, and the failure that tells of it. -/
inductive Fault (d : Disk) (path : String) : Failure → Prop
  | unreadable {cause} (hread : d.readText path = .error cause) :
      Fault d path (.load (.read path cause))
  | malformed {text cause} (hread : d.readText path = .ok text)
      (hparse : Yaml.jsonOfText text = .error cause) : Fault d path (.load (.parse path cause))
  | incomplete {text v field} (hread : d.readText path = .ok text)
      (hparse : Yaml.jsonOfText text = .ok v) (hlacks : v.Lacks field)
      (hfirst : field = .info → ¬ v.Lacks .id) : Fault d path (.invalid path (.missing field))

variable {d : Disk} {s : Search} {names before after : List String} {raw : List Name}
  {found : Findings} {failure : Failure} {name filename path : String} {b : Builder} {p : Push}
  {taken : List (Json × Entry)}

/-- A document becomes no module because of what is wrong with it. -/
theorem moduleAt_eq_error_iff : moduleAt d s name filename = .error failure ↔
    Fault d (Path.join s.source filename) failure := by
  unfold moduleAt
  extract_lets path
  rw [loadDocument]
  constructor
  · intro h
    cases hread : d.readText path with
    | error cause =>
      rw [hread] at h
      rw [← Except.error.inj h]
      exact .unreadable hread
    | ok text =>
      rw [hread] at h
      dsimp only at h
      cases hparse : Yaml.jsonOfText text with
      | error cause =>
        rw [hparse] at h
        rw [← Except.error.inj h]
        exact .malformed hread hparse
      | ok v =>
        rw [hparse] at h
        dsimp only at h
        cases hheader : Header.ofDocument s.extension v with
        | error field =>
          rw [hheader] at h
          rw [← Except.error.inj h]
          obtain ⟨hlacks, hfirst⟩ := Header.ofDocument_eq_error_iff.mp hheader
          exact .incomplete hread hparse hlacks hfirst
        | ok header =>
          rw [hheader] at h
          cases h
  · intro h
    cases h with
    | unreadable hread =>
      rw [hread]
      rfl
    | malformed hread hparse =>
      rw [hread]
      dsimp only
      rw [hparse]
      rfl
    | incomplete hread hparse hlacks hfirst =>
      rw [hread]
      dsimp only
      rw [hparse]
      dsimp only
      rw [Header.ofDocument_eq_error_iff.mpr ⟨hlacks, hfirst⟩]
      rfl

/-- A search ends at a document with which something is wrong, or which its builder refuses. -/
theorem Findings.take_eq_error_iff : found.take d s filename = .error failure ↔
    isManifestFilename filename = false ∧ ∃ name, moduleOfFilename? filename = some name ∧
      (moduleAt d s name filename = .error failure ∨ ∃ v e cause,
        moduleAt d s name filename = .ok (v, e) ∧ found.builder.push filename v e = .error cause ∧
          failure = .invalid (Path.join s.source filename) (.collision cause)) := by
  rw [take]
  cases hmanifest : isManifestFilename filename with
  | true => simp
  | false =>
    rw [if_neg Bool.false_ne_true]
    cases hname : moduleOfFilename? filename with
    | none => simp
    | some name =>
      dsimp only
      simp only [true_and, Option.some.injEq, exists_eq_left']
      cases hmodule : moduleAt d s name filename with
      | error cause => simp [bind, Except.bind]
      | ok t =>
        obtain ⟨v, e⟩ := t
        cases hpush : found.builder.push filename v e with
        | error cause =>
          simp [bind, Except.bind, hpush, throw, throwThe, MonadExceptOf.throw, eq_comm]
        | ok next => simp [bind, Except.bind, hpush, pure, Except.pure]

/-! ### No document is refused for another one -/

/-- The documents of a directory have different file names, as its entries have. -/
theorem nodup_documents (hraw : raw.Nodup) :
    ((sorted (raw.map Text.textLossy)).filter isDocument).Nodup := by
  have hperm := (List.mergeSort_perm (raw.map Text.textLossy) fun a b ↦ decide (a ≤ b)).filter
    isDocument
  rw [sorted, hperm.nodup_iff, List.filter_map]
  refine (hraw.filter _).map_on fun n hn n' hn' hsame ↦ ?_
  -- What is shown as the file name of a document is the file name itself.
  have hoctets {n : Name} (hn : n ∈ raw.filter (isDocument ∘ Text.textLossy)) :
      Text.octets (Text.textLossy n) = n :=
    Text.octets_textLossy (not_mem_of_isDocument (List.mem_filter.mp hn).2)
  rw [← hoctets hn, hsame, hoctets hn']

/-- A push that a search makes on its way through the names of its directory: the builder at that
time, and the module that is offered to it. -/
inductive MakesPush (d : Disk) (s : Search) (names : List String) : Builder → Push → Prop
  | intro {before after filename name found v e} (hnames : names = before ++ filename :: after)
      (hfound : before.foldlM (Findings.take d s) .empty = .ok found)
      (hother : isManifestFilename filename = false)
      (hname : moduleOfFilename? filename = some name)
      (hmodule : moduleAt d s name filename = .ok (v, e)) :
      MakesPush d s names found.builder ⟨filename, v, e⟩

/-- The builder has the documents before the one that is offered to it, and takes that one too. -/
theorem MakesPush.exists_next (h : MakesPush d s names b p)
    (hdistinct : (names.filter isDocument).Nodup) :
    ∃ next, (Builder.offer p).run b = .ok () next := by
  obtain @⟨before, after, filename, name, found, v, e, rfl, hfound, hother, hname, hmodule⟩ := h
  obtain ⟨taken, htakes, hpushes, -⟩ := foldlM_take_eq_ok_iff.mp hfound
  have hholds := holds_of_pushes hpushes
  obtain ⟨-, rfl⟩ := moduleAt_eq_ok hmodule
  obtain ⟨rfl, -⟩ := moduleOfFilename?_eq_some_iff.mp hname
  have hdocument : isDocument (documentFilename e.name) = true := by
    rw [isDocument, hother, hname]
    rfl
  have hnew : ∀ t ∈ taken, documentFilename t.2.name ≠ documentFilename e.name := by
    intro t ht hsame
    have hbefore : documentFilename t.2.name ∈ before.filter isDocument := by
      rw [htakes.filenames]
      exact List.mem_map_of_mem ht
    rw [List.filter_append, List.filter_cons_of_pos hdocument] at hdistinct
    exact List.disjoint_of_nodup_append hdistinct hbefore (hsame ▸ List.mem_cons_self)
  refine ⟨_, Builder.run_offer_eq_ok_iff.mpr ⟨?_, ?_, rfl⟩⟩
  · rw [← Bool.not_eq_true, hholds.has_documents_iff]
    rintro ⟨q, hq, hsame⟩
    obtain ⟨t, ht, rfl⟩ := List.mem_map.mp hq
    exact hnew t ht hsame
  · rw [← Bool.not_eq_true, hholds.has_names_iff]
    rintro ⟨q, hq, hsame⟩
    obtain ⟨t, ht, rfl⟩ := List.mem_map.mp hq
    exact hnew t ht (congrArg documentFilename hsame)

/-- A search through names of which no document's comes twice fails at a document with which
something is wrong, after it has taken those before it. -/
theorem exists_fault_of_foldlM (hdistinct : (names.filter isDocument).Nodup)
    (h : names.foldlM (Findings.take d s) .empty = .error failure) :
    ∃ before filename after taken, names = before ++ filename :: after ∧
      isDocument filename = true ∧ Takes d s before taken ∧
        Fault d (Path.join s.source filename) failure := by
  obtain ⟨before, filename, after, found, hnames, hfound, htake⟩ := foldlM_eq_error_iff.mp h
  obtain ⟨hother, name, hname, hcause⟩ := Findings.take_eq_error_iff.mp htake
  obtain ⟨taken, htakes, -⟩ := foldlM_take_eq_ok_iff.mp hfound
  have hdocument : isDocument filename = true := by rw [isDocument, hother, hname]; rfl
  refine ⟨before, filename, after, taken, hnames, hdocument, htakes, ?_⟩
  rcases hcause with hmodule | ⟨v, e, cause, hmodule, hpush, -⟩
  · exact moduleAt_eq_error_iff.mp hmodule
  · obtain ⟨next, hnext⟩ := MakesPush.exists_next ⟨hnames, hfound, hother, hname, hmodule⟩ hdistinct
    rw [Builder.push_eq_ok_iff.mpr hnext] at hpush
    cases hpush

/-- What is listed is sorted as it is shown. -/
theorem listNames_of_ok {path : String} (hlist : d.list path = .ok raw) :
    listNames d path = .ok (sorted (raw.map Text.textLossy)) := by
  rw [listNames, hlist]
  rfl

/-- In a directory that is listed a search fails on its way through the names. -/
theorem discover_eq_error_iff (hlist : d.list s.source = .ok raw) : discover d s = .error failure ↔
    (sorted (raw.map Text.textLossy)).foldlM (Findings.take d s) .empty = .error failure := by
  rw [discover, listNames_of_ok hlist]
  dsimp only
  cases (sorted (raw.map Text.textLossy)).foldlM (Findings.take d s) .empty with
  | error failure => simp [bind, Except.bind]
  | ok found => simp [bind, Except.bind, pure, Except.pure]

theorem discover_of_not_listed {cause : Refusal} (hlist : d.list s.source = .error cause) :
    discover d s = .error (.list s.source cause) := by
  rw [discover, listNames, hlist]
  rfl

end Discovery

/-- In a directory whose entries have different names, whatever they are shown as, every module that
a search offers to its builder is taken; and a document that is told as invalid lacks a field. -/
theorem push_of_distinct {d : Disk} {s : Search}
    (hdistinct : ∀ raw, d.list s.source = .ok raw → raw.Nodup) :
    (∀ names b p, Discovery.listNames d s.source = .ok names → Discovery.MakesPush d s names b p →
      ∃ next, (Builder.offer p).run b = .ok () next) ∧
    ∀ path cause, discover d s = .error (.invalid path cause) →
      ∃ field, cause = .missing field := by
  cases hlist : d.list s.source with
  | error refusal =>
    refine ⟨fun names b p hnames ↦ ?_, fun path cause h ↦ ?_⟩
    · rw [Discovery.listNames, hlist] at hnames
      cases hnames
    · rw [Discovery.discover_of_not_listed hlist] at h
      cases h
  | ok raw =>
    have hdocuments := Discovery.nodup_documents (hdistinct raw hlist)
    refine ⟨fun names b p hnames hpush ↦ ?_, fun path cause h ↦ ?_⟩
    · rw [Discovery.listNames_of_ok hlist] at hnames
      obtain rfl := Except.ok.inj hnames
      exact hpush.exists_next hdocuments
    · obtain ⟨-, filename, -, -, -, -, -, hfault⟩ :=
        Discovery.exists_fault_of_foldlM hdocuments ((Discovery.discover_eq_error_iff hlist).mp h)
      cases hfault with
      | incomplete => exact ⟨_, rfl⟩

/-- A directory with two documents, and two other files that are shown under one name. -/
def alikeDirectory : Disk :=
  ⟨.directory [([0xFF], .file []), ([0xFE], .file []),
    (Text.octets "b.openapi.yaml", .file (Text.octets "$id: u\ninfo: \x7b\x7d\n")),
    (Text.octets "a.openapi.yaml", .file (Text.octets "$id: v\ninfo: \x7b\x7d\n"))], []⟩

set_option maxRecDepth 4000 in
/-- The second document is offered to a builder that has the first, and is taken. -/
theorem push_of_distinct_alike : Text.textLossy [0xFF] = Text.textLossy [0xFE] ∧
    ∃ names b p next, Discovery.listNames alikeDirectory "." = .ok names ∧
      Discovery.MakesPush alikeDirectory ⟨".", ".", "x"⟩ names b p ∧ b.size = 1 ∧
        (Builder.offer p).run b = .ok () next := by
  have hsorted : Discovery.sorted ["\uFFFD", "\uFFFD", "b.openapi.yaml", "a.openapi.yaml"] =
      ["a.openapi.yaml", "b.openapi.yaml", "\uFFFD", "\uFFFD"] :=
    Discovery.sorted_eq (by decide) (by decide)
  have hlist : alikeDirectory.list "." = .ok [[0xFF], [0xFE], Text.octets "b.openapi.yaml",
      Text.octets "a.openapi.yaml"] := rfl
  have hnames : Discovery.listNames alikeDirectory "." =
      .ok ["a.openapi.yaml", "b.openapi.yaml", "\uFFFD", "\uFFFD"] :=
    (Discovery.listNames_of_ok hlist).trans (congrArg Except.ok hsorted)
  have hdistinct : ∀ raw, alikeDirectory.list "." = .ok raw → raw.Nodup := by
    rintro raw hraw
    rw [← Except.ok.inj (hlist.symm.trans hraw)]
    decide
  have hpush : Discovery.MakesPush alikeDirectory ⟨".", ".", "x"⟩
      ["a.openapi.yaml", "b.openapi.yaml", "\uFFFD", "\uFFFD"] _
        ⟨"b.openapi.yaml", .obj [("$id", .str "u"), ("info", .obj [])],
          ⟨"b", "u", "b.openapi.yaml", "", "", ""⟩⟩ :=
    .intro (List.singleton_append (x := "a.openapi.yaml")).symm rfl (by decide) (by decide) rfl
  obtain ⟨next, hnext⟩ := (push_of_distinct (s := ⟨".", ".", "x"⟩) hdistinct).1 _ _ _ hnames hpush
  exact ⟨rfl, _, _, _, next, hnames, hpush, rfl, hnext⟩

end ApiManifest
