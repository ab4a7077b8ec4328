import ApiManifest.Proofs.Discovery.Found

/-!
A search in two parts. It takes the documents among the names of the source directory, each by
itself (`Takes`), and then pushes them in the same order (`discover_eq_ok_iff`). So a search that
takes the same documents has the same manifest, whatever other names the directory has.
-/

set_option autoImplicit false
set_option relaxedAutoImplicit false

namespace ApiManifest

open Files

/-- A document that is loaded is read. -/
theorem exists_read_of_loadDocument {d : Disk} {path : String} {v : Json}
    (h : loadDocument d path = .ok v) : ∃ contents, d.read path = .ok contents := by
  cases hread : d.read path with
  | error cause => exact absurd h (by simp [loadDocument, Disk.readText, hread])
  | ok contents => exact ⟨contents, rfl⟩

namespace Discovery

variable {d : Disk} {s : Search} {names : List String}

/-- Holds of the file names that are taken for those of documents. -/
def isDocument (filename : String) : Bool :=
  !isManifestFilename filename && (moduleOfFilename? filename).isSome

/-- Holds of the file names that are told as ignored. -/
def isIgnored (filename : String) : Bool :=
  !isManifestFilename filename && (moduleOfFilename? filename).isNone

theorem moduleAt_eq_ok_iff {name filename : String} {v : Json} {e : Entry} :
    moduleAt d s name filename = .ok (v, e) ↔
      loadDocument d (Path.join s.source filename) = .ok v ∧
        ∃ header, Header.ofDocument s.extension v = .ok header ∧
          e = .ofHeader name
            (d.relative (Path.join s.source filename) s.output) header := by
  unfold moduleAt
  extract_lets path
  cases loadDocument d path with
  | error cause => simp [throw, throwThe, MonadExceptOf.throw]
  | ok document =>
    dsimp only
    constructor
    · intro h
      cases hheader : Header.ofDocument s.extension document with
      | error field =>
        rw [hheader] at h
        exact nomatch h
      | ok header =>
        rw [hheader] at h
        obtain ⟨rfl, rfl⟩ := Prod.mk.inj (Except.ok.inj h)
        exact ⟨rfl, header, hheader, rfl⟩
    · rintro ⟨hv, header, hheader, rfl⟩
      obtain rfl := Except.ok.inj hv
      rw [hheader]
      rfl

/-- The documents that are taken from a directory with the given names, with their entries. -/
structure Takes (d : Disk) (s : Search) (names : List String) (taken : List (Json × Entry)) :
    Prop where
  filenames : names.filter isDocument = taken.map fun t ↦ documentFilename t.2.name
  modules : ∀ t ∈ taken, moduleAt d s t.2.name (documentFilename t.2.name) = .ok t

theorem takes_nil {taken : List (Json × Entry)} : Takes d s [] taken ↔ taken = [] := by
  constructor
  · intro h
    exact List.map_eq_nil_iff.mp h.filenames.symm
  · rintro rfl
    exact ⟨rfl, fun t ht ↦ absurd ht List.not_mem_nil⟩

theorem takes_cons_of_not_isDocument {filename : String} (h : isDocument filename = false)
    {taken : List (Json × Entry)} :
    Takes d s (filename :: names) taken ↔ Takes d s names taken := by
  have hfilter : (filename :: names).filter isDocument = names.filter isDocument :=
    List.filter_cons_of_neg (by rw [h]; exact Bool.false_ne_true)
  exact ⟨fun ⟨hnames, hmodules⟩ ↦ ⟨hfilter.symm.trans hnames, hmodules⟩,
    fun ⟨hnames, hmodules⟩ ↦ ⟨hfilter.trans hnames, hmodules⟩⟩

theorem takes_cons_of_isDocument {filename : String} (h : isDocument filename = true)
    {taken : List (Json × Entry)} :
    Takes d s (filename :: names) taken ↔ ∃ t rest, taken = t :: rest ∧
      filename = documentFilename t.2.name ∧ moduleAt d s t.2.name filename = .ok t ∧
        Takes d s names rest := by
  have hfilter : (filename :: names).filter isDocument = filename :: names.filter isDocument :=
    List.filter_cons_of_pos h
  constructor
  · rintro ⟨hnames, hmodules⟩
    rw [hfilter] at hnames
    obtain ⟨t, rest, rfl, hfilename, hrest⟩ := List.map_eq_cons_iff.mp hnames.symm
    obtain ⟨hmodule, hmodules⟩ := List.forall_mem_cons.mp hmodules
    exact ⟨t, rest, rfl, hfilename.symm, hfilename ▸ hmodule, hrest.symm, hmodules⟩
  · rintro ⟨t, rest, rfl, rfl, hmodule, hnames, hmodules⟩
    exact ⟨hfilter.trans (congrArg _ hnames), List.forall_mem_cons.mpr ⟨hmodule, hmodules⟩⟩

/-- Pushes a document that has been taken. -/
def push (b : Builder) (t : Json × Entry) : Except Collision Builder :=
  b.push (documentFilename t.2.name) t.1 t.2

theorem Findings.take_of_not_isDocument {found : Findings} {filename : String}
    (h : isDocument filename = false) :
    found.take d s filename =
      .ok { found with ignored := [filename].filter isIgnored ++ found.ignored } := by
  rw [take]
  cases hmanifest : isManifestFilename filename with
  | true => simp [isIgnored, hmanifest]
  | false =>
    have hnone : moduleOfFilename? filename = none := by simpa [isDocument, hmanifest] using h
    simp [isIgnored, hmanifest, hnone]

theorem Findings.take_of_isDocument {found next : Findings} {filename : String}
    (h : isDocument filename = true) :
    found.take d s filename = .ok next ↔ next.ignored = found.ignored ∧
      ∃ t, filename = documentFilename t.2.name ∧ moduleAt d s t.2.name filename = .ok t ∧
        push found.builder t = .ok next.builder := by
  rw [isDocument, Bool.and_eq_true, Bool.not_eq_true', Option.isSome_iff_exists] at h
  obtain ⟨hother, name, hname⟩ := h
  obtain ⟨rfl, -⟩ := moduleOfFilename?_eq_some_iff.mp hname
  rw [take, if_neg (by simp [hother]), hname]
  dsimp only
  rw [except_bind_eq_ok_iff]
  constructor
  · rintro ⟨t, hmodule, hnext⟩
    obtain ⟨v, e⟩ := t
    obtain ⟨-, rfl⟩ := moduleAt_eq_ok hmodule
    cases hpush : found.builder.push (documentFilename e.name) v e with
    | error cause => exact absurd hnext (by simp [hpush, throw, throwThe, MonadExceptOf.throw])
    | ok builder =>
      simp only [hpush] at hnext
      rw [← Except.ok.inj hnext]
      exact ⟨rfl, (v, e), rfl, hmodule, hpush⟩
  · rintro ⟨hignored, ⟨v, e⟩, hfilename, hmodule, hpush⟩
    obtain rfl := documentFilename_injective hfilename
    refine ⟨(v, e), hmodule, ?_⟩
    rw [push] at hpush
    simp only [hpush]
    exact congrArg Except.ok (congrArg (Findings.mk next.builder) hignored.symm)

/-- A search takes its documents one by one, and tells of every other name but the manifest's. -/
theorem foldlM_take_eq_ok_iff {found last : Findings} :
    names.foldlM (Findings.take d s) found = .ok last ↔
      ∃ taken, Takes d s names taken ∧ taken.foldlM push found.builder = .ok last.builder ∧
        last.ignored = (names.filter isIgnored).reverse ++ found.ignored := by
  induction names generalizing found with
  | nil =>
    simp only [takes_nil, exists_eq_left, List.foldlM_nil]
    cases found
    cases last
    simp [pure, Except.pure, eq_comm]
  | cons filename names ih =>
    rw [List.foldlM_cons, except_bind_eq_ok_iff]
    cases hdocument : isDocument filename with
    | false =>
      have hignored : ((filename :: names).filter isIgnored).reverse =
          (names.filter isIgnored).reverse ++ [filename].filter isIgnored := by
        rw [← List.singleton_append, List.filter_append, List.reverse_append]
        cases hfirst : isIgnored filename <;> simp [hfirst]
      simp only [Findings.take_of_not_isDocument hdocument, Except.ok.injEq, exists_eq_left', ih,
        takes_cons_of_not_isDocument hdocument, hignored, List.append_assoc]
    | true =>
      have hignored : (filename :: names).filter isIgnored = names.filter isIgnored := by
        rw [isDocument, Bool.and_eq_true] at hdocument
        refine List.filter_cons_of_neg ?_
        rw [isIgnored, ← Option.not_isSome, hdocument.2, Bool.not_true, Bool.and_false]
        exact Bool.false_ne_true
      simp only [Findings.take_of_isDocument hdocument, ih, takes_cons_of_isDocument hdocument,
        hignored]
      constructor
      · rintro ⟨next, ⟨hsame, t, hfilename, hmodule, hpush⟩, taken, htakes, hpushes, hlast⟩
        refine ⟨t :: taken, ⟨t, taken, rfl, hfilename, hmodule, htakes⟩, ?_, by rw [hlast, hsame]⟩
        rw [List.foldlM_cons, except_bind_eq_ok_iff]
        exact ⟨_, hpush, hpushes⟩
      · rintro ⟨taken, ⟨t, rest, rfl, hfilename, hmodule, htakes⟩, hpushes, hlast⟩
        rw [List.foldlM_cons, except_bind_eq_ok_iff] at hpushes
        obtain ⟨builder, hpush, hpushes⟩ := hpushes
        exact ⟨⟨builder, found.ignored⟩, ⟨rfl, t, hfilename, hmodule, hpush⟩, rest, htakes, hpushes,
          hlast⟩

/-- A document that has been taken, as a module that is to be added. -/
def pushed (t : Json × Entry) : Push := ⟨documentFilename t.2.name, t.1, t.2⟩

/-- The modules of a builder are those it had, and the documents that are pushed. -/
theorem holds_of_foldlM {b last : Builder} {kept : List Push} {taken : List (Json × Entry)}
    (hb : b.Holds kept) (h : taken.foldlM push b = .ok last) :
    last.Holds (kept ++ taken.map pushed) := by
  induction taken generalizing b kept with
  | nil =>
    rw [← Except.ok.inj h, List.map_nil, List.append_nil]
    exact hb
  | cons t taken ih =>
    rw [List.foldlM_cons, except_bind_eq_ok_iff] at h
    obtain ⟨next, hpush, hrest⟩ := h
    rw [List.map_cons, List.append_cons]
    exact ih (hb.of_run_offer (Builder.push_eq_ok_iff.mp hpush)) hrest

/-- The modules of a builder are the documents that are pushed. -/
theorem holds_of_pushes {b : Builder} {taken : List (Json × Entry)}
    (h : taken.foldlM push .empty = .ok b) : b.Holds (taken.map pushed) :=
  holds_of_foldlM Builder.holds_empty h

theorem modules_of_pushes {b : Builder} {taken : List (Json × Entry)}
    (h : taken.foldlM push .empty = .ok b) : b.build.1.modules = taken.map Prod.snd := by
  rw [Builder.build, Manifest.ofModules, (holds_of_pushes h).entries, List.reverse_reverse,
    List.map_map]
  rfl

end Discovery

/-- What a search finds: the documents that it takes, pushed one after the other, and the names that
it ignores. -/
theorem discover_eq_ok_iff {d : Disk} {s : Search} {found : Discovery} :
    discover d s = .ok found ↔ ∃ names taken b, Discovery.listNames d s.source = .ok names ∧
      Discovery.Takes d s names taken ∧ taken.foldlM Discovery.push .empty = .ok b ∧
        found = ⟨b.build.1, b.build.2, names.filter Discovery.isIgnored⟩ := by
  rw [discover]
  cases Discovery.listNames d s.source with
  | error cause => simp
  | ok names =>
    dsimp only
    rw [except_bind_eq_ok_iff]
    constructor
    · rintro ⟨last, hfold, h⟩
      obtain ⟨taken, htakes, hpushes, hignored⟩ := Discovery.foldlM_take_eq_ok_iff.mp hfold
      refine ⟨names, taken, last.builder, rfl, htakes, hpushes, ?_⟩
      rw [← Except.ok.inj h, hignored]
      exact congrArg _ (by simp [Discovery.Findings.empty])
    · rintro ⟨names, taken, b, hnames, htakes, hpushes, rfl⟩
      obtain rfl := Except.ok.inj hnames
      refine ⟨⟨b, (names.filter Discovery.isIgnored).reverse⟩,
        Discovery.foldlM_take_eq_ok_iff.mpr ⟨taken, htakes, hpushes, ?_⟩, ?_⟩
      · exact (List.append_nil _).symm
      · exact congrArg Except.ok (congrArg _ (List.reverse_reverse _))

/-- A search that succeeds has loaded every document of its directory and found the header of it. -/
theorem exists_header_of_discover {d : Disk} {s : Search} {found : Discovery} {names : List String}
    (h : discover d s = .ok found) (hnames : Discovery.listNames d s.source = .ok names)
    {filename : String} (hfilename : filename ∈ names)
    (hdocument : Discovery.isDocument filename = true) :
    ∃ v header, loadDocument d (Path.join s.source filename) = .ok v ∧
      Header.ofDocument s.extension v = .ok header := by
  obtain ⟨names', taken, b, hnames', htakes, -, -⟩ := discover_eq_ok_iff.mp h
  obtain rfl : names = names' := Except.ok.inj (hnames.symm.trans hnames')
  have hmem : filename ∈ names.filter Discovery.isDocument :=
    List.mem_filter.mpr ⟨hfilename, hdocument⟩
  rw [htakes.filenames] at hmem
  obtain ⟨t, ht, rfl⟩ := List.mem_map.mp hmem
  obtain ⟨hload, header, hheader, -⟩ := Discovery.moduleAt_eq_ok_iff.mp (htakes.modules t ht)
  exact ⟨t.1, header, hload, hheader⟩

/-- Every entry that a search finds is that of the document under its file name, and the document is
stored under that name. -/
theorem exists_moduleAt_of_discover {d : Disk} {s : Search} {found : Discovery}
    (h : discover d s = .ok found) {e : Entry} (he : e ∈ found.manifest.modules) :
    ∃ v, Discovery.moduleAt d s e.name (documentFilename e.name) = .ok (v, e) ∧
      found.documents.find? (documentFilename e.name) = some v := by
  obtain ⟨names, taken, b, -, htakes, hpushes, rfl⟩ := discover_eq_ok_iff.mp h
  rw [Discovery.modules_of_pushes hpushes, List.mem_map] at he
  obtain ⟨⟨v, _⟩, ht, rfl⟩ := he
  exact ⟨v, htakes.modules _ ht,
    (Discovery.holds_of_pushes hpushes).find?_documents (List.mem_map_of_mem ht)⟩

/-- The path of an entry is told from the directory of the manifest. -/
theorem path_of_discover {d : Disk} {s : Search} {found : Discovery}
    (h : discover d s = .ok found) {e : Entry} (he : e ∈ found.manifest.modules) :
    e.path = d.relative (Path.join s.source (documentFilename e.name)) s.output ∧
      ∃ contents, d.read (Path.join s.source (documentFilename e.name)) = .ok contents := by
  obtain ⟨v, hmodule, -⟩ := exists_moduleAt_of_discover h he
  obtain ⟨hload, header, -, hentry⟩ := Discovery.moduleAt_eq_ok_iff.mp hmodule
  have hpath := congrArg Entry.path hentry
  dsimp only [Entry.ofHeader] at hpath
  exact ⟨hpath, exists_read_of_loadDocument hload⟩

end ApiManifest
