import ApiManifest.Proofs.Discovery.Taken
import ApiManifest.Proofs.Files.Write

/-!
A search that is made again after files have been written. It finds the same manifest and the same
documents when its documents are as they were and no new name is that of a document
(`discover_again`); the new names are passed over or told as ignored.
-/

set_option autoImplicit false
set_option relaxedAutoImplicit false

namespace ApiManifest

open Files

namespace Discovery

variable {d d' : Disk} {s : Search}

/-- Names in ascending order. -/
def sorted (names : List String) : List String := names.mergeSort fun a b ↦ decide (a ≤ b)

theorem pairwise_sorted (names : List String) : (sorted names).Pairwise fun a b ↦ a ≤ b := by
  refine (List.pairwise_mergeSort (fun a b c hab hbc ↦ ?_) (fun a b ↦ ?_) names).imp
    fun h ↦ of_decide_eq_true h
  · exact decide_eq_true (String.le_trans (of_decide_eq_true hab) (of_decide_eq_true hbc))
  · rw [Bool.or_eq_true, decide_eq_true_iff, decide_eq_true_iff]
    exact String.le_total a b

/-- Names in ascending order are told by what they are. -/
theorem eq_of_perm_of_pairwise {names names' : List String} (hperm : names.Perm names')
    (hnames : names.Pairwise fun a b ↦ a ≤ b) (hnames' : names'.Pairwise fun a b ↦ a ≤ b) :
    names = names' :=
  hperm.eq_of_pairwise (fun _ _ _ _ hab hba ↦ String.le_antisymm hab hba) hnames hnames'

/-- Names are sorted by putting them in ascending order. -/
theorem sorted_eq {names names' : List String} (hperm : names.Perm names')
    (hnames' : names'.Pairwise fun a b ↦ a ≤ b) : sorted names = names' :=
  eq_of_perm_of_pairwise ((List.mergeSort_perm _ _).trans hperm) (pairwise_sorted names) hnames'

/-- Names that are left out anyway can be added before sorting. -/
theorem filter_sorted_append {keep : String → Bool} {names new : List String}
    (hnew : ∀ n ∈ new, keep n = false) :
    (sorted (names ++ new)).filter keep = (sorted names).filter keep := by
  have hnone : new.filter keep = [] := List.filter_eq_nil_iff.mpr fun n hn ↦ by simp [hnew n hn]
  have hsame : (names ++ new).filter keep = names.filter keep := by
    rw [List.filter_append, hnone, List.append_nil]
  have hperm : ((sorted (names ++ new)).filter keep).Perm ((sorted names).filter keep) :=
    ((List.mergeSort_perm _ _).filter keep).trans
      (hsame ▸ ((List.mergeSort_perm names _).filter keep).symm)
  exact eq_of_perm_of_pairwise hperm ((pairwise_sorted _).filter keep)
    ((pairwise_sorted _).filter keep)

/-- A name that has been added to a directory is one that a search takes for that of a document. -/
def AddsDocument (d d' : Disk) (path : String) : Prop :=
  ∃ before after n, d.list path = .ok before ∧ d'.list path = .ok after ∧ n ∈ after ∧ n ∉ before ∧
    isDocument (Text.textLossy n) = true

/-- A directory in which no document has been added lists the same documents. -/
theorem listNames_of_grows (hgrows : d.Grows d') {path : String}
    (hnew : ¬ AddsDocument d d' path) {names : List String} (h : listNames d path = .ok names) :
    ∃ names', listNames d' path = .ok names' ∧
      names'.filter isDocument = names.filter isDocument := by
  rw [listNames] at h ⊢
  cases hlist : d.list path with
  | error cause => exact absurd h (by simp [hlist, Except.map])
  | ok before =>
    obtain ⟨new, hafter, hfresh⟩ := hgrows.exists_list hlist
    rw [hlist] at h
    rw [hafter, ← Except.ok.inj h]
    refine ⟨_, rfl, ?_⟩
    dsimp only
    rw [List.map_append]
    refine filter_sorted_append fun filename hfilename ↦ ?_
    obtain ⟨n, hn, rfl⟩ := List.mem_map.mp hfilename
    by_contra hdocument
    exact hnew ⟨before, before ++ new, n, hlist, hafter, List.mem_append_right _ hn, hfresh n hn,
      by simpa using hdocument⟩

theorem loadDocument_of_readText {path : String} (h : d'.readText path = d.readText path) :
    loadDocument d' path = loadDocument d path := by
  simp only [loadDocument, h]

/-- A module is made of the text of its file and of where the search is made from. -/
theorem moduleAt_of_readText {name filename : String} (hcwd : d'.cwd = d.cwd)
    (h : d'.readText (Path.join s.source filename) = d.readText (Path.join s.source filename)) :
    moduleAt d' s name filename = moduleAt d s name filename := by
  have hload := loadDocument_of_readText h
  unfold moduleAt
  extract_lets path
  simp only [Disk.relative, Disk.lexical, hcwd]
  generalize loadDocument d' path = loaded at hload ⊢
  rw [hload]

end Discovery

/-- A search that is made again finds the same modules when their documents are as they were and no
document has been added. -/
theorem discover_again {d d' : Disk} {s : Search} {found : Discovery}
    (h : discover d s = .ok found) (hgrows : d.Grows d')
    (hreads : ∀ e ∈ found.manifest.modules, ∀ contents,
      d.read (Path.join s.source (documentFilename e.name)) = .ok contents →
        d'.read (Path.join s.source (documentFilename e.name)) = .ok contents)
    (hnew : ¬ Discovery.AddsDocument d d' s.source) :
    ∃ found', discover d' s = .ok found' ∧ found'.manifest = found.manifest ∧
      found'.documents = found.documents := by
  obtain ⟨names, taken, b, hnames, htakes, hpushes, rfl⟩ := discover_eq_ok_iff.mp h
  obtain ⟨names', hnames', hfilter⟩ := Discovery.listNames_of_grows hgrows hnew hnames
  have htakes' : Discovery.Takes d' s names' taken := by
    refine ⟨hfilter.trans htakes.filenames, fun t ht ↦ ?_⟩
    have hmodule := htakes.modules t ht
    have he : t.2 ∈ b.build.1.modules := by
      rw [Discovery.modules_of_pushes hpushes]
      exact List.mem_map_of_mem ht
    obtain ⟨contents, hread⟩ :=
      exists_read_of_loadDocument (Discovery.moduleAt_eq_ok_iff.mp hmodule).1
    rw [Discovery.moduleAt_of_readText hgrows.cwd (by
      rw [Disk.readText, Disk.readText, hreads t.2 he contents hread, hread])]
    exact hmodule
  exact ⟨_, discover_eq_ok_iff.mpr ⟨names', taken, b, hnames', htakes', hpushes, rfl⟩, rfl, rfl⟩

end ApiManifest
