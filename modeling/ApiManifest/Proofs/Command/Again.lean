import ApiManifest.Proofs.Command.Check
import ApiManifest.Proofs.Discovery.Again

/-!
A check after a run that has written. It has the same settings and finds the same modules, so it
expects what has been written and finds it in place (`check_after_write`), unless the artifacts get
into each other's way or into that of what is read (`Apart`).
-/

set_option autoImplicit false
set_option relaxedAutoImplicit false

namespace ApiManifest.Command

open Files

variable {d d' : Disk} {a : Arguments} {p : Plan}

/-- The paths of the files that are read for a plan: the settings file and the documents. -/
def Plan.inputs (a : Arguments) (p : Plan) : List String :=
  a.config.toList ++
    p.found.manifest.modules.map fun e ↦ Path.join a.directory (documentFilename e.name)

theorem Plan.paths_writings (hstdout : a.embedsToStdout = false) :
    (p.writings a).map Writing.path = Manifest.pathIn a.outputDirectory :: a.embed.toList := by
  rw [writings, Arguments.embedFile?, hstdout]
  cases a.embed <;> rfl

/-- Holds of two disks, before and after a run that writes, when its artifacts are files of their
own, neither is a file that is read for the plan, and neither brings a document into the source
directory. -/
structure Apart (d d' : Disk) (a : Arguments) (p : Plan) : Prop where
  artifacts : ∀ path, a.embed = some path →
    d'.locate path ≠ d'.locate (Manifest.pathIn a.outputDirectory)
  inputs : ∀ w ∈ p.writings a, ∀ path ∈ p.inputs a, d'.locate w.path ≠ d'.locate path
  documents : ¬ Discovery.AddsDocument d d' a.directory

theorem Apart.pairwise (h : Apart d d' a p) :
    (p.writings a).Pairwise fun w w' ↦ d'.locate w'.path ≠ d'.locate w.path := by
  rw [Plan.writings, Arguments.embedFile?]
  cases hembed : a.embed with
  | none => simp
  | some path =>
    cases a.embedsToStdout with
    | true => simp
    | false => simpa using h.artifacts path hembed

/-- Settings that can be had depend on nothing but the contents of the settings file. -/
theorem settings_of_read {s : Settings} (hs : a.settings d = .ok s)
    (hread : ∀ path contents, a.config = some path → d.read path = .ok contents →
      d'.read path = .ok contents) : a.settings d' = .ok s := by
  rw [Arguments.settings] at hs ⊢
  cases hconfig : a.config with
  | none =>
    rw [hconfig] at hs
    exact hs
  | some path =>
    rw [hconfig] at hs
    dsimp only at hs ⊢
    have hcontents : ∃ contents, d.contents? path = .ok (some contents) := by
      rw [Preferences.load] at hs
      cases hopen : d.contents? path with
      | error cause => exact absurd hs (by simp [hopen, Except.map])
      | ok contents =>
        cases contents with
        | none => exact absurd hs (by simp [hopen, Except.map])
        | some contents => exact ⟨contents, rfl⟩
    obtain ⟨contents, hcontents⟩ := hcontents
    have hcontents' : d'.contents? path = .ok (some contents) :=
      Disk.contents?_eq_ok_some_iff.mpr
        (hread path contents hconfig (Disk.contents?_eq_ok_some_iff.mp hcontents))
    rw [Preferences.load, hcontents] at hs
    rw [Preferences.load, hcontents']
    exact hs

/-- A plan that is made again after the run has written. -/
theorem prepared_again (hp : p.Prepared d a) (hwritten : d.writeAll (p.writings a) = (d', []))
    (hapart : Apart d d' a p) :
    ∃ p' : Plan, p'.Prepared d' { a with check := true } ∧ p'.settings = p.settings ∧
      p'.found.manifest = p.found.manifest ∧ p'.found.documents = p.found.documents := by
  have hgrows := Disk.grows_of_writeAll hwritten
  have hread {path : String} (hpath : path ∈ p.inputs a) {contents : Octets}
      (hcontents : d.read path = .ok contents) : d'.read path = .ok contents :=
    Disk.read_of_writeAll hwritten hcontents fun w hw ↦ hapart.inputs w hw path hpath
  have hsettings : a.settings d' = .ok p.settings :=
    settings_of_read hp.settings fun path contents hconfig ↦
      hread (List.mem_append_left _ (by rw [hconfig]; exact List.mem_singleton_self path))
  obtain ⟨found, hfound, hmanifest, hsame⟩ :=
    discover_again hp.discovery hgrows (fun e he contents ↦
      hread (List.mem_append_right _ (List.mem_map_of_mem he))) hapart.documents
  exact ⟨⟨p.settings, found⟩, ⟨hsettings, hp.package, hfound⟩, rfl, hmanifest, hsame⟩

/-- A check of what a run has written succeeds: it has the same settings, finds the same modules and
reports every artifact as up to date. -/
theorem check_after_write (hcheck : a.check = false) (hstdout : a.embedsToStdout = false)
    (hexit : (run d a).exit = 0)
    (hapart : ∀ p : Plan, p.Prepared d a → Apart d (run d a).disk a p) :
    let again := run (run d a).disk { a with check := true }
    again.exit = 0 ∧ ∃ p p' : Plan, p.Prepared d a ∧
      p'.Prepared (run d a).disk { a with check := true } ∧ p'.settings = p.settings ∧
      p'.found.manifest = p.found.manifest ∧ p'.found.documents = p.found.documents ∧
      again.lines = p'.lines ++ .upToDate (Manifest.pathIn a.outputDirectory) ::
        a.embed.toList.map .upToDate := by
  obtain ⟨p, hp, hwritten⟩ := exists_plan_of_run hcheck hexit
  have hclear := hapart p hp
  obtain ⟨p', hp', hsettings, hmanifest, hdocuments⟩ := prepared_again hp hwritten hclear
  have hwritings : p'.writings { a with check := true } = p.writings a := by
    rw [Plan.writings, Plan.manifestOctets, Plan.source, hsettings, hmanifest, hdocuments]
    rfl
  have hstands : ∀ w ∈ p.writings a, Stands (run d a).disk w := fun w hw ↦
    stands_of_read (Disk.read_writing hwritten hclear.pairwise hw)
  have hfailure : (check (run d a).disk { a with check := true } p').failure = none := by
    rw [check_eq hp' hstdout, hwritings]
    exact if_pos (countStale_eq_zero_iff.mpr hstands)
  rw [run_eq_check rfl hp' hstdout]
  dsimp only
  rw [Outcome.exit_after, Outcome.lines_after, lines_check hp' hstdout, hwritings]
  refine ⟨?_, p, p', hp, hp', hsettings, hmanifest, hdocuments, ?_⟩
  · exact exit_eq_zero_iff.mpr hfailure
  · have hverdicts : (p.writings a).map (verdict (run d a).disk) =
        ((p.writings a).map Writing.path).map .upToDate := by
      rw [List.map_map]
      exact List.map_congr_left fun w hw ↦ if_pos (hstands w hw)
    rw [hverdicts, Plan.paths_writings hstdout]
    rfl

set_option maxRecDepth 4000 in
theorem prepared_planHere : planHere.Prepared oneDocument embedHere := by
  refine ⟨rfl, rfl, ?_⟩
  rw [discover, show (embedHere.search _).source = "." from rfl, listNames_oneDocument]
  rfl

set_option maxRecDepth 4000 in
/-- The manifest and the embed source go into the source directory and do not feed back. -/
theorem check_after_write_here :
    (embedHere.check = false ∧ embedHere.embedsToStdout = false ∧
      (run oneDocument embedHere).exit = 0 ∧
      ∀ p : Plan, p.Prepared oneDocument embedHere →
        Apart oneDocument (run oneDocument embedHere).disk embedHere p) ∧
    (run (run oneDocument embedHere).disk { embedHere with check := true }).exit = 0 := by
  have hp := prepared_planHere
  have hstdout : embedHere.embedsToStdout = false := rfl
  have hexit : (run oneDocument embedHere).exit = 0 := by
    rw [run_eq_write rfl hp]
    exact (write_eq hp).2.mpr rfl
  have hapart : ∀ p : Plan, p.Prepared oneDocument embedHere →
      Apart oneDocument (run oneDocument embedHere).disk embedHere p := by
    intro p hp'
    obtain rfl := hp.unique hp'
    rw [run_eq_write rfl hp, Outcome.disk_after, (write_eq hp).1]
    refine ⟨?_, ?_, ?_⟩
    · rintro path ⟨⟩
      decide
    · decide
    · rintro ⟨before, after, n, hbefore, hafter, hn, hold, hdocument⟩
      obtain rfl : [Text.octets "a.openapi.yaml"] = before := Except.ok.inj hbefore
      obtain rfl : [Text.octets "a.openapi.yaml", Text.octets "index.openapi.yaml",
        Text.octets "embed.go"] = after := Except.ok.inj hafter
      simp only [List.mem_cons, List.not_mem_nil, or_false] at hn hold
      rcases hn with rfl | rfl | rfl
      · exact hold rfl
      · exact absurd hdocument (by decide)
      · exact absurd hdocument (by decide)
  exact ⟨⟨rfl, hstdout, hexit, hapart⟩, (check_after_write rfl hstdout hexit hapart).1⟩

end ApiManifest.Command
