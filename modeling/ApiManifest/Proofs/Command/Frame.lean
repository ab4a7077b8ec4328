import ApiManifest.Proofs.Command.Again
import ApiManifest.Proofs.Files.Frame

/-!
What a command line leaves alone. It changes no file but the manifest and the one that is named for
the embed source, links followed, and none at all when it checks, when it is refused, or when
anything is missing that it needs before it writes (`Arguments.Unready`). The embed source is
written to its file only after the manifest (`frame_filesAfter`).
-/

set_option autoImplicit false
set_option relaxedAutoImplicit false

namespace ApiManifest.Command

open Files

variable {d : Disk} {a : Arguments} {p : Plan}

/-- What a command line leaves of the files: that of its run, or all as it was when it is refused.
-/
def filesAfter (d : Disk) (args : List String) : Disk :=
  match parse args with
  | .ok a => (run d a).disk
  | .error _ => d

/-- The files to which a command line may write: that of the manifest, and that of the embed source
if it has one. -/
def Arguments.artifacts (a : Arguments) : List String :=
  Manifest.pathIn a.outputDirectory :: a.embedFile?.toList

/-- Holds of a run for which something is missing before it writes. -/
inductive Arguments.Unready (d : Disk) (a : Arguments) : Prop where
  | settings {cause : Preferences.Failure} (hsettings : a.settings d = .error cause)
  | package {s : Settings} {cause : Embed.BadPackage} (hsettings : a.settings d = .ok s)
      (hpackage : s.embed.target.checkPackage s.embed.package = .error cause)
  | search {s : Settings} {cause : Discovery.Failure} (hsettings : a.settings d = .ok s)
      (hsearch : discover d (a.search s) = .error cause)
  /-- A document that cannot be loaded or has no header, whatever other documents are like. -/
  | document {s : Settings} {names : List String} {filename : String}
      (hsettings : a.settings d = .ok s) (hnames : Discovery.listNames d a.directory = .ok names)
      (hfilename : filename ∈ names) (hdocument : Discovery.isDocument filename = true)
      (hbad : ∀ v header, loadDocument d (Path.join a.directory filename) = .ok v →
        Header.ofDocument s.extension v ≠ .ok header)

theorem Arguments.Unready.not_prepared (h : a.Unready d) (p : Plan) : ¬ p.Prepared d a := by
  intro hp
  have hsame {s : Settings} (hs : a.settings d = .ok s) : p.settings = s :=
    Except.ok.inj (hp.settings.symm.trans hs)
  cases h with
  | settings hsettings => exact nomatch hp.settings.symm.trans hsettings
  | package hsettings hpackage =>
    obtain rfl := hsame hsettings
    exact nomatch hp.package.symm.trans hpackage
  | search hsettings hsearch =>
    obtain rfl := hsame hsettings
    exact nomatch hp.discovery.symm.trans hsearch
  | document hsettings hnames hfilename hdocument hbad =>
    obtain rfl := hsame hsettings
    obtain ⟨v, header, hload, hheader⟩ :=
      exists_header_of_discover hp.discovery hnames hfilename hdocument
    exact hbad v header hload hheader

/-- A check leaves the files alone. -/
theorem disk_check (d : Disk) (a : Arguments) (p : Plan) : (check d a p).disk = d := by
  rw [check]
  cases expected a p <;> rfl

/-- A run leaves the files alone, or it has a plan and writes by it. -/
theorem run_disk_cases (d : Disk) (a : Arguments) :
    (run d a).disk = d ∨
      ∃ p : Plan, a.check = false ∧ p.Prepared d a ∧ (run d a).disk = (write d a p).disk := by
  cases hplan : plan d a with
  | error cause => exact .inl (by rw [run, hplan]; rfl)
  | ok p =>
    obtain ⟨hp, -⟩ := plan_eq_ok_iff.mp hplan
    cases hcheck : a.check with
    | true =>
      refine .inl ?_
      rw [run, hplan]
      dsimp only
      rw [Outcome.disk_after, if_pos hcheck, disk_check]
    | false => exact .inr ⟨p, rfl, hp, by rw [run_eq_write hcheck hp, Outcome.disk_after]⟩

/-- What a run that writes leaves of the files: all as it was, or the manifest written, or the embed
source after it. -/
theorem write_disk_cases (hp : p.Prepared d a) :
    (write d a p).disk = d ∨ ∃ next,
      d.write (Manifest.pathIn a.outputDirectory) p.manifestOctets = .ok next ∧
      ((write d a p).disk = next ∨ ∃ file, a.embedFile? = some file ∧
        next.write file (Text.octets p.source) = .ok (write d a p).disk) := by
  have hends := endsIn_write hp
  generalize write d a p = o at hends ⊢
  cases hends with
  | manifestRefused hmanifest => exact .inl rfl
  | manifestAlone hmanifest hfile => exact .inr ⟨_, hmanifest, .inl rfl⟩
  | sourceRefused hmanifest hfile hsource => exact .inr ⟨_, hmanifest, .inl rfl⟩
  | both hmanifest hfile hsource => exact .inr ⟨_, hmanifest, .inr ⟨_, hfile, hsource⟩⟩

/-- A run that writes changes its artifacts alone. -/
theorem frame_write (hp : p.Prepared d a) :
    d.Frame ((write d a p).disk.targets a.artifacts) (write d a p).disk := by
  obtain ⟨done, hwritings, hdone⟩ := Disk.exists_done_of_writeAll d (p.writings a)
  rw [← (write_eq hp).1] at hdone
  have hpaths : (p.writings a).map Writing.path = a.artifacts := by
    simp [Plan.writings, Arguments.artifacts, Function.comp_def]
  refine (Disk.frame_of_writeAll hdone).mono (Disk.targets_subset ?_)
  rw [← hpaths, hwritings, List.map_append]
  exact List.subset_append_left _ _

/-- A command line changes no file but its artifacts, and a directory only by their names. It
changes nothing when it is refused, when it checks, and when something is missing before it writes;
and if anything has changed, the manifest has been written, and before the embed source. -/
theorem frame_filesAfter (d : Disk) (args : List String) :
    (∀ usage, parse args = .error usage → filesAfter d args = d) ∧
    ∀ a, parse args = .ok a →
      d.Frame ((filesAfter d args).targets a.artifacts) (filesAfter d args) ∧
      (a.check = true ∨ a.Unready d → filesAfter d args = d) ∧
      (filesAfter d args ≠ d → ∃ (p : Plan) (next : Disk), p.Prepared d a ∧
        d.write (Manifest.pathIn a.outputDirectory) p.manifestOctets = .ok next ∧
        (filesAfter d args = next ∨ ∃ file, a.embedFile? = some file ∧
          next.write file (Text.octets p.source) = .ok (filesAfter d args))) := by
  refine ⟨fun usage husage ↦ by rw [filesAfter, husage], fun a ha ↦ ?_⟩
  have hafter : filesAfter d args = (run d a).disk := by rw [filesAfter, ha]
  rw [hafter]
  rcases run_disk_cases d a with hsame | ⟨p, hcheck, hp, hrun⟩
  · rw [hsame]
    exact ⟨.refl _ d, fun _ ↦ rfl, fun hchanged ↦ absurd rfl hchanged⟩
  · rw [hrun]
    refine ⟨frame_write hp, ?_, fun hchanged ↦ ?_⟩
    · rintro (hchecks | hunready)
      · exact absurd hchecks (by simp [hcheck])
      · exact absurd hp (hunready.not_prepared p)
    · rcases write_disk_cases hp with hsame | ⟨next, hmanifest, hsource⟩
      · exact absurd hsame hchanged
      · exact ⟨p, next, hp, hmanifest, hsource⟩

/-- A disk with a document, and after it one without an identifier. -/
def secondBad : Disk :=
  ⟨.directory [
    (Text.encode "a.openapi.yaml".toList,
      .file (Text.octets "$id: u\ninfo: \x7bsummary: s\x7d\n")),
    (Text.encode "b.openapi.yaml".toList, .file (Text.octets "info: \x7bsummary: s\x7d\n"))], []⟩

/-- The command line that writes a manifest into the working directory. -/
def writeHere : Arguments := ⟨".", none, none, none, none, none, none, false, 0⟩

theorem unready_secondBad : writeHere.Unready secondBad := by
  have hnames : Discovery.listNames secondBad "." = .ok ["a.openapi.yaml", "b.openapi.yaml"] := by
    rw [Discovery.listNames, show secondBad.list "." = .ok [Text.octets "a.openapi.yaml",
      Text.octets "b.openapi.yaml"] from rfl]
    simp only [Except.map, List.map_cons, List.map_nil, Text.textLossy_octets]
    exact congrArg Except.ok (List.mergeSort_of_pairwise (by decide))
  have hload : loadDocument secondBad (Path.join "." "b.openapi.yaml") =
      .ok (.obj [("info", .obj [("summary", .str "s")])]) := rfl
  have hlast : "b.openapi.yaml" ∈ ["a.openapi.yaml", "b.openapi.yaml"] := by simp
  refine .document rfl hnames hlast (by decide) fun v header hv hheader ↦ ?_
  obtain rfl := Except.ok.inj (hload.symm.trans hv)
  cases hheader

/-- One command line writes the manifest and then the embed source; another one finds a document
that is bad after one that is good, and changes nothing. -/
theorem frame_filesAfter_documents :
    (parse [".", "--embed", "embed.go"] = .ok embedHere ∧
      filesAfter oneDocument [".", "--embed", "embed.go"] ≠ oneDocument ∧
      oneDocument.Frame
        ((filesAfter oneDocument [".", "--embed", "embed.go"]).targets
          ["./index.openapi.yaml", "embed.go"])
        (filesAfter oneDocument [".", "--embed", "embed.go"]) ∧
      ∃ next, oneDocument.write "./index.openapi.yaml" planHere.manifestOctets = .ok next ∧
        (filesAfter oneDocument [".", "--embed", "embed.go"] = next ∨
          ∃ file, embedHere.embedFile? = some file ∧
            next.write file (Text.octets planHere.source) =
              .ok (filesAfter oneDocument [".", "--embed", "embed.go"]))) ∧
    (parse ["."] = .ok writeHere ∧ writeHere.Unready secondBad ∧
      filesAfter secondBad ["."] = secondBad) := by
  have hchanged : filesAfter oneDocument [".", "--embed", "embed.go"] ≠ oneDocument := by
    have hafter : filesAfter oneDocument [".", "--embed", "embed.go"] =
        (oneDocument.writeAll (planHere.writings embedHere)).1 :=
      (congrArg Outcome.disk (run_eq_write rfl prepared_planHere)).trans
        (write_eq prepared_planHere).1
    intro hsame
    have hlist : oneDocument.list "." =
        (oneDocument.writeAll (planHere.writings embedHere)).1.list "." := by
      rw [← hafter, hsame]
    exact absurd (congrArg Except.toOption hlist) (by decide)
  obtain ⟨hframe, -, hwritten⟩ :=
    (frame_filesAfter oneDocument [".", "--embed", "embed.go"]).2 embedHere rfl
  obtain ⟨p, next, hp, hmanifest⟩ := hwritten hchanged
  obtain rfl := hp.unique prepared_planHere
  exact ⟨⟨rfl, hchanged, hframe, next, hmanifest⟩, rfl, unready_secondBad,
    ((frame_filesAfter secondBad ["."]).2 writeHere rfl).2.1 (.inr unready_secondBad)⟩

end ApiManifest.Command
