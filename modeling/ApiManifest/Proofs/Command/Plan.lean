import ApiManifest.Command.Run
import ApiManifest.Proofs.Embed.Source
import ApiManifest.Proofs.Files.Writings
import ApiManifest.Proofs.Yaml.Reading

/-!
What a run does by its plan. A plan is made when the settings can be had, the package suits the
target and the search succeeds (`plan_eq_ok_iff`). It tells what belongs in which file
(`Plan.writings`), and a run that writes passes that on and nothing else (`write_eq`). Such a run
comes to one of four ends (`endsIn_write`), and the two that succeed are told by what they write
(`run_alone`, `run_both`).
-/

set_option autoImplicit false
set_option relaxedAutoImplicit false

namespace ApiManifest.Command

open Files

variable {d : Disk} {a : Arguments} {p : Plan}

/-! ### Plans -/

/-- Holds of a plan that comes of the settings, the package and the search of a run. -/
structure Plan.Prepared (d : Disk) (a : Arguments) (p : Plan) : Prop where
  settings : a.settings d = .ok p.settings
  package : p.settings.embed.target.checkPackage p.settings.embed.package = .ok ()
  discovery : discover d (a.search p.settings) = .ok p.found

/-- A run has one plan at most. -/
theorem Plan.Prepared.unique {p' : Plan} (h : p.Prepared d a) (h' : p'.Prepared d a) : p = p' := by
  obtain ⟨s, found⟩ := p
  obtain ⟨s', found'⟩ := p'
  obtain rfl : s = s' := Except.ok.inj (h.settings.symm.trans h'.settings)
  obtain rfl : found = found' := Except.ok.inj (h.discovery.symm.trans h'.discovery)
  rfl

theorem plan_eq_ok_iff :
    plan d a = .ok p ↔ p.Prepared d a ∧ (a.check && a.embedsToStdout) = false := by
  have hfound (s : Settings) :
      (do
        let found ← (discover d (a.search s)).mapError Failure.discovery
        return (⟨s, found⟩ : Plan)) = .ok p ↔
        s = p.settings ∧ discover d (a.search s) = .ok p.found := by
    rw [except_bind_eq_ok_iff]
    constructor
    · rintro ⟨found, hfound, h⟩
      rw [← Except.ok.inj h]
      exact ⟨rfl, mapError_eq_ok_iff.mp hfound⟩
    · rintro ⟨rfl, hfound⟩
      exact ⟨p.found, mapError_eq_ok_iff.mpr hfound, rfl⟩
  simp only [plan, except_bind_eq_ok_iff (x := (a.settings d).mapError _), mapError_eq_ok_iff,
    except_bind_eq_ok_iff (x := Except.mapError _ (Embed.Target.checkPackage _ _))]
  constructor
  · rintro ⟨s, hsettings, ⟨⟩, hpackage, h⟩
    cases hstdout : a.check && a.embedsToStdout with
    | true =>
      rw [hstdout] at h
      exact nomatch h
    | false =>
      rw [hstdout] at h
      obtain ⟨rfl, hdiscovery⟩ := (hfound s).mp h
      exact ⟨⟨hsettings, hpackage, hdiscovery⟩, rfl⟩
  · rintro ⟨⟨hsettings, hpackage, hdiscovery⟩, hstdout⟩
    refine ⟨p.settings, hsettings, (), hpackage, ?_⟩
    rw [hstdout]
    exact (hfound p.settings).mpr ⟨rfl, hdiscovery⟩

/-! ### Writing -/

/-- The file of the embed source, if it goes to one. -/
def Arguments.embedFile? (a : Arguments) : Option String :=
  if a.embedsToStdout then none else a.embed

namespace Plan

/-- The text of the embed source. -/
def source (p : Plan) : String :=
  String.join (Embed.pieces p.settings.embed p.found.manifest p.found.documents)

/-- The files of a run with the octets that belong there: the manifest, and the embed source if it
has a file. -/
def writings (a : Arguments) (p : Plan) : List Writing :=
  ⟨Manifest.pathIn a.outputDirectory, p.manifestOctets⟩ ::
    a.embedFile?.toList.map fun path ↦ ⟨path, Text.octets p.source⟩

theorem embedOctets_eq (hpackage : p.settings.embed.target.checkPackage p.settings.embed.package =
    .ok ()) : p.embedOctets = .ok (Text.octets p.source) :=
  Embed.octets_eq_ok hpackage

theorem embedText_eq (hpackage : p.settings.embed.target.checkPackage p.settings.embed.package =
    .ok ()) : p.embedText = .ok p.source :=
  Embed.render_eq_ok hpackage

end Plan

/-! ### Outcomes -/

namespace Notice

@[simp] theorem filterMap_line?_map_line (lines : List Line) :
    (lines.map line).filterMap line? = lines := by
  rw [List.filterMap_map]
  exact List.filterMap_some

@[simp] theorem filterMap_line?_map_event (events : List Log.Event) :
    (events.map event).filterMap line? = [] := by
  rw [List.filterMap_map]
  exact List.filterMap_none events

@[simp] theorem filterMap_event?_map_line (lines : List Line) :
    (lines.map line).filterMap event? = [] := by
  rw [List.filterMap_map]
  exact List.filterMap_none lines

@[simp] theorem filterMap_event?_map_event (events : List Log.Event) :
    (events.map event).filterMap event? = events := by
  rw [List.filterMap_map]
  exact List.filterMap_some

end Notice

namespace Plan

/-- What is told when the embed source has been printed, if it is printed. -/
def printedNotices (a : Arguments) (p : Plan) : List Notice :=
  if a.embedsToStdout then [.event p.sourceEvent] else []

/-- What is told when the embed source has been written to a file. -/
def sourceNotices (p : Plan) (file : String) : List Notice :=
  [.event p.sourceEvent, .line (.wrote file (Hash.checksum (Text.octets p.source)))]

@[simp] theorem filterMap_line?_notices (p : Plan) :
    p.notices.filterMap Notice.line? = p.lines :=
  Notice.filterMap_line?_map_line p.lines

@[simp] theorem filterMap_event?_notices (p : Plan) :
    p.notices.filterMap Notice.event? = [] :=
  Notice.filterMap_event?_map_line p.lines

@[simp] theorem filterMap_line?_manifestNotices (a : Arguments) (p : Plan) :
    (p.manifestNotices a).filterMap Notice.line? =
      [.wrote (Manifest.pathIn a.outputDirectory) (Hash.checksum p.manifestOctets)] := rfl

@[simp] theorem filterMap_line?_printedNotices (a : Arguments) (p : Plan) :
    (p.printedNotices a).filterMap Notice.line? = [] := by
  rw [printedNotices]
  split_ifs <;> rfl

@[simp] theorem filterMap_line?_sourceNotices (p : Plan) (file : String) :
    (p.sourceNotices file).filterMap Notice.line? =
      [.wrote file (Hash.checksum (Text.octets p.source))] := rfl

end Plan

namespace Outcome

variable {events : List Log.Event} {o : Outcome}

@[simp] theorem lines_after : (o.after events).lines = o.lines := by
  rw [lines, after, List.filterMap_append, Notice.filterMap_line?_map_event, List.nil_append, lines]

@[simp] theorem events_after : (o.after events).events = events ++ o.events := by
  rw [Outcome.events, after, List.filterMap_append, Notice.filterMap_event?_map_event,
    Outcome.events]

@[simp] theorem failure_after : (o.after events).failure = o.failure := rfl

@[simp] theorem source_after : (o.after events).source = o.source := rfl

@[simp] theorem disk_after : (o.after events).disk = o.disk := rfl

@[simp] theorem exit_after : (o.after events).exit = o.exit := rfl

@[simp] theorem stdout_after (a : Arguments) : (o.after events).stdout a = o.stdout a := by
  rw [stdout, stdout, lines_after, source_after]

end Outcome

theorem exit_eq_zero_iff {o : Outcome} : o.exit = 0 ↔ o.failure = none := by
  rw [Outcome.exit]
  cases o.failure <;> simp

/-- The outcomes to which a run that writes can come by its plan. -/
inductive Plan.EndsIn (d : Disk) (a : Arguments) (p : Plan) : Outcome → Prop where
  | manifestRefused {cause : Refusal}
      (hmanifest : d.write (Manifest.pathIn a.outputDirectory) p.manifestOctets = .error cause) :
      EndsIn d a p ⟨p.notices, none, some (.manifest (.system cause)), d⟩
  | manifestAlone {next : Disk}
      (hmanifest : d.write (Manifest.pathIn a.outputDirectory) p.manifestOctets = .ok next)
      (hfile : a.embedFile? = none) :
      EndsIn d a p ⟨p.notices ++ p.manifestNotices a ++ p.printedNotices a,
        if a.embedsToStdout then some p.source else none, none, next⟩
  | sourceRefused {next : Disk} {file : String} {cause : Refusal}
      (hmanifest : d.write (Manifest.pathIn a.outputDirectory) p.manifestOctets = .ok next)
      (hfile : a.embedFile? = some file)
      (hsource : next.write file (Text.octets p.source) = .error cause) :
      EndsIn d a p
        ⟨p.notices ++ p.manifestNotices a, none, some (.create file cause), next⟩
  | both {next last : Disk} {file : String}
      (hmanifest : d.write (Manifest.pathIn a.outputDirectory) p.manifestOctets = .ok next)
      (hfile : a.embedFile? = some file)
      (hsource : next.write file (Text.octets p.source) = .ok last) :
      EndsIn d a p
        ⟨p.notices ++ p.manifestNotices a ++ p.sourceNotices file, none, none, last⟩

/-- A run that writes comes to one of its ends: what is written to a file can be read back. -/
theorem endsIn_write (hp : p.Prepared d a) : p.EndsIn d a (write d a p) := by
  rw [write]
  dsimp only
  cases hmanifest : d.write (Manifest.pathIn a.outputDirectory) p.manifestOctets with
  | error cause =>
    dsimp only
    exact .manifestRefused hmanifest
  | ok next =>
    rw [Plan.embedOctets_eq hp.package]
    dsimp only
    cases hembed : a.embed with
    | none =>
      have hstdout : a.embedsToStdout = false := by rw [Arguments.embedsToStdout, hembed]
      have hfile : a.embedFile? = none := by rw [Arguments.embedFile?, hembed, ite_self]
      have halone := Plan.EndsIn.manifestAlone hmanifest hfile
      rwa [Plan.printedNotices, hstdout, if_neg Bool.false_ne_true, if_neg Bool.false_ne_true,
        List.append_nil] at halone
    | some path =>
      dsimp only
      cases hstdout : a.embedsToStdout with
      | true =>
        have hfile : a.embedFile? = none := by rw [Arguments.embedFile?, hstdout, if_pos rfl]
        have halone := Plan.EndsIn.manifestAlone hmanifest hfile
        rw [Plan.printedNotices, hstdout, if_pos rfl, if_pos rfl] at halone
        rwa [if_pos rfl, Text.textLossy_octets]
      | false =>
        have hfile : a.embedFile? = some path := by
          rw [Arguments.embedFile?, hstdout, hembed, if_neg Bool.false_ne_true]
        rw [if_neg Bool.false_ne_true, writeEmbed]
        cases hsource : next.write path (Text.octets p.source) with
        | error cause =>
          dsimp only
          exact .sourceRefused hmanifest hfile hsource
        | ok last =>
          have hboth := Plan.EndsIn.both hmanifest hfile hsource
          rw [Plan.sourceNotices, List.append_cons] at hboth
          dsimp only
          rw [Disk.read_of_write hsource]
          exact hboth

/-- A run that succeeds tells of the manifest, and of the embed source if it has a file. -/
theorem Plan.EndsIn.lines_eq {o : Outcome} (h : p.EndsIn d a o) (hexit : o.exit = 0) :
    o.lines = p.lines ++
      .wrote (Manifest.pathIn a.outputDirectory) (Hash.checksum p.manifestOctets) ::
        a.embedFile?.toList.map fun file ↦ .wrote file (Hash.checksum (Text.octets p.source)) := by
  rw [exit_eq_zero_iff] at hexit
  cases h with
  | manifestRefused hmanifest => exact nomatch hexit
  | sourceRefused hmanifest hfile hsource => exact nomatch hexit
  | manifestAlone hmanifest hfile => simp [Outcome.lines, hfile]
  | both hmanifest hfile hsource => simp [Outcome.lines, hfile]

/-- A run that writes passes its octets to its files, and fails if one of them is refused. -/
theorem write_eq (hp : p.Prepared d a) :
    (write d a p).disk = (d.writeAll (p.writings a)).1 ∧
      ((write d a p).exit = 0 ↔ (d.writeAll (p.writings a)).2 = []) := by
  have hends := endsIn_write hp
  generalize write d a p = o at hends ⊢
  rw [exit_eq_zero_iff, Plan.writings, Disk.writeAll]
  cases hends with
  | manifestRefused hmanifest => simp [hmanifest]
  | manifestAlone hmanifest hfile => simp [hmanifest, hfile, Disk.writeAll]
  | sourceRefused hmanifest hfile hsource => simp [hmanifest, hfile, hsource, Disk.writeAll]
  | both hmanifest hfile hsource => simp [hmanifest, hfile, hsource, Disk.writeAll]

/-- A run without a check writes as soon as it has a plan. -/
theorem run_eq_write (hcheck : a.check = false) (hp : p.Prepared d a) :
    run d a = (write d a p).after (planEvents d a) := by
  have hplan : plan d a = .ok p := plan_eq_ok_iff.mpr ⟨hp, by rw [hcheck, Bool.false_and]⟩
  rw [run, hplan]
  exact congrArg _ (if_neg (by simp [hcheck]))

/-- The outcome of a run that has no file for the embed source. -/
theorem run_alone (hcheck : a.check = false) (hp : p.Prepared d a) (hfile : a.embedFile? = none)
    {next : Disk}
    (hmanifest : d.write (Manifest.pathIn a.outputDirectory) p.manifestOctets = .ok next) :
    run d a = Outcome.after (planEvents d a)
      ⟨p.notices ++ p.manifestNotices a ++ p.printedNotices a,
        if a.embedsToStdout then some p.source else none, none, next⟩ := by
  have hends := endsIn_write hp
  rw [run_eq_write hcheck hp]
  generalize write d a p = o at hends ⊢
  cases hends with
  | manifestRefused hrefused => exact nomatch hmanifest.symm.trans hrefused
  | manifestAlone hwritten =>
    obtain rfl := Except.ok.inj (hmanifest.symm.trans hwritten)
    rfl
  | sourceRefused hwritten hsome => exact nomatch hfile.symm.trans hsome
  | both hwritten hsome => exact nomatch hfile.symm.trans hsome

/-- The outcome of a run that writes both of its files. -/
theorem run_both (hcheck : a.check = false) (hp : p.Prepared d a) {file : String}
    (hfile : a.embedFile? = some file) {next last : Disk}
    (hmanifest : d.write (Manifest.pathIn a.outputDirectory) p.manifestOctets = .ok next)
    (hsource : next.write file (Text.octets p.source) = .ok last) :
    run d a = Outcome.after (planEvents d a)
      ⟨p.notices ++ p.manifestNotices a ++ p.sourceNotices file, none, none, last⟩ := by
  have hends := endsIn_write hp
  rw [run_eq_write hcheck hp]
  generalize write d a p = o at hends ⊢
  cases hends with
  | manifestRefused hrefused => exact nomatch hmanifest.symm.trans hrefused
  | manifestAlone hwritten hnone => exact nomatch hnone.symm.trans hfile
  | sourceRefused hwritten hsome hrefused =>
    obtain rfl := Except.ok.inj (hmanifest.symm.trans hwritten)
    obtain rfl := Option.some.inj (hfile.symm.trans hsome)
    exact nomatch hsource.symm.trans hrefused
  | both hwritten hsome hlast =>
    obtain rfl := Except.ok.inj (hmanifest.symm.trans hwritten)
    obtain rfl := Option.some.inj (hfile.symm.trans hsome)
    obtain rfl := Except.ok.inj (hsource.symm.trans hlast)
    rfl

/-- A run without a check that succeeds has written to all of its files. -/
theorem exists_plan_of_run (hcheck : a.check = false) (hexit : (run d a).exit = 0) :
    ∃ p : Plan, p.Prepared d a ∧ d.writeAll (p.writings a) = ((run d a).disk, []) := by
  cases hplan : plan d a with
  | error cause => exact absurd (exit_eq_zero_iff.mp hexit) (by simp [run, hplan])
  | ok p =>
    obtain ⟨hp, -⟩ := plan_eq_ok_iff.mp hplan
    obtain ⟨hdisk, hleft⟩ := write_eq hp
    rw [run_eq_write hcheck hp, Outcome.exit_after] at hexit
    rw [run_eq_write hcheck hp, Outcome.disk_after]
    exact ⟨p, hp, Prod.ext hdisk.symm (hleft.mp hexit)⟩

/-- A run without a check that succeeds comes to an end of its plan. -/
theorem exists_endsIn_of_run (hcheck : a.check = false) (hexit : (run d a).exit = 0) :
    ∃ (p : Plan) (o : Outcome), p.Prepared d a ∧ p.EndsIn d a o ∧ o.exit = 0 ∧
      run d a = o.after (planEvents d a) := by
  obtain ⟨p, hp, -⟩ := exists_plan_of_run hcheck hexit
  have hrun := run_eq_write hcheck hp
  rw [hrun, Outcome.exit_after] at hexit
  exact ⟨p, _, hp, endsIn_write hp, hexit, hrun⟩

end ApiManifest.Command
