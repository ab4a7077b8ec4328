import ApiManifest.Command.Reply
import ApiManifest.Proofs.Command.Again
import ApiManifest.Proofs.Command.Logged

/-!
The two channels of a run that has the embed source printed. What a run goes by does not depend on
where its embed source goes (`Plan.Prepared.withEmbed`), so three runs can be compared that differ
in nothing else. The source is printed as another run would write it to a file, the report takes the
other channel unchanged, and the files are left as by a run without an embed source
(`channels_of_run`).

The other channel is also that of the log, which verbosity lets through among the lines of the
report, and a command line that asks for a display is not carried out at all: in these two cases
what is printed to standard error is not the report that the run without an embed source prints
(`stderr_of_verbose`).
-/

set_option autoImplicit false
set_option relaxedAutoImplicit false

namespace ApiManifest.Command

open Files

variable {d : Disk} {a : Arguments} {p : Plan} {o : Outcome}

/-- A run is planned alike wherever its embed source goes. -/
theorem Plan.Prepared.withEmbed (h : p.Prepared d a) (embed : Option String) :
    p.Prepared d { a with embed } := ⟨h.settings, h.package, h.discovery⟩

/-- A run that succeeds has written the manifest. -/
theorem Plan.EndsIn.exists_written (h : p.EndsIn d a o) (hexit : o.exit = 0) :
    ∃ next, d.write (Manifest.pathIn a.outputDirectory) p.manifestOctets = .ok next := by
  rw [exit_eq_zero_iff] at hexit
  cases h with
  | manifestRefused hmanifest => exact nomatch hexit
  | manifestAlone hmanifest hfile => exact ⟨_, hmanifest⟩
  | sourceRefused hmanifest hfile hsource => exact ⟨_, hmanifest⟩
  | both hmanifest hfile hsource => exact ⟨_, hmanifest⟩

/-- A run that succeeds leaves the embed source in its file. -/
theorem Plan.EndsIn.read_file (h : p.EndsIn d a o) (hexit : o.exit = 0) {file : String}
    (hfile : a.embedFile? = some file) : o.disk.read file = .ok (Text.octets p.source) := by
  rw [exit_eq_zero_iff] at hexit
  cases h with
  | manifestRefused hmanifest => exact nomatch hexit
  | manifestAlone hmanifest hnone => exact nomatch hnone.symm.trans hfile
  | sourceRefused hmanifest hsome hsource => exact nomatch hexit
  | both hmanifest hsome hsource =>
    obtain rfl := Option.some.inj (hfile.symm.trans hsome)
    exact Disk.read_of_write hsource

/-- A run that has the embed source printed, and succeeds, is the run without an embed source but
for the source and its event. -/
theorem exists_run_printed (hcheck : a.check = false) (hstdout : a.embedsToStdout = true)
    (hexit : (run d a).exit = 0) :
    ∃ p : Plan, p.Prepared d a ∧ (run d { a with embed := none }).exit = 0 ∧
      run d a =
        { run d { a with embed := none } with
          notices := (run d { a with embed := none }).notices ++ [.event p.sourceEvent]
          source := some p.source } := by
  obtain ⟨p, o, hp, hends, hexit', -⟩ := exists_endsIn_of_run hcheck hexit
  obtain ⟨next, hmanifest⟩ := hends.exists_written hexit'
  have hnone : a.embedFile? = none := by rw [Arguments.embedFile?, hstdout, if_pos rfl]
  have hprinted := run_alone hcheck hp hnone hmanifest
  have hplain := run_alone (a := { a with embed := none }) hcheck (hp.withEmbed none) rfl hmanifest
  rw [planEvents_withEmbed hcheck] at hplain
  refine ⟨p, hp, ?_, ?_⟩
  · rw [hplain]
    rfl
  · have hnothing : p.printedNotices { a with embed := none } = [] := rfl
    rw [hprinted, hplain, hnothing, List.append_nil, Plan.printedNotices, hstdout, if_pos rfl,
      if_pos rfl, Outcome.after, Outcome.after, ← List.append_assoc]
    rfl

/-- A run that prints the embed source, and succeeds, prints to standard output the octets that it
would leave in any file it could write the source to, and it leaves the files as it would without an
embed source. It prints to standard error what it would then print to standard output, line for
line, and among the lines the events that verbosity lets through: none of a run of which no
verbosity was asked, one for each ignored file when it was asked for once, and never more than that
run would log, but for the one event of the embed source. -/
theorem channels_of_run (hcheck : a.check = false) (hstdout : a.embedsToStdout = true)
    (hexit : (run d a).exit = 0) (format : Log.Format) :
    let plain : Arguments := { a with embed := none }
    (∀ file, Arguments.embedsToStdout { a with embed := some file } = false →
      (run d { a with embed := some file }).exit = 0 →
      (run d { a with embed := some file }).disk.read file =
        .ok (Text.octets ((run d a).stdout a))) ∧
    (run d plain).exit = 0 ∧
    (run d a).disk = (run d plain).disk ∧
    (∃ told : List Notice,
      (run d a).stderr a format =
        String.join (told.mapIdx fun n notice ↦ notice.text format n) ∧
      printed (told.filterMap Notice.line?) = (run d plain).stdout plain ∧
      told.filterMap Notice.event? = (run d a).logged a) ∧
    ((run d a).logged a = [] → (run d a).stderr a format = (run d plain).stdout plain) ∧
    (a.verbosity = 0 → (run d a).logged a = []) ∧
    ∃ p : Plan, p.Prepared d a ∧
      (run d a).logged a =
        (run d plain).logged plain ++ [p.sourceEvent].filter (Log.Event.isLogged a.verbosity) ∧
      (a.verbosity = 1 → (run d a).logged a = p.found.ignored.map .ignoredFile) := by
  intro plain
  obtain ⟨p, hp, hplain, hrun⟩ := exists_run_printed hcheck hstdout hexit
  obtain ⟨told, htold, hlines, hevents⟩ := exists_told hexit a format
  have hreport : printed (told.filterMap Notice.line?) = (run d plain).stdout plain := by
    rw [hlines, if_pos hstdout, hrun, Outcome.lines, List.filterMap_append]
    exact congrArg printed (List.append_nil _)
  have hlogged : (run d a).events = (run d plain).events ++ [p.sourceEvent] := by
    rw [hrun]
    exact List.filterMap_append
  refine ⟨fun file hfile hexit' ↦ ?_, hplain, by rw [hrun], ⟨told, htold, hreport, hevents⟩,
    fun hquiet ↦ ?_, logged_of_quiet, p, hp, ?_, fun hverbosity ↦ ?_⟩
  · obtain ⟨p', o, hp', hends, hexit'', hrun'⟩ :=
      exists_endsIn_of_run (a := { a with embed := some file }) hcheck hexit'
    obtain rfl := hp'.unique (hp.withEmbed (some file))
    have hsome : Arguments.embedFile? { a with embed := some file } = some file := by
      rw [Arguments.embedFile?, hfile, if_neg Bool.false_ne_true]
    rw [hrun', Outcome.disk_after, hends.read_file hexit'' hsome, hrun, Outcome.stdout,
      if_pos hstdout]
    rfl
  · rw [htold, join_told (hevents.trans hquiet), hreport]
  · rw [Outcome.logged, hlogged, List.filter_append]
    rfl
  · exact logged_of_verbosity_one hverbosity hcheck hp

/-- The command line that has the embed source of that document printed. -/
def printHere : Arguments := { embedHere with embed := some "-" }

/-- The embed source of one document is printed as it is written to a file, and the report is the
same as without it. -/
theorem channels_of_run_here :
    parse [".", "--embed", "-"] = .ok printHere ∧ printHere.check = false ∧
      printHere.embedsToStdout = true ∧ (run oneDocument printHere).exit = 0 ∧
      (run oneDocument embedHere).disk.read "embed.go" =
        .ok (Text.octets ((run oneDocument printHere).stdout printHere)) ∧
      (run oneDocument printHere).stderr printHere Log.plain =
        (run oneDocument { printHere with embed := none }).stdout
          { printHere with embed := none } := by
  have hprinted := run_alone (a := printHere) rfl (prepared_planHere.withEmbed _) rfl rfl
  have hexit : (run oneDocument printHere).exit = 0 := by
    rw [hprinted]
    rfl
  have hboth := run_both (a := embedHere) rfl prepared_planHere rfl rfl rfl
  have hexit' : (run oneDocument embedHere).exit = 0 := by
    rw [hboth]
    rfl
  obtain ⟨hfile, -, -, -, hquiet, hnone, -⟩ :=
    channels_of_run (a := printHere) rfl rfl hexit Log.plain
  exact ⟨rfl, rfl, rfl, hexit, hfile "embed.go" rfl hexit', hquiet (hnone rfl)⟩

/-- A directory with one file, which is ignored. -/
def onlyReadme : Disk := ⟨.directory [(Text.octets "README", .file [])], []⟩

/-- The command line that has the embed source of that directory printed and is verbose. -/
def printVerbose : Arguments := { printHere with verbosity := 1 }

/-- What is found in that directory. -/
def planReadme : Plan := ⟨printVerbose.preferences.settle, ⟨.ofModules [], [], ["README"]⟩⟩

theorem listNames_onlyReadme : Discovery.listNames onlyReadme "." = .ok ["README"] :=
  Discovery.listNames_of_list rfl

theorem prepared_planReadme : planReadme.Prepared onlyReadme printVerbose := by
  refine ⟨rfl, rfl, ?_⟩
  rw [discover, show (printVerbose.search _).source = "." from rfl, listNames_onlyReadme]
  rfl

theorem planEvents_onlyReadme : planEvents onlyReadme printVerbose =
    [.starting "." "go", .ignoredFile "README"] := by
  rw [planEvents_of_prepared prepared_planReadme rfl, Discovery.events,
    show (printVerbose.search _).source = "." from rfl, listNames_onlyReadme]
  rfl

theorem reply_of_parse {texts : Usage → String} {format : Log.Format} {args : List String}
    (h : parse args = .ok a) : reply texts format d args =
      ⟨(run d a).exit, (run d a).stdout a, (run d a).stderr a format, (run d a).disk⟩ := by
  rw [reply, h]

/-- Standard error is not the report of the run without an embed source where an ignored file is
logged as well, and it is empty where the version is displayed. -/
theorem stderr_of_verbose :
    let answer := reply (fun _ ↦ versionText) Log.plain onlyReadme
    ((answer [".", "--embed", "-", "-v"]).exit = 0 ∧
      (answer [".", "--embed", "-", "-v"]).stderr =
        "INFO ignored file file=README\n" ++ (answer [".", "-v"]).stdout ∧
      (answer [".", "--embed", "-", "-v"]).stderr ≠ (answer [".", "-v"]).stdout) ∧
    (answer [".", "--embed", "-", "--version"]).exit = 0 ∧
      (answer [".", "--embed", "-", "--version"]).stderr = "" ∧
      (answer [".", "--version"]).stdout = "oapi-index-gen 0.1.0\n" := by
  intro answer
  have hverbose : parse [".", "--embed", "-", "-v"] = .ok printVerbose := rfl
  have hquiet : parse [".", "-v"] = .ok { printVerbose with embed := none } := rfl
  obtain ⟨next, hmanifest⟩ : ∃ next,
      onlyReadme.write "./index.openapi.yaml" planReadme.manifestOctets = .ok next := ⟨_, rfl⟩
  have hprinted := run_alone (a := printVerbose) rfl prepared_planReadme rfl hmanifest
  have hplain := run_alone (a := { printVerbose with embed := none }) rfl
    (prepared_planReadme.withEmbed none) rfl hmanifest
  have hstderr : (answer [".", "--embed", "-", "-v"]).stderr =
      "INFO ignored file file=README\n" ++ (answer [".", "-v"]).stdout := by
    simp only [answer, reply_of_parse hverbose, reply_of_parse hquiet, hprinted, hplain,
      planEvents_onlyReadme]
    rw [Outcome.stdout_after, Outcome.stderr, Plan.manifestNotices, Plan.manifestNotices]
    generalize Hash.checksum planReadme.manifestOctets = sum
    let report : List Line := [.ignored "README", .heading, .wrote "./index.openapi.yaml" sum]
    change String.join (Log.plain 0 (.ignoredFile "README") :: report.map fun l ↦ l.text ++ "\n") ++
      "" = _ ++ printed report
    rw [String.append_empty, String.join_cons, printed]
    rfl
  refine ⟨⟨?_, hstderr, ?_⟩, rfl, rfl, rfl⟩
  · simp only [answer, reply_of_parse hverbose, hprinted]
    rfl
  · rw [hstderr]
    exact fun hsame ↦ absurd (congrArg String.length hsame) (by simp)

end ApiManifest.Command
