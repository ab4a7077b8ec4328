import ApiManifest.Proofs.Command.Again
import ApiManifest.Proofs.Files.Lexical
import ApiManifest.Proofs.Text.Lines

/-!
The report of a run as it is printed. A run that succeeds prints a text for each name that it has
ignored, a heading, one for each module and one for each artifact (`stdout_eq_join`). The texts are
printed as they are, so each comes out as one line exactly when no line feed stands in a name, a
version or a path, and what stands behind a line feed there can look like the line of an artifact
(`lines_of_stdout`).
-/

set_option autoImplicit false
set_option relaxedAutoImplicit false

namespace ApiManifest.Command

open Files

variable {d : Disk} {a : Arguments} {p : Plan}

/-- The text on an artifact that has been written. -/
def wroteText (w : Writing) : String :=
  "wrote " ++ w.path ++ " (sha256 " ++ Hash.checksum w.contents ++ ")"

/-- The text on a module. -/
def moduleText (e : Entry) : String := "  " ++ e.name ++ " " ++ e.version ++ " " ++ e.path

/-- The texts that a run tells when it has written its artifacts. -/
def Plan.report (a : Arguments) (p : Plan) : List String :=
  p.found.ignored.map ("ignored file: " ++ ·) ++ "indexed modules:" ::
    p.found.manifest.modules.map moduleText ++ (p.writings a).map wroteText

/-- Holds of a plan when no line feed stands in what is told of it. -/
structure Plan.HasNoLineFeed (a : Arguments) (p : Plan) : Prop where
  ignored : ∀ name ∈ p.found.ignored, '\n' ∉ name.toList
  modules : ∀ e ∈ p.found.manifest.modules, '\n' ∉ e.version.toList ∧ '\n' ∉ e.path.toList
  artifacts : ∀ w ∈ p.writings a, '\n' ∉ w.path.toList

/-- A run that succeeds tells of what it has found and of its artifacts. -/
theorem Plan.EndsIn.texts {o : Outcome} (h : p.EndsIn d a o) (hexit : o.exit = 0) :
    o.lines.map Line.text = p.report a := by
  have hlines : p.lines.map Line.text = p.found.ignored.map ("ignored file: " ++ ·) ++
      "indexed modules:" :: p.found.manifest.modules.map moduleText := by
    simp only [Plan.lines, List.map_append, List.map_cons, List.map_map]
    rfl
  rw [h.lines_eq hexit, List.map_append, hlines, report, writings, List.map_cons, List.map_cons,
    List.map_map, List.map_map]
  rfl

/-- A run that succeeds prints its texts, each with a line feed. -/
theorem stdout_eq_join (hcheck : a.check = false) (hstdout : a.embedsToStdout = false)
    (hexit : (run d a).exit = 0) :
    ∃ p : Plan, p.Prepared d a ∧
      (run d a).stdout a = String.join ((p.report a).map fun t ↦ t ++ "\n") := by
  obtain ⟨p, o, hp, hends, hexit, hrun⟩ := exists_endsIn_of_run hcheck hexit
  refine ⟨p, hp, ?_⟩
  rw [hrun, Outcome.stdout_after, Outcome.stdout, if_neg (by simp [hstdout]), printed,
    ← hends.texts hexit, List.map_map]
  rfl

/-! ### Line feeds -/

theorem Plan.Prepared.isModuleName (hp : p.Prepared d a) {e : Entry}
    (he : e ∈ p.found.manifest.modules) : isModuleName e.name = true :=
  ((discover_isWellFound hp.discovery).entries e (List.mem_reverse.mpr he)).1

theorem lineFeed_not_mem_ignored {name : String} :
    '\n' ∉ ("ignored file: " ++ name).toList ↔ '\n' ∉ name.toList := by
  simp

theorem lineFeed_not_mem_name {name : String} (hname : isModuleName name = true) :
    '\n' ∉ name.toList :=
  fun h ↦ absurd (isNameChar_of_mem hname h) (by decide)

theorem lineFeed_not_mem_moduleText {e : Entry} (hname : isModuleName e.name = true) :
    '\n' ∉ (moduleText e).toList ↔ '\n' ∉ e.version.toList ∧ '\n' ∉ e.path.toList := by
  simp [moduleText, lineFeed_not_mem_name hname]

theorem lineFeed_not_mem_wroteText {w : Writing} :
    '\n' ∉ (wroteText w).toList ↔ '\n' ∉ w.path.toList := by
  have hfree : '\n' ∉ (Hash.checksum w.contents).toList := fun h ↦
    absurd (Text.isSome_hexValue?_of_mem h) (by decide)
  simp [wroteText, hfree]

/-- No line feed stands in a report when none stands in what it tells of. -/
theorem lineFeed_not_mem_report_iff (hp : p.Prepared d a) :
    (∀ t ∈ p.report a, '\n' ∉ t.toList) ↔ p.HasNoLineFeed a := by
  simp only [Plan.report, List.forall_mem_append, List.forall_mem_cons, List.forall_mem_map,
    lineFeed_not_mem_ignored, lineFeed_not_mem_wroteText]
  constructor
  · rintro ⟨⟨hignored, -, hmodules⟩, hartifacts⟩
    exact ⟨hignored, fun e he ↦
      (lineFeed_not_mem_moduleText (hp.isModuleName he)).mp (hmodules e he), hartifacts⟩
  · rintro ⟨hignored, hmodules, hartifacts⟩
    exact ⟨⟨hignored, by decide, fun e he ↦
      (lineFeed_not_mem_moduleText (hp.isModuleName he)).mpr (hmodules e he)⟩, hartifacts⟩

/-- The path of a module has a line feed from the directories alone. -/
theorem lineFeed_not_mem_path (hp : p.Prepared d a) (hdirectory : '\n' ∉ a.directory.toList)
    (hcwd : '\n' ∉ d.cwdPath.toList) : ∀ e ∈ p.found.manifest.modules, '\n' ∉ e.path.toList := by
  intro e he hmem
  have hname := hp.isModuleName he
  have hfile := (isName_documentFilename hname).hasEnds.isAbsolute
  obtain ⟨hpath, -⟩ := path_of_discover hp.discovery he
  rw [hpath] at hmem
  rcases Disk.mem_of_mem_relative (by decide) (by decide) hmem with htarget | hbase
  · rcases (Path.mem_toList_join (by decide) hfile).mp htarget with hsource | hdocument
    · exact hdirectory hsource
    · rw [documentFilename, String.toList_append, List.mem_append] at hdocument
      rcases hdocument with hchar | hsuffix
      · exact lineFeed_not_mem_name hname hchar
      · exact absurd hsuffix (by decide)
  · exact hcwd hbase

/-! ### Lines that tell of artifacts -/

/-- Holds of the lines that start like the line of an artifact. -/
def startsAsWrote (line : String) : Bool := "wrote ".toList.isPrefixOf line.toList

/-- Of a text that does not start so, only what is behind a line feed can. -/
theorem filter_pieces_append {s : String} (hfree : '\n' ∉ s.toList)
    (hstart : ∀ t, startsAsWrote (s ++ t) = false) (t : String) :
    (Text.pieces (s ++ t)).filter startsAsWrote =
      (Text.pieces t).tail.filter startsAsWrote := by
  rw [Text.pieces_append_of_not_mem hfree]
  cases Text.pieces t with
  | nil => rfl
  | cons first rest =>
    rw [List.modifyHead_cons, List.filter_cons_of_neg (by simp [hstart]), List.tail_cons]

theorem startsAsWrote_of_head {s : String} {c : Char} {cs : List Char} (hs : s.toList = c :: cs)
    (hc : c ≠ 'w') (t : String) : startsAsWrote (s ++ t) = false := by
  have hfirst : ('w' == c) = false := beq_eq_false_iff_ne.mpr hc.symm
  have hword : "wrote ".toList = 'w' :: "rote ".toList := rfl
  rw [startsAsWrote, String.toList_append, hs, hword, List.cons_append, List.isPrefixOf_cons_cons,
    hfirst, Bool.false_and]

theorem filter_pieces_ignored (name : String) :
    (Text.pieces ("ignored file: " ++ name)).filter startsAsWrote =
      (Text.pieces name).tail.filter startsAsWrote :=
  filter_pieces_append (by decide) (startsAsWrote_of_head rfl (by decide)) name

theorem filter_pieces_moduleText {e : Entry} (hname : isModuleName e.name = true) :
    (Text.pieces (moduleText e)).filter startsAsWrote =
      (Text.pieces (e.version ++ " " ++ e.path)).tail.filter startsAsWrote := by
  have hfree : '\n' ∉ ("  " ++ e.name ++ " ").toList := by
    simp [lineFeed_not_mem_name hname]
  have hlist : ("  " ++ e.name ++ " ").toList = ' ' :: (" " ++ e.name ++ " ").toList := by simp
  have htext : moduleText e = ("  " ++ e.name ++ " ") ++ (e.version ++ " " ++ e.path) := by
    simp only [moduleText, String.append_assoc]
  rw [htext]
  exact filter_pieces_append hfree (startsAsWrote_of_head hlist (by decide)) _

/-- The line of an artifact is told from its start. -/
theorem filter_pieces_wroteText {w : Writing} (hpath : '\n' ∉ w.path.toList) :
    (Text.pieces (wroteText w)).filter startsAsWrote = [wroteText w] := by
  have hstart : startsAsWrote (wroteText w) = true := by
    rw [startsAsWrote, wroteText, String.append_assoc, String.append_assoc, String.append_assoc,
      String.toList_append]
    exact List.isPrefixOf_iff_prefix.mpr (List.prefix_append _ _)
  rw [Text.pieces_of_not_mem (lineFeed_not_mem_wroteText.mpr hpath), List.filter_cons_of_pos hstart,
    List.filter_nil]

/-- What a run prints that succeeds and does not print the embed source. Its texts stand one to a
line exactly when no line feed is in an ignored name, a version or a path; the paths of the modules
have one from the directories alone. The lines that look like those of an artifact are those of the
artifacts, and before them what looks so behind a line feed in an ignored name, or in the version or
the path of a module. -/
theorem lines_of_stdout (hcheck : a.check = false) (hstdout : a.embedsToStdout = false)
    (hexit : (run d a).exit = 0) :
    ∃ p : Plan, p.Prepared d a ∧
      (run d a).stdout a = String.join ((p.report a).map fun t ↦ t ++ "\n") ∧
      Text.lines ((run d a).stdout a) = (p.report a).flatMap Text.pieces ∧
      (Text.lines ((run d a).stdout a) = p.report a ↔ p.HasNoLineFeed a) ∧
      (Text.lines ((run d a).stdout a)).filter startsAsWrote =
        (p.found.ignored.flatMap fun name ↦ (Text.pieces name).tail.filter startsAsWrote) ++
        (p.found.manifest.modules.flatMap fun e ↦
          (Text.pieces (e.version ++ " " ++ e.path)).tail.filter startsAsWrote) ++
        ((p.writings a).flatMap fun w ↦ (Text.pieces (wroteText w)).filter startsAsWrote) ∧
      ('\n' ∉ a.directory.toList → '\n' ∉ d.cwdPath.toList →
        ∀ e ∈ p.found.manifest.modules, '\n' ∉ e.path.toList) := by
  obtain ⟨p, hp, hjoin⟩ := stdout_eq_join hcheck hstdout hexit
  have hlines : Text.lines ((run d a).stdout a) = (p.report a).flatMap Text.pieces := by
    rw [hjoin, Text.lines_join]
  refine ⟨p, hp, hjoin, hlines, ?_, ?_, lineFeed_not_mem_path hp⟩
  · rw [hlines, Text.flatMap_pieces_eq_iff, lineFeed_not_mem_report_iff hp]
  · have hheading : (Text.pieces "indexed modules:").filter startsAsWrote = [] := by decide
    have hmodules : (p.found.manifest.modules.flatMap fun e ↦
        (Text.pieces (moduleText e)).filter startsAsWrote) =
          p.found.manifest.modules.flatMap fun e ↦
            (Text.pieces (e.version ++ " " ++ e.path)).tail.filter startsAsWrote :=
      List.flatMap_congr fun e he ↦ filter_pieces_moduleText (hp.isModuleName he)
    rw [hlines, Plan.report, List.filter_flatMap, List.flatMap_append, List.flatMap_append,
      List.flatMap_cons, hheading, List.nil_append, List.flatMap_map, List.flatMap_map,
      List.flatMap_map, hmodules]
    simp only [filter_pieces_ignored]

/-- The text of a document whose version looks like the line of an artifact. -/
def forgingText : String := "$id: u\ninfo:\n  version: \"1\\nwrote b (sha256 0)\\n\"\n"

/-- A disk with that document in the working directory. -/
def forgingDisk : Disk :=
  ⟨.directory [(Text.octets "a.openapi.yaml", .file (Text.octets forgingText))], []⟩

/-- The command line that writes the manifest beside the document. -/
def writeAlone : Arguments := { embedHere with embed := none }

/-- What is found there. -/
def forgingPlan : Plan :=
  ⟨writeAlone.preferences.settle,
    .ofModules [⟨"a", "u", "a.openapi.yaml", "1\nwrote b (sha256 0)\n", "", ""⟩],
    [("a.openapi.yaml", .obj [("$id", .str "u"),
      ("info", .obj [("version", .str "1\nwrote b (sha256 0)\n")])])], []⟩

set_option maxRecDepth 4000 in
theorem prepared_forgingPlan : forgingPlan.Prepared forgingDisk writeAlone := by
  refine ⟨rfl, rfl, ?_⟩
  have hnames : Discovery.listNames forgingDisk "." = .ok ["a.openapi.yaml"] :=
    Discovery.listNames_of_list rfl
  rw [discover, show (writeAlone.search _).source = "." from rfl, hnames]
  rfl

/-- The line of a file that has not been written stands before that of the manifest. -/
theorem lines_of_stdout_forged :
    writeAlone.check = false ∧ writeAlone.embedsToStdout = false ∧
      (run forgingDisk writeAlone).exit = 0 ∧
    let printed := Text.lines ((run forgingDisk writeAlone).stdout writeAlone)
    printed ≠ forgingPlan.report writeAlone ∧
      printed.filter startsAsWrote = ["wrote b (sha256 0)",
        wroteText ⟨"./index.openapi.yaml", forgingPlan.manifestOctets⟩] := by
  have hexit : (run forgingDisk writeAlone).exit = 0 := by
    rw [run_eq_write rfl prepared_forgingPlan]
    exact (write_eq prepared_forgingPlan).2.mpr rfl
  obtain ⟨p, hp, -, -, hplain, hwrote, -⟩ := lines_of_stdout (a := writeAlone) rfl rfl hexit
  obtain rfl := hp.unique prepared_forgingPlan
  refine ⟨rfl, rfl, hexit, fun hlines ↦ ?_, ?_⟩
  · exact (List.forall_mem_cons.mp (hplain.mp hlines).modules).1.1 (by decide)
  · have hartifacts : forgingPlan.writings writeAlone =
        [⟨"./index.openapi.yaml", forgingPlan.manifestOctets⟩] := rfl
    rw [hwrote, hartifacts, List.flatMap_cons, List.flatMap_nil, List.append_nil,
      filter_pieces_wroteText (by decide)]
    rfl

end ApiManifest.Command
