import ApiManifest.Proofs.Command.Plan
import ApiManifest.Proofs.Discovery.Validated
import ApiManifest.Proofs.Text.Hex

/-!
A check and the run that writes go by the same plan. The check compares texts and the other run
passes octets on, and yet the check reports of each file whether it has the digest of what would be
written to it (`check_eq`).
-/

set_option autoImplicit false
set_option relaxedAutoImplicit false

namespace ApiManifest

open Files

/-- Checksums show whether digests are the same. -/
theorem Hash.checksum_eq_iff {message message' : Octets} :
    checksum message = checksum message' ↔ sha256 message = sha256 message' :=
  Text.hexOctets_injective.eq_iff

namespace Command

variable {d : Disk} {a : Arguments} {p : Plan}

/-- Whether the file at a path can be read and has the digest of the octets that belong there. -/
def Stands (d : Disk) (w : Writing) : Prop :=
  ∃ contents, d.read w.path = .ok contents ∧ Hash.sha256 contents = Hash.sha256 w.contents

instance (d : Disk) (w : Writing) : Decidable (Stands d w) :=
  match h : d.read w.path with
  | .ok contents =>
    decidable_of_iff (Hash.sha256 contents = Hash.sha256 w.contents) (by simp [Stands, h])
  | .error _ => isFalse (by simp [Stands, h])

/-- A file with the very octets that belong there stands. -/
theorem stands_of_read {w : Writing} (h : d.read w.path = .ok w.contents) : Stands d w :=
  ⟨w.contents, h, rfl⟩

/-- The octets that belong in the file of an artifact. -/
def Artifact.writing (f : Artifact) : Writing := ⟨f.path, Text.octets f.text⟩

theorem Artifact.isCurrent_eq (f : Artifact) : f.isCurrent d = decide (Stands d f.writing) := by
  rw [isCurrent, Bool.eq_iff_iff, decide_eq_true_iff, Stands, writing]
  cases d.read f.path with
  | error cause => simp
  | ok contents => simp [Hash.checksum_eq_iff]

/-- What a check reports of the file at a path. -/
def verdict (d : Disk) (w : Writing) : Line :=
  if Stands d w then .upToDate w.path else .stale w.path

/-- The artifacts of a check are the files to which a run would write. -/
theorem exists_expected (hp : p.Prepared d a) (hstdout : a.embedsToStdout = false) :
    ∃ artifacts, expected a p = .ok artifacts ∧ artifacts.map Artifact.writing = p.writings a := by
  rw [expected, Plan.writings, Arguments.embedFile?, hstdout]
  cases a.embed with
  | none => exact ⟨_, rfl, rfl⟩
  | some path =>
    rw [Plan.embedText_eq hp.package]
    exact ⟨_, rfl, rfl⟩

/-- How many of the files do not stand. -/
def countStale (d : Disk) (ws : List Writing) : Nat := ws.countP fun w ↦ !decide (Stands d w)

theorem countStale_eq_zero_iff {ws : List Writing} :
    countStale d ws = 0 ↔ ∀ w ∈ ws, Stands d w := by
  rw [countStale, List.countP_eq_zero]
  simp

/-- What a check tells, after what has been found: that it has made the embed source, if one is asked
for, and its verdict on every file to which a run would write. -/
theorem check_eq (hp : p.Prepared d a) (hstdout : a.embedsToStdout = false) :
    check d a p =
      ⟨p.notices ++ (a.embed.toList.map fun _ ↦ p.sourceEvent).map .event ++
        ((p.writings a).map (verdict d)).map .line, none,
        if countStale d (p.writings a) = 0 then none
          else some (.outOfDate (countStale d (p.writings a))), d⟩ := by
  obtain ⟨artifacts, hexpected, hwritings⟩ := exists_expected hp hstdout
  have hverdicts : (artifacts.map fun f ↦
      Notice.line (if f.isCurrent d then .upToDate f.path else .stale f.path)) =
        ((p.writings a).map (verdict d)).map .line := by
    rw [← hwritings, List.map_map, List.map_map]
    refine List.map_congr_left fun f _ ↦ ?_
    simp only [Artifact.isCurrent_eq, decide_eq_true_eq]
    rfl
  have hmade : (a.embed.toList.map fun _ ↦ Notice.event p.sourceEvent) =
      (a.embed.toList.map fun _ ↦ p.sourceEvent).map .event := List.map_map.symm
  have hcount : (artifacts.countP fun f ↦ !f.isCurrent d) = countStale d (p.writings a) := by
    rw [← hwritings, countStale, List.countP_map]
    exact List.countP_congr fun f _ ↦ by simp [Artifact.isCurrent_eq]
  rw [check, hexpected]
  dsimp only
  rw [hverdicts, hcount, hmade]

/-- The report of a check. -/
theorem lines_check (hp : p.Prepared d a) (hstdout : a.embedsToStdout = false) :
    (check d a p).lines = p.lines ++ (p.writings a).map (verdict d) := by
  rw [check_eq hp hstdout, Outcome.lines, List.filterMap_append, List.filterMap_append,
    Plan.filterMap_line?_notices, Notice.filterMap_line?_map_event, List.append_nil,
    Notice.filterMap_line?_map_line]

/-- A run that checks compares as soon as it has a plan. -/
theorem run_eq_check (hcheck : a.check = true) (hp : p.Prepared d a)
    (hstdout : a.embedsToStdout = false) :
    run d a = (check d a p).after (planEvents d a) := by
  have hplan : plan d a = .ok p := plan_eq_ok_iff.mpr ⟨hp, by rw [hstdout, Bool.and_false]⟩
  rw [run, hplan]
  exact congrArg _ (if_pos hcheck)

/-- A run that checks has a plan and leaves its embed source to a file, or it fails at once. -/
theorem prepared_or_refused (hcheck : a.check = true) :
    (∃ p : Plan, p.Prepared d a ∧ a.embedsToStdout = false) ∨
      ∃ cause, (run d a).failure = some cause ∧ (run d a).disk = d := by
  cases hplan : plan d a with
  | error cause => exact .inr ⟨cause, by rw [run, hplan]; exact ⟨rfl, rfl⟩⟩
  | ok p =>
    obtain ⟨hp, hstdout⟩ := plan_eq_ok_iff.mp hplan
    exact .inl ⟨p, hp, by rwa [hcheck, Bool.true_and] at hstdout⟩

/-- Whether a line of a report tells that a file is stale. -/
def Line.isStale : Line → Bool
  | stale _ => true
  | _ => false

/-- The report tells of as many stale files as there are. -/
theorem countP_isStale_lines (p : Plan) (ws : List Writing) :
    (p.lines ++ ws.map (verdict d)).countP Line.isStale = countStale d ws := by
  have hplan : p.lines.countP Line.isStale = 0 := by
    rw [List.countP_eq_zero, Plan.lines]
    intro line hline
    simp only [List.mem_append, List.mem_map, List.mem_cons] at hline
    rcases hline with ⟨_, -, rfl⟩ | rfl | ⟨_, -, rfl⟩ <;> exact Bool.false_ne_true
  rw [List.countP_append, hplan, Nat.zero_add, List.countP_map, countStale]
  refine List.countP_congr fun w _ ↦ ?_
  rw [Function.comp_apply, verdict]
  split_ifs with h <;> simp [Line.isStale, h]

/-- A check succeeds exactly when a run that writes would have all that it needs and every file to
which it would write has the digest of what it would write. Else it fails, and if it does so for the
files alone, it tells how many of them its report calls stale. A file that has the very octets is
not called so. -/
theorem check_agrees_with_write (d : Disk) {a : Arguments} (hcheck : a.check = true) :
    ((run d a).exit = 0 ↔ a.embedsToStdout = false ∧
      ∃ p : Plan, p.Prepared d a ∧ ∀ w ∈ p.writings a, ∃ contents,
        d.read w.path = .ok contents ∧ Hash.sha256 contents = Hash.sha256 w.contents) ∧
    ((run d a).exit = 0 ∨ (run d a).exit = 1) ∧ (run d a).disk = d ∧
    ∀ p : Plan, p.Prepared d a → a.embedsToStdout = false →
      (run d { a with check := false }).disk = (d.writeAll (p.writings a)).1 ∧
      ((run d { a with check := false }).exit = 0 ↔ (d.writeAll (p.writings a)).2 = []) ∧
      (run d a).lines = p.lines ++ (p.writings a).map (verdict d) ∧
      (∀ w ∈ p.writings a, d.read w.path = .ok w.contents → verdict d w = .upToDate w.path) ∧
      let count := (run d a).lines.countP Line.isStale
      (run d a).failure.map Failure.message =
        if count = 0 then none else some (toString count ++ " artifact(s) out of date") := by
  have hrun {p : Plan} (hp : p.Prepared d a) (hstdout : a.embedsToStdout = false) :
      (run d a).lines = p.lines ++ (p.writings a).map (verdict d) ∧
        (run d a).failure = (if countStale d (p.writings a) = 0 then none
          else some (.outOfDate (countStale d (p.writings a)))) ∧ (run d a).disk = d := by
    rw [run_eq_check hcheck hp hstdout, Outcome.lines_after, lines_check hp hstdout,
      check_eq hp hstdout]
    exact ⟨rfl, rfl, rfl⟩
  refine ⟨⟨fun hexit ↦ ?_, ?_⟩, ?_, ?_, fun p hp hstdout ↦ ?_⟩
  · rw [exit_eq_zero_iff] at hexit
    rcases prepared_or_refused hcheck with ⟨p, hp, hstdout⟩ | ⟨cause, hrefused, -⟩
    · refine ⟨hstdout, p, hp, countStale_eq_zero_iff.mp ?_⟩
      by_contra hcount
      rw [(hrun hp hstdout).2.1, if_neg hcount] at hexit
      exact nomatch hexit
    · exact nomatch hexit.symm.trans hrefused
  · rintro ⟨hstdout, p, hp, hstands⟩
    rw [exit_eq_zero_iff, (hrun hp hstdout).2.1]
    exact if_pos (countStale_eq_zero_iff.mpr hstands)
  · rw [Outcome.exit]
    cases (run d a).failure <;> simp
  · rcases prepared_or_refused hcheck with ⟨p, hp, hstdout⟩ | ⟨cause, -, hdisk⟩
    · exact (hrun hp hstdout).2.2
    · exact hdisk
  · have hwriting : p.Prepared d { a with check := false } :=
      ⟨hp.settings, hp.package, hp.discovery⟩
    obtain ⟨hdisk, hexit⟩ := write_eq hwriting
    obtain ⟨hlines, hfailure, -⟩ := hrun hp hstdout
    rw [run_eq_write rfl hwriting, Outcome.disk_after, Outcome.exit_after, hlines, hfailure]
    refine ⟨hdisk, hexit, rfl, fun w _ hread ↦ if_pos (stands_of_read hread), ?_⟩
    dsimp only
    rw [countP_isStale_lines]
    split_ifs <;> rfl

/-- The command line that writes a manifest and an embed source beside a document. -/
def embedHere : Arguments := ⟨".", none, some "embed.go", none, none, none, none, false, 0⟩

/-- What is found where there is one document. -/
def planHere : Plan := ⟨embedHere.preferences.settle, oneDiscovery "a.openapi.yaml"⟩

/-- The command line that checks the manifest and the embed source. -/
def checkHere : Arguments := { embedHere with check := true }

/-- A directory with a document, its embed source and an empty manifest. -/
def emptyManifest : Disk :=
  ⟨.directory [
    (Text.octets "a.openapi.yaml", .file (Text.octets "$id: u\ninfo: \x7b\x7d\n")),
    (Text.octets "embed.go", .file (Text.octets planHere.source)),
    (Text.octets "index.openapi.yaml", .file [])], []⟩

/-- What is found in that directory. -/
def planStale : Plan :=
  { planHere with found := { planHere.found with ignored := ["embed.go"] } }

set_option maxRecDepth 6000 in
theorem prepared_planStale : planStale.Prepared emptyManifest checkHere := by
  refine ⟨rfl, rfl, ?_⟩
  have hnames : Discovery.listNames emptyManifest "." =
      .ok ["a.openapi.yaml", "embed.go", "index.openapi.yaml"] :=
    Discovery.listNames_of_pairwise rfl (by decide)
  rw [discover, show (checkHere.search _).source = "." from rfl, hnames]
  rfl

theorem not_stands_emptyManifest :
    ¬ Stands emptyManifest ⟨"./index.openapi.yaml", planStale.manifestOctets⟩ := by
  rintro ⟨contents, hread, hsame⟩
  obtain rfl : [] = contents := Except.ok.inj hread
  exact absurd hsame (by decide +kernel)

/-- An empty manifest is stale, and the embed source beside it is up to date. -/
theorem check_agrees_with_write_stale :
    parse [".", "--embed", "embed.go", "--check"] = .ok checkHere ∧ checkHere.check = true ∧
      (run emptyManifest checkHere).exit = 1 ∧
      (run emptyManifest checkHere).lines =
        planStale.lines ++ [.stale "./index.openapi.yaml", .upToDate "embed.go"] ∧
      (run emptyManifest checkHere).failure.map Failure.message =
        some "1 artifact(s) out of date" := by
  obtain ⟨hiff, hexit, -, hruns⟩ := check_agrees_with_write emptyManifest (a := checkHere) rfl
  have hwritings : planStale.writings checkHere =
      [⟨"./index.openapi.yaml", planStale.manifestOctets⟩,
        ⟨"embed.go", Text.octets planStale.source⟩] := rfl
  obtain ⟨-, -, hlines, hcurrent, hmessage⟩ := hruns planStale prepared_planStale rfl
  have hstale : verdict emptyManifest ⟨"./index.openapi.yaml", planStale.manifestOctets⟩ =
      .stale "./index.openapi.yaml" := if_neg not_stands_emptyManifest
  have hread : emptyManifest.read "embed.go" = .ok (Text.octets planStale.source) := by
    rw [show planStale.source = planHere.source by rw [Plan.source, Plan.source]; rfl]
    rfl
  have hsource : verdict emptyManifest ⟨"embed.go", Text.octets planStale.source⟩ =
      .upToDate "embed.go" := by
    specialize hcurrent ⟨"embed.go", Text.octets planStale.source⟩
    rw [hwritings] at hcurrent
    dsimp only at hcurrent
    exact hcurrent (.tail _ (.head _)) hread
  rw [hwritings, List.map_cons, List.map_singleton, hstale, hsource] at hlines
  refine ⟨rfl, rfl, hexit.resolve_left fun hzero ↦ ?_, hlines, ?_⟩
  · obtain ⟨-, p, hp, hstands⟩ := hiff.mp hzero
    obtain rfl := hp.unique prepared_planStale
    exact not_stands_emptyManifest (hstands _ List.mem_cons_self)
  · rw [hmessage, hlines]
    rfl

end Command

end ApiManifest
