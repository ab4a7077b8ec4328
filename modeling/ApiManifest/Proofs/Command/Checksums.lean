import ApiManifest.Proofs.Command.Again

/-!
The checksums in a report. A run that succeeds has told of its files in the order in which it has
written them, and each of these lines has the checksum of what is left in its file
(`read_of_wrote`), but for one case: when the embed source goes to the very file of the manifest,
that file holds the embed source in the end, and the line after that of the manifest has its
checksum (`checksum_of_overwritten`).
-/

set_option autoImplicit false
set_option relaxedAutoImplicit false

namespace ApiManifest.Command

open Files

variable {d : Disk} {a : Arguments} {p : Plan}

/-- The lines on what has been found tell of no file that has been written. -/
theorem wrote_not_mem_lines (p : Plan) (path checksum : String) :
    Line.wrote path checksum ∉ p.lines := by
  simp [Plan.lines]

/-- What stands before and after an element of two lists that the first one lacks. -/
theorem exists_front_of_append_eq {α : Type} {l l' before after : List α} {x : α}
    (h : l ++ l' = before ++ x :: after) (hx : x ∉ l) : ∃ front, l' = front ++ x :: after := by
  rcases List.append_eq_append_iff.mp h with ⟨front, -, hl'⟩ | ⟨back, hl, hback⟩
  · exact ⟨front, hl'⟩
  · cases back with
    | nil => exact ⟨[], hback.symm⟩
    | cons y back =>
      obtain ⟨rfl, -⟩ := List.cons.inj hback
      exact absurd (hl ▸ List.mem_append_right _ List.mem_cons_self) hx

/-- Every file of which a run tells that it has written it is there in the end, with the checksum
that is told; but if the embed source has been written to the file of the manifest, the line on the
manifest has the checksum of the manifest and is followed by one alone, which has that of the file.
-/
theorem read_of_wrote (hcheck : a.check = false) (hexit : (run d a).exit = 0)
    {before after : List Line} {path checksum : String}
    (hlines : (run d a).lines = before ++ .wrote path checksum :: after) :
    ∃ (p : Plan) (contents : Octets), p.Prepared d a ∧
      (run d a).disk.read path = .ok contents ∧
      (Hash.checksum contents = checksum ∨
        path = Manifest.pathIn a.outputDirectory ∧ checksum = Hash.checksum p.manifestOctets ∧
          ∃ file, a.embedFile? = some file ∧
            (run d a).disk.locate file = (run d a).disk.locate path ∧
            after = [.wrote file (Hash.checksum contents)]) := by
  obtain ⟨p, o, hp, hends, hexit, hrun⟩ := exists_endsIn_of_run hcheck hexit
  rw [hrun, Outcome.lines_after, hends.lines_eq hexit] at hlines
  rw [hrun, Outcome.disk_after]
  rw [exit_eq_zero_iff] at hexit
  obtain ⟨front, hfront⟩ := exists_front_of_append_eq hlines (wrote_not_mem_lines p _ _)
  cases hends with
  | manifestRefused hmanifest => exact nomatch hexit
  | sourceRefused hmanifest hfile hsource => exact nomatch hexit
  | manifestAlone hmanifest hfile =>
    rw [hfile] at hfront
    cases front with
    | nil =>
      obtain ⟨hline, -⟩ := List.cons.inj hfront
      obtain ⟨rfl, rfl⟩ := Line.wrote.inj hline
      exact ⟨p, p.manifestOctets, hp, Disk.read_of_write hmanifest, .inl rfl⟩
    | cons _ front => exact absurd (List.cons.inj hfront).2 (by simp)
  | @both next last file hmanifest hfile hsource =>
    rw [hfile] at hfront
    cases front with
    | nil =>
      obtain ⟨hline, hafter⟩ := List.cons.inj hfront
      obtain ⟨rfl, rfl⟩ := Line.wrote.inj hline
      rcases Disk.read_of_writes hmanifest hsource with ⟨hsame, hread⟩ | ⟨-, hread⟩
      · exact ⟨p, _, hp, hread, .inr ⟨rfl, rfl, file, hfile, hsame, hafter.symm⟩⟩
      · exact ⟨p, _, hp, hread, .inl rfl⟩
    | cons first front =>
      obtain ⟨-, hrest⟩ := List.cons.inj hfront
      cases front with
      | nil =>
        obtain ⟨hline, -⟩ := List.cons.inj hrest
        obtain ⟨rfl, rfl⟩ := Line.wrote.inj hline
        exact ⟨p, _, hp, Disk.read_of_write hsource, .inl rfl⟩
      | cons _ front => exact absurd (List.cons.inj hrest).2 (by simp)

/-- Beside the manifest an embed source is written, and the first of the two lines is right. -/
theorem read_of_wrote_beside :
    embedHere.check = false ∧ (run oneDocument embedHere).exit = 0 ∧
    (run oneDocument embedHere).lines =
      planHere.lines ++ .wrote "./index.openapi.yaml" (Hash.checksum planHere.manifestOctets) ::
        [.wrote "embed.go" (Hash.checksum (Text.octets planHere.source))] ∧
    ∃ contents, (run oneDocument embedHere).disk.read "./index.openapi.yaml" = .ok contents ∧
      Hash.checksum contents = Hash.checksum planHere.manifestOctets := by
  have hrun := run_both (a := embedHere) rfl prepared_planHere rfl rfl rfl
  have hexit : (run oneDocument embedHere).exit = 0 := by rw [hrun]; rfl
  have hlines : (run oneDocument embedHere).lines =
      planHere.lines ++ .wrote "./index.openapi.yaml" (Hash.checksum planHere.manifestOctets) ::
        [.wrote "embed.go" (Hash.checksum (Text.octets planHere.source))] := by
    rw [hrun, Outcome.lines_after]
    rfl
  obtain ⟨p, contents, -, hread, hright | ⟨-, -, file, hfile, hsame, -⟩⟩ :=
    read_of_wrote rfl hexit hlines
  · exact ⟨rfl, hexit, hlines, contents, hread, hright⟩
  · obtain rfl : file = "embed.go" := (Option.some.inj hfile).symm
    rw [hrun, Outcome.disk_after] at hsame
    exact absurd hsame (by decide)

/-- A disk with nothing in its directory. -/
def emptyDirectory : Disk := ⟨.directory [], []⟩

/-- A disk with nothing in its directory but a file at the place of the manifest. -/
def indexAlone (octets : Octets) : Disk :=
  ⟨.directory [(Text.encode "index.openapi.yaml".toList, .file octets)], []⟩

/-- The command line that has the embed source written to the file of the manifest. -/
def overwriting : Arguments :=
  ⟨".", none, some "index.openapi.yaml", none, none, none, none, false, 0⟩

/-- What is found there. -/
def emptyPlan : Plan := ⟨overwriting.preferences.settle, .ofModules [], [], []⟩

theorem prepared_emptyPlan : emptyPlan.Prepared emptyDirectory overwriting := by
  refine ⟨rfl, rfl, ?_⟩
  have hnames : Discovery.listNames emptyDirectory "." = .ok [] := by
    rw [Discovery.listNames, show emptyDirectory.list "." = .ok [] from rfl]
    exact congrArg Except.ok List.mergeSort_nil
  rw [discover, show (overwriting.search _).source = "." from rfl, hnames]
  rfl

/-- The manifest and the embed source have different checksums. The source is taken apart into its
lines first, since the characters of a long text are slow to come by. -/
theorem checksum_emptyPlan_ne : Hash.checksum (Text.octets emptyPlan.source) ≠
    Hash.checksum emptyPlan.manifestOctets := by
  rw [Plan.source, Text.octets_join, Embed.pieces, List.flatMap_cons,
    show emptyPlan.settings.embed = ⟨.go, "openapi"⟩ from rfl, Embed.Target.header,
    Text.octets_append, Text.octets_append, Embed.goPreamble, Embed.octets_joinLines,
    Embed.goScaffolding, Embed.octets_joinLines]
  decide +kernel

/-- An embed source that is written to the file of the manifest leaves the line on the manifest with
a checksum that the file has no longer. -/
theorem checksum_of_overwritten :
    (run emptyDirectory overwriting).exit = 0 ∧
    ¬ ∀ path checksum, .wrote path checksum ∈ (run emptyDirectory overwriting).lines →
      ∃ contents, (run emptyDirectory overwriting).disk.read path = .ok contents ∧
        Hash.checksum contents = checksum := by
  have hmanifest : emptyDirectory.write "./index.openapi.yaml" emptyPlan.manifestOctets =
      .ok (indexAlone emptyPlan.manifestOctets) := rfl
  have hsource : (indexAlone emptyPlan.manifestOctets).write "index.openapi.yaml"
      (Text.octets emptyPlan.source) = .ok (indexAlone (Text.octets emptyPlan.source)) := rfl
  have hrun := run_both (a := overwriting) rfl prepared_emptyPlan rfl hmanifest hsource
  refine ⟨by rw [hrun]; rfl, fun hall ↦ ?_⟩
  have htold : .wrote (Manifest.pathIn overwriting.outputDirectory)
      (Hash.checksum emptyPlan.manifestOctets) ∈ (run emptyDirectory overwriting).lines := by
    rw [hrun, Outcome.lines_after]
    simp [Outcome.lines]
  obtain ⟨contents, hread, hchecksum⟩ := hall _ _ htold
  rw [hrun] at hread
  rcases Disk.read_of_writes hmanifest hsource with ⟨-, hlast⟩ | ⟨hother, -⟩
  · obtain rfl := Except.ok.inj (hlast.symm.trans hread)
    exact checksum_emptyPlan_ne hchecksum
  · exact hother rfl

end ApiManifest.Command
