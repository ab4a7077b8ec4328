import ApiManifest.Catalog.Source
import ApiManifest.Proofs.Command.Plan
import ApiManifest.Proofs.Discovery.Taken
import ApiManifest.Proofs.Files.Relative

/-!
The paths in a manifest. Each is that of a document as it is seen from the directory of the
manifest, told by texts alone, and a source of files over that directory gives the document under it
(`load_path_of_run`): a run can only succeed if it has written into the directory, which therefore
is there, and what has been written since has moved nothing.
-/

set_option autoImplicit false
set_option relaxedAutoImplicit false

namespace ApiManifest.Command

open Files

variable {d : Disk} {a : Arguments}

theorem isName_manifestFilename : Path.IsName manifestFilename :=
  ⟨⟨by decide, by decide⟩, by decide, by decide⟩

/-- After a run that has written, every path in the manifest leads from the directory of the
manifest to the document of its module. -/
theorem load_path_of_run (htree : d.tree.IsPlain) (hcheck : a.check = false)
    (hexit : (run d a).exit = 0) :
    ∃ p : Plan, p.Prepared d a ∧ ∀ e ∈ p.found.manifest.modules,
      (Text.octets (Path.join a.outputDirectory e.path)).length ≤ pathLimit →
        ∃ contents,
          (run d a).disk.read (Path.join a.directory (documentFilename e.name)) = .ok contents ∧
          (Source.directory a.outputDirectory).load (run d a).disk e.path = .ok contents := by
  obtain ⟨p, hp, hwritten⟩ := exists_plan_of_run hcheck hexit
  generalize (run d a).disk = d' at hwritten ⊢
  refine ⟨p, hp, fun e he hshort ↦ ?_⟩
  obtain ⟨next, hwrite, -⟩ := Disk.exists_write_of_writeAll hwritten
  obtain ⟨base, hopens⟩ := Disk.exists_opens_of_write htree isName_manifestFilename hwrite
  obtain ⟨hpath, old, hread⟩ := path_of_discover hp.discovery he
  obtain ⟨place, hplace, hview⟩ := Disk.read_eq_ok_iff.mp hread
  have hkind : d.tree.kind? place = some .file := by rw [Tree.kind?, hview]; rfl
  -- Before the run the two paths lead to the same place, and so they do after it.
  have hrelative : d.locate (Path.join a.outputDirectory e.path) = some place := by
    rw [hpath] at hshort ⊢
    exact Disk.locate_relative htree hopens hplace hkind hshort
  have hgrows := Disk.grows_of_writeAll hwritten
  obtain ⟨contents, hcontents⟩ := hgrows.exists_read hread
  have hloaded : d'.read (Path.join a.outputDirectory e.path) = .ok contents :=
    Disk.read_of_locate ((hgrows.locate hrelative).trans (hgrows.locate hplace).symm) hcontents
  refine ⟨contents, hcontents, ?_⟩
  change Source.loadFile d' a.outputDirectory e.path = .ok contents
  unfold Source.loadFile
  extract_lets path
  rw [hloaded]

/-- A disk with a document in one directory, and another directory beside it. -/
def twoDirectories : Disk :=
  ⟨.directory [(Text.octets "work", .directory [
    (Text.octets "specs", .directory [(Text.octets "dns.openapi.yaml",
      .file (Text.octets "$id: u\ninfo: \x7bsummary: s\x7d\n"))]),
    (Text.octets "out", .directory [])])], [Text.octets "work"]⟩

/-- The command line that writes a manifest into the other directory. -/
def writeBeside : Arguments :=
  ⟨"./specs", some "/work/specs/../out", none, none, none, none, none, false, 0⟩

/-- The entry of the document. -/
def entryBeside : Entry := ⟨"dns", "u", "../specs/dns.openapi.yaml", "", "", "s"⟩

/-- What is found there. -/
def planBeside : Plan :=
  ⟨writeBeside.preferences.settle, .ofModules [entryBeside],
    [("dns.openapi.yaml", .obj [("$id", .str "u"), ("info", .obj [("summary", .str "s")])])], []⟩

theorem isPlain_twoDirectories : twoDirectories.tree.IsPlain := by
  have hwork : IsFilename (Text.octets "work") := isFilename_octets (by decide)
  have hspecs : IsFilename (Text.octets "specs") := isFilename_octets (by decide)
  have hdocument : IsFilename (Text.octets "dns.openapi.yaml") := isFilename_octets (by decide)
  have hout : IsFilename (Text.octets "out") := isFilename_octets (by decide)
  refine Tree.isPlain_directory (List.forall_mem_singleton.mpr ⟨hwork, ?_⟩)
  refine Tree.isPlain_directory (List.forall_mem_cons.mpr ⟨⟨hspecs, ?_⟩,
    List.forall_mem_singleton.mpr ⟨hout, Tree.isPlain_directory fun e he ↦ nomatch he⟩⟩)
  exact Tree.isPlain_directory
    (List.forall_mem_singleton.mpr ⟨hdocument, Tree.isPlain_file _⟩)

set_option maxRecDepth 4000 in
/-- The source directory is relative and the other one absolute, and both have dots. -/
theorem load_path_of_run_beside :
    (twoDirectories.tree.IsPlain ∧ writeBeside.check = false ∧
      (run twoDirectories writeBeside).exit = 0) ∧
    ∃ contents,
      (run twoDirectories writeBeside).disk.read
        (Path.join writeBeside.directory (documentFilename entryBeside.name)) = .ok contents ∧
      (Source.directory writeBeside.outputDirectory).load (run twoDirectories writeBeside).disk
        entryBeside.path = .ok contents := by
  have hnames : Discovery.listNames twoDirectories "./specs" = .ok ["dns.openapi.yaml"] :=
    Discovery.listNames_of_list rfl
  have hp : planBeside.Prepared twoDirectories writeBeside := by
    refine ⟨rfl, rfl, ?_⟩
    rw [discover, show (writeBeside.search _).source = "./specs" from rfl, hnames]
    rfl
  have hexit : (run twoDirectories writeBeside).exit = 0 := by
    rw [run_eq_write rfl hp]
    exact (write_eq hp).2.mpr rfl
  obtain ⟨p, hp', hload⟩ := load_path_of_run isPlain_twoDirectories rfl hexit
  obtain rfl := hp.unique hp'
  exact ⟨⟨isPlain_twoDirectories, rfl, hexit⟩,
    hload entryBeside (List.mem_singleton_self _) (by decide)⟩

end ApiManifest.Command
