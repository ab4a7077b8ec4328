import ApiManifest.Proofs.Files.Write

/-!
Several writes one after the other. When all of them succeed, each file has the contents that were
passed to it last, and a file that none of them leads to is as it was (`read_last_writing`,
`read_of_writeAll`).
-/

set_option autoImplicit false
set_option relaxedAutoImplicit false

namespace ApiManifest.Files

/-- Octets that are passed to the file at a path. -/
structure Writing where
  path : String
  contents : Octets
  deriving DecidableEq, Repr

namespace Disk

/-- Passes octets to files in turn, up to the first file that is refused. What is left then is told
as well. -/
def writeAll (d : Disk) : List Writing → Disk × List Writing
  | [] => (d, [])
  | w :: rest =>
    match d.write w.path w.contents with
    | .ok d' => d'.writeAll rest
    | .error _ => (d, w :: rest)

variable {d d' : Disk} {w : Writing} {ws : List Writing} {p : String}

theorem exists_write_of_writeAll (h : d.writeAll (w :: ws) = (d', [])) :
    ∃ next, d.write w.path w.contents = .ok next ∧ next.writeAll ws = (d', []) := by
  rw [writeAll] at h
  cases hwrite : d.write w.path w.contents with
  | error cause => exact absurd h (by simp [hwrite])
  | ok next => exact ⟨next, rfl, by simpa only [hwrite] using h⟩

theorem exists_written_of_writeAll (h : d.writeAll (w :: ws) = (d', [])) :
    ∃ next location, d.Written location w.contents next ∧ next.locate w.path = some location ∧
      next.writeAll ws = (d', []) := by
  obtain ⟨next, hwrite, hrest⟩ := exists_write_of_writeAll h
  obtain ⟨location, hlocate, hwritten⟩ := write_eq_ok hwrite
  exact ⟨next, location, hwritten, hlocate, hrest⟩

theorem grows_of_writeAll (h : d.writeAll ws = (d', [])) : d.Grows d' := by
  induction ws generalizing d with
  | nil =>
    rw [← (Prod.mk.inj h).1]
    exact .refl d
  | cons w ws ih =>
    obtain ⟨next, location, hwritten, -, hrest⟩ := exists_written_of_writeAll h
    exact hwritten.toGrows.trans (ih hrest)

/-- A file to which no path that is written to leads has its contents. -/
theorem read_of_writeAll (h : d.writeAll ws = (d', [])) {old : Octets} (hp : d.read p = .ok old)
    (hother : ∀ w ∈ ws, d'.locate w.path ≠ d'.locate p) : d'.read p = .ok old := by
  induction ws generalizing d with
  | nil =>
    rw [← (Prod.mk.inj h).1]
    exact hp
  | cons w ws ih =>
    obtain ⟨next, location, hwritten, hlocate, hrest⟩ := exists_written_of_writeAll h
    have hgrows := grows_of_writeAll hrest
    refine ih hrest (hwritten.read hp fun hsame ↦ ?_) fun w' hw' ↦
      hother w' (List.mem_cons_of_mem _ hw')
    exact hother w List.mem_cons_self ((hgrows.locate hlocate).trans (hgrows.locate hsame).symm)

/-- A file has the contents that were passed to it last. -/
theorem read_last_writing {front back : List Writing}
    (h : d.writeAll (front ++ w :: back) = (d', []))
    (hlast : ∀ w' ∈ back, d'.locate w'.path ≠ d'.locate w.path) :
    d'.read w.path = .ok w.contents := by
  induction front generalizing d with
  | nil =>
    obtain ⟨next, hwrite, hrest⟩ := exists_write_of_writeAll h
    exact read_of_writeAll hrest (read_of_write hwrite) hlast
  | cons first front ih =>
    obtain ⟨next, -, hrest⟩ := exists_write_of_writeAll h
    exact ih hrest

/-- After two writes the first file has its contents, unless both paths lead to one file, which then
has those of the second write. -/
theorem read_of_writes {q : String} {next last : Disk} {first second : Octets}
    (hfirst : d.write p first = .ok next) (hsecond : next.write q second = .ok last) :
    last.locate q = last.locate p ∧ last.read p = .ok second ∨
      last.locate q ≠ last.locate p ∧ last.read p = .ok first := by
  by_cases hsame : last.locate q = last.locate p
  · exact .inl ⟨hsame, read_of_locate hsame.symm (read_of_write hsecond)⟩
  · obtain ⟨location, hlocate, hwritten⟩ := write_eq_ok hsecond
    refine .inr ⟨hsame, hwritten.read (read_of_write hfirst) fun hplace ↦ ?_⟩
    exact hsame (hlocate.trans hplace.symm)

/-- Files with places of their own have the contents that were passed to them. -/
theorem read_writing (h : d.writeAll ws = (d', []))
    (hapart : ws.Pairwise fun w w' ↦ d'.locate w'.path ≠ d'.locate w.path) (hw : w ∈ ws) :
    d'.read w.path = .ok w.contents := by
  obtain ⟨front, back, rfl⟩ := List.append_of_mem hw
  have hlater := (List.pairwise_cons.mp (List.pairwise_append.mp hapart).2.1).1
  exact read_last_writing h hlater

end Disk

end ApiManifest.Files
