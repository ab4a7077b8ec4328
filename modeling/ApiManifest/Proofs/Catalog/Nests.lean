import ApiManifest.Proofs.Catalog.Source

/-!
Nests of chains. A chain within a chain cannot be told from its own sources put in its place
(`load_append_of_lacks`, `load_append_of_not_lacks`): that all of them lack a file reads like the
miss of a single source, and a failure of one of them ends the search of every chain around it. So a
source answers as the flat chain of the directories and tables in it (`load_eq_load_leaves`),
whatever chains they stand in and wherever empty ones stand among them.
-/

set_option autoImplicit false
set_option relaxedAutoImplicit false

namespace ApiManifest.Source

open Files

variable {d : Disk} {name : String} {s : Source} {sources front back : List Source}

/-! ### Chains put together -/

/-- An empty chain has no file. -/
theorem lacks_chain_nil : (chain []).Lacks d name := rfl

/-- A chain lacks a file when each of its sources does. -/
theorem lacks_chain_iff : (chain sources).Lacks d name ↔ ∀ s ∈ sources, s.Lacks d name := by
  induction sources with
  | nil => exact iff_of_true lacks_chain_nil fun s hs ↦ nomatch hs
  | cons s sources ih =>
    rw [List.forall_mem_cons, ← ih]
    by_cases hs : s.Lacks d name
    · rw [Lacks, load_chain_of_lacks hs, and_iff_right hs]
      rfl
    · rw [Lacks, load_chain_of_not_lacks hs]
      exact iff_of_false hs fun h ↦ hs h.1

/-- What the first part of a chain lacks is looked for in the rest. -/
theorem load_append_of_lacks (h : (chain front).Lacks d name) :
    (chain (front ++ back)).load d name = (chain back).load d name := by
  induction front with
  | nil => rfl
  | cons s front ih =>
    obtain ⟨hs, hfront⟩ := List.forall_mem_cons.mp (lacks_chain_iff.mp h)
    rw [List.cons_append, load_chain_of_lacks hs]
    exact ih (lacks_chain_iff.mpr hfront)

/-- What the first part of a chain does not lack is left to it. -/
theorem load_append_of_not_lacks (h : ¬ (chain front).Lacks d name) :
    (chain (front ++ back)).load d name = (chain front).load d name := by
  induction front with
  | nil => exact absurd lacks_chain_nil h
  | cons s front ih =>
    rw [List.cons_append]
    by_cases hs : s.Lacks d name
    · rw [load_chain_of_lacks hs, load_chain_of_lacks hs]
      refine ih fun hfront ↦ h (lacks_chain_iff.mpr ?_)
      exact List.forall_mem_cons.mpr ⟨hs, lacks_chain_iff.mp hfront⟩
    · rw [load_chain_of_not_lacks hs, load_chain_of_not_lacks hs]

/-- A chain gives the first answer of its sources other than that there is no such file. -/
theorem exists_first_of_chain (d : Disk) (name : String) (sources : List Source) :
    (∃ before t after, sources = before ++ t :: after ∧ (∀ u ∈ before, u.Lacks d name) ∧
      ¬ t.Lacks d name ∧ (chain sources).load d name = t.load d name) ∨
    (∀ t ∈ sources, t.Lacks d name) ∧ (chain sources).Lacks d name := by
  induction sources with
  | nil => exact .inr ⟨fun t ht ↦ (nomatch ht), lacks_chain_nil⟩
  | cons s sources ih =>
    by_cases hs : s.Lacks d name
    · rcases ih with ⟨before, t, after, rfl, hbefore, ht, hload⟩ | ⟨hall, hmissing⟩
      · exact .inl ⟨s :: before, t, after, rfl, List.forall_mem_cons.mpr ⟨hs, hbefore⟩, ht,
          (load_chain_of_lacks hs).trans hload⟩
      · exact .inr ⟨List.forall_mem_cons.mpr ⟨hs, hall⟩, (load_chain_of_lacks hs).trans hmissing⟩
    · exact .inl ⟨[], s, sources, rfl, fun u hu ↦ (nomatch hu), hs, load_chain_of_not_lacks hs⟩

/-! ### Leaves -/

mutual

/-- The directories and tables in a source, from left to right. -/
def leaves : Source → List Source
  | directory dir => [directory dir]
  | table label entries => [table label entries]
  | chain sources => leavesOf sources

def leavesOf : List Source → List Source
  | [] => []
  | s :: rest => leaves s ++ leavesOf rest

end

mutual

/-- No leaf is a chain. -/
theorem ne_chain_of_mem_leaves (s : Source) : ∀ t ∈ s.leaves, ∀ sources, t ≠ chain sources := by
  cases s with
  | directory dir =>
    rintro t ht sources rfl
    exact nomatch List.mem_singleton.mp ht
  | table label entries =>
    rintro t ht sources rfl
    exact nomatch List.mem_singleton.mp ht
  | chain sources => exact ne_chain_of_mem_leavesOf sources

theorem ne_chain_of_mem_leavesOf (sources : List Source) :
    ∀ t ∈ leavesOf sources, ∀ others, t ≠ chain others := by
  cases sources with
  | nil => exact fun t ht ↦ nomatch ht
  | cons s rest =>
    rw [leavesOf]
    exact List.forall_mem_append.mpr ⟨ne_chain_of_mem_leaves s, ne_chain_of_mem_leavesOf rest⟩

end

mutual

/-- The flat chain of the leaves of a source answers as the source. -/
theorem load_chain_leaves (s : Source) : (chain s.leaves).load d name = s.load d name := by
  cases s with
  | directory dir => exact load_chain_singleton
  | table label entries => exact load_chain_singleton
  | chain sources => exact load_chain_leavesOf sources

theorem load_chain_leavesOf (sources : List Source) :
    (chain (leavesOf sources)).load d name = (chain sources).load d name := by
  cases sources with
  | nil => rfl
  | cons s rest =>
    have hleaves := load_chain_leaves s
    rw [leavesOf]
    by_cases hs : s.Lacks d name
    · rw [load_append_of_lacks (hleaves.trans hs), load_chain_of_lacks hs,
        load_chain_leavesOf rest]
    · rw [load_append_of_not_lacks fun h ↦ hs (hleaves.symm.trans h), load_chain_of_not_lacks hs,
        hleaves]

end

/-- Sources with the same leaves answer alike, whatever nests of chains they are. -/
theorem load_eq_of_leaves_eq {t : Source} (h : s.leaves = t.leaves) :
    s.load d name = t.load d name := by
  rw [← load_chain_leaves s, h, load_chain_leaves t]

/-- A source answers as the flat chain of its directories and tables: it gives the first answer
other than that there is no such file, contents and failures alike, and tells of the file as missing
when each of them does. So chains can be put together in any grouping, and an empty one adds
nothing. -/
theorem load_eq_load_leaves (d : Disk) (name : String) (s : Source) :
    s.load d name = (chain s.leaves).load d name ∧
    (∀ t ∈ s.leaves, ∀ sources, t ≠ chain sources) ∧
    ((∃ before t after, s.leaves = before ++ t :: after ∧
        (∀ u ∈ before, u.load d name = .error (.missing name)) ∧
        (∀ missed, t.load d name ≠ .error (.missing missed)) ∧ s.load d name = t.load d name) ∨
      (∀ t ∈ s.leaves, t.load d name = .error (.missing name)) ∧
        s.load d name = .error (.missing name)) ∧
    (chain [chain [], s]).load d name = s.load d name ∧
    (chain [s, chain []]).load d name = s.load d name ∧
    ∀ t u, (chain [chain [s, t], u]).load d name = (chain [s, chain [t, u]]).load d name := by
  refine ⟨(load_chain_leaves s).symm, ne_chain_of_mem_leaves s, ?_, ?_, ?_, fun t u ↦ ?_⟩
  · rw [← load_chain_leaves s]
    rcases exists_first_of_chain d name s.leaves with
      ⟨before, t, after, hleaves, hbefore, ht, hload⟩ | hnone
    · refine .inl ⟨before, t, after, hleaves, hbefore, fun missed hmissed ↦ ht ?_, hload⟩
      exact name_of_missing t hmissed ▸ hmissed
    · exact .inr hnone
  · exact load_eq_of_leaves_eq (by simp [leaves, leavesOf])
  · exact load_eq_of_leaves_eq (by simp [leaves, leavesOf])
  · exact load_eq_of_leaves_eq (by simp [leaves, leavesOf])

/-- A nest of chains, some of them empty, in which a table has a file behind all others. -/
def nested : Source :=
  chain [chain [], chain [chain [table "first" [], directory "."], table "second" []],
    table "third" [("a", [])], chain [chain []]]

/-- A failure in the innermost chain is told, although a table of the outermost one has the file. -/
theorem load_eq_load_leaves_nested :
    let d : Disk := ⟨.directory [(Text.octets "a", .directory [])], []⟩
    nested.load d "a" = (chain [table "first" [], directory ".", table "second" [],
      table "third" [("a", [])]]).load d "a" ∧
    (directory "." ∈ nested.leaves ∧ ∀ sources, directory "." ≠ chain sources) ∧
    nested.load d "a" = .error (.unreadable "./a" .isDirectory) := by
  intro d
  have hmem : directory "." ∈ nested.leaves := by simp [nested, leaves, leavesOf]
  obtain ⟨hflat, hleaf, -⟩ := load_eq_load_leaves d "a" nested
  exact ⟨hflat, ⟨hmem, hleaf _ hmem⟩, rfl⟩

end ApiManifest.Source
