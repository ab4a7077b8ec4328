import ApiManifest.Proofs.Command.Check
import ApiManifest.Proofs.Discovery.Logged

/-!
What a run logs. All that is logged goes to standard error, in between the report if that goes there
too (`exists_told`), and nothing is let through unless verbosity was asked for
(`logged_of_quiet`): every event of a run is of one of two levels (`level_of_mem_events`).
-/

set_option autoImplicit false
set_option relaxedAutoImplicit false

namespace ApiManifest.Command

open Files Log

variable {d : Disk} {a : Arguments} {p : Plan} {o : Outcome} {e : Event}

/-! ### Events -/

theorem level_of_mem_planEvents (he : e ∈ planEvents d a) :
    e.level = .info ∨ e.level = .debug := by
  rw [planEvents] at he
  split at he
  · exact absurd he List.not_mem_nil
  · split at he
    · exact absurd he List.not_mem_nil
    · split_ifs at he
      · exact absurd he List.not_mem_nil
      · rcases List.mem_cons.mp he with rfl | hsearch
        · exact .inr rfl
        · exact Discovery.level_of_mem_events hsearch

/-- What a run that writes logs after its plan, as far as it comes: that the manifest is written,
and that the embed source is, whether it is printed or goes to a file. -/
theorem Plan.EndsIn.events_prefix (h : p.EndsIn d a o) :
    o.events <+: [.wroteManifest (Manifest.pathIn a.outputDirectory) p.manifestOctets.length,
      p.sourceEvent] := by
  cases h with
  | manifestRefused =>
    rw [Outcome.events, filterMap_event?_notices]
    exact List.nil_prefix
  | sourceRefused =>
    rw [Outcome.events, List.filterMap_append, filterMap_event?_notices]
    exact List.prefix_append _ _
  | manifestAlone =>
    rw [Outcome.events, List.filterMap_append, List.filterMap_append, filterMap_event?_notices,
      printedNotices]
    split_ifs
    · exact List.prefix_rfl
    · exact List.prefix_append _ _
  | both =>
    rw [Outcome.events, List.filterMap_append, List.filterMap_append, filterMap_event?_notices]
    exact List.prefix_rfl

theorem Plan.EndsIn.level_of_mem_events (h : p.EndsIn d a o) (he : e ∈ o.events) :
    e.level = .debug := by
  rcases List.mem_cons.mp (h.events_prefix.subset he) with rfl | hsource
  · rfl
  · rw [List.mem_singleton.mp hsource]
    rfl

/-- A check logs that it has made the embed source, if one is asked for. -/
theorem events_check (hp : p.Prepared d a) (hstdout : a.embedsToStdout = false) :
    (check d a p).events = a.embed.toList.map fun _ ↦ p.sourceEvent := by
  rw [check_eq hp hstdout, Outcome.events, List.filterMap_append, List.filterMap_append,
    Plan.filterMap_event?_notices, Notice.filterMap_event?_map_event,
    Notice.filterMap_event?_map_line, List.nil_append, List.append_nil]

/-- A plan is logged alike wherever the embed source goes. -/
theorem planEvents_withEmbed (hcheck : a.check = false) (embed : Option String) :
    planEvents d { a with embed } = planEvents d a := by
  rw [planEvents, planEvents]
  simp only [hcheck, Bool.false_and]
  rfl

/-- What a plan logs once it is made. -/
theorem planEvents_of_prepared (hp : p.Prepared d a) (hcheck : a.check = false) :
    planEvents d a = .starting a.directory p.settings.embed.target.name ::
      Discovery.events d (a.search p.settings) := by
  rw [planEvents, hp.settings]
  dsimp only
  rw [hp.package]
  exact if_neg (by simp [hcheck])

/-- A run logs at two levels. -/
theorem level_of_mem_events (he : e ∈ (run d a).events) : e.level = .info ∨ e.level = .debug := by
  rw [run, Outcome.events_after] at he
  rcases List.mem_append.mp he with hplan | hrest
  · exact level_of_mem_planEvents hplan
  · refine .inr ?_
    cases hp : plan d a with
    | error cause => exact absurd hrest (by simp [hp, Outcome.events])
    | ok p =>
      simp only [hp] at hrest
      obtain ⟨hprepared, hstdout⟩ := plan_eq_ok_iff.mp hp
      split_ifs at hrest with hcheck
      · rw [hcheck, Bool.true_and] at hstdout
        rw [events_check hprepared hstdout] at hrest
        obtain ⟨-, -, rfl⟩ := List.mem_map.mp hrest
        rfl
      · exact (endsIn_write hprepared).level_of_mem_events hrest

/-- Nothing is logged by a run of which no verbosity was asked. -/
theorem logged_of_quiet (hverbosity : a.verbosity = 0) : (run d a).logged a = [] := by
  refine List.filter_eq_nil_iff.mpr fun e he ↦ ?_
  rw [hverbosity, Event.isLogged]
  rcases level_of_mem_events he with hlevel | hlevel <;> rw [hlevel] <;> decide

/-- A run of which verbosity was asked once logs the names that it ignores. -/
theorem logged_of_verbosity_one (hverbosity : a.verbosity = 1) (hcheck : a.check = false)
    (hp : p.Prepared d a) : (run d a).logged a = p.found.ignored.map .ignoredFile := by
  have hwritten := Discovery.filter_isLogged_one
    fun _ ↦ (endsIn_write hp).level_of_mem_events
  rw [run_eq_write hcheck hp, Outcome.logged, Outcome.events_after, hverbosity,
    planEvents_of_prepared hp hcheck, List.filter_append, hwritten, List.append_nil,
    List.filter_cons_of_neg Bool.false_ne_true,
    Discovery.filter_events_of_discover hp.discovery]

/-! ### Standard error -/

/-- A run that succeeds prints what goes to standard error of what it tells: the events that are let
through, and the lines of the report if these go there. -/
theorem exists_told (hexit : o.exit = 0) (a : Arguments) (format : Format) :
    ∃ told : List Notice,
      o.stderr a format = String.join (told.mapIdx fun n notice ↦ notice.text format n) ∧
      told.filterMap Notice.line? = (if a.embedsToStdout then o.lines else []) ∧
      told.filterMap Notice.event? = o.logged a := by
  refine ⟨o.notices.filter (Outcome.toStderr a), ?_, ?_, ?_⟩
  · rw [Outcome.stderr, exit_eq_zero_iff.mp hexit]
    exact String.append_empty
  · rw [List.filterMap_filter]
    split_ifs with hstdout
    · refine List.filterMap_congr fun notice _ ↦ ?_
      cases notice with
      | line l => exact if_pos hstdout
      | event e => exact ite_self none
    · refine List.filterMap_eq_nil_iff.mpr fun notice _ ↦ ?_
      cases notice with
      | line l => exact if_neg hstdout
      | event e => exact ite_self none
  · rw [List.filterMap_filter, Outcome.logged, Outcome.events, List.filter_filterMap]
    refine List.filterMap_congr fun notice _ ↦ ?_
    cases notice with
    | line l => exact ite_self none
    | event e => rfl

/-- Without events what is told is printed as a report. -/
theorem join_told {told : List Notice} (hquiet : told.filterMap Notice.event? = [])
    (format : Format) :
    String.join (told.mapIdx fun n notice ↦ notice.text format n) =
      printed (told.filterMap Notice.line?) := by
  have hlines : told = (told.filterMap Notice.line?).map .line := by
    induction told with
    | nil => rfl
    | cons notice told ih =>
      cases notice with
      | line l => exact congrArg _ (ih hquiet)
      | event e => exact nomatch hquiet
  rw [printed]
  refine congrArg String.join ?_
  generalize told.filterMap Notice.line? = lines at hlines ⊢
  subst hlines
  refine List.ext_getElem (by simp) fun n _ _ ↦ ?_
  simp [Notice.text]

end ApiManifest.Command
