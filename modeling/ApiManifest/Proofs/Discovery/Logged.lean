import ApiManifest.Discovery.Log
import ApiManifest.Proofs.Discovery.Taken

/-!
What a search logs. It logs at two levels: a name that it ignores at one, and the rest at the other.
So a reader who asks for the first of them is told of each ignored name once, in the order of the
report (`filter_events_of_discover`), and one who asks for neither is told nothing.
-/

set_option autoImplicit false
set_option relaxedAutoImplicit false

namespace ApiManifest.Discovery

open Files Log

variable {d : Disk} {s : Search} {names : List String} {found last : Findings} {e : Event}
  {name filename : String}

theorem level_of_mem_moduleEvents (he : e ∈ moduleEvents d s name filename) : e.level = .debug := by
  unfold moduleEvents at he
  extract_lets path at he
  cases htext : d.readText path with
  | error cause => exact absurd he (by simp [htext])
  | ok text =>
    simp only [htext] at he
    cases hdocument : Yaml.jsonOfText text with
    | error cause => exact absurd he (by simp [hdocument])
    | ok document =>
      simp only [hdocument] at he
      rcases List.mem_cons.mp he with rfl | hrest
      · rfl
      · cases hheader : Header.ofDocument s.extension document with
        | error field => exact absurd hrest (by simp [hheader])
        | ok header =>
          simp only [hheader] at hrest
          rw [List.mem_singleton.mp hrest]
          rfl

/-- A name is told of when it is ignored, and else only by events of the lesser level. -/
theorem takeEvents_cases (d : Disk) (s : Search) (filename : String) :
    isIgnored filename = true ∧ takeEvents d s filename = [.ignoredFile filename] ∨
      isIgnored filename = false ∧ ∀ e ∈ takeEvents d s filename, e.level = .debug := by
  rw [takeEvents, isIgnored]
  cases isManifestFilename filename with
  | true => exact .inr ⟨rfl, fun e he ↦ absurd he List.not_mem_nil⟩
  | false =>
    cases moduleOfFilename? filename with
    | none => exact .inl ⟨rfl, rfl⟩
    | some name => exact .inr ⟨rfl, fun e he ↦ level_of_mem_moduleEvents he⟩

/-- Events of the lesser level are not let through where the greater one was asked for. -/
theorem filter_isLogged_one {events : List Event} (h : ∀ e ∈ events, e.level = .debug) :
    events.filter (Event.isLogged 1) = [] := by
  refine List.filter_eq_nil_iff.mpr fun e he ↦ ?_
  rw [Event.isLogged, h e he]
  decide

theorem filter_takeEvents (d : Disk) (s : Search) (filename : String) :
    (takeEvents d s filename).filter (Event.isLogged 1) =
      ([filename].filter isIgnored).map .ignoredFile := by
  rcases takeEvents_cases d s filename with ⟨hignored, hevents⟩ | ⟨hother, hlevel⟩
  · rw [hevents, List.filter_cons_of_pos hignored]
    rfl
  · rw [filter_isLogged_one hlevel, List.filter_cons_of_neg (by simp [hother])]
    rfl

/-- What is logged while names are taken is logged of one of them. -/
theorem mem_of_mem_eventsFrom (he : e ∈ eventsFrom d s found names) :
    ∃ filename ∈ names, e ∈ takeEvents d s filename := by
  induction names generalizing found with
  | nil => exact absurd he List.not_mem_nil
  | cons filename names ih =>
    rw [eventsFrom] at he
    rcases List.mem_append.mp he with hfirst | hrest
    · exact ⟨filename, List.mem_cons_self, hfirst⟩
    · cases htake : found.take d s filename with
      | error failure => exact absurd hrest (by simp [htake])
      | ok next =>
        rw [htake] at hrest
        obtain ⟨other, hother, hevent⟩ := ih hrest
        exact ⟨other, List.mem_cons_of_mem _ hother, hevent⟩

/-- Names that are all taken are logged one after the other. -/
theorem eventsFrom_eq_flatMap (h : names.foldlM (Findings.take d s) found = .ok last) :
    eventsFrom d s found names = names.flatMap (takeEvents d s) := by
  induction names generalizing found with
  | nil => rfl
  | cons filename names ih =>
    rw [List.foldlM_cons, except_bind_eq_ok_iff] at h
    obtain ⟨next, htake, hrest⟩ := h
    rw [eventsFrom, htake, List.flatMap_cons]
    dsimp only
    rw [ih hrest]

/-- A search logs at two levels. -/
theorem level_of_mem_events (he : e ∈ events d s) : e.level = .info ∨ e.level = .debug := by
  rw [events] at he
  cases hnames : listNames d s.source with
  | error cause => exact absurd he (by simp [hnames])
  | ok names =>
    rw [hnames] at he
    obtain ⟨filename, -, hevent⟩ := mem_of_mem_eventsFrom he
    rcases takeEvents_cases d s filename with ⟨-, hevents⟩ | ⟨-, hlevel⟩
    · rw [hevents] at hevent
      rw [List.mem_singleton.mp hevent]
      exact .inl rfl
    · exact .inr (hlevel e hevent)

/-- A search that succeeds tells of the names that it ignores, and of nothing else at their level or
above it. -/
theorem filter_events_of_discover {found : Discovery} (h : discover d s = .ok found) :
    (events d s).filter (Event.isLogged 1) = found.ignored.map .ignoredFile := by
  obtain ⟨names, taken, b, hnames, htakes, hpushes, rfl⟩ := discover_eq_ok_iff.mp h
  have hfold : names.foldlM (Findings.take d s) .empty =
      .ok ⟨b, (names.filter isIgnored).reverse⟩ :=
    foldlM_take_eq_ok_iff.mpr ⟨taken, htakes, hpushes, (List.append_nil _).symm⟩
  have hsingle : names.flatMap (fun filename ↦ ([filename].filter isIgnored).map
      Event.ignoredFile) = (names.filter isIgnored).map .ignoredFile := by
    rw [← List.map_flatMap, ← List.filter_flatMap, List.flatMap_singleton']
  rw [events, hnames]
  dsimp only
  rw [eventsFrom_eq_flatMap hfold, List.filter_flatMap, ← hsingle]
  exact List.flatMap_congr fun filename _ ↦ filter_takeEvents d s filename

end ApiManifest.Discovery
