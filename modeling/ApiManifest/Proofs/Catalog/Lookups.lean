import ApiManifest.Proofs.Catalog.Opened

/-!
Lookups in a catalog, whatever answers for the files. A `Loader` is asked for files by name and may
answer differently each time; a `Source` is one whose answers depend on the disk alone, and a
catalog over it does what is said here of its loader (`openBy_loader`, `documentBy_loader`). A
lookup is told with what was asked and answered on the way (`Loader.recorded`), of which there are
three kinds (`IsLookup`). Where the manifest is valid each of its entries is found under its name,
and whatever the lookup of a name asks for is a file of that module and of no other
(`lookups_of_opened`).
-/

set_option autoImplicit false
set_option relaxedAutoImplicit false

namespace ApiManifest

open Files

/-- What answers to the names of files, if only with a failure. The answers may depend on a state,
which a question may change. -/
abbrev Loader (σ : Type) := String → StateM σ (Except Catalog.Failure Octets)

/-- A source as a loader. Its answers depend on the disk, which questions leave as it is. -/
def Source.loader (s : Source) : Loader Disk := fun name ↦
  return (s.load (← get) name).mapError .source

/-- A question with the answer to it. -/
structure Exchange where
  name : String
  answer : Except Catalog.Failure Octets

variable {σ : Type} {name missed : String} {m : Manifest} {e : Entry} {load : Loader σ}
  {now next last : σ} {answer : Except Catalog.Failure Octets}

/-- A loader that keeps its exchanges, the last one first. -/
def Loader.recorded (load : Loader σ) : Loader (σ × List Exchange) := fun name ↦ do
  let (state, exchanges) ← get
  let (answer, state) := (load name).run state
  set (state, Exchange.mk name answer :: exchanges)
  return answer

theorem Loader.run_recorded (hask : (load name).run now = (answer, next)) (log : List Exchange) :
    (load.recorded name).run (now, log) = (answer, next, ⟨name, answer⟩ :: log) := by
  show (((load name).run now).1, ((load name).run now).2,
    ⟨name, ((load name).run now).1⟩ :: log) = _
  rw [hask]

/-- Holds of a manifest in which each entry is the only one with its name, and the one found under
it. -/
structure Manifest.IsIndexed (m : Manifest) : Prop where
  found : ∀ k (hk : k < m.modules.length), m.find? m.modules[k].name = some m.modules[k]
  once : ∀ j k (hj : j < m.modules.length) (hk : k < m.modules.length),
    m.modules[j].name = m.modules[k].name → j = k
  absent : ∀ name, m.find? name = none ↔ ∀ e ∈ m.modules, e.name ≠ name

theorem Manifest.isIndexed_of_problems (hm : m.problems = []) : m.IsIndexed := by
  obtain ⟨-, -, hnames⟩ := problems_eq_nil_iff.mp hm
  refine ⟨?found, ?once, fun name ↦ find?_eq_none_iff⟩
  case found => exact fun k hk ↦ find?_of_mem hnames (List.getElem_mem hk)
  case once =>
    intro j k hj hk hsame
    have hentry : m.modules[j] = m.modules[k] :=
      List.inj_on_of_nodup_map hnames (List.getElem_mem hj) (List.getElem_mem hk) hsame
    exact hnames.of_map.getElem_inj_iff.mp hentry

namespace Catalog

/-! ### Opening and looking up by a loader -/

/-- The manifest in an answer, if nothing is wrong with it. -/
def manifestIn (answer : Except Failure Octets) : Except Failure Manifest := do
  let manifest ← (Manifest.ofOctets (← answer)).mapError .yaml
  if manifest.problems.isEmpty then return manifest else throw (.invalid manifest.problems)

/-- Opens the manifest of a loader. -/
def openBy (load : Loader σ) : StateM σ (Except Failure Manifest) :=
  return manifestIn (← load manifestFilename)

/-- Holds of the answer that there is no such file. -/
def IsMissing (answer : Except Failure Octets) : Prop :=
  ∃ name, answer = .error (.source (.missing name))

/-- The document in an answer. -/
def content (answer : Except Failure Octets) : Except Failure Json := do
  (Yaml.jsonOfOctets (← answer)).mapError .yaml

theorem content_eq_ok_iff {v : Json} :
    content answer = .ok v ↔ ∃ bytes, answer = .ok bytes ∧ Yaml.jsonOfOctets bytes = .ok v := by
  simp only [content, except_bind_eq_ok_iff, mapError_eq_ok_iff]

/-- A document that cannot be read is no unknown module. -/
theorem content_eq_unknown_iff :
    content answer = .error (.unknownModule name) ↔ answer = .error (.unknownModule name) := by
  cases answer with
  | error cause =>
    show Except.error cause = .error (.unknownModule name) ↔ _
    simp
  | ok bytes =>
    show (Yaml.jsonOfOctets bytes).mapError Failure.yaml = .error (.unknownModule name) ↔ _
    cases Yaml.jsonOfOctets bytes with
    | error cause => simp [Except.mapError]
    | ok w => simp [Except.mapError]

/-- The answer for the document of a module. -/
def octetsBy (load : Loader σ) (e : Entry) : StateM σ (Except Failure Octets) := do
  match ← load e.path with
  | .error (.source (.missing _)) => load (documentFilename e.name)
  | answer => return answer

/-- The document of a module, from a loader. -/
def documentBy (load : Loader σ) (m : Manifest) (name : String) : StateM σ (Except Failure Json) :=
  match m.find? name with
  | none => return .error (.unknownModule name)
  | some e => return content (← octetsBy load e)

theorem documentBy_of_unknown (hfind : m.find? name = none) :
    (documentBy load m name).run now = (.error (.unknownModule name), now) := by
  rw [documentBy, hfind]
  rfl

theorem documentBy_of_some (hfind : m.find? name = some e) :
    (documentBy load m name).run now =
      (content ((octetsBy load e).run now).1, ((octetsBy load e).run now).2) := by
  rw [documentBy, hfind]
  rfl

theorem documentBy_of_answered (hfind : m.find? name = some e)
    (hask : (load e.path).run now = (answer, next)) (hanswer : ¬ IsMissing answer) :
    (documentBy load m name).run now = (content answer, next) := by
  have hoctets : (octetsBy load e).run now = (answer, next) := by
    rw [octetsBy, StateT.run_bind, hask]
    show StateT.run (match answer with
      | .error (.source (.missing _)) => load (documentFilename e.name)
      | answer => pure answer) next = _
    split
    · exact absurd ⟨_, rfl⟩ hanswer
    · rfl
  rw [documentBy_of_some hfind, hoctets]

theorem documentBy_of_missing (hfind : m.find? name = some e)
    (hask : (load e.path).run now = (.error (.source (.missing missed)), next))
    (hagain : (load (documentFilename e.name)).run next = (answer, last)) :
    (documentBy load m name).run now = (content answer, last) := by
  have hoctets : (octetsBy load e).run now = (answer, last) := by
    rw [octetsBy, StateT.run_bind, hask]
    exact hagain
  rw [documentBy_of_some hfind, hoctets]

/-! ### Sources -/

/-- A catalog over a source opens as by the loader of the source. -/
theorem openBy_loader (d : Disk) (s : Source) :
    (openBy s.loader).run d = ((ofSource d s).map (·.manifest), d) := by
  show (manifestIn ((s.load d manifestFilename).mapError .source), d) = _
  rw [ofSource]
  refine congrArg (·, d) ?_
  cases s.load d manifestFilename with
  | error cause => rfl
  | ok bytes =>
    show ((Manifest.ofOctets bytes).mapError Failure.yaml).bind _ =
      Except.map _ (((Manifest.ofOctets bytes).mapError Failure.yaml).bind _)
    cases Manifest.ofOctets bytes with
    | error cause => rfl
    | ok manifest =>
      show (if _ then _ else _) = Except.map _ (if _ then _ else _)
      split_ifs <;> rfl

/-- The answer of a source is that there is no such file exactly if the source lacks it. -/
theorem isMissing_load_iff {d : Disk} {s : Source} :
    IsMissing ((s.load d name).mapError .source) ↔ s.Lacks d name := by
  constructor
  · rintro ⟨missed, hmissing⟩
    cases hload : s.load d name with
    | ok bytes =>
      rw [hload] at hmissing
      cases hmissing
    | error cause =>
      rw [hload] at hmissing
      obtain rfl : cause = .missing missed := Failure.source.inj (Except.error.inj hmissing)
      obtain rfl := Source.name_of_missing s hload
      exact hload
  · intro hlacks
    rw [hlacks]
    exact ⟨name, rfl⟩

theorem document_of_some {d : Disk} {c : Catalog} (hmodule : c.module? name = some e) :
    c.document d name = content ((c.documentOctets d e).mapError .source) := by
  rw [document, hmodule]
  rfl

/-- A document comes from a source as by its loader. -/
theorem documentBy_loader (d : Disk) (c : Catalog) (name : String) :
    (documentBy c.source.loader c.manifest name).run d = (c.document d name, d) := by
  cases hfind : c.module? name with
  | none =>
    rw [documentBy_of_unknown hfind, document, hfind]
  | some e =>
    rw [document_of_some hfind]
    by_cases hlacks : c.source.Lacks d e.path
    · have hask : (c.source.loader e.path).run d = (.error (.source (.missing e.path)), d) := by
        show ((c.source.load d e.path).mapError Failure.source, d) = _
        rw [hlacks]
        rfl
      rw [documentOctets_of_lacks hlacks, documentBy_of_missing hfind hask rfl]
    · rw [documentOctets_of_not_lacks hlacks,
        documentBy_of_answered hfind rfl (mt isMissing_load_iff.mp hlacks)]

/-- A catalog over a source says that a module is not known if its manifest lacks it. -/
theorem document_eq_unknown_iff {d : Disk} {c : Catalog} :
    c.document d name = .error (.unknownModule name) ↔ c.module? name = none := by
  cases hfind : c.module? name with
  | none => simp [document, hfind]
  | some e =>
    rw [document_of_some hfind, content_eq_unknown_iff]
    cases c.documentOctets d e with
    | error cause => simp [Except.mapError]
    | ok bytes => simp [Except.mapError]

/-! ### What a lookup asks for -/

/-- What a lookup asks for, and what comes of it. -/
structure Lookup where
  exchanges : List Exchange
  result : Except Failure Json

/-- Looks up the document of a module. -/
def lookup (load : Loader σ) (m : Manifest) (name : String) : StateM σ Lookup := fun state ↦
  let (result, state, exchanges) := (documentBy load.recorded m name).run (state, [])
  (⟨exchanges.reverse, result⟩, state)

/-- The three kinds of lookups of the document of a module. -/
inductive IsLookup (m : Manifest) (name : String) : Lookup → Prop
  | unknown (hfind : m.find? name = none) : IsLookup m name ⟨[], .error (.unknownModule name)⟩
  | atPath {e : Entry} {answer : Except Failure Octets} (hfind : m.find? name = some e)
      (hanswer : ¬ IsMissing answer) : IsLookup m name ⟨[⟨e.path, answer⟩], content answer⟩
  | underFilename {e : Entry} {missed : String} {answer : Except Failure Octets}
      (hfind : m.find? name = some e) :
      IsLookup m name ⟨[⟨e.path, .error (.source (.missing missed))⟩,
        ⟨documentFilename e.name, answer⟩], content answer⟩

theorem run_lookup {result : Except Failure Json} {log : List Exchange}
    (h : (documentBy load.recorded m name).run (now, []) = (result, last, log)) :
    (lookup load m name).run now = (⟨log.reverse, result⟩, last) := by
  show (match (documentBy load.recorded m name).run (now, []) with
    | (result, last, log) => (Lookup.mk log.reverse result, last)) = _
  rw [h]

/-- Every lookup is of one of the three kinds, and keeping the exchanges changes nothing. -/
theorem isLookup_lookup (load : Loader σ) (m : Manifest) (name : String) (now : σ) :
    IsLookup m name ((lookup load m name).run now).1 ∧
      (documentBy load m name).run now =
        (((lookup load m name).run now).1.result, ((lookup load m name).run now).2) := by
  cases hfind : m.find? name with
  | none =>
    rw [run_lookup (documentBy_of_unknown hfind), documentBy_of_unknown hfind]
    exact ⟨.unknown hfind, rfl⟩
  | some e =>
    rcases hask : (load e.path).run now with ⟨answer, next⟩
    by_cases hanswer : IsMissing answer
    · obtain ⟨missed, rfl⟩ := hanswer
      rcases hagain : (load (documentFilename e.name)).run next with ⟨answer, last⟩
      rw [documentBy_of_missing hfind hask hagain, run_lookup (documentBy_of_missing hfind
        (Loader.run_recorded hask []) (Loader.run_recorded hagain _))]
      exact ⟨.underFilename hfind, rfl⟩
    · rw [documentBy_of_answered hfind hask hanswer,
        run_lookup (documentBy_of_answered hfind (Loader.run_recorded hask []) hanswer)]
      exact ⟨.atPath hfind hanswer, rfl⟩

/-! ### Faithful lookups -/

/-- Holds of a lookup that asks for files of its own module only, and tells a module as unknown if
no entry has the name. -/
structure Lookup.IsFaithful (m : Manifest) (name : String) (l : Lookup) : Prop where
  /-- Nothing is asked for a name that no entry has, and something for every other name. -/
  silent : l.exchanges = [] ↔ ∀ e ∈ m.modules, e.name ≠ name
  /-- The module is unknown if no entry has the name. That a loader should itself give this failure
  is the one other way to it. -/
  unknown : l.result = .error (.unknownModule name) ↔ (∀ e ∈ m.modules, e.name ≠ name) ∨
    ∃ x ∈ l.exchanges, x.answer = .error (.unknownModule name)
  /-- Each file that is asked for is one of the module, and of no other. -/
  own : ∀ x ∈ l.exchanges, ∀ other, lastSegment x.name = documentFilename other ↔ other = name
  /-- A document is read from one of these files. -/
  served : ∀ v, l.result = .ok v →
    ∃ x ∈ l.exchanges, ∃ bytes, x.answer = .ok bytes ∧ Yaml.jsonOfOctets bytes = .ok v

/-- A lookup asks for the files of the module that it is of. -/
theorem IsLookup.lastSegment_of_mem {l : Lookup} (hm : m.problems = []) (hl : IsLookup m name l)
    {x : Exchange} (hx : x ∈ l.exchanges) : lastSegment x.name = documentFilename name := by
  have hentry {e : Entry} (hfind : m.find? name = some e) :
      lastSegment e.path = documentFilename name ∧
        lastSegment (documentFilename e.name) = documentFilename name := by
    obtain ⟨he, rfl⟩ := Manifest.find?_eq_some hfind
    have hvalid := (Manifest.problems_eq_nil_iff.mp hm).2.1 e he
    exact ⟨hvalid.lastSegment_path, lastSegment_documentFilename hvalid.name⟩
  cases hl with
  | unknown hfind => exact absurd hx List.not_mem_nil
  | atPath hfind hanswer =>
    obtain rfl := List.mem_singleton.mp hx
    exact (hentry hfind).1
  | underFilename hfind =>
    obtain rfl | rfl : x = _ ∨ x = _ := by simpa using hx
    · exact (hentry hfind).1
    · exact (hentry hfind).2

/-- The document that a lookup gives is that of its last answer, if there is one. -/
theorem IsLookup.result_eq {l : Lookup} (hl : IsLookup m name l) :
    l.exchanges = [] ∧ m.find? name = none ∧ l.result = .error (.unknownModule name) ∨
      ∃ front x e, l.exchanges = front ++ [x] ∧ m.find? name = some e ∧
        (∀ y ∈ front, IsMissing y.answer) ∧ l.result = content x.answer := by
  cases hl with
  | unknown hfind => exact .inl ⟨rfl, hfind, rfl⟩
  | atPath hfind hanswer => exact .inr ⟨[], _, _, rfl, hfind, nofun, rfl⟩
  | underFilename hfind =>
    exact .inr ⟨[_], _, _, rfl, hfind, List.forall_mem_singleton.mpr ⟨_, rfl⟩, rfl⟩

theorem IsLookup.isFaithful {l : Lookup} (hm : m.problems = []) (hl : IsLookup m name l) :
    l.IsFaithful m name := by
  have hown : ∀ x ∈ l.exchanges, ∀ other,
      lastSegment x.name = documentFilename other ↔ other = name := by
    intro x hx other
    rw [hl.lastSegment_of_mem hm hx, documentFilename_injective.eq_iff, eq_comm]
  rcases hl.result_eq with ⟨hnone, hfind, hresult⟩ |
    ⟨front, x, e, hexchanges, hfind, hfront, hresult⟩
  · have habsent := Manifest.find?_eq_none_iff.mp hfind
    refine ⟨iff_of_true hnone habsent, iff_of_true hresult (.inl habsent), hown, fun v hv ↦ ?_⟩
    cases hresult.symm.trans hv
  · have hpresent : ¬ ∀ e ∈ m.modules, e.name ≠ name := by
      rw [← Manifest.find?_eq_none_iff, hfind]
      nofun
    have hx : x ∈ l.exchanges := hexchanges ▸ List.mem_concat_self
    refine ⟨iff_of_false (by simp [hexchanges]) hpresent, ?unknown, hown, fun v hv ↦ ?served⟩
    case unknown =>
      rw [hresult, content_eq_unknown_iff]
      refine ⟨fun hanswer ↦ .inr ⟨x, hx, hanswer⟩, ?_⟩
      rintro (habsent | ⟨y, hy, hanswer⟩)
      · exact absurd habsent hpresent
      · rw [hexchanges] at hy
        rcases List.mem_append.mp hy with hy | hy
        · obtain ⟨missed, hmissing⟩ := hfront y hy
          cases hanswer.symm.trans hmissing
        · exact List.mem_singleton.mp hy ▸ hanswer
    case served =>
      exact ⟨x, hx, content_eq_ok_iff.mp (hresult ▸ hv)⟩

/-! ### Sequences of lookups -/

/-- What holds of each lookup holds of those of a sequence. -/
theorem forall_lookups {P : String → Lookup → Prop}
    (h : ∀ name now, P name ((lookup load m name).run now).1) (names : List String) (now : σ) :
    List.Forall₂ P names ((names.mapM (lookup load m)).run now).1 := by
  induction names generalizing now with
  | nil => exact .nil
  | cons name names ih =>
    rw [List.mapM_cons]
    exact .cons (h name now) (ih ((lookup load m name).run now).2)

/-- The results of a sequence of lookups are the documents that the loader gives. -/
theorem mapM_documentBy (load : Loader σ) (m : Manifest) (names : List String) (now : σ) :
    (names.mapM (documentBy load m)).run now =
      (((names.mapM (lookup load m)).run now).1.map (·.result),
        ((names.mapM (lookup load m)).run now).2) := by
  induction names generalizing now with
  | nil => rfl
  | cons name names ih =>
    rw [List.mapM_cons, List.mapM_cons, StateT.run_bind, (isLookup_lookup load m name now).2]
    show (_ :: ((names.mapM (documentBy load m)).run _).1,
      ((names.mapM (documentBy load m)).run _).2) = _
    rw [ih]
    rfl

theorem problems_of_openBy (hopen : (openBy load).run now = (.ok m, next)) : m.problems = [] := by
  have hmanifest : manifestIn ((load manifestFilename).run now).1 = .ok m := congrArg (·.1) hopen
  simp only [manifestIn, except_bind_eq_ok_iff, mapError_eq_ok_iff] at hmanifest
  obtain ⟨bytes, -, manifest, -, hresult⟩ := hmanifest
  split_ifs at hresult with hproblems
  obtain rfl := Except.ok.inj hresult
  exact List.isEmpty_iff.mp hproblems

/-- A manifest that opens has each entry under its name, and every lookup in it, one after the other
and whatever the loader answers, is for files of the module that is looked up. The failure to know a
module is that of the lookup only where the manifest has no such module; a loader may also answer
with that failure itself, and then it is passed on. No source does so: a catalog over one does the
same as by the loader of the source, and fails to know a module exactly where the manifest has none.
-/
theorem lookups_of_opened :
    (∀ (σ : Type) (load : Loader σ) (before after : σ) (m : Manifest),
      (openBy load).run before = (.ok m, after) →
      m.IsIndexed ∧ ∀ (names : List String) (now : σ),
        List.Forall₂ (fun name l ↦ l.IsFaithful m name) names
          ((names.mapM (lookup load m)).run now).1 ∧
        (names.mapM (documentBy load m)).run now =
          (((names.mapM (lookup load m)).run now).1.map (·.result),
            ((names.mapM (lookup load m)).run now).2)) ∧
    ∀ d s, (openBy s.loader).run d = ((ofSource d s).map (·.manifest), d) ∧
      ∀ c, ofSource d s = .ok c → c.source = s ∧ ∀ d' name,
        (documentBy s.loader c.manifest name).run d' = (c.document d' name, d') ∧
        (c.document d' name = .error (.unknownModule name) ↔ c.module? name = none) := by
  constructor
  · intro σ load before after m hopen
    have hm := problems_of_openBy hopen
    exact ⟨Manifest.isIndexed_of_problems hm, fun names now ↦
      ⟨forall_lookups (fun name now ↦ (isLookup_lookup load m name now).1.isFaithful hm) names now,
        mapM_documentBy load m names now⟩⟩
  · refine fun d s ↦ ⟨openBy_loader d s, fun c hopen ↦ ?_⟩
    obtain ⟨rfl, -⟩ := ofSource_eq_ok_iff.mp hopen
    exact ⟨rfl, fun d' name ↦ ⟨documentBy_loader d' c name, document_eq_unknown_iff⟩⟩

/-- A table that gives each of its files away once. -/
def givingAway : Loader (List (String × Octets)) := fun name ↦ do
  let files ← get
  set (files.filter (·.1 != name))
  return (Source.loadEntry files name).mapError .source

/-- An entry of a module in a directory. -/
def deepEntry : Entry := ⟨"dns", "u", "../lib/dns.openapi.yaml", "", "", ""⟩

/-- The manifest of that module, and a document at either place. -/
def deepFiles : List (String × Octets) :=
  [(manifestFilename, Text.octets (Manifest.ofModules [deepEntry]).toJson.compact),
    (deepEntry.path, Text.octets "first"), (documentFilename deepEntry.name, Text.octets "second")]

/-- The catalog over these files as a table. -/
def deepCatalog : Catalog := ⟨.table "static" deepFiles, .ofModules [deepEntry]⟩

set_option maxRecDepth 4000 in
/-- The documents at both places are given one after the other, and after them none. A table that
keeps its files knows no module `tls` either. -/
theorem lookups_of_opened_giving_away :
    ((openBy givingAway).run deepFiles = (.ok deepCatalog.manifest, deepFiles.tail) ∧
      ofSource ⟨.directory [], []⟩ deepCatalog.source = .ok deepCatalog) ∧
    deepCatalog.manifest.IsIndexed ∧
    (["dns", "dns", "dns", "tls"].mapM (lookup givingAway deepCatalog.manifest)).run
        deepFiles.tail =
      ([⟨[⟨"../lib/dns.openapi.yaml", .ok (Text.octets "first")⟩], .ok (.str "first")⟩,
        ⟨[⟨"../lib/dns.openapi.yaml", .error (.source (.missing "../lib/dns.openapi.yaml"))⟩,
          ⟨"dns.openapi.yaml", .ok (Text.octets "second")⟩], .ok (.str "second")⟩,
        ⟨[⟨"../lib/dns.openapi.yaml", .error (.source (.missing "../lib/dns.openapi.yaml"))⟩,
          ⟨"dns.openapi.yaml", .error (.source (.missing "dns.openapi.yaml"))⟩],
          .error (.source (.missing "dns.openapi.yaml"))⟩,
        ⟨[], .error (.unknownModule "tls")⟩], []) ∧
    List.Forall₂ (fun name l ↦ l.IsFaithful deepCatalog.manifest name) ["dns", "dns", "dns", "tls"]
      ((["dns", "dns", "dns", "tls"].mapM (lookup givingAway deepCatalog.manifest)).run
        deepFiles.tail).1 ∧
    deepCatalog.document ⟨.directory [], []⟩ "tls" = .error (.unknownModule "tls") := by
  have hopen : (openBy givingAway).run deepFiles = (.ok deepCatalog.manifest, deepFiles.tail) := by
    rfl
  have hsource : ofSource ⟨.directory [], []⟩ deepCatalog.source = .ok deepCatalog := by rfl
  obtain ⟨hindexed, hlookups⟩ := lookups_of_opened.1 _ givingAway _ _ _ hopen
  obtain ⟨-, hdocument⟩ := ((lookups_of_opened.2 _ _).2 deepCatalog hsource).2
    ⟨.directory [], []⟩ "tls"
  exact ⟨⟨hopen, hsource⟩, hindexed, rfl, (hlookups _ _).1, hdocument.mpr rfl⟩

end Catalog
end ApiManifest
