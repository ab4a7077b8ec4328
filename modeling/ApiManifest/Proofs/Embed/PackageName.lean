import ApiManifest.Command.Run
import ApiManifest.Embed.Sink
import ApiManifest.Proofs.Embed.GoSource

/-!
The name of a Go package. A name is accepted when it is spelled like an identifier. The keywords of
Go are spelled so too, and so is the blank identifier, and neither can name a package. A name that
is spelled otherwise is refused before anything is written: the source has no text, the place to
which it goes is left as it was, and a run ends with the files as they were
(`checkPackage_accepts_or_refuses`).
-/

set_option autoImplicit false
set_option relaxedAutoImplicit false

namespace ApiManifest

namespace Embed.Go

variable {c : Char} {package : String}

/-! ### Names -/

/-- Holds of the ASCII letters and the underscore. -/
def IsLetter (c : Char) : Prop := ('a' ≤ c ∧ c ≤ 'z') ∨ ('A' ≤ c ∧ c ≤ 'Z') ∨ c = '_'

/-- Holds of the ASCII digits. -/
def IsDigit (c : Char) : Prop := '0' ≤ c ∧ c ≤ '9'

/-- Holds of the texts that are spelled like an identifier. -/
def IsWord (name : String) : Prop :=
  ∃ first rest, name.toList = first :: rest ∧ IsLetter first ∧ ∀ c ∈ rest, IsLetter c ∨ IsDigit c

/-- The words that no identifier of Go can be. -/
def keywords : List String := [
  "break", "case", "chan", "const", "continue",
  "default", "defer", "else", "fallthrough", "for",
  "func", "go", "goto", "if", "import",
  "interface", "map", "package", "range", "return",
  "select", "struct", "switch", "type", "var"]

/-- Holds of the texts that can name a package: the identifiers but for the blank one. -/
structure CanNamePackage (name : String) : Prop where
  word : IsWord name
  free : name ∉ keywords
  notBlank : name ≠ "_"

theorem isLetter_iff : isLetter c = true ↔ IsLetter c := by
  have hupper : c.isUpper = true ↔ 'A' ≤ c ∧ c ≤ 'Z' := decide_eq_true_iff
  have hlower : c.isLower = true ↔ 'a' ≤ c ∧ c ≤ 'z' := by
    change (decide ('a' ≤ c) && decide (c ≤ 'z')) = true ↔ _
    rw [Bool.and_eq_true, decide_eq_true_iff, decide_eq_true_iff]
  change (c.isUpper || c.isLower || c == '_') = true ↔ _
  rw [Bool.or_eq_true, Bool.or_eq_true, beq_iff_eq, hupper, hlower, IsLetter, ← or_assoc,
    or_comm (a := 'A' ≤ c ∧ c ≤ 'Z')]

theorem isDigit_iff : c.isDigit = true ↔ IsDigit c := by
  change (decide ('0' ≤ c) && decide (c ≤ '9')) = true ↔ _
  rw [Bool.and_eq_true, decide_eq_true_iff, decide_eq_true_iff, IsDigit]

/-- What is accepted as the name of a package is what is spelled like an identifier. -/
theorem isPackageName_iff {name : String} : isPackageName name = true ↔ IsWord name := by
  rw [isPackageName, IsWord]
  cases name.toList with
  | nil => simp
  | cons first rest => simp [isLetter_iff, isDigit_iff]

/-- The words that cannot name a package are spelled like identifiers. -/
theorem isWord_of_mem_keywords {name : String} (hname : name ∈ "_" :: keywords) : IsWord name := by
  have hall : ∀ w ∈ "_" :: keywords, isPackageName w = true := by decide
  exact isPackageName_iff.mp (hall name hname)

theorem isWord_iff {name : String} :
    IsWord name ↔ CanNamePackage name ∨ name ∈ keywords ∨ name = "_" := by
  constructor
  · intro hword
    by_cases hfree : name ∈ keywords
    · exact .inr (.inl hfree)
    · by_cases hblank : name = "_"
      · exact .inr (.inr hblank)
      · exact .inl ⟨hword, hfree, hblank⟩
  · rintro (hname | hkeyword | rfl)
    · exact hname.word
    · exact isWord_of_mem_keywords (List.mem_cons_of_mem _ hkeyword)
    · exact isWord_of_mem_keywords List.mem_cons_self

end Embed.Go

/-! ### Refused names -/

namespace Embed

variable {o : Options} {cause : BadPackage}

theorem render_of_refused (h : o.target.checkPackage o.package = .error cause) (m : Manifest)
    (documents : Documents) : render o m documents = .error cause := by
  rw [render, octets, h]
  rfl

/-- Nothing is written under a name that is refused. -/
theorem write_of_refused (h : o.target.checkPackage o.package = .error cause) (m : Manifest)
    (documents : Documents) (s : Sink) : write o m documents s = (s, some (.package cause)) := by
  rw [write, h]

end Embed

/-- A run with a name that is refused ends before it looks for modules. -/
theorem Command.run_of_refused {d : Files.Disk} {a : Arguments} {s : Settings}
    {cause : Embed.BadPackage} (hsettings : a.settings d = .ok s)
    (h : s.embed.target.checkPackage s.embed.package = .error cause) :
    run d a = ⟨[], none, some (.package cause), d⟩ := by
  have hplan : plan d a = .error (.package cause) := by
    rw [plan, hsettings]
    show ((s.embed.target.checkPackage s.embed.package).mapError Failure.package).bind _ = _
    rw [h]
    rfl
  have hevents : planEvents d a = [] := by
    rw [planEvents, hsettings]
    dsimp only
    rw [h]
  rw [run, hplan, hevents]
  rfl

namespace Embed.Go

theorem checkPackage_eq_error {package : String} (h : Target.go.checkPackage package ≠ .ok ()) :
    Target.go.checkPackage package = .error ⟨package⟩ :=
  if_neg fun hname ↦ h (checkPackage_eq_ok_iff.mpr hname)

/-- The names that are accepted are those that can name a package, the keywords and the blank
identifier; each stands in the package clause of the source. With any other name there is no source,
nothing is written, and a run ends with the files as they were. -/
theorem checkPackage_accepts_or_refuses (package : String) :
    (Target.go.checkPackage package = .ok () ↔
      CanNamePackage package ∨ package ∈ keywords ∨ package = "_") ∧
    (Target.go.checkPackage package = .ok () → ∀ m documents, ∃ text rest,
      render ⟨.go, package⟩ m documents = .ok text ∧
        text.toList = goPreamble.toList ++ package.toList ++ '\n' :: rest) ∧
    (Target.go.checkPackage package ≠ .ok () →
      (∀ m documents, render ⟨.go, package⟩ m documents = .error ⟨package⟩) ∧
      (∀ m documents s, write ⟨.go, package⟩ m documents s = (s, some (.package ⟨package⟩))) ∧
      ∀ d a s, Command.Arguments.settings d a = .ok s → s.embed = ⟨.go, package⟩ →
        Command.run d a = ⟨[], none, some (.package ⟨package⟩), d⟩) := by
  refine ⟨?_, fun hpackage m documents ↦ ?_, fun hrefused ↦ ?_⟩
  · rw [checkPackage_eq_ok_iff, isPackageName_iff, isWord_iff]
  · obtain ⟨tail, htail⟩ := exists_goScaffolding
    refine ⟨_, tail ++ (String.join ((payload m documents).map Target.go.line) ++
      Target.go.footer).toList, render_eq_ok hpackage, ?_⟩
    simp [join_pieces, Target.header, htail]
  · have herror := checkPackage_eq_error hrefused
    refine ⟨fun m documents ↦ render_of_refused herror m documents,
      fun m documents s ↦ write_of_refused herror m documents s, fun d a s hsettings hembed ↦ ?_⟩
    exact Command.run_of_refused hsettings (by rw [hembed]; exact herror)

/-- A keyword is accepted, although no package can have it for a name, and stands in the package
clause; a name that starts with a digit is refused. -/
theorem checkPackage_accepts_or_refuses_func :
    (Target.go.checkPackage "func" = .ok () ∧ ¬ CanNamePackage "func" ∧
      ∃ text rest, render ⟨.go, "func"⟩ (.ofModules []) [] = .ok text ∧
        text.toList = goPreamble.toList ++ "func".toList ++ '\n' :: rest) ∧
    Target.go.checkPackage "9x" ≠ .ok () ∧
      ∀ s, write ⟨.go, "9x"⟩ (.ofModules []) [] s = (s, some (.package ⟨"9x"⟩)) := by
  have hkeyword : "func" ∈ keywords := by decide
  have haccepted := (checkPackage_accepts_or_refuses "func").1.mpr (.inr (.inl hkeyword))
  have hrefused : Target.go.checkPackage "9x" ≠ .ok () := by decide
  refine ⟨⟨haccepted, fun h ↦ h.free hkeyword, ?_⟩, hrefused, ?_⟩
  · exact (checkPackage_accepts_or_refuses "func").2.1 haccepted _ _
  · exact ((checkPackage_accepts_or_refuses "9x").2.2 hrefused).2.1 _ _

end Embed.Go

end ApiManifest
