import ApiManifest.Proofs.Manifest.Reported
import ApiManifest.Proofs.Text.Octets
import Mathlib.Computability.RegularExpressions

/-!
The naming convention in its spellings. A file name is that of a document when it fits a pattern
(`mem_filenamePattern_iff`), when it is a name and the module suffix, and when the path that ends in
it is right for an entry; a name is judged by its characters or by its octets
(`isModuleName_iff_octets`). All of them mean the same (`moduleOfFilename?_agrees`).
-/

set_option autoImplicit false
set_option relaxedAutoImplicit false

namespace ApiManifest

theorem char_le_iff {a b : Char} : a ≤ b ↔ a.toNat ≤ b.toNat :=
  Char.le_def.trans UInt32.le_iff_toNat_le

/-! ### Patterns -/

namespace Pattern

/-- The characters from one to another, both included. -/
def range (first last : Char) : List Char :=
  (List.range' first.toNat (last.toNat + 1 - first.toNat)).map Char.ofNat

/-- The pattern that takes one of some characters. -/
def oneOf : List Char → RegularExpression Char
  | [] => 0
  | c :: cs => .char c + oneOf cs

/-- The pattern that takes a word and nothing else. -/
def word : List Char → RegularExpression Char
  | [] => 1
  | c :: cs => .char c * word cs

variable {cs text : List Char}

theorem mem_range {first last c : Char} (hlast : last.toNat < 0xD800) :
    c ∈ range first last ↔ first ≤ c ∧ c ≤ last := by
  rw [range, List.mem_map, char_le_iff, char_le_iff]
  constructor
  · rintro ⟨n, hn, rfl⟩
    rw [List.mem_range'_1] at hn
    rw [Text.toNat_ofNat (.inl (by omega))]
    omega
  · rintro ⟨hfirst, hc⟩
    exact ⟨c.toNat, List.mem_range'_1.mpr (by omega), Char.ofNat_toNat c⟩

theorem mem_char {c : Char} : text ∈ (RegularExpression.char c).matches' ↔ text = [c] := Iff.rfl

theorem mem_oneOf : text ∈ (oneOf cs).matches' ↔ ∃ c ∈ cs, text = [c] := by
  induction cs with
  | nil => simp [oneOf, RegularExpression.matches'_zero]
  | cons c cs ih =>
    rw [oneOf, RegularExpression.matches'_add, Language.mem_add, mem_char, ih,
      List.exists_mem_cons_iff]

theorem mem_word : text ∈ (word cs).matches' ↔ text = cs := by
  induction cs generalizing text with
  | nil => rw [word, RegularExpression.matches'_epsilon, Language.mem_one]
  | cons c cs ih =>
    rw [word, RegularExpression.matches'_mul, Language.mem_mul]
    constructor
    · rintro ⟨_, rfl, rest, hrest, rfl⟩
      rw [ih.mp hrest, List.singleton_append]
    · rintro rfl
      exact ⟨[c], rfl, cs, ih.mpr rfl, rfl⟩

/-- Repeating the choice of a character gives the texts of such characters. -/
theorem mem_star_oneOf : text ∈ (oneOf cs).star.matches' ↔ ∀ c ∈ text, c ∈ cs := by
  rw [RegularExpression.matches'_star, Language.mem_kstar]
  constructor
  · rintro ⟨parts, rfl, hparts⟩ c hc
    obtain ⟨part, hpart, hc⟩ := List.mem_flatten.mp hc
    obtain ⟨c', hc', rfl⟩ := mem_oneOf.mp (hparts part hpart)
    rwa [List.mem_singleton.mp hc]
  · intro h
    refine ⟨text.map fun c ↦ [c], ?_, fun part hpart ↦ ?_⟩
    · rw [← List.flatMap_def, List.flatMap_singleton']
    · obtain ⟨c, hc, rfl⟩ := List.mem_map.mp hpart
      exact mem_oneOf.mpr ⟨c, h c hc, rfl⟩

end Pattern

open Pattern

/-- The pattern of one character of a name. -/
def namePatternChar : RegularExpression Char :=
  oneOf (range 'a' 'z' ++ range '0' '9' ++ ['-'])

/-- The pattern of names: one character and any number of others. -/
def namePattern : RegularExpression Char := namePatternChar * namePatternChar.star

/-- The pattern of the file names of documents. -/
def filenamePattern : RegularExpression Char := namePattern * word ".openapi.yaml".toList

theorem isNameChar_iff_mem (c : Char) :
    isNameChar c = true ↔ c ∈ range 'a' 'z' ++ range '0' '9' ++ ['-'] := by
  rw [List.mem_append, List.mem_append, mem_range (by decide), mem_range (by decide),
    List.mem_singleton]
  simp [isNameChar]

theorem isModuleName_iff_forall {n : String} :
    isModuleName n = true ↔ n ≠ "" ∧ ∀ c ∈ n.toList, isNameChar c = true := by
  rw [isModuleName, Bool.and_eq_true, List.all_eq_true]
  simp

/-- The pattern of names takes the names of modules. -/
theorem mem_namePattern_iff {n : String} :
    n.toList ∈ namePattern.matches' ↔ isModuleName n = true := by
  rw [isModuleName_iff_forall, namePattern, RegularExpression.matches'_mul, Language.mem_mul]
  simp only [isNameChar_iff_mem]
  constructor
  · rintro ⟨first, hfirst, rest, hrest, hn⟩
    obtain ⟨c, hc, rfl⟩ := mem_oneOf.mp hfirst
    rw [← hn]
    refine ⟨?_, List.forall_mem_cons.mpr ⟨hc, mem_star_oneOf.mp hrest⟩⟩
    rintro rfl
    exact nomatch hn
  · rintro ⟨hne, hall⟩
    obtain ⟨c, rest, hn⟩ := List.exists_cons_of_ne_nil (mt String.toList_eq_nil_iff.mp hne)
    rw [hn] at hall ⊢
    obtain ⟨hc, hrest⟩ := List.forall_mem_cons.mp hall
    exact ⟨[c], mem_oneOf.mpr ⟨c, hc, rfl⟩, rest, mem_star_oneOf.mpr hrest, rfl⟩

/-- The pattern of file names takes those of documents. -/
theorem mem_filenamePattern_iff {filename : String} :
    filename.toList ∈ filenamePattern.matches' ↔ (moduleOfFilename? filename).isSome = true := by
  rw [filenamePattern, RegularExpression.matches'_mul, Language.mem_mul, Option.isSome_iff_exists]
  constructor
  · rintro ⟨name, hname, suffix, hsuffix, hfilename⟩
    obtain rfl := mem_word.mp hsuffix
    refine ⟨String.ofList name, moduleOfFilename?_eq_some_iff.mpr ⟨String.ext ?_, ?_⟩⟩
    · rw [documentFilename, String.toList_append, String.toList_ofList, ← hfilename]
      rfl
    · rwa [← mem_namePattern_iff, String.toList_ofList]
  · rintro ⟨name, hname⟩
    obtain ⟨rfl, hvalid⟩ := moduleOfFilename?_eq_some_iff.mp hname
    exact ⟨name.toList, mem_namePattern_iff.mpr hvalid, _, mem_word.mpr rfl,
      (String.toList_append ..).symm⟩

/-! ### Octets -/

/-- Holds of the octets of a lower case ASCII letter, a digit or a hyphen. -/
def isNameOctet (b : UInt8) : Bool :=
  (0x61 ≤ b && b ≤ 0x7A) || (0x30 ≤ b && b ≤ 0x39) || b == 0x2D

theorem isNameChar_iff_toNat (c : Char) : isNameChar c = true ↔
    97 ≤ c.toNat ∧ c.toNat ≤ 122 ∨ 48 ≤ c.toNat ∧ c.toNat ≤ 57 ∨ c.toNat = 45 := by
  have hhyphen : c = '-' ↔ c.toNat = 45 := (Char.toNat_inj (c := c) (d := '-')).symm
  simp [isNameChar, char_le_iff, hhyphen, or_assoc]

theorem isNameOctet_iff_toNat (b : UInt8) : isNameOctet b = true ↔
    97 ≤ b.toNat ∧ b.toNat ≤ 122 ∨ 48 ≤ b.toNat ∧ b.toNat ≤ 57 ∨ b.toNat = 45 := by
  have hhyphen : b = 0x2D ↔ b.toNat = 45 := UInt8.toNat_inj.symm
  simp [isNameOctet, UInt8.le_iff_toNat_le, hhyphen, or_assoc]

/-- A character is one of names when its octets are, since no other one is written with them. -/
theorem isNameChar_iff_octets (c : Char) :
    isNameChar c = true ↔ ∀ b ∈ String.utf8EncodeChar c, isNameOctet b = true := by
  have hvalid := Text.toNat_valid c
  have hoctet (n : Nat) (hn : n < 256) : (UInt8.ofNat n).toNat = n := by
    rw [UInt8.toNat_ofNat', Nat.mod_eq_of_lt hn]
  rw [Text.utf8EncodeChar_eq, isNameChar_iff_toNat]
  simp only [isNameOctet_iff_toNat]
  split_ifs with h1 h2 h3
  · rw [List.forall_mem_singleton, hoctet _ (by omega)]
  -- The first octet of a longer character is none of an ASCII character.
  all_goals
    rw [List.forall_mem_cons, hoctet _ (by omega)]
    omega

/-- The names of modules are told by their octets. -/
theorem isModuleName_iff_octets {n : String} :
    isModuleName n = true ↔ n ≠ "" ∧ ∀ b ∈ Text.octets n, isNameOctet b = true := by
  rw [isModuleName_iff_forall, Text.octets, Text.encode]
  simp only [isNameChar_iff_octets, List.mem_flatMap]
  refine and_congr_right fun _ ↦ ⟨?_, fun h c hc b hb ↦ h b ⟨c, hc, hb⟩⟩
  rintro h b ⟨c, hc, hb⟩
  exact h c hc b hb

/-! ### Agreement -/

/-- Every character of a document's file name is one of names or a dot, and there are two dots. -/
theorem chars_of_moduleOfFilename? {filename name : String}
    (h : moduleOfFilename? filename = some name) :
    (∀ c ∈ filename.toList, isNameChar c = true ∨ c = '.') ∧ filename.toList.count '.' = 2 := by
  obtain ⟨rfl, hname⟩ := moduleOfFilename?_eq_some_iff.mp h
  obtain ⟨-, hchars⟩ := isModuleName_iff_forall.mp hname
  have hdot : name.toList.count '.' = 0 :=
    List.count_eq_zero.mpr fun hdot ↦ absurd (hchars _ hdot) (by decide)
  have hsuffix : ∀ c ∈ moduleSuffix.toList, isNameChar c = true ∨ c = '.' := by
    simp [moduleSuffix, isNameChar]
  rw [documentFilename, String.toList_append, List.count_append, hdot]
  exact ⟨List.forall_mem_append.mpr ⟨fun c hc ↦ .inl (hchars c hc), hsuffix⟩, rfl⟩

/-- The name of a module and the file name of its document have one meaning in all their spellings.
A file name is that of a module when it is the name with the suffix, and so when it fits the
pattern; then no character stands in it that the convention does not know, and no further dot. A
name may be judged by its octets. And the path of an entry is right for its name when its last part
is the file name of that module. -/
theorem moduleOfFilename?_agrees :
    (∀ f n, moduleOfFilename? f = some n ↔ f = n ++ ".openapi.yaml" ∧ isModuleName n = true) ∧
    (∀ f : String, (moduleOfFilename? f).isSome = true ↔ f.toList ∈ filenamePattern.matches') ∧
    (∀ n, isModuleName n = true ↔ n ≠ "" ∧ ∀ b ∈ Text.octets n, isNameOctet b = true) ∧
    (∀ f : String, (∃ c ∈ f.toList, c = '\n' ∨ c = '\r' ∨ c = '/' ∨ 128 ≤ c.toNat) ∨
      f.toList.count '.' ≠ 2 → moduleOfFilename? f = none) ∧
    ∀ (e : Entry) (part : String), isModuleName e.name = true → IsLastPart e.path part →
      (e.pathMatches = true ↔ moduleOfFilename? part = some e.name) := by
  refine ⟨fun f n ↦ moduleOfFilename?_eq_some_iff, fun f ↦ mem_filenamePattern_iff.symm,
    fun n ↦ isModuleName_iff_octets, fun f hf ↦ ?_, fun e part hname hpart ↦ ?_⟩
  · by_contra hsome
    obtain ⟨name, hname⟩ := Option.ne_none_iff_exists'.mp hsome
    obtain ⟨hchars, hdots⟩ := chars_of_moduleOfFilename? hname
    rcases hf with ⟨c, hc, hbad⟩ | hcount
    · rcases hchars c hc with hchar | rfl
      · rw [isNameChar_iff_toNat] at hchar
        rcases hbad with rfl | rfl | rfl | hwide
        · exact absurd hchar (by decide)
        · exact absurd hchar (by decide)
        · exact absurd hchar (by decide)
        · omega
      · exact absurd hbad (by decide)
    · exact hcount hdots
  · rw [isLastPart_iff.mp hpart, moduleOfFilename?_eq_some_iff, and_iff_left hname]
    exact Entry.pathMatches_iff

/-- A file name with the suffix twice is that of no module, and a path with directories before it is
right for the module of its last part. -/
theorem moduleOfFilename?_agrees_twice :
    ("a.openapi.yaml.openapi.yaml".toList.count '.' ≠ 2 ∧
      moduleOfFilename? "a.openapi.yaml.openapi.yaml" = none) ∧
    isModuleName "a" = true ∧ IsLastPart "../b.c/a.openapi.yaml" "a.openapi.yaml" ∧
    ((⟨"a", "u", "../b.c/a.openapi.yaml", "", "", ""⟩ : Entry).pathMatches = true ↔
      moduleOfFilename? "a.openapi.yaml" = some "a") := by
  obtain ⟨-, -, -, hnone, hpath⟩ := moduleOfFilename?_agrees
  have hdots : "a.openapi.yaml.openapi.yaml".toList.count '.' ≠ 2 := by decide
  have hlast : IsLastPart "../b.c/a.openapi.yaml" "a.openapi.yaml" := by decide
  exact ⟨⟨hdots, hnone _ (.inr hdots)⟩, by decide, hlast, hpath _ _ (by decide) hlast⟩

end ApiManifest
