import ApiManifest.Proofs.Embed.Source
import ApiManifest.Proofs.Json.Reading

/-!
A Go embed source under a reader of Go. A string of Go is a run of octets: an escape by number
stands for one octet or for a character, and every other character for its UTF-8 octets. A literal
of the source is spelled like a JSON string, and every escape in it means to Go what it means to
JSON (`read_escape_of_escapedChar`), so that a literal is read as the octets of its text, whatever
follows (`literal?_goLiteral`). The reader of a program finds the package and, entry by entry, the
payload (`program?_render`).
-/

set_option autoImplicit false
set_option relaxedAutoImplicit false

namespace ApiManifest.Embed.Go

/-! ### The reader of a literal -/

/-- What the number of an escape stands for. -/
inductive Meaning where
  | octet
  | character

/-- The octets for which a number stands. -/
def Meaning.octets? : Meaning → Nat → Option (List UInt8)
  | .octet, n => if n < 256 then some [UInt8.ofNat n] else none
  | .character, n => if n.isValidChar then some (String.utf8EncodeChar (Char.ofNat n)) else none

/-- Where a reader stands in a literal: in its text, after a backslash, or before the digits of a
number that are missing. -/
inductive Place where
  | text
  | backslash
  | digits (meaning : Meaning) (base missing value : Nat)

/-- The value of a digit to a base. -/
def digit? (base : Nat) (c : Char) : Option Nat := (Text.hexValue? c).filter (· < base)

/-- The octet for which a backslash and the given character stand. -/
def escape? : Char → Option UInt8
  | 'a' => some 0x07
  | 'b' => some 0x08
  | 't' => some 0x09
  | 'n' => some 0x0A
  | 'v' => some 0x0B
  | 'f' => some 0x0C
  | 'r' => some 0x0D
  | '"' => some 0x22
  | '\\' => some 0x5C
  | _ => none

/-- The number that a backslash and the given character open; an octal one has a digit for its first
character. -/
def numbered? : Char → Option Place
  | 'x' => some (.digits .octet 16 2 0)
  | 'u' => some (.digits .character 16 4 0)
  | 'U' => some (.digits .character 16 8 0)
  | c => (digit? 8 c).map fun d ↦ .digits .octet 8 2 d

/-- Puts octets before what is read. -/
def before (bytes : List UInt8) :
    Option (List UInt8 × List Char) → Option (List UInt8 × List Char) :=
  Option.map fun r ↦ (bytes ++ r.1, r.2)

/-- Reads a literal from a place in it up to the closing quote: its octets and what follows. -/
def read : Place → List Char → Option (List UInt8 × List Char)
  | _, [] => none
  | .text, c :: rest =>
    if c = '"' then some ([], rest)
    else if c = '\\' then read .backslash rest
    else if c = '\n' then none
    else before (String.utf8EncodeChar c) (read .text rest)
  | .backslash, c :: rest =>
    match escape? c with
    | some b => before [b] (read .text rest)
    | none =>
      match numbered? c with
      | some place => read place rest
      | none => none
  | .digits meaning base missing value, c :: rest =>
    match digit? base c with
    | none => none
    | some d =>
      if missing ≤ 1 then
        match meaning.octets? (base * value + d) with
        | some bytes => before bytes (read .text rest)
        | none => none
      else read (.digits meaning base (missing - 1) (base * value + d)) rest

/-! ### The reader of a program -/

/-- Leaves blanks out; the end of a line is none, because it can end a statement. -/
def dropBlanks (s : List Char) : List Char := s.dropWhile fun c ↦ c == ' ' || c == '\t' || c == '\r'

/-- Leaves blanks and ends of lines out. -/
def dropLines (s : List Char) : List Char :=
  s.dropWhile fun c ↦ c == ' ' || c == '\t' || c == '\r' || c == '\n'

/-- Takes marks off that blanks may stand before. -/
def marks? (marks : List String) (s : List Char) : Option (List Char) :=
  marks.foldlM (fun s mark ↦ (dropBlanks s).dropPrefix? mark.toList) s

/-- Reads a literal that blanks may stand before. -/
def literal? (s : List Char) : Option (List UInt8 × List Char) :=
  (marks? ["\""] s).bind (read .text)

/-- Reads an entry of a map: a key, and a literal that is converted to octets. -/
def pair? (s : List Char) : Option ((List UInt8 × List UInt8) × List Char) := do
  let (key, s) ← literal? (dropLines s)
  let s ← marks? [":", "(", "[", "]", "byte", ")", "("] s
  let (value, s) ← literal? s
  let s ← marks? [")", ","] s
  return ((key, value), s)

/-- Reads entries up to the first text that is none, and gives that text. -/
def entries (s : List Char) : List (List UInt8 × List UInt8) × List Char :=
  match pair? s with
  | none => ([], s)
  | some (e, rest) =>
    if rest.length < s.length then (entries rest).map (e :: ·) id else ([], s)
termination_by s.length

/-- Holds of the characters of an identifier. -/
def isIdentifierChar (c : Char) : Bool := isLetter c || c.isDigit

/-- Reads a program: the fixed text up to the name of its package, the name, the fixed text up to
the entries of its map, these, the brace that closes the map, and nothing but blanks after it. -/
def program? (source : String) : Option (String × List (List UInt8 × List UInt8)) := do
  let s ← source.toList.dropPrefix? goPreamble.toList
  let package := String.ofList (s.takeWhile isIdentifierChar)
  let s ← (s.dropWhile isIdentifierChar).dropPrefix? goScaffolding.toList
  let (files, s) := entries s
  let s ← (dropLines s).dropPrefix? ['\x7d']
  if (dropLines s).isEmpty then some (package, files) else none

/-! ### What is written is read -/

variable {c : Char} {s rest : List Char}

theorem digit?_hexDigit {d : Nat} (hd : d < 16) : digit? 16 (Text.hexDigit d) = some d := by
  rw [digit?, Text.hexValue?_hexDigit hd, Option.filter_some, if_pos (decide_eq_true hd)]

/-- A digit adds to the number that is being read. -/
theorem read_hexDigit {meaning : Meaning} {missing value d : Nat} (hd : d < 16)
    (rest : List Char) :
    read (.digits meaning 16 (missing + 2) value) (Text.hexDigit d :: rest) =
      read (.digits meaning 16 (missing + 1) (16 * value + d)) rest := by
  rw [read, digit?_hexDigit hd]
  rfl

/-- The last digit of a number completes the character. -/
theorem read_lastDigit {value d : Nat} (hd : d < 16) (hc : 16 * value + d = c.toNat)
    (rest : List Char) :
    read (.digits .character 16 1 value) (Text.hexDigit d :: rest) =
      before (String.utf8EncodeChar c) (read .text rest) := by
  have hoctets : Meaning.character.octets? c.toNat = some (String.utf8EncodeChar c) := by
    have hvalid : c.toNat.isValidChar := c.valid
    rw [Meaning.octets?, if_pos hvalid, Char.ofNat_toNat]
  rw [read, digit?_hexDigit hd]
  simp only [hc, hoctets, le_refl, if_true]

/-- An escape by number is read as the octets of its character. -/
theorem read_numbered (hc : c < ' ') (rest : List Char) :
    read .backslash ('u' :: (Text.hexFixed Text.hexDigit 4 c.toNat ++ rest)) =
      before (String.utf8EncodeChar c) (read .text rest) := by
  have hsmall : c.toNat < 32 := hc
  have hdigit (n : Nat) : n % 16 < 16 := Nat.mod_lt _ (by decide)
  have hopen (rest : List Char) :
      read .backslash ('u' :: rest) = read (.digits .character 16 4 0) rest := rfl
  rw [hopen, Json.hexFixed_four]
  simp only [List.cons_append, List.nil_append]
  rw [read_hexDigit (hdigit _), read_hexDigit (hdigit _), read_hexDigit (hdigit _),
    read_lastDigit (c := c) (hdigit _) (by omega)]

/-- An escape that a JSON string has for a character stands for the same character in Go. -/
theorem read_escape_of_escapedChar {tail : List Char} (hc : Json.escapedChar c = '\\' :: tail)
    (rest : List Char) :
    Json.escape? (tail ++ rest) = some (c, rest) ∧
      read .backslash (tail ++ rest) = before (String.utf8EncodeChar c) (read .text rest) := by
  refine ⟨Json.escape?_of_escapedChar hc rest, ?_⟩
  unfold Json.escapedChar at hc
  split at hc
  iterate 7
    obtain rfl := (List.cons.inj hc).2
    rfl
  · rename_i hbackslash _ _ _ _ _
    split_ifs at hc with hcontrol
    · obtain rfl := (List.cons.inj hc).2
      exact read_numbered hcontrol rest
    · exact absurd (List.cons.inj hc).1 hbackslash

/-- One written character is read as its octets, and the reader is where it was. -/
theorem read_escapedChar (c : Char) (rest : List Char) :
    read .text (Json.escapedChar c ++ rest) =
      before (String.utf8EncodeChar c) (read .text rest) := by
  have hescape {tail : List Char} (hc : Json.escapedChar c = '\\' :: tail) :
      read .text (Json.escapedChar c ++ rest) =
        before (String.utf8EncodeChar c) (read .text rest) := by
    rw [hc, List.cons_append, read, if_neg (by decide), if_pos rfl]
    exact (read_escape_of_escapedChar hc rest).2
  rcases Json.escapedChar_cases c with
    ⟨hc, hquote, hbackslash, hcontrol⟩ | ⟨-, ⟨letter, hc, -⟩ | ⟨hc, -⟩⟩
  · have hline : c ≠ '\n' := by
      rintro rfl
      exact hcontrol (by decide)
    rw [hc, List.singleton_append, read, if_neg hquote, if_neg hbackslash, if_neg hline]
  · exact hescape hc
  · exact hescape hc

/-- The text of a literal is read up to its own quote. -/
theorem read_escapedChars (cs rest : List Char) :
    read .text (cs.flatMap Json.escapedChar ++ '"' :: rest) = some (Text.encode cs, rest) := by
  induction cs with
  | nil => rfl
  | cons c cs ih =>
    rw [List.flatMap_cons, List.append_assoc, read_escapedChar, ih]
    rfl

/-- A literal is read as the octets of its text, whatever follows. -/
theorem literal?_goLiteral (s : String) (rest : List Char) :
    literal? (goLiteral s ++ rest) = some (Text.octets s, rest) := by
  have hquote : marks? ["\""] (goLiteral s ++ rest) =
      some (s.toList.flatMap Json.escapedChar ++ '"' :: rest) := by
    rw [goLiteral, Json.stringChars, List.cons_append, List.append_assoc]
    simp [marks?, dropBlanks, List.dropPrefix?]
  rw [literal?, hquote, Option.bind_some, read_escapedChars]
  rfl

theorem toList_line (f : File) : (Target.go.line f).toList =
    '\t' :: goLiteral f.name ++ ": ([]byte)(".toList ++ goLiteral f.data ++ "),\n".toList :=
  String.toList_ofList

/-- The octets of a file: its name and its data. -/
def octetsOf (f : File) : List UInt8 × List UInt8 := (Text.octets f.name, Text.octets f.data)

theorem octetsOf_injective : Function.Injective octetsOf := by
  rintro ⟨name, data⟩ ⟨name', data'⟩ h
  obtain ⟨hname, hdata⟩ := Prod.mk.inj h
  obtain rfl : name = name' := Text.octets_inj.mp hname
  obtain rfl : data = data' := Text.octets_inj.mp hdata
  rfl

/-- The line of a file is read as the entry with its name and its data. -/
theorem pair?_line (f : File) (rest : List Char) :
    pair? ((Target.go.line f).toList ++ rest) = some (octetsOf f, '\n' :: rest) := by
  have hopen (s : String) (rest : List Char) :
      dropLines ('\t' :: (goLiteral s ++ rest)) = goLiteral s ++ rest := rfl
  have hmarks (s : List Char) : marks? [":", "(", "[", "]", "byte", ")", "("]
      (": ([]byte)(".toList ++ s) = some s := by
    simp [marks?, dropBlanks, List.dropPrefix?]
  have hclose (s : List Char) : marks? [")", ","] ("),\n".toList ++ s) = some ('\n' :: s) := by
    simp [marks?, dropBlanks, List.dropPrefix?]
  rw [toList_line, pair?]
  simp only [List.append_assoc, List.cons_append, hopen, literal?_goLiteral, hmarks, hclose,
    Option.bind_eq_bind, Option.bind_some]
  rfl

/-- Blanks before an entry say nothing. -/
theorem pair?_of_dropLines {t : List Char} (h : dropLines s = dropLines t) :
    pair? s = pair? t := by
  rw [pair?, pair?, h]

theorem entries_of_pair? {e : List UInt8 × List UInt8} (h : pair? s = some (e, rest))
    (hlength : rest.length < s.length) : entries s = (entries rest).map (e :: ·) id := by
  rw [entries, h]
  exact if_pos hlength

/-- The lines of a map are read as its files, up to the brace that closes it. -/
theorem entries_lines (files : List File) {s : List Char}
    (hs : dropLines s = dropLines
      (files.flatMap (fun f ↦ (Target.go.line f).toList) ++ Target.go.footer.toList)) :
    ∃ rest, entries s = (files.map octetsOf, rest) ∧ dropLines rest = Target.go.footer.toList := by
  induction files generalizing s with
  | nil =>
    have hnone : pair? s = none := (pair?_of_dropLines hs).trans rfl
    refine ⟨s, ?_, hs⟩
    rw [entries, hnone]
    rfl
  | cons f files ih =>
    rw [List.flatMap_cons, List.append_assoc] at hs
    generalize hmore :
      files.flatMap (fun f ↦ (Target.go.line f).toList) ++ Target.go.footer.toList = more at hs ih
    have hentry := (pair?_of_dropLines hs).trans (pair?_line f more)
    obtain ⟨rest, hentries, hrest⟩ := ih (s := '\n' :: more) rfl
    have hlength : ('\n' :: more).length < s.length := by
      have hdrop : (dropLines s).length ≤ s.length := (List.dropWhile_suffix _).length_le
      have hline : dropLines ((Target.go.line f).toList ++ more) =
          goLiteral f.name ++ ": ([]byte)(".toList ++ goLiteral f.data ++
            "),\n".toList ++ more := by
        rw [toList_line]
        rfl
      rw [hs, hline] at hdrop
      simp only [List.length_append] at hdrop
      have hmarks : ": ([]byte)(".toList.length = 11 := rfl
      rw [List.length_cons]
      omega
    refine ⟨rest, ?_, hrest⟩
    rw [entries_of_pair? hentry hlength, hentries]
    rfl

theorem isIdentifierChar_of_isPackageName {package : String} (h : isPackageName package = true)
    (hc : c ∈ package.toList) : isIdentifierChar c = true := by
  rw [isPackageName] at h
  cases hlist : package.toList with
  | nil =>
    rw [hlist] at hc
    exact absurd hc List.not_mem_nil
  | cons first rest =>
    rw [hlist] at h hc
    obtain ⟨hfirst, hrest⟩ := Bool.and_eq_true_iff.mp h
    rcases List.mem_cons.mp hc with rfl | hmem
    · exact Bool.or_eq_true_iff.mpr (.inl hfirst)
    · exact List.all_eq_true.mp hrest c hmem

/-- The name of a package stands at the end of its line. -/
theorem exists_goScaffolding : ∃ tail, goScaffolding.toList = '\n' :: tail := by
  rw [goScaffolding, joinLines, String.intercalate_cons_of_ne_nil (by simp), String.toList_append,
    String.toList_append, show "".toList ++ "\n".toList = ['\n'] from rfl, List.singleton_append]
  exact ⟨_, rfl⟩

/-- The source of a payload is read as its package and the payload. -/
theorem program?_lines {package : String} (hpackage : isPackageName package = true)
    (files : List File) :
    program? (goPreamble ++ package ++ goScaffolding ++
      String.join (files.map Target.go.line) ++ Target.go.footer) =
        some (package, files.map octetsOf) := by
  obtain ⟨rest, hentries, hrest⟩ := entries_lines files rfl
  have hchars : (String.join (files.map Target.go.line)).toList =
      files.flatMap fun f ↦ (Target.go.line f).toList := by
    rw [String.toList_join, List.flatMap_map]
  have hdrop (p s : List Char) : (p ++ s).dropPrefix? p = some s :=
    List.dropPrefix?_append_of_beq s BEq.rfl
  have hname : ∀ c ∈ package.toList, isIdentifierChar c = true :=
    fun c ↦ isIdentifierChar_of_isPackageName hpackage
  have hend (s : List Char) : (goScaffolding.toList ++ s).takeWhile isIdentifierChar = [] ∧
      (goScaffolding.toList ++ s).dropWhile isIdentifierChar = goScaffolding.toList ++ s := by
    obtain ⟨tail, htail⟩ := exists_goScaffolding
    rw [htail]
    exact ⟨rfl, rfl⟩
  have hclose : (dropLines rest).dropPrefix? ['\x7d'] = some ['\n'] := by
    rw [hrest]
    rfl
  simp only [program?, String.toList_append, List.append_assoc, hchars, hdrop, Option.bind_eq_bind,
    Option.bind_some, List.takeWhile_append_of_pos hname, List.dropWhile_append_of_pos hname, hend,
    List.append_nil, String.ofList_toList, hentries, hclose]
  rfl

/-! ### Lines -/

/-- A literal stands on one line. -/
theorem lineFeed_not_mem_goLiteral (s : String) : '\n' ∉ goLiteral s := by
  have hchar (c : Char) : '\n' ∉ Json.escapedChar c := by
    rcases Json.escapedChar_cases c with ⟨hc, -, -, hcontrol⟩ | ⟨hescaped, -⟩
    · rw [hc, List.mem_singleton]
      rintro rfl
      exact hcontrol (by decide)
    · exact fun hmem ↦ absurd (Json.isPrintable_of_mem_escape hescaped _ hmem) (by decide)
  intro hmem
  simp only [goLiteral, Json.stringChars, List.mem_cons, List.mem_append, List.mem_flatMap] at hmem
  rcases hmem with hmem | ⟨c, -, hmem⟩ | hmem
  · exact absurd hmem (by decide)
  · exact hchar c hmem
  · exact absurd hmem (by decide)

/-- The line of a file ends in its only line feed. -/
theorem exists_line (f : File) :
    ∃ body, (Target.go.line f).toList = body ++ ['\n'] ∧ '\n' ∉ body := by
  refine ⟨'\t' :: goLiteral f.name ++ ": ([]byte)(".toList ++ goLiteral f.data ++ "),".toList,
    ?_, ?_⟩
  · rw [toList_line, List.append_assoc _ "),".toList]
    rfl
  · simp only [List.mem_append, List.mem_cons, not_or]
    exact ⟨⟨⟨⟨by decide, lineFeed_not_mem_goLiteral _⟩, by decide⟩,
      lineFeed_not_mem_goLiteral _⟩, by decide⟩

/-! ### Sources -/

theorem checkPackage_eq_ok_iff {package : String} :
    Target.go.checkPackage package = .ok () ↔ isPackageName package = true := by
  rw [Target.checkPackage]
  split_ifs with h <;> simp [h]

/-- A Go source is the fixed text with the name of its package, a line for each file of the payload,
and the brace that closes the map; a reader of Go gets the package and the payload back from it, so
that two payloads with one source are the same. Every escape in a literal is one of Go, and stands
for the character for which it stands in JSON. -/
theorem program?_render {package : String} (hpackage : Target.go.checkPackage package = .ok ())
    (m : Manifest) (documents : Documents) :
    (∃ text, render ⟨.go, package⟩ m documents = .ok text ∧
      text = goPreamble ++ package ++ goScaffolding ++
        String.join ((payload m documents).map Target.go.line) ++ "\x7d\n" ∧
      program? text = some (package,
        (payload m documents).map fun f ↦ (Text.octets f.name, Text.octets f.data))) ∧
    (∀ f ∈ payload m documents,
      ∃ body, (Target.go.line f).toList = body ++ ['\n'] ∧ '\n' ∉ body) ∧
    (∀ package' m' documents', render ⟨.go, package'⟩ m' documents' =
      render ⟨.go, package⟩ m documents →
        package' = package ∧ payload m' documents' = payload m documents) ∧
    (∀ s rest, literal? (goLiteral s ++ rest) = some (Text.octets s, rest)) ∧
    ∀ c tail, Json.escapedChar c = '\\' :: tail → ∀ rest,
      Json.escape? (tail ++ rest) = some (c, rest) ∧
        read .backslash (tail ++ rest) = before (String.utf8EncodeChar c) (read .text rest) := by
  have hrender {package : String} (hpackage : Target.go.checkPackage package = .ok ())
      (m : Manifest) (documents : Documents) :
      render ⟨.go, package⟩ m documents = .ok (goPreamble ++ package ++ goScaffolding ++
        String.join ((payload m documents).map Target.go.line) ++ Target.go.footer) := by
    rw [render_eq_ok hpackage, join_pieces]
    rfl
  have hread {package : String} (hpackage : Target.go.checkPackage package = .ok ()) :=
    program?_lines (checkPackage_eq_ok_iff.mp hpackage)
  refine ⟨⟨_, hrender hpackage m documents, rfl, hread hpackage _⟩, fun f _ ↦ exists_line f, ?_,
    literal?_goLiteral, fun c tail hc rest ↦ read_escape_of_escapedChar hc rest⟩
  intro package' m' documents' hsame
  have hpackage' : Target.go.checkPackage package' = .ok () := by
    cases hcheck : Target.go.checkPackage package' with
    | ok _ => rfl
    | error cause =>
      rw [hrender hpackage, render, octets, hcheck] at hsame
      exact absurd hsame (by simp [bind, Except.bind, Except.map])
  rw [hrender hpackage, hrender hpackage', Except.ok.injEq] at hsame
  have hboth := hread hpackage' (payload m' documents')
  rw [hsame, hread hpackage] at hboth
  obtain ⟨hname, hfiles⟩ := Prod.mk.inj (Option.some.inj hboth)
  exact ⟨hname.symm, List.map_injective_iff.mpr octetsOf_injective hfiles.symm⟩

/-- A document with a quote, a control, and a character that Go has another escape for. -/
theorem program?_render_escapes :
    Target.go.checkPackage "_api2" = .ok () ∧
    ∃ text, render ⟨.go, "_api2"⟩ (.ofModules []) [("a.openapi.yaml", .str "\x01\"\x07\n")] =
        .ok text ∧
      program? text = some ("_api2", [
        (Text.octets "index.openapi.yaml",
          Text.octets "\x7b\"modules\":[],\"version\":\"1.0.0\"\x7d"),
        (Text.octets "a.openapi.yaml", Text.octets "\"\\u0001\\\"\\u0007\\n\"")]) := by
  have hpackage : Target.go.checkPackage "_api2" = .ok () := by decide
  obtain ⟨⟨text, hrender, -, hread⟩, -⟩ := program?_render hpackage (.ofModules [])
    [("a.openapi.yaml", .str "\x01\"\x07\n")]
  exact ⟨hpackage, text, hrender, hread⟩

end ApiManifest.Embed.Go
