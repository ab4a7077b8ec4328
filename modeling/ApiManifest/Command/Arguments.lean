import ApiManifest.Embed.Target

/-!
The command line. A directory stands by itself; options carry a value, in the next argument or
attached to the option; switches carry none. A lone pair of hyphens ends the options. An option
whose value is still to come, or the directory, is judged only when the next thing is taken up, so
that an unknown argument right after it is told first.

Arguments are texts, the paths among them included. A system may pass a path in octets that are no
text; a command line with such a path is not described here.
-/

set_option autoImplicit false

namespace ApiManifest.Command

/-- What a command line asks for. -/
structure Arguments where
  directory : String
  output : Option String
  embed : Option String
  target : Option Embed.Target
  package : Option String
  extension : Option String
  config : Option String
  check : Bool
  verbosity : Nat
  deriving DecidableEq, Repr

/-- Why a command line is not carried out: it is refused, or it asks for a display. -/
inductive Usage where
  | missingDirectory
  | unknownArgument
  /-- A value that is missing, empty where it must not be, or none of the known ones. -/
  | invalidValue
  | repeated
  /-- A value on a switch. -/
  | unwantedValue
  | help
  | version
  deriving DecidableEq, Repr

/-- What can take a value. -/
inductive Slot where
  | directory
  | output
  | embed
  | target
  | package
  | extension
  | config
  deriving DecidableEq, Repr

/-- What takes no value. -/
inductive Switch where
  | check
  | verbose
  | help
  | version
  deriving DecidableEq, Repr

/-- An option or a switch. -/
abbrev Flag := Slot ⊕ Switch

/-- The options and switches by their long names. -/
def longFlags : List (String × Flag) := [
  ("output", .inl .output), ("embed", .inl .embed), ("target", .inl .target),
  ("package", .inl .package), ("extension-prefix", .inl .extension), ("config", .inl .config),
  ("check", .inr .check), ("verbose", .inr .verbose), ("help", .inr .help),
  ("version", .inr .version)]

/-- The options and switches by their short names. -/
def shortFlags : List (Char × Flag) :=
  [('o', .inl .output), ('v', .inr .verbose), ('h', .inr .help), ('V', .inr .version)]

/-- The values that have been taken over. -/
structure Taken where
  directory : Option String
  output : Option String
  embed : Option String
  target : Option Embed.Target
  package : Option String
  extension : Option String
  config : Option String
  check : Bool
  verbosity : Nat
  deriving DecidableEq, Repr

namespace Taken

def empty : Taken :=
  ⟨none, none, none, none, none, none, none, false, 0⟩

/-- The value of an option that is given once. -/
def once {α : Type} (old : Option α) (new : Except Usage α) : Except Usage (Option α) :=
  if old.isSome then .error .repeated else new.map some

/-- A path is any text but the empty one. -/
def path (s : String) : Except Usage String :=
  if s.isEmpty then .error .invalidValue else .ok s

/-- A target is known by its name. -/
def targetNamed (s : String) : Except Usage Embed.Target :=
  match Embed.Target.ofName? s with
  | some t => .ok t
  | none => .error .invalidValue

/-- Takes a value over. -/
def set (t : Taken) (slot : Slot) (s : String) : Except Usage Taken :=
  match slot with
  | .directory => do return { t with directory := ← once t.directory (path s) }
  | .output => do return { t with output := ← once t.output (path s) }
  | .embed => do return { t with embed := ← once t.embed (path s) }
  | .target => do return { t with target := ← once t.target (targetNamed s) }
  | .package => do return { t with package := ← once t.package (.ok s) }
  | .extension => do return { t with extension := ← once t.extension (.ok s) }
  | .config => do return { t with config := ← once t.config (path s) }

/-- Turns a switch on; the two displays end the reading. -/
def turnOn (t : Taken) : Switch → Except Usage Taken
  | .check => if t.check then .error .repeated else .ok { t with check := true }
  | .verbose => .ok { t with verbosity := t.verbosity + 1 }
  | .help => .error .help
  | .version => .error .version

/-- The arguments, of which only the directory must be there. -/
def arguments (t : Taken) : Except Usage Arguments :=
  match t.directory with
  | none => .error .missingDirectory
  | some directory =>
    .ok { directory, output := t.output, embed := t.embed, target := t.target,
          package := t.package, extension := t.extension, config := t.config,
          check := t.check, verbosity := t.verbosity }

end Taken

/-- What a reader of a command line knows: the values taken over, and the slot whose value is to be
taken over next, without the value while it is still to come. -/
structure Reader where
  taken : Taken
  pending : Option (Slot × Option String)
  deriving DecidableEq, Repr

namespace Reader

def start : Reader := ⟨.empty, none⟩

/-- Takes the pending value over. -/
def settle (r : Reader) : Except Usage Taken :=
  match r.pending with
  | none => .ok r.taken
  | some (_, none) => .error .invalidValue
  | some (slot, some s) => r.taken.set slot s

/-- Whether the directory has been given. -/
def placed (r : Reader) : Bool :=
  r.taken.directory.isSome || match r.pending with
    | some (.directory, _) => true
    | _ => false

/-- Takes up an option whose value is still to come. -/
def await (r : Reader) (slot : Slot) : Except Usage Reader := do
  return ⟨← r.settle, some (slot, none)⟩

/-- Takes up an option with its value attached. -/
def attach (r : Reader) (slot : Slot) (s : String) : Except Usage Reader := do
  return ⟨← (← r.settle).set slot s, none⟩

/-- Takes up a switch. -/
def switch (r : Reader) (s : Switch) : Except Usage Reader := do
  return ⟨← (← r.settle).turnOn s, none⟩

/-- Takes up an argument that stands by itself. -/
def place (r : Reader) (s : String) : Except Usage Reader :=
  if r.placed then .error .unknownArgument
  else do return ⟨← r.settle, some (.directory, some s)⟩

/-- Takes up an argument after two hyphens: a name, and a value after an equals sign. -/
def long (r : Reader) (body : List Char) : Except Usage Reader :=
  let name := String.ofList (body.takeWhile (· != '='))
  match longFlags.lookup name, body.dropWhile (· != '=') with
  | none, _ => .error .unknownArgument
  | some (.inl slot), [] => r.await slot
  | some (.inl slot), _ :: value => r.attach slot (String.ofList value)
  | some (.inr s), [] => r.switch s
  | some (.inr _), _ :: _ => .error .unwantedValue

/-- Takes up the characters after one hyphen: switches, up to an option with what follows as its
value, an equals sign before it left out. -/
def short (r : Reader) : List Char → Except Usage Reader
  | [] => .ok r
  | c :: rest =>
    match shortFlags.lookup c with
    | none => .error .unknownArgument
    | some (.inr s) => do short (← r.switch s) rest
    | some (.inl slot) =>
      match rest with
      | [] => r.await slot
      | '=' :: value => r.attach slot (String.ofList value)
      | value => r.attach slot (String.ofList value)

/-- Takes up an argument that is no option: the value that is still to come, or the directory. -/
def value (r : Reader) (s : String) : Except Usage Reader :=
  match r.pending with
  | some (slot, none) => .ok ⟨r.taken, some (slot, some s)⟩
  | _ => r.place s

/-- Takes up an argument other than a lone pair of hyphens. -/
def argument (r : Reader) (s : String) : Except Usage Reader :=
  match s.toList with
  | '-' :: '-' :: body => r.long body
  | '-' :: c :: body => r.short (c :: body)
  | _ => r.value s

end Reader

/-- Reads arguments to the end; none of them is an option once `plain` holds. -/
def readFrom (r : Reader) : Bool → List String → Except Usage Taken
  | _, [] => r.settle
  | true, s :: rest => do readFrom (← r.place s) true rest
  | false, s :: rest =>
    if s = "--" then readFrom r true rest
    else do readFrom (← r.argument s) false rest

/-- Reads a command line. -/
def parse (args : List String) : Except Usage Arguments := do
  (← readFrom .start false args).arguments

end ApiManifest.Command
