/-!
What a program logs on the way. An event has a level, a message and fields, and is let through by
the level that was asked for or by a more talkative one. How an event is printed, with the time and
in which colours, is not decided here: a `Format` gives the text.
-/

set_option autoImplicit false

namespace ApiManifest.Log

/-- How much an event matters, from the most to the least. -/
inductive Level where
  | error
  | warn
  | info
  | debug
  | trace
  deriving DecidableEq, Repr

namespace Level

def name : Level → String
  | error => "ERROR"
  | warn => "WARN"
  | info => "INFO"
  | debug => "DEBUG"
  | trace => "TRACE"

/-- The place of a level among all levels. -/
def rank : Level → Nat
  | error => 0
  | warn => 1
  | info => 2
  | debug => 3
  | trace => 4

/-- The level down to which events are let through when verbosity was asked for so many times. -/
def ofVerbosity : Nat → Level
  | 0 => warn
  | 1 => info
  | 2 => debug
  | _ => trace

end Level

/-- Something that is logged. -/
structure Event where
  level : Level
  message : String
  fields : List (String × String)
  deriving DecidableEq, Repr

namespace Event

/-- A run knows its settings. -/
def starting (directory target : String) : Event :=
  ⟨.debug, "starting", [("dir", directory), ("target", target)]⟩

def ignoredFile (filename : String) : Event := ⟨.info, "ignored file", [("file", filename)]⟩

def loadedDocument (path : String) (size : Nat) : Event :=
  ⟨.debug, "loaded schema document", [("path", path), ("bytes", toString size)]⟩

def indexedModule (name url : String) : Event :=
  ⟨.debug, "indexed module", [("module", name), ("url", url)]⟩

def wroteManifest (path : String) (size : Nat) : Event :=
  ⟨.debug, "wrote index", [("path", path), ("bytes", toString size)]⟩

def wroteSource (target : String) (entries : Nat) : Event :=
  ⟨.debug, "wrote embed source", [("target", target), ("entries", toString entries)]⟩

/-- Whether an event is let through when verbosity was asked for so many times. -/
def isLogged (verbosity : Nat) (e : Event) : Bool :=
  decide (e.level.rank ≤ (Level.ofVerbosity verbosity).rank)

/-- An event on one line, without the time. -/
def line (e : Event) : String :=
  " ".intercalate (e.level.name :: e.message :: e.fields.map fun f => f.1 ++ "=" ++ f.2) ++ "\n"

end Event

/-- How events are printed: the text of an event after so many other things that were told, which
stand for the time. -/
abbrev Format := Nat → Event → String

/-- Where nothing has been set up to print events. -/
def silent : Format := fun _ _ => ""

/-- Events on one line each. -/
def plain : Format := fun _ e => e.line

end ApiManifest.Log
