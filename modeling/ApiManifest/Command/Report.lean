import ApiManifest.Discovery.Failure
import ApiManifest.Embed.Target
import ApiManifest.Log
import ApiManifest.Manifest.Stored
import ApiManifest.Settings.File

/-!
What a run tells: a line for each thing that it finds, writes or compares, the events that it logs
between these lines, and the failure that ends it, if one does. A failure to read an embed source
back, which has just been written, is one that the files modelled here never bring about.
-/

set_option autoImplicit false

namespace ApiManifest.Command

/-- A line of the report. -/
inductive Line where
  | ignored (filename : String)
  | heading
  | module (e : Entry)
  | wrote (path checksum : String)
  | upToDate (path : String)
  | stale (path : String)
  deriving DecidableEq, Repr

namespace Line

def text : Line → String
  | ignored filename => "ignored file: " ++ filename
  | heading => "indexed modules:"
  | module e => "  " ++ e.name ++ " " ++ e.version ++ " " ++ e.path
  | wrote path checksum => "wrote " ++ path ++ " (sha256 " ++ checksum ++ ")"
  | upToDate path => "up to date: " ++ path
  | stale path => "stale: " ++ path

end Line

/-- Lines as they are printed, each with a line feed. -/
def printed (lines : List Line) : String := String.join (lines.map fun l => l.text ++ "\n")

/-- What a run tells on the way: a line of its report, or an event that is logged. -/
inductive Notice where
  | line (l : Line)
  | event (e : Log.Event)
  deriving DecidableEq, Repr

namespace Notice

def line? : Notice → Option Line
  | line l => some l
  | event _ => none

def event? : Notice → Option Log.Event
  | line _ => none
  | event e => some e

/-- The text of a notice after so many others. -/
def text (format : Log.Format) (n : Nat) : Notice → String
  | line l => l.text ++ "\n"
  | event e => format n e

end Notice

/-- Why a run fails. -/
inductive Failure where
  | settings (cause : Preferences.Failure)
  | package (cause : Embed.BadPackage)
  /-- A check of a source that is written to standard output and leaves no file. -/
  | nothingToCheck
  | discovery (cause : Discovery.Failure)
  | manifest (cause : Manifest.FileFailure)
  | create (path : String) (cause : Files.Refusal)
  | embed (cause : Embed.BadPackage)
  | readBack (path : String) (cause : Files.Refusal)
  | outOfDate (count : Nat)
  deriving DecidableEq, Repr

namespace Failure

def message : Failure → String
  | settings cause => cause.message
  | package cause => cause.message
  | nothingToCheck => "--check cannot compare an embed source written to stdout"
  | discovery cause => cause.message
  | manifest cause => "failed to write index: " ++ cause.message
  | embed cause => "failed to write embed source: " ++ cause.message
  | create path cause => "failed to create " ++ path ++ ": " ++ cause.message
  | readBack path cause => "failed to read back " ++ path ++ ": " ++ cause.message
  | outOfDate count => toString count ++ " artifact(s) out of date"

/-- The fault in a YAML text that lies behind a failure, if one does. -/
def yamlCause? : Failure → Option Yaml.Error
  | settings (.invalid _ cause) => some cause
  | discovery (.load (.parse _ cause)) => some cause
  | _ => none

end Failure

end ApiManifest.Command
