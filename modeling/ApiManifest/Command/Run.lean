import ApiManifest.Command.Arguments
import ApiManifest.Command.Report
import ApiManifest.Discovery.Log
import ApiManifest.Hash.Sha256

/-!
A run of the command. It first makes a plan, the settings and the modules found, without touching a
file. It then writes the octets that follow from them, the manifest before the embed source, or
compares their texts with the files that are there. What it reports goes to standard output, unless
the embed source goes there; what it logs always goes to standard error.
-/

set_option autoImplicit false

namespace ApiManifest.Command

open Files

namespace Arguments

/-- The directory of the manifest: the source directory unless another one is given. -/
def outputDirectory (a : Arguments) : String := a.output.getD a.directory

/-- Whether the embed source goes to standard output. -/
def embedsToStdout (a : Arguments) : Bool :=
  match a.embed with
  | some path => Path.components path == ["-"]
  | none => false

/-- The preferences on the command line. -/
def preferences (a : Arguments) : Preferences := ⟨a.target, a.package, a.extension⟩

/-- The settings, read from the settings file where the command line leaves them open. -/
def settings (d : Disk) (a : Arguments) : Except Preferences.Failure Settings :=
  match a.config with
  | none => .ok a.preferences.settle
  | some path => (Preferences.load d path).map fun file => (a.preferences.orElse file).settle

/-- Where the run looks for modules. -/
def search (a : Arguments) (s : Settings) : Search :=
  ⟨a.directory, a.outputDirectory, s.extension⟩

end Arguments

/-- A file with which a run compares: its path and the text that it should have. -/
structure Artifact where
  path : String
  text : String
  deriving DecidableEq, Repr

/-- Whether the file at the path of an artifact has its text, by their checksums. -/
def Artifact.isCurrent (d : Disk) (f : Artifact) : Bool :=
  match d.read f.path with
  | .ok contents => Hash.checksum contents == Hash.checksum (Text.octets f.text)
  | .error _ => false

/-- What a run goes by: its settings and what it has found. -/
structure Plan where
  settings : Settings
  found : Discovery

namespace Plan

/-- The lines on what has been found. -/
def lines (p : Plan) : List Line :=
  p.found.ignored.map .ignored ++ .heading :: p.found.manifest.modules.map .module

/-- What is told when a plan has been made: what has been found. -/
def notices (p : Plan) : List Notice := p.lines.map .line

/-- The octets of the manifest file. -/
def manifestOctets (p : Plan) : Octets := Text.octets p.found.manifest.render

/-- The octets of the embed source. -/
def embedOctets (p : Plan) : Except Embed.BadPackage Octets :=
  Embed.octets p.settings.embed p.found.manifest p.found.documents

/-- The text of the embed source. -/
def embedText (p : Plan) : Except Embed.BadPackage String :=
  Embed.render p.settings.embed p.found.manifest p.found.documents

/-- What is told when the manifest has been written. -/
def manifestNotices (a : Arguments) (p : Plan) : List Notice :=
  let path := Manifest.pathIn a.outputDirectory
  [.event (.wroteManifest path p.manifestOctets.length),
    .line (.wrote path (Hash.checksum p.manifestOctets))]

/-- What is logged when the embed source has been made. -/
def sourceEvent (p : Plan) : Log.Event :=
  .wroteSource p.settings.embed.target.name
    (Embed.payload p.found.manifest p.found.documents).length

end Plan

/-- Makes the plan of a run. -/
def plan (d : Disk) (a : Arguments) : Except Failure Plan := do
  let s ← (a.settings d).mapError .settings
  (s.embed.target.checkPackage s.embed.package).mapError .package
  if a.check && a.embedsToStdout then throw .nothingToCheck
  let found ← (discover d (a.search s)).mapError .discovery
  return ⟨s, found⟩

/-- What is logged while a plan is made, as far as that comes. -/
def planEvents (d : Disk) (a : Arguments) : List Log.Event :=
  match a.settings d with
  | .error _ => []
  | .ok s =>
    match s.embed.target.checkPackage s.embed.package with
    | .error _ => []
    | .ok () =>
      if a.check && a.embedsToStdout then []
      else .starting a.directory s.embed.target.name :: Discovery.events d (a.search s)

/-- What a run leaves: what it has told, the embed source that goes to standard output, the failure
that ended it, and the files. -/
structure Outcome where
  notices : List Notice
  source : Option String
  failure : Option Failure
  disk : Disk

namespace Outcome

/-- The lines of the report. -/
def lines (o : Outcome) : List Line := o.notices.filterMap Notice.line?

/-- What has been logged, whether it is let through or not. -/
def events (o : Outcome) : List Log.Event := o.notices.filterMap Notice.event?

/-- The outcome of a run that has logged something before. -/
def after (events : List Log.Event) (o : Outcome) : Outcome :=
  { o with notices := events.map .event ++ o.notices }

end Outcome

/-- Writes the embed source to its file and reads it back. -/
def writeEmbed (d : Disk) (told : List Notice) (path : String) (source : Octets)
    (written : Log.Event) : Outcome :=
  match d.write path source with
  | .error cause => ⟨told, none, some (.create path cause), d⟩
  | .ok d =>
    let told := told ++ [.event written]
    match d.read path with
    | .error cause => ⟨told, none, some (.readBack path cause), d⟩
    | .ok contents => ⟨told ++ [.line (.wrote path (Hash.checksum contents))], none, none, d⟩

/-- Writes the manifest, and the embed source after it if one is asked for. -/
def write (d : Disk) (a : Arguments) (p : Plan) : Outcome :=
  match d.write (Manifest.pathIn a.outputDirectory) p.manifestOctets with
  | .error cause => ⟨p.notices, none, some (.manifest (.system cause)), d⟩
  | .ok d =>
    let told := p.notices ++ p.manifestNotices a
    match a.embed with
    | none => ⟨told, none, none, d⟩
    | some path =>
      match p.embedOctets with
      | .error cause => ⟨told, none, some (.embed cause), d⟩
      | .ok source =>
        if a.embedsToStdout then
          ⟨told ++ [.event p.sourceEvent], some (Text.textLossy source), none, d⟩
        else writeEmbed d told path source p.sourceEvent

/-- The files with which a check compares, in the order in which they are written. -/
def expected (a : Arguments) (p : Plan) : Except Failure (List Artifact) := do
  let manifest : Artifact := ⟨Manifest.pathIn a.outputDirectory, p.found.manifest.render⟩
  match a.embed with
  | none => return [manifest]
  | some path => return [manifest, ⟨path, ← p.embedText.mapError .package⟩]

/-- Compares what a run would write with the files that are there. The embed source is made for it
as it is made to be written, and logged in the same way. -/
def check (d : Disk) (a : Arguments) (p : Plan) : Outcome :=
  match expected a p with
  | .error cause => ⟨p.notices, none, some cause, d⟩
  | .ok artifacts =>
    let made := a.embed.toList.map fun _ => Notice.event p.sourceEvent
    let lines := artifacts.map fun f =>
      Notice.line (if f.isCurrent d then .upToDate f.path else .stale f.path)
    let count := artifacts.countP fun f => !f.isCurrent d
    ⟨p.notices ++ made ++ lines, none, if count = 0 then none else some (.outOfDate count), d⟩

/-- Carries a command line out. -/
def run (d : Disk) (a : Arguments) : Outcome :=
  let outcome : Outcome := match plan d a with
    | .error cause => ⟨[], none, some cause, d⟩
    | .ok p => if a.check then check d a p else write d a p
  outcome.after (planEvents d a)

namespace Outcome

/-- The exit code. -/
def exit (o : Outcome) : Nat := if o.failure.isSome then 1 else 0

/-- What is printed to standard output: the embed source if it goes there, and else the report. -/
def stdout (a : Arguments) (o : Outcome) : String :=
  if a.embedsToStdout then o.source.getD "" else printed o.lines

/-- What is logged, as far as the verbosity lets it through. -/
def logged (a : Arguments) (o : Outcome) : List Log.Event :=
  o.events.filter (Log.Event.isLogged a.verbosity)

/-- Whether a notice goes to standard error: an event if the verbosity lets it through, and a line
of the report if it makes way for the embed source. -/
def toStderr (a : Arguments) : Notice → Bool
  | .line _ => a.embedsToStdout
  | .event e => e.isLogged a.verbosity

/-- What is printed to standard error: what goes there of what has been told, and the failure. -/
def stderr (a : Arguments) (o : Outcome) (format : Log.Format := Log.silent) : String :=
  String.join ((o.notices.filter (toStderr a)).mapIdx fun n notice => notice.text format n) ++
    match o.failure with
    | some cause => "error: " ++ cause.message ++ "\n"
    | none => ""

end Outcome

end ApiManifest.Command
