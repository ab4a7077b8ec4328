import ApiManifest.Embed.Source
import ApiManifest.Module.Header

/-!
The settings of a run. Each of them may be left open in the settings file and on the command line;
the command line goes before the file, and a default stands for what neither sets.
-/

set_option autoImplicit false

namespace ApiManifest

/-- Settings of which each may be left open. -/
structure Preferences where
  target : Option Embed.Target
  package : Option String
  extension : Option String
  deriving DecidableEq, Repr

/-- The settings of a run: how an embed source is written and the prefix of the extension fields. -/
structure Settings where
  embed : Embed.Options
  extension : String
  deriving DecidableEq, Repr

namespace Preferences

/-- Preferences that leave everything open. -/
def none : Preferences := ⟨.none, .none, .none⟩

/-- The first preferences, and what they leave open from the second. -/
def orElse (p q : Preferences) : Preferences :=
  ⟨p.target.or q.target, p.package.or q.package, p.extension.or q.extension⟩

/-- The settings with a default for what is left open. -/
def settle (p : Preferences) : Settings :=
  { embed := ⟨p.target.getD .go, p.package.getD Embed.defaultPackage⟩
    extension := p.extension.getD defaultExtensionPrefix }

end Preferences

end ApiManifest
