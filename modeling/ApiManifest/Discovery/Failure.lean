import ApiManifest.Files.Error
import ApiManifest.Manifest.Builder
import ApiManifest.Yaml.Error

/-!
Why the modules of a directory cannot be told. Any one of these ends the search; files that are no
module's document are none of them.
-/

set_option autoImplicit false

namespace ApiManifest.Discovery

open Files

/-- Why a document cannot be loaded from its file. -/
inductive LoadFailure where
  | read (path : String) (cause : Refusal)
  | parse (path : String) (cause : Yaml.Error)
  deriving DecidableEq, Repr

/-- Why a document cannot become a module. -/
inductive ModuleFailure where
  | missing (field : RequiredField)
  | collision (cause : Collision)
  deriving DecidableEq, Repr

/-- Why a search for modules ends without a result. -/
inductive Failure where
  | list (path : String) (cause : Refusal)
  | load (cause : LoadFailure)
  | invalid (path : String) (cause : ModuleFailure)
  deriving DecidableEq, Repr

/-- A path between single quotes. -/
def inQuotes (path : String) : String := "'" ++ path ++ "'"

def LoadFailure.message : LoadFailure → String
  | read path cause => "failed to read " ++ inQuotes path ++ ": " ++ cause.message
  | parse path cause => "failed to parse " ++ inQuotes path ++ ": " ++ cause.message

def ModuleFailure.message : ModuleFailure → String
  | missing field => field.missingMessage
  | collision cause => cause.message

def Failure.message : Failure → String
  | list path cause => "failed to read directory " ++ inQuotes path ++ ": " ++ cause.message
  | load cause => cause.message
  | invalid path cause => "invalid module document " ++ inQuotes path ++ ": " ++ cause.message

end ApiManifest.Discovery
