import ApiManifest.Files.Access
import ApiManifest.Path.Relative

/-!
Paths of files by their texts alone. The dots of a path are folded from the working directory on,
without a look at the tree and without following a link. Names are compared as octets, and what is
not text in a name, which only the working directory can bring in, is shown as U+FFFD at the end.
-/

set_option autoImplicit false

namespace ApiManifest.Files.Disk

/-- Where a path leads by its text alone, seen from the working directory. -/
def lexical (d : Disk) (p : String) : Location := (steps p).foldl Step.move (startOf d.cwd p)

/-- The path of `target` as it is seen from the directory `base`. -/
def relative (d : Disk) (target base : String) : String :=
  Path.between Text.textLossy (d.lexical target).reverse (d.lexical base).reverse

end ApiManifest.Files.Disk
