import ApiManifest.Path.Basic

/-!
The way from one directory to a file. Both are made absolute and their dots folded; what they share
at the start falls away, each name that is left of the directory becomes two dots, and the names
left of the file follow (`between`). Names are compared as they are, and shown only then, so that a
name need not be text.
-/

set_option autoImplicit false

namespace ApiManifest.Path

/-- What two lists have after the part that they share at the start. -/
def afterShared {α : Type} [DecidableEq α] : List α → List α → List α × List α
  | a :: as, b :: bs => if a = b then afterShared as bs else (a :: as, b :: bs)
  | as, bs => (as, bs)

/-- The way from a directory to a target, both told by their names from the root. -/
def between {α : Type} [DecidableEq α] (shown : α → String) (target base : List α) : String :=
  let (down, up) := afterShared target base
  let parts := up.map (fun _ => "..") ++ down.map shown
  if parts.isEmpty then "." else "/".intercalate parts

namespace Normal

/-- The text of a folded path. -/
def text (n : Normal) : String := (if n.absolute then "/" else "") ++ "/".intercalate n.names

/-- Whether two folded paths start in the same place. -/
def sharesStart (n m : Normal) : Bool :=
  match n.absolute, m.absolute with
  | true, true => true
  | false, false => n.names.head? == m.names.head? && n.names.head?.isSome
  | _, _ => false

end Normal

/-- The path of `target` as it is seen from the directory `base`, for a given working directory.
With nothing in common at the start there is no way, and the folded target stands for itself. -/
def relative (target base cwd : String) : String :=
  let target := normalise (absolute target cwd)
  let base := normalise (absolute base cwd)
  if !target.sharesStart base then target.text.map fun c => if c = '\\' then '/' else c
  else between id target.names base.names

end ApiManifest.Path
