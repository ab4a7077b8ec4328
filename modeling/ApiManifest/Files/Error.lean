/-!
Why the system refuses to work on a file.
-/

set_option autoImplicit false

namespace ApiManifest.Files

/-- Why the system refuses to work on a file. -/
inductive Refusal where
  | notFound
  | notDirectory
  | isDirectory
  | nameTooLong
  | tooManyLinks
  /-- A path with the character NUL, at which the system would end it. -/
  | nulInPath
  /-- A file that was to be read as text and is not text. -/
  | notText
  deriving DecidableEq, Repr

namespace Refusal

/-- The text of a refusal, with the number that the system gives it if it has one. -/
def message : Refusal → String
  | notFound => "No such file or directory (os error 2)"
  | notDirectory => "Not a directory (os error 20)"
  | isDirectory => "Is a directory (os error 21)"
  | nameTooLong => "File name too long (os error 36)"
  | tooManyLinks => "Too many levels of symbolic links (os error 40)"
  | nulInPath => "file name contained an unexpected NUL byte"
  | notText => "stream did not contain valid UTF-8"

end Refusal

end ApiManifest.Files
