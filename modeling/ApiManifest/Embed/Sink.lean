import ApiManifest.Embed.Source
import ApiManifest.Text.Utf8

/-!
Writing an embed source to a place that takes a limited number of octets. What fits is taken, also
of a piece that fits only in part; the piece that does not fit ends the writing.
-/

set_option autoImplicit false

namespace ApiManifest.Embed

/-- A place with room for some more octets. -/
structure Sink where
  room : Nat
  taken : List UInt8
  deriving DecidableEq, Repr

/-- An empty place with the given room. -/
def Sink.empty (room : Nat) : Sink := ⟨room, []⟩

/-- Writes octets to a place; the error is the place after what still fitted. -/
def Sink.write (s : Sink) (bytes : List UInt8) : Except Sink Sink :=
  if bytes.length ≤ s.room then .ok ⟨s.room - bytes.length, s.taken ++ bytes⟩
  else .error ⟨0, s.taken ++ bytes.take s.room⟩

/-- Why an embed source is not written. -/
inductive WriteFailure where
  /-- The package name is refused and nothing is written. -/
  | package (cause : BadPackage)
  /-- The place is full. -/
  | full
  deriving DecidableEq, Repr

def WriteFailure.message : WriteFailure → String
  | package cause => cause.message
  | full => "I/O error: sink full"

/-- Writes an embed source to a place: what becomes of the place, and the failure, if any. -/
def write (o : Options) (m : Manifest) (documents : Documents) (s : Sink) :
    Sink × Option WriteFailure :=
  match o.target.checkPackage o.package with
  | .error cause => (s, some (.package cause))
  | .ok () =>
    match (pieces o m documents).foldlM (fun s piece => s.write (Text.octets piece)) s with
    | .ok s => (s, none)
    | .error s => (s, some .full)

end ApiManifest.Embed
