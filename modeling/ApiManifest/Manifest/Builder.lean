import ApiManifest.Manifest.Basic

/-!
Building a manifest together with the documents of its modules. Both always cover the same modules:
a module is refused, and nothing changes, when its file name or its name is taken.
-/

set_option autoImplicit false

namespace ApiManifest

/-- The documents of the modules by file name. -/
abbrev Documents := Dictionary Json

/-- Why a module is refused. -/
inductive Collision where
  /-- The file name is taken. -/
  | document (filename : String)
  /-- The name is taken. -/
  | module (name filename : String)
  deriving DecidableEq, Repr

namespace Collision

def message : Collision → String
  | document filename => "duplicate document " ++ filename
  | module name filename => "duplicate module \x60" ++ name ++ "\x60 (from " ++ filename ++ ")"

end Collision

/-- A manifest under construction: the entries, the last one first, their names, and the
documents. -/
structure Builder where
  entries : List Entry
  names : Dictionary Unit
  documents : Documents

/-- A module that is to be added: its file name, its document and its entry. -/
structure Push where
  filename : String
  document : Json
  entry : Entry

namespace Builder

def empty : Builder := ⟨[], [], []⟩

def size (b : Builder) : Nat := b.entries.length

/-- Adds a module to the builder in hand, or refuses it. A file name that is taken is told before a
name that is. -/
def offer (p : Push) : EStateM Collision Builder Unit := do
  if (← get).documents.has p.filename then throw (.document p.filename)
  if (← get).names.has p.entry.name then throw (.module p.entry.name p.filename)
  modify fun b => { b with names := b.names.insert p.entry.name () }
  modify fun b => { b with documents := b.documents.insert p.filename p.document }
  modify fun b => { b with entries := p.entry :: b.entries }

/-- Adds a module with its document to a builder that is of no use when the module is refused. -/
def push (b : Builder) (filename : String) (document : Json) (e : Entry) :
    Except Collision Builder :=
  match (offer ⟨filename, document, e⟩).run b with
  | .ok () next => .ok next
  | .error cause _ => .error cause

/-- The manifest of the modules in the order in which they were added, and their documents. -/
def build (b : Builder) : Manifest × Documents :=
  (.ofModules b.entries.reverse, b.documents)

end Builder

end ApiManifest
