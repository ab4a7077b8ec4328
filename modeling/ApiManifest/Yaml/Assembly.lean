import ApiManifest.Text.Utf8
import ApiManifest.Yaml.Node

/-!
From tokens to nodes. The collections that are open form a stack of frames, and every token moves
the innermost frame on. Three moves take no token: a node of which nothing is written is filled in,
a block sequence at the indentation of its mapping ends before the first token that is no dash, and
a value that no mark announces is filled in. `feed` makes the moves that a token calls for, in this
order, and then takes the token.
-/

set_option autoImplicit false

namespace ApiManifest.Yaml

/-- Where a frame stands among the parts of its collection. -/
inductive Place where
  /-- A part is complete; what separates or ends parts comes next. -/
  | separator
  /-- A part may start. -/
  | item
  /-- The node of a key comes next. -/
  | key
  /-- The key is complete; the mark of its value comes next. -/
  | colon (key : Node)
  /-- The node of the value of the key comes next. -/
  | value (key : Node)

/-- How a sequence is written. A loose one is a block sequence without an indentation of its own. -/
inductive SequenceForm where
  | block
  | loose
  | flow
  deriving DecidableEq

inductive MappingForm where
  | block
  | flow
  deriving DecidableEq

/-- An open collection: its properties, its parts, the last one first, and where it stands. -/
inductive Frame where
  | sequence (form : SequenceForm) (props : Properties) (items : List Node) (place : Place)
  | mapping (form : MappingForm) (props : Properties) (entries : List (Node × Node)) (place : Place)

/-- The handles of tags with the URIs that they stand for. -/
abbrev Handles := List (List Char × List UInt8)

/-- The handles that every document has. -/
def defaultHandles : Handles :=
  [(['!'], Text.encode ['!']), (['!', '!'], Text.octets "tag:yaml.org,2002:")]

/-- A document under assembly. `root` is set when its node is complete. -/
structure Assembly where
  handles : Handles
  stack : List Frame
  props : Properties
  root : Option Node
  anchors : Anchors
  anchored : List (Nat × Node)

namespace Assembly

/-- Before the first token of a document's node. -/
def start (handles : Handles) : Assembly :=
  { handles, stack := [], props := {}, root := none, anchors := {}, anchored := [] }

/-- Whether the node that comes next is in the middle of a block, and whether it may be a sequence
without an indentation of its own; `none` when no node comes next. -/
def expects (a : Assembly) : Option (Bool × Bool) :=
  match a.stack with
  | [] => if a.root.isNone then some (true, false) else none
  | .sequence .block _ _ .item :: _ => some (true, false)
  | .sequence .loose _ _ .item :: _ => some (true, false)
  | .sequence .flow _ _ place :: _ =>
    match place with
    | .item | .key | .value _ => some (false, false)
    | _ => none
  | .mapping .block _ _ place :: _ =>
    match place with
    | .key | .value _ => some (true, true)
    | _ => none
  | .mapping .flow _ _ place :: _ =>
    match place with
    | .item | .key | .value _ => some (false, false)
    | _ => none
  | _ => none

/-- Hands a complete node to the innermost frame. -/
def attach (n : Node) (a : Assembly) : Except Error Assembly :=
  match a.stack with
  | [] => if a.root.isNone then .ok { a with root := some n } else .error .unexpected
  | .sequence form p items place :: up =>
    match place with
    | .item => .ok { a with stack := .sequence form p (n :: items) .separator :: up }
    | .key => .ok { a with stack := .sequence form p items (.colon n) :: up }
    | .value k =>
      .ok { a with stack := .sequence form p (.mapping none [(k, n)] :: items) .separator :: up }
    | _ => .error .unexpected
  | .mapping form p entries place :: up =>
    match place with
    | .key => .ok { a with stack := .mapping form p entries (.colon n) :: up }
    | .value k => .ok { a with stack := .mapping form p ((k, n) :: entries) .separator :: up }
    | .item =>
      .ok { a with stack := .mapping form p ((n, .empty none) :: entries) .separator :: up }
    | _ => .error .unexpected

/-- Completes a node that has properties: it takes its anchor and goes to the innermost frame. -/
def complete (p : Properties) (n : Node) (a : Assembly) : Except Error Assembly :=
  let anchored := match p.anchor with
    | some serial => (serial, n) :: a.anchored
    | none => a.anchored
  attach n { a with anchored, props := {} }

/-- Whether a token shows that nothing is written of the node at the innermost place. -/
def endsEmpty (t : Token) (a : Assembly) : Bool :=
  match a.stack with
  | .sequence .block _ _ .item :: _ => t == .blockEntry || t == .blockEnd
  | .sequence .loose _ _ .item :: _ =>
    t == .blockEntry || t == .key || t == .value || t == .blockEnd
  | .sequence .flow _ _ (.value _) :: _ => t == .flowEntry || t == .flowSequenceEnd
  | .mapping .block _ _ .key :: _ | .mapping .block _ _ (.value _) :: _ =>
    t == .key || t == .value || t == .blockEnd
  | .mapping .flow _ _ .key :: _ => t == .value || t == .flowEntry || t == .flowMappingEnd
  | .mapping .flow _ _ (.value _) :: _ => t == .flowEntry || t == .flowMappingEnd
  | _ => false

/-- Whether a token goes on with a node that has properties already. -/
def continues (t : Token) (a : Assembly) : Bool :=
  match t with
  | .anchor _ => a.props.anchor.isNone
  | .tag .. => a.props.tag.isNone
  | .scalar .. | .flowSequenceStart | .flowMappingStart => true
  | .blockSequenceStart | .blockMappingStart => (a.expects.map Prod.fst).getD false
  | .blockEntry => (a.expects.map Prod.snd).getD false
  | _ => false

/-- Fills in a node of which nothing, or nothing but properties, is written. -/
def fillNode (t : Token) (a : Assembly) : Except Error Assembly :=
  if a.expects.isNone then .ok a
  else if a.props.isEmpty then
    if a.endsEmpty t then a.attach (.empty none) else .ok a
  else if a.continues t then .ok a
  else a.complete a.props (.empty a.props.tag)

/-- Ends a loose sequence before a token that is no dash. -/
def endLoose (t : Token) (a : Assembly) : Except Error Assembly :=
  match a.stack with
  | .sequence .loose p items .separator :: up =>
    if t == .blockEntry then .ok a
    else { a with stack := up }.complete p (.sequence p.tag items.reverse)
  | _ => .ok a

/-- Fills in the value of a key that no value mark follows. -/
def fillValue (t : Token) (a : Assembly) : Except Error Assembly :=
  if t == .value then .ok a
  else match a.stack with
    | .sequence .flow p items (.colon k) :: up =>
      .ok { a with stack := .sequence .flow p (.mapping none [(k, .empty none)] :: items) .separator
        :: up }
    | .mapping form p entries (.colon k) :: up =>
      .ok { a with stack := .mapping form p ((k, .empty none) :: entries) .separator :: up }
    | _ => .ok a

/-- The tag that a handle and a suffix stand for; an empty handle leaves the suffix as it is. -/
def resolveTag (handle : List Char) (suffix : List UInt8) (a : Assembly) : Except Error Tag :=
  if handle.isEmpty then .ok suffix
  else match a.handles.lookup handle with
    | some uri => .ok (uri ++ suffix)
    | none => .error .handle

def push (f : Frame) (a : Assembly) : Assembly := { a with stack := f :: a.stack, props := {} }

/-- Takes a token where a node comes next. -/
def takeNode (block loose : Bool) (t : Token) (a : Assembly) : Except Error Assembly :=
  match t with
  | .alias name =>
    match a.anchors.number? name with
    | some number => if a.props.isEmpty then a.attach (.alias number) else .error .unexpected
    | none => .error .unknownAlias
  | .anchor name =>
    let (serial, anchors) := a.anchors.declare name
    .ok { a with anchors, props := { a.props with anchor := some serial } }
  | .tag handle suffix => do
    let tag ← a.resolveTag handle suffix
    return { a with props := { a.props with tag := some tag } }
  | .scalar style text => a.complete a.props (.scalar a.props.tag style text)
  | .flowSequenceStart => .ok (a.push (.sequence .flow a.props [] .item))
  | .flowMappingStart => .ok (a.push (.mapping .flow a.props [] .item))
  | .blockSequenceStart =>
    if block then .ok (a.push (.sequence .block a.props [] .separator)) else .error .unexpected
  | .blockMappingStart =>
    if block then .ok (a.push (.mapping .block a.props [] .separator)) else .error .unexpected
  | .blockEntry =>
    if loose then .ok (a.push (.sequence .loose a.props [] .item)) else .error .unexpected
  | _ => .error .unexpected

/-- Takes a token: one that separates or ends the parts of the innermost frame, or starts a node. -/
def takeToken (t : Token) (a : Assembly) : Except Error Assembly :=
  match a.stack with
  | [] => if a.root.isNone then a.takeNode true false t else .error .unexpected
  | .sequence form p items place :: up =>
    let move (place : Place) := Except.ok { a with stack := .sequence form p items place :: up }
    let close := { a with stack := up }.complete p (.sequence p.tag items.reverse)
    match form, place, t with
    | .flow, .separator, .flowEntry => move .item
    | .flow, .separator, .flowSequenceEnd | .flow, .item, .flowSequenceEnd => close
    | .flow, .item, .key => move .key
    | .flow, .key, .value | .flow, .key, .flowEntry | .flow, .key, .flowSequenceEnd =>
      move (.colon (.empty none))
    | .flow, .colon k, .value => move (.value k)
    | .flow, .item, t | .flow, .key, t | .flow, .value _, t => a.takeNode false false t
    | .block, .separator, .blockEntry | .loose, .separator, .blockEntry => move .item
    | .block, .separator, .blockEnd => close
    | .block, .item, t | .loose, .item, t => a.takeNode true false t
    | _, _, _ => .error .unexpected
  | .mapping form p entries place :: up =>
    let move (place : Place) := Except.ok { a with stack := .mapping form p entries place :: up }
    let close := { a with stack := up }.complete p (.mapping p.tag entries.reverse)
    match form, place, t with
    | .block, .separator, .key => move .key
    | .block, .separator, .blockEnd => close
    | .flow, .separator, .flowEntry => move .item
    | .flow, .separator, .flowMappingEnd | .flow, .item, .flowMappingEnd => close
    | .flow, .item, .key => move .key
    | _, .colon k, .value => move (.value k)
    | .block, .key, t | .block, .value _, t => a.takeNode true true t
    | .flow, .item, t | .flow, .key, t | .flow, .value _, t => a.takeNode false false t
    | _, _, _ => .error .unexpected

/-- Moves on over one token once the node before it is filled in. -/
def advance (t : Token) (a : Assembly) : Except Error Assembly := do
  let a ← a.endLoose t
  let a ← a.fillValue t
  a.takeToken t

/-- Assembles the node that the tokens start with, and gives the tokens after it. -/
def run (a : Assembly) : List Token → Except Error (Assembly × List Token)
  | [] => .error .unexpected
  | t :: rest =>
    match a.fillNode t with
    | .error e => .error e
    | .ok a =>
      if a.root.isSome then .ok (a, t :: rest)
      else match a.advance t with
        | .error e => .error e
        | .ok a => if a.root.isSome then .ok (a, rest) else run a rest

end Assembly

/-- Reads the directives at the head of the tokens. A document names its version at most once and
every handle at most once. -/
def directives (versioned : Bool) (handles : Handles) :
    List Token → Except Error (Bool × Handles × List Token)
  | .version major minor :: rest =>
    if versioned then .error .directive
    else if major = 1 ∧ (minor = 1 ∨ minor = 2) then directives true handles rest
    else .error .version
  | .tagDirective handle uri :: rest =>
    if (handles.lookup handle).isSome then .error .directive
    else directives versioned ((handle, uri) :: handles) rest
  | rest => .ok (versioned || !handles.isEmpty, handles, rest)

/-- Whether a token shows that nothing is written of the root of a document. -/
def endsDocument : Token → Bool
  | .version .. | .tagDirective .. | .documentStart | .documentEnd | .streamEnd => true
  | _ => false

/-- Nothing may follow a document but the marks of its end. -/
def streamEnds : List Token → Bool
  | .documentEnd :: rest => streamEnds rest
  | [.streamEnd] => true
  | _ => false

/-- The one document of a stream of tokens; a stream may have none. -/
def Document.ofTokens (tokens : List Token) : Except Error (Option Document) := do
  let (directed, handles, tokens) ← directives false [] tokens
  let a := Assembly.start (handles ++ defaultHandles)
  let finish (a : Assembly) (rest : List Token) : Except Error (Option Document) :=
    match a.root with
    | some root =>
      if streamEnds rest then .ok (some ⟨root, a.anchors, a.anchored⟩) else .error .secondDocument
    | none => .error .unexpected
  match directed, tokens with
  | _, .documentStart :: rest =>
    if (rest.head?.map endsDocument).getD false then
      finish { a with root := some (.empty none) } rest
    else
      let (a, rest) ← a.run rest
      finish a rest
  | true, _ => throw .unexpected
  | false, [.streamEnd] => return none
  | false, rest =>
    let (a, rest) ← a.run rest
    finish a rest

end ApiManifest.Yaml
