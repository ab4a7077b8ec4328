import ApiManifest.Files.Access

/-!
Making files and directories with all directories on the way to them, and removing them. What cannot
be made, because a file stands in the way, is left out.
-/

set_option autoImplicit false

namespace ApiManifest.Files

/-- A way through a tree: where it starts, and its steps. -/
structure Route where
  start : Location
  steps : List Step

namespace Disk

/-- The route of a path that is given as octets. -/
def route (d : Disk) (p : Octets) : Route :=
  ⟨if p.head? = some 47 then [] else d.cwd, (p.splitOn 47).filterMap stepOf⟩

/-- Where a route leads. -/
def follow (d : Disk) (r : Route) : Except Refusal Reached :=
  walk d.tree .look linkLimit r.start r.steps

/-- Makes the last directory of a route if only that one is missing. -/
def makeLast (d : Disk) (r : Route) : Disk :=
  match d.follow r with
  | .ok (.missing parent n) => { d with tree := d.tree.put parent n (.directory []) }
  | _ => d

/-- Makes the directories of a route. -/
def makeDirectories (d : Disk) (r : Route) : Disk :=
  (List.range (r.steps.length + 1)).foldl
    (fun d k => d.makeLast { r with steps := r.steps.take k }) d

/-- Makes the directories in which the end of a route stands. -/
def makeParents (d : Disk) (r : Route) : Disk :=
  d.makeDirectories { r with steps := r.steps.dropLast }

/-- Makes a file. A link at its place is followed. -/
def makeFile (d : Disk) (r : Route) (contents : Octets) : Disk :=
  let d := d.makeParents r
  match d.follow r with
  | .ok (.missing parent n) => { d with tree := d.tree.put parent n (.file contents) }
  | .ok (.found (n :: parent)) =>
    match d.tree.get? (n :: parent) with
    | some (.file _) => { d with tree := d.tree.put parent n (.file contents) }
    | _ => d
  | _ => d

/-- Puts a link at the end of a route. -/
def makeLink (d : Disk) (r : Route) (target : String) : Disk :=
  let d := d.makeParents r
  match d.follow { r with steps := r.steps.dropLast }, r.steps.getLast? with
  | .ok (.found parent), some (.name n) =>
    { d with tree := d.tree.put parent n (.link target) }
  | _, _ => d

/-- Takes away what stands at the end of a route. A link there is not followed. -/
def remove (d : Disk) (r : Route) : Disk :=
  match d.follow { r with steps := r.steps.dropLast }, r.steps.getLast? with
  | .ok (.found parent), some (.name n) => { d with tree := d.tree.remove parent n }
  | _, _ => d

end Disk

end ApiManifest.Files
