import StackLisp.Host

/-! A host whose files are held in memory, so that what a command does to it is a function of its
content. -/
namespace StackLisp

/-- A place in a tree of files: the names on the way to it, the last one first. -/
abbrev Location := List Bytes

inductive Node where
  | file (data : Bytes)
  | directory
deriving DecidableEq, Repr

def Node.kind : Node → FileKind
  | file _ => .file
  | directory => .directory

/-- A tree of files. The root is a directory. -/
structure Disk where
  nodes : List (Location × Node) := []
deriving DecidableEq, Repr

namespace Disk

def node? (d : Disk) : Location → Option Node
  | [] => some .directory
  | place => d.nodes.lookup place

def isDirectory (d : Disk) (place : Location) : Bool := d.node? place == some .directory

def set (d : Disk) (place : Location) (n : Node) : Disk :=
  ⟨(place, n) :: d.nodes.filter (·.1 ≠ place)⟩

/-- The longest names of a file and of a path. -/
def longestName : Nat := 255
def longestPath : Nat := 4095

/-- Follows names from a place. Only directories can be passed through. -/
def follow (d : Disk) (place : Location) : List Bytes → Except FileCause Location
  | [] => .ok place
  | name :: rest =>
    if !d.isDirectory place then .error .notDirectory
    else if name = [] ∨ name = Path.dot then follow d place rest
    else if name = Path.dotDot then follow d place.tail rest
    else if name.length > longestName then .error .nameTooLong
    else if (d.node? (name :: place)).isNone then .error .notFound
    else follow d (name :: place) rest

/-- What can be said of a path by its text alone. -/
def checkPath (path : Bytes) : Except FileCause Unit := do
  if 0 ∈ path then throw .badName
  if path = [] then throw .notFound
  if path.length > longestPath then throw .nameTooLong

/-- The place a path names, seen from a working directory. -/
def locate (d : Disk) (cwd path : Bytes) : Except FileCause Location := do
  checkPath path
  let start ← if Path.isAbsolute path then pure [] else d.follow [] (Text.split Path.slash cwd)
  d.follow start (Text.split Path.slash path)

/-- The directory of the last part of a path, and that part; nothing for the root. -/
def locateLast (d : Disk) (cwd path : Bytes) : Except FileCause (Option (Location × Bytes)) := do
  checkPath path
  let trimmed := Path.withoutEndSlashes path
  if trimmed = [] then return none
  let stem := Path.throughSlash trimmed
  let place ← d.locate cwd (if stem = [] then Path.dot else stem)
  if !d.isDirectory place then throw .notDirectory
  return some (place, Path.afterSlash trimmed)

def isStep (name : Bytes) : Bool := name = Path.dot || name = Path.dotDot

def read (d : Disk) (cwd path : Bytes) : Except FileCause Bytes := do
  match d.node? (← d.locate cwd path) with
  | some (.file data) => pure data
  | some .directory => throw .isDirectory
  | none => throw .notFound

/-- Writes a file, in place of one that is there. -/
def write (d : Disk) (cwd path data : Bytes) : Except FileCause Disk := do
  let some (place, name) ← d.locateLast cwd path | throw .isDirectory
  if path.getLast? = some Path.slash ∨ isStep name then throw .isDirectory
  if name.length > longestName then throw .nameTooLong
  if d.isDirectory (name :: place) then throw .isDirectory
  pure (d.set (name :: place) (.file data))

def makeDir (d : Disk) (cwd path : Bytes) : Except FileCause Disk := do
  let some (place, name) ← d.locateLast cwd path | throw .alreadyThere
  if isStep name then throw .alreadyThere
  if name.length > longestName then throw .nameTooLong
  if (d.node? (name :: place)).isSome then throw .alreadyThere
  pure (d.set (name :: place) .directory)

/-- The path of a place. -/
def pathOf (place : Location) : Bytes := Path.slash :: Text.join [Path.slash] place.reverse

/-- The files with their paths, sorted by path. -/
def files (d : Disk) : List (Bytes × Bytes) :=
  let found := d.nodes.filterMap fun (place, n) =>
    match n with
    | .file data => some (pathOf place, data)
    | .directory => none
  found.mergeSort fun a b => a.1 ≤ b.1

end Disk

/-- A computer whose clock stands still. All artifacts get the same number. -/
structure Machine where
  disk : Disk := {}
  workingDir : Bytes := [Path.slash]
  homeDir : Bytes := [Path.slash]
  input : Bytes := []
  now : Int := 0
  id : Bytes := []
deriving DecidableEq, Repr

namespace Machine

/-- Keeps a new content of the disk. -/
def store (change : Disk → Bytes → Except FileCause Disk) : StateM Machine (Except FileCause Unit) :=
  fun machine =>
    match change machine.disk machine.workingDir with
    | .ok disk => (.ok (), { machine with disk })
    | .error cause => (.error cause, machine)

instance : Host (StateM Machine) where
  workingDir := do return (← get).workingDir
  homeDir := do return (← get).homeDir
  input := do return (← get).input
  now := do return (← get).now
  newId := do return (← get).id
  kind? path := do
    let machine ← get
    match machine.disk.locate machine.workingDir path with
    | .ok place => return (machine.disk.node? place).map Node.kind
    | .error _ => return none
  read path := do
    let machine ← get
    return machine.disk.read machine.workingDir path
  write path data := store fun d cwd => d.write cwd path data
  makeDir path := store fun d cwd => d.makeDir cwd path

end Machine
end StackLisp
