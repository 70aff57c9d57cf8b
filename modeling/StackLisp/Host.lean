import StackLisp.Path

/-! What commands need of the computer they run on: files, a clock and the text given to them. -/
namespace StackLisp

open Text (lit)

/-- Why an operation on a file is not possible. -/
inductive FileCause where
  | notFound
  | notDirectory
  | isDirectory
  | alreadyThere
  | nameTooLong
  | badName
  | other (text : Bytes)
deriving DecidableEq, Repr

def FileCause.message : FileCause → Bytes
  | notFound => lit "no such file or directory"
  | notDirectory => lit "not a directory"
  | isDirectory => lit "is a directory"
  | alreadyThere => lit "file exists"
  | nameTooLong => lit "file name too long"
  | badName => lit "invalid argument"
  | other text => text

inductive FileAction where
  | opening
  | reading
  | makingDirectory
deriving DecidableEq, Repr

def FileAction.word : FileAction → Bytes
  | opening => lit "open"
  | reading => lit "read"
  | makingDirectory => lit "mkdir"

/-- An action that failed. -/
structure FileFault where
  action : FileAction
  path : Bytes
  cause : FileCause
deriving DecidableEq, Repr

def FileFault.message (f : FileFault) : Bytes :=
  f.action.word ++ lit " " ++ f.path ++ lit ": " ++ f.cause.message

inductive FileKind where
  | file
  | directory
deriving DecidableEq, Repr

/-- The computer, for commands that run in `m`. Times are in nanoseconds since 1970. -/
class Host (m : Type → Type) where
  workingDir : m Bytes
  homeDir : m Bytes
  input : m Bytes
  now : m Int
  /-- A number that no other artifact has, as text. -/
  newId : m Bytes
  kind? (path : Bytes) : m (Option FileKind)
  read (path : Bytes) : m (Except FileCause Bytes)
  write (path data : Bytes) : m (Except FileCause Unit)
  makeDir (path : Bytes) : m (Except FileCause Unit)

namespace Host

variable {m : Type → Type} [Monad m] [Host m]

def readFile (path : Bytes) : ExceptT FileFault m Bytes := do
  match ← Host.read (m := m) path with
  | .ok data => pure data
  | .error .isDirectory => throw ⟨.reading, path, .isDirectory⟩
  | .error cause => throw ⟨.opening, path, cause⟩

def writeFile (path data : Bytes) : ExceptT FileFault m Unit := do
  match ← Host.write (m := m) path data with
  | .ok () => pure ()
  | .error cause => throw ⟨.opening, path, cause⟩

/-- Makes a directory and those it lies in, unless they are there. -/
def makeDirs (path : Bytes) : ExceptT FileFault m Unit := do
  match ← Host.kind? (m := m) path with
  | some .directory => pure ()
  | some .file => throw ⟨.makingDirectory, path, .notDirectory⟩
  | none =>
    if _h : Path.upTo path ≠ [] then makeDirs (Path.upTo path)
    match ← Host.makeDir (m := m) path with
    | .ok () => pure ()
    | .error cause =>
      if (← Host.kind? (m := m) path) = some .directory then pure ()
      else throw ⟨.makingDirectory, path, cause⟩
termination_by path.length
decreasing_by exact Path.length_upTo_lt _h

end Host
end StackLisp
