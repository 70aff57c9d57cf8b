import StackLisp.Command

/-! The program: commands run on the files of the computer. -/
namespace StackLisp.Program

open Text (lit)

def causeOf : IO.Error → FileCause
  | .noFileOrDirectory _ _ _ => .notFound
  | .alreadyExists _ _ _ => .alreadyThere
  | .inappropriateType _ _ _ => .notDirectory
  | e => .other (lit e.toString)

def attempt {α : Type} (action : IO α) : IO (Except FileCause α) := do
  try
    return .ok (← action)
  catch e => return .error (causeOf e)

def kindAt (path : String) : IO (Option FileKind) := do
  match ← attempt do return (← (← IO.FS.realPath path).metadata).type with
  | .ok .dir => return some .directory
  | .ok _ => return some .file
  | .error _ => return none

/-- The time at which a file made now is said to be modified. -/
def clock : IO Int := do
  let (_, path) ← IO.FS.createTempFile
  let time := (← path.metadata).modified
  IO.FS.removeFile path
  return time.sec * Command.nanosPerSecond + time.nsec.toNat

/-- A random number of 122 bits in groups of hexadecimal digits. -/
def randomId : IO Bytes := do
  let bytes := (← IO.getRandomBytes 16).data.toList
  let marked := bytes.mapIdx fun i b =>
    if i = 6 then b % 16 + 64 else if i = 8 then b % 64 + 128 else b
  let group (start size : Nat) : Bytes := Text.hex ((marked.drop start).take size)
  return Text.join (lit "-") [group 0 4, group 4 2, group 6 2, group 8 2, group 10 6]

instance : Host IO where
  workingDir := do return lit (← IO.currentDir).toString
  homeDir := do return lit ((← IO.getEnv "HOME").getD "/")
  input := do return (← (← IO.getStdin).readBinToEnd).data.toList
  now := clock
  newId := randomId
  kind? path := kindAt (Text.toString path)
  read path := do
    let name := Text.toString path
    if (← kindAt name) = some .directory then return .error .isDirectory
    attempt do return (← IO.FS.readBinFile name).data.toList
  write path data := do
    let name := Text.toString path
    if (← kindAt name) = some .directory then return .error .isDirectory
    attempt (IO.FS.writeBinFile name ⟨data.toArray⟩)
  makeDir path := attempt (IO.FS.createDir (Text.toString path))

/-- The flags that variables can stand in for. -/
def variableFlags : List Flag :=
  [.verbose, .noColor, .globals, .lateBinding, .maxDepth, .cache, .cachePath]

def readVariables : IO Variables :=
  variableFlags.filterMapM fun f => do
    let name := Variables.nameFor f
    return (← IO.getEnv (Text.toString name)).map fun value => (name, lit value)

def withoutEndNewlines (text : Bytes) : Bytes :=
  (text.reverse.dropWhile (· = Text.newline)).reverse

end StackLisp.Program

open StackLisp in
def main (args : List String) : IO UInt32 := do
  let stdout ← IO.getStdout
  let terminal ← stdout.isTty
  let vars ← Program.readVariables
  let args := args.map Text.lit
  match ← (Command.run vars terminal args : ExceptT Failure IO Bytes).run with
  | .ok text =>
    stdout.write ⟨text.toArray⟩
    return 0
  | .error failure =>
    let colored := Command.isColored vars terminal args
    let text := Program.withoutEndNewlines (failure.render colored) ++ Text.lit "\n"
    (← IO.getStderr).write ⟨text.toArray⟩
    return 1
