import StackLisp.Command.Failure
import StackLisp.Command.Verb
import StackLisp.Text.Blank

/-! What a command works on: the source files, the project they belong to and the settings. -/
namespace StackLisp

open Text (lit)

/-- The variables of the environment. -/
abbrev Variables := List (Bytes × Bytes)

namespace Variables

/-- The variable that stands in for a flag. -/
def nameFor (f : Flag) : Bytes :=
  let letter (b : UInt8) : UInt8 := if b = 45 then 95 else if 97 ≤ b ∧ b ≤ 122 then b - 32 else b
  lit "KESTREL_" ++ f.name.map letter

/-- The value of the variable of a flag; an empty one counts as not set. -/
def get? (vs : Variables) (f : Flag) : Option Bytes := (vs.lookup (nameFor f)).filter (· ≠ [])

/-- A text that is no truth value is false. -/
def switch? (vs : Variables) (f : Flag) : Option Bool :=
  (vs.get? f).map fun text => (switchValue? text).getD false

/-- What stands before a point with nothing but zeros behind it, of a text read backwards. -/
def beforeZeros? (seen : Bool) : Bytes → Option Bytes
  | 46 :: rest => if seen then some rest.reverse else beforeZeros? seen rest
  | 48 :: rest => beforeZeros? true rest
  | _ => none

/-- A text that is no number is zero. -/
def number? (vs : Variables) (f : Flag) : Option Int :=
  (vs.get? f).map fun text =>
    ((Number.readBased ((beforeZeros? false text.reverse).getD text)).toOption).getD 0

/-- The words of a text. -/
def words (text : Bytes) : List Bytes :=
  let step (g : Text.Glyph) (ws : List Bytes) : List Bytes :=
    if Text.isBlank g.char then [] :: ws
    else match ws with
      | w :: rest => (g.bytes ++ w) :: rest
      | [] => [g.bytes]
  ((Text.glyphs text).foldr step [[]]).filter (· ≠ [])

def words? (vs : Variables) (f : Flag) : Option (List Bytes) := (vs.get? f).map words

end Variables

/-- Flags, and the variables that count where no flag is given. -/
structure Preferences where
  options : Options
  vars : Variables

namespace Preferences

/-- A single empty name is no name. -/
def globals (p : Preferences) : List Bytes :=
  match p.options.globals with
  | some names => if names = [[]] then [] else names
  | none => (p.vars.words? .globals).getD []

def lateBinding (p : Preferences) : Bool :=
  (p.options.lateBinding <|> p.vars.switch? .lateBinding).getD false

/-- Zero leaves the depth to the project. -/
def maxDepth (p : Preferences) : Int :=
  (p.options.maxDepth <|> p.vars.number? .maxDepth).getD 0

def cache (p : Preferences) : Bool :=
  (p.options.cache <|> p.vars.switch? .cache).getD false

def cachePath (p : Preferences) : Bytes :=
  (p.options.cachePath <|> p.vars.get? .cachePath).getD []

def noColor (p : Preferences) : Bool :=
  (p.options.noColor <|> p.vars.switch? .noColor).getD false

/-- The settings of a project with those of the command line. Globals add up, and late binding can
only be turned on. -/
def settings (p : Preferences) (project : Option Project) : Settings :=
  let own := project.getD {}
  let depth := if p.maxDepth = 0 then own.maxDepth else p.maxDepth
  { globals := own.globals ++ p.globals
    lateBinding := p.lateBinding || own.lateBinding
    depth := if depth = 0 then ({} : Settings).depth else depth }

end Preferences

/-- Source files, and the project that lists them if there is one. -/
structure Input where
  files : List SourceFile
  project : Option Project := none

namespace Input

variable {m : Type → Type} [Monad m] [Host m]

def readFiles (paths : List Bytes) : ExceptT Failure m (List SourceFile) :=
  paths.mapM fun path => do
    match ← (Host.readFile path : ExceptT FileFault m Bytes).run with
    | .ok text => pure { filename := path, text }
    | .error fault => throw (.file fault)

/-- Reads the project file of a directory. -/
def loadProject (dir : Bytes) : ExceptT Failure m Project := do
  let path := Path.join [dir, Project.fileName]
  match ← (Host.readFile path : ExceptT FileFault m Bytes).run with
  | .error fault => throw (.projectUnreadable path fault)
  | .ok text =>
    match Project.parse text with
    | .error fault => throw (.badProject path fault)
    | .ok project => return project.locate (Path.absolute (← Host.workingDir (m := m)) dir)

/-- The first of the directories that has a project file. -/
def findProject : List Bytes → ExceptT Failure m (Option Project)
  | [] => pure none
  | dir :: rest => do
    match ← Host.kind? (m := m) (Path.join [dir, Project.fileName]) with
    | some _ => some <$> loadProject dir
    | none => findProject rest

/-- How many places the input is to be taken from. -/
def count (o : Options) (operands : List Bytes) : Nat :=
  [o.code.isSome, o.stdin.getD false, !operands.isEmpty, o.project.getD [] ≠ []].count true

/-- Takes the input from the command line, from the text given to the program, from files, or from
the project of a directory. Without any of these, the project is the one that the working directory
belongs to. -/
def read (o : Options) (operands : List Bytes) : ExceptT Failure m Input := do
  if count o operands > 1 then throw .severalInputs
  if let some text := o.code then return { files := [⟨lit "<code>", text⟩] }
  if o.stdin.getD false then return { files := [⟨lit "<stdin>", ← Host.input (m := m)⟩] }
  if !operands.isEmpty then return { files := ← readFiles operands }
  let dir := o.project.getD []
  let found ←
    if dir ≠ [] then some <$> loadProject dir
    else findProject (Path.ancestors (← Host.workingDir (m := m)))
  match found with
  | none => throw .noInput
  | some project => return { files := ← readFiles project.sourcePaths, project := some project }

/-- Where the code is written unless told otherwise. -/
def defaultOutput (i : Input) : Bytes :=
  match i.project with
  | some project => project.outputPath
  | none =>
    let first := (i.files.head?.map SourceFile.filename).getD []
    if first.head? = some 60 then lit "out.kbc"
    else first.take (first.length - (Path.extension first).length) ++ lit ".kbc"

/-- The name under which a unit is listed. -/
def label (i : Input) : Bytes :=
  let name := (i.project.map Project.name).getD []
  if name = [] then Text.join (lit " ") (i.files.map SourceFile.filename) else name

end Input
end StackLisp
