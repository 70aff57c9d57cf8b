import StackLisp.Builtin.Manual
import StackLisp.Cache.Format
import StackLisp.Command.Input
import StackLisp.Time.Date

/-! The commands of the program. Each gives the text it prints, or the reason why it fails. -/
namespace StackLisp.Command

open Text (lit decimal decimalInt)

variable {m : Type → Type} [Monad m] [Host m]

/-- What a command runs with, besides the computer. -/
structure Session where
  preferences : Preferences
  operands : List Bytes
  /-- Whether listings are colored. -/
  colored : Bool

def Session.options (s : Session) : Options := s.preferences.options

inductive Format where
  | text
  | json
deriving DecidableEq, Repr

def format (o : Options) : Except Failure Format :=
  match o.format with
  | none => .ok .text
  | some given =>
    if given = lit "text" then .ok .text
    else if given = lit "json" then .ok .json
    else .error (.unknownFormat given)

def json (j : Json) : Bytes := j.render ++ lit "\n"

/-- A list that has no items is written as null. -/
def jsonList (items : List Json) : Bytes := json (if items.isEmpty then .null else .array items)

def fileAction {α : Type} (cause : FileFault → Failure) (action : ExceptT FileFault m α) :
    ExceptT Failure m α := do
  match ← action.run with
  | .ok a => pure a
  | .error fault => throw (cause fault)

/-! ### The cache -/

/-- The path that keeps a cache in memory. -/
def inMemory : Bytes := lit ":memory:"

/-- A path that starts with a tilde is seen from the home directory. -/
def expandHome (home path : Bytes) : Except Failure Bytes :=
  match path with
  | 126 :: rest =>
    if rest = [] ∨ rest.head? = some Path.slash ∨ rest.head? = some 92 then
      .ok (Path.join [home, rest])
    else .error .foreignHome
  | _ => .ok path

def cachePath (s : Session) : ExceptT Failure m Bytes := do
  let home ← Host.homeDir (m := m)
  let path := s.preferences.cachePath
  if path = [] then return Path.join [home, lit ".kestrel", lit "artifacts.db"]
  else expandHome home path

def saveCache (path : Bytes) (c : Cache) : ExceptT Failure m Unit := do
  if path ≠ inMemory then
    fileAction (fun _ => .cacheClosed) (Host.writeFile path c.toBytes)

/-- Opens the cache at a path. It is created if it is not there. -/
def openCache (path : Bytes) : ExceptT Failure m Cache := do
  if path = inMemory then return {}
  fileAction .cacheDirectory (Host.makeDirs (Path.parent path))
  match ← Host.kind? (m := m) path with
  | some .directory => throw .cacheClosed
  | some .file =>
    let data ← fileAction (fun _ => .cacheClosed) (Host.readFile path)
    match Cache.ofBytes? data with
    | some c => return c
    | none => throw .notCache
  | none =>
    saveCache path {}
    return {}

def nanosPerSecond : Int := 1000000000

def newStamp : m Stamp := do
  let id ← Host.newId
  let now ← Host.now
  return { id, time := now / nanosPerSecond }

/-! ### Compiling -/

/-- The unit of an input, taken from the cache if that is wanted. -/
def build (s : Session) (settings : Settings) (input : Input) : ExceptT Failure m CodeUnit := do
  let useCache := s.preferences.cache || (input.project.map Project.cache).getD false
  if useCache then
    let path ← cachePath s
    let c ← openCache path
    let stamp ← newStamp (m := m)
    match Build.cached settings input.files input.label stamp c with
    | .error fault => throw (.ofBuild fault)
    | .ok (unit, c) =>
      saveCache path c
      return unit
  else
    match Build.unit settings input.files with
    | .error faults => throw (.program faults)
    | .ok unit => return unit

def compile (s : Session) : ExceptT Failure m Bytes := do
  let input ← Input.read s.options s.operands
  let given := s.options.output.getD []
  let output := if given = [] then input.defaultOutput else given
  let unit ← build s (s.preferences.settings input.project) input
  match unit.toBytes with
  | .error fault => throw (.unwritable fault)
  | .ok data =>
    let dir := Path.parent output
    if dir ≠ Path.dot then fileAction .file (Host.makeDirs dir)
    fileAction .file (Host.writeFile output data)
    return lit "compiled " ++ decimal unit.length ++ lit " forms to " ++ output ++ lit "\n"

def check (s : Session) : ExceptT Failure m Bytes := do
  let input ← Input.read s.options s.operands
  match Build.check (s.preferences.settings input.project) input.files with
  | [] => return lit "ok: " ++ decimal input.files.length ++ lit " files\n"
  | faults => throw (.checked faults)

/-! ### Listings -/

/-- The unit to list: that of a single compiled file, or what the input compiles to. -/
def loadUnit (s : Session) : ExceptT Failure m CodeUnit := do
  match s.operands with
  | [path] =>
    if Path.extension path = lit ".kbc" then
      let data ← fileAction .file (Host.readFile path)
      match CodeUnit.ofBytes data with
      | .ok unit => return unit
      | .error fault => throw (.badUnit fault)
  | _ => pure ()
  let input ← Input.read s.options s.operands
  match Build.unit (s.preferences.settings input.project) input.files with
  | .ok unit => return unit
  | .error faults => throw (.program faults)

/-- Names the last listing, which is that of the form itself. -/
def nameLast (name : Bytes) : List Listing → List Listing
  | [] => []
  | [l] => [{ l with name }]
  | l :: rest => l :: nameLast name rest

/-- The listings of forms; one without a name is called by its number. -/
def listForms (number : Nat) : List Image → Except Listing.Fault (List Listing)
  | [] => .ok []
  | img :: rest => do
    let ls ← Listing.ofImage .standard img
    let anonymous := (img.root?.map Function.name).getD [] = []
    let named :=
      if anonymous then nameLast (lit "<form " ++ decimal number ++ lit ">") ls else ls
    let more ← listForms (number + 1) rest
    return named ++ more

def dis (s : Session) : ExceptT Failure m Bytes := do
  let format ← format s.options
  let unit ← loadUnit s
  let name := s.options.function.getD []
  let forms ←
    if name = [] then pure unit
    else match unit.findSome? (·.find? name) with
      | some img => pure [img]
      | none => throw (.unknownFunction name)
  match listForms 1 forms, format with
  | .error fault, _ => throw (.unlistable fault)
  | .ok ls, .json => return jsonList (ls.map Listing.toJson)
  | .ok ls, .text => return Listing.renderAll s.colored ls

/-! ### Tables -/

def builtinRow (b : Builtin) : List Bytes :=
  [b.name, decimal b.id.toNat, b.arity.render, (b.primitive?.map (lit ·.manual.doc)).getD []]

def builtinJson (b : Builtin) : Json :=
  let texts :=
    match b.primitive? with
    | some p => [(lit "doc", Json.string (lit p.manual.doc)),
        (lit "example", Json.string (lit p.manual.usage))]
    | none => []
  .object ([(lit "name", .string b.name), (lit "id", .int b.id.toNat),
    (lit "arity", .string b.arity.render)] ++ texts)

def builtins (o : Options) : Except Failure Bytes := do
  let format ← format o
  let table := BuiltinTable.standard
  let entries := table.names.filterMap table.find?
  match format with
  | .json => return jsonList (entries.map builtinJson)
  | .text =>
    return Table.render {
      header := [lit "NAME", lit "ID", lit "ARITY", lit "DESCRIPTION"]
      rows := entries.map builtinRow
      columns := [.left, .right, .left, .left] }

def artifactRow (a : Artifact) : List Bytes :=
  [a.stamp.id, a.label, decimal a.forms, decimal a.code.length, timeText a.stamp.time]

def artifactJson (a : Artifact) : Json :=
  .object [(lit "id", .string a.stamp.id), (lit "digest", .string a.digest),
    (lit "label", .string a.label), (lit "forms", .int a.forms), (lit "size", .int a.code.length),
    (lit "created_at", .string (timeText a.stamp.time))]

def cacheList (s : Session) : ExceptT Failure m Bytes := do
  let format ← format s.options
  let c ← openCache (← cachePath s)
  match format with
  | .json => return jsonList (c.list.map artifactJson)
  | .text =>
    return Table.render {
      header := [lit "ID", lit "LABEL", lit "FORMS", lit "SIZE", lit "CREATED"]
      rows := c.list.map artifactRow
      columns := [.left, .left, .right, .right, .left] }

/-- Thirty days. -/
def defaultAge : Int := 30 * 24 * 3600 * nanosPerSecond

def cachePrune (s : Session) : ExceptT Failure m Bytes := do
  let path ← cachePath s
  let c ← openCache path
  let now ← Host.now (m := m)
  let (c, n) := c.prune ((now - s.options.olderThan.getD defaultAge) / nanosPerSecond)
  saveCache path c
  return lit "removed " ++ decimal n ++ lit " artifacts\n"

/-! ### The program itself -/

def release : Bytes := lit "dev"

def unknown : Bytes := lit "unknown"

def version (o : Options) : Except Failure Bytes := do
  match ← format o with
  | .json =>
    return json (.object [(lit "bytecode", .int formatVersion), (lit "commit", .string unknown),
      (lit "date", .string unknown), (lit "version", .string release)])
  | .text =>
    return lit "kestrel " ++ release ++ lit " (commit " ++ unknown ++ lit ", built " ++ unknown
      ++ lit ", bytecode v" ++ decimalInt formatVersion ++ lit ")\n"

/-- A summary of the commands. -/
def usage : Bytes :=
  lit "Usage: kestrel [flags] command\n\nCommands:\n"
    ++ (Verb.root.children.flatMap fun (name, v) =>
      if v.children.isEmpty then lit "  " ++ name ++ lit "\n"
      else v.children.flatMap fun (sub, _) => lit "  " ++ name ++ lit " " ++ sub ++ lit "\n")

/-- Whether output is colored: on a terminal, unless that is turned off. -/
def isColored (vars : Variables) (terminal : Bool) (args : List Bytes) : Bool :=
  terminal && match Invocation.parse args with
    | .ok i => !({ options := i.options, vars } : Preferences).noColor
    | .error _ => true

/-- Runs the program with its arguments. -/
def run (vars : Variables) (terminal : Bool) (args : List Bytes) :
    ExceptT Failure m Bytes := do
  match Invocation.parse args with
  | .error fault => throw (.usage fault)
  | .ok i =>
    let s : Session :=
      { preferences := { options := i.options, vars }
        operands := i.operands
        colored := isColored vars terminal args }
    if i.wantsHelp then return usage
    match i.verb with
    | .compile => compile s
    | .dis => dis s
    | .check => check s
    | .builtins => builtins i.options
    | .cacheList => cacheList s
    | .cachePrune => cachePrune s
    | .version => version i.options
    | .root | .cache | .help => return lit "kestrel version " ++ release ++ lit "\n"

end StackLisp.Command
