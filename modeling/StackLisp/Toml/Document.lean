import StackLisp.Toml.Read

/-! Documents: the tables that the statements of a text define, and the rules on defining a key
twice. -/
namespace StackLisp.Toml

abbrev Entries := List (Bytes × Value)

/-- A document under construction. `implicit` are the keys of tables that exist only because a
longer key went through them, and `arrays` tells of keys whether an array was written for them,
latest first. `context` is the table that statements currently add to, and `keys` are all keys
that were written. -/
structure Draft where
  root : Entries := []
  implicit : List Key := []
  arrays : List (Key × Bool) := []
  context : Key := []
  keys : List Key := []

/-- Building fails on a text that defines a key twice or uses a value as a table. -/
abbrev Build := StateT Draft Option

namespace Entries

/-- Sets a key, in its place if it is there. -/
def insert (k : Bytes) (v : Value) : Entries → Entries
  | [] => [(k, v)]
  | (l, w) :: rest => if l = k then (k, v) :: rest else (l, w) :: insert k v rest

/-- Applies a change to the table at a path; of several tables the last is meant. -/
def update (change : Entries → Option Entries) : Key → Entries → Option Entries
  | [], es => change es
  | k :: path, es =>
    match es.lookup k with
    | some (.table inner) => (update change path inner).map fun t => insert k (.table t) es
    | some (.tables ts) => do
      let last ← ts.getLast?
      let t ← update change path last
      some (insert k (.tables (ts.dropLast ++ [t])) es)
    | _ => none

/-- The table at a path. -/
def at? : Key → Entries → Option Entries
  | [], es => some es
  | k :: path, es =>
    match es.lookup k with
    | some (.table inner) => at? path inner
    | some (.tables ts) => ts.getLast?.bind (at? path)
    | _ => none

end Entries

namespace Build

def isImplicit (key : Key) : Build Bool := do pure (key ∈ (← get).implicit)

def addImplicit (key : Key) : Build Unit :=
  modify fun d => { d with implicit := key :: d.implicit.filter (· ≠ key) }

def removeImplicit (key : Key) : Build Unit :=
  modify fun d => { d with implicit := d.implicit.filter (· ≠ key) }

def isArray (key : Key) : Build Bool := do pure (((← get).arrays.lookup key).getD false)

/-- Records whether the value of a key of the current table is an array. -/
def setType (name : Bytes) (array : Bool) : Build Unit :=
  modify fun d =>
    let key := if name = [] then d.context else d.context ++ [name]
    { d with arrays := (if key = [] then [[]] else key, array) :: d.arrays }

def setContext (key : Key) : Build Unit := modify fun d => { d with context := key }

def addKey (key : Key) : Build Unit := modify fun d => { d with keys := d.keys ++ [key] }

/-- Replaces a key of the table at a path. -/
def replace (path : Key) (name : Bytes) (v : Value) : Build Unit := do
  let d ← get
  let root ← (Entries.update (fun es => some (Entries.insert name v es)) path d.root : Option _)
  set { d with root }

/-- Sets a key of the current table. A key that is there already must be an implicit table, which
is then defined, or an array that was filled table by table. -/
def setValue (name : Bytes) (v : Value) : Build Unit := do
  let d ← get
  let key := d.context ++ [name]
  let es ← (Entries.at? d.context d.root : Option _)
  if (es.lookup name).isNone then replace d.context name v
  else if ← isArray key then
    if !(← isImplicit key) then failure
    removeImplicit key
    replace d.context name v
  else if ← isImplicit key then removeImplicit key
  else failure

/-- Makes sure that the tables on the way to a key exist. -/
def addParents (done : Key) : Key → Build Unit
  | [] => pure ()
  | k :: path => do
    let here := done ++ [k]
    let d ← get
    let es ← (Entries.at? done d.root : Option _)
    match es.lookup k with
    | none =>
      addImplicit here
      replace done k (.table [])
    | some (.table _) => pure ()
    | some (.tables _) => pure ()
    | _ => failure
    addParents here path

/-- Adds a table to the array of tables at a key. -/
def addToArray (path : Key) (name : Bytes) : Build Unit := do
  let d ← get
  let es ← (Entries.at? path d.root : Option _)
  match es.lookup name with
  | none => replace path name (.tables [[]])
  | some (.tables ts) => replace path name (.tables (ts ++ [[]]))
  | _ => failure

/-- Makes the table of a key the current one: a new table, or the next table of an array. -/
def enter (key : Key) (array : Bool) : Build Unit := do
  let path := key.dropLast
  let name := key.getLastD []
  addParents [] path
  setContext path
  if array then addToArray path name else setValue name (.table [])
  setContext key

/-- Goes on into the tables that a dotted key names. -/
def enterDotted : Key → Build Unit
  | [] => pure ()
  | k :: rest => do
    let here := (← get).context ++ [k]
    addImplicit here
    enter here false
    enterDotted rest

/-- Adds a value under a dotted key to a table. -/
def insertDotted : Key → Bytes → Value → Entries → Option Entries
  | [], name, v, es => some (Entries.insert name v es)
  | k :: path, name, v, es =>
    match es.lookup k with
    | none => (insertDotted path name v []).map fun t => Entries.insert k (.table t) es
    | some (.table inner) =>
      (insertDotted path name v inner).map fun t => Entries.insert k (.table t) es
    | some _ => none

def isArrayValue : Written → Bool
  | .array _ => true
  | _ => false

mutual
/-- The value that is written for the key `name` of the current table. The pairs of an inline table
also count as written in the table they define. -/
def evaluate (name : Bytes) (inArray : Bool) : Written → Build Value
  | .string s => pure (.string s)
  | .integer i => pure (.integer i)
  | .float x => pure (.float x)
  | .bool b => pure (.bool b)
  | .datetime t => pure (.datetime t)
  | .array items => do
    setType name true
    let vs ← evaluateAll name items
    pure (.array vs)
  | .inline pairs => do
    let outer := (← get).context
    let key := outer ++ [name]
    addImplicit key
    enter key inArray
    let es ← evaluatePairs key [] pairs
    setContext outer
    pure (.table es)

def evaluateAll (name : Bytes) : List Written → Build (List Value)
  | [] => pure []
  | w :: rest => do
    let v ← evaluate name true w
    let vs ← evaluateAll name rest
    pure (v :: vs)

def evaluatePairs (table : Key) (es : Entries) : List (Key × Written) → Build Entries
  | [] => pure es
  | (key, w) :: rest => do
    let path := key.dropLast
    let name := key.getLastD []
    enterDotted path
    addKey ((← get).context ++ [name])
    let v ← evaluate name false w
    setValue name v
    setType name (isArrayValue w)
    let es ← (insertDotted path name v es : Option _)
    setContext table
    evaluatePairs table es rest
end

def statement : Statement → Build Unit
  | .table key => do
    enter key false
    setType [] false
    addKey key
  | .arrayTable key => do
    enter key true
    setType [] false
    addKey key
  | .assign key w => do
    let outer := (← get).context
    let name := key.getLastD []
    enterDotted key.dropLast
    addKey ((← get).context ++ [name])
    let v ← evaluate name false w
    setValue name v
    setType name (isArrayValue w)
    setContext outer

end Build

/-- What a text defines: its tables, and its keys in the order in which they are written. -/
structure Document where
  root : Entries
  keys : List Key

/-- The document of a text, or nothing if the text is malformed. -/
def Document.parse? (text : Bytes) : Option Document := do
  let statements ← read? text
  let ((), d) ← (statements.forM Build.statement).run {}
  some ⟨d.root, d.keys⟩

end StackLisp.Toml
