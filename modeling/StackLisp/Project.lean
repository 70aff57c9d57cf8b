import StackLisp.Path
import StackLisp.Text.Quoted
import StackLisp.Toml.Document

/-! Project files: the sources of a program and how to compile them. -/
namespace StackLisp

open Text (lit)

/-- A project. The sources are compiled in order. -/
structure Project where
  name : Bytes := []
  version : Bytes := []
  files : List Bytes := []
  globals : List Bytes := []
  lateBinding : Bool := false
  maxDepth : Int := 0
  output : Bytes := []
  cache : Bool := false
  dir : Bytes := []
deriving DecidableEq, Repr

namespace Project

/-- The name of project files. -/
def fileName : Bytes := lit "kestrel.toml"

/-- Why a text is not a project file. -/
inductive Fault where
  | malformed
  | unknownKeys (keys : List Toml.Key)
  | noFiles
  | fileTwice (file : Bytes)
  | negativeDepth
deriving DecidableEq, Repr

def Fault.message : Fault → Bytes
  | malformed => lit "toml: malformed text"
  | unknownKeys keys => lit "unknown keys: " ++ Text.join (lit ", ") (keys.map Toml.renderKey)
  | noFiles => lit "source.files must list at least one file"
  | fileTwice file => lit "source file " ++ Text.quote file ++ lit " listed twice"
  | negativeDepth => lit "compiler.max-depth must not be negative"

/-- Two characters are the same but for their case. Two of the Latin letters have a third form. -/
def sameLetter (a b : Char) : Bool :=
  a.toLower == b.toLower || (b.toLower == 's' && a.toNat == 0x17F)
    || (b.toLower == 'k' && a.toNat == 0x212A)

def sameName (key : Bytes) (name : String) : Bool :=
  let cs := Text.chars key
  cs.length == name.length && (cs.zip name.toList).all fun (a, b) => sameLetter a b

inductive Section where
  | project
  | source
  | compiler
  | output
deriving DecidableEq, Repr

def Section.of? (key : Bytes) : Option Section :=
  if sameName key "project" then some .project
  else if sameName key "source" then some .source
  else if sameName key "compiler" then some .compiler
  else if sameName key "output" then some .output
  else none

/-- Sets a field of a section. A field of the wrong type is a fault; a key that is no field is
left to the check for unknown keys. -/
def setField (p : Project) (s : Section) (key : Bytes) (v : Toml.Value) : Option Project :=
  let text : Option Bytes := match v with | .string s => some s | _ => none
  let texts : Option (List Bytes) :=
    match v with
    | .array items => items.mapM fun i => match i with | .string s => some s | _ => none
    | _ => none
  let flag : Option Bool := match v with | .bool b => some b | _ => none
  let number : Option Int := match v with | .integer i => some i | _ => none
  match s with
  | .project =>
    if sameName key "name" then text.map fun t => { p with name := t }
    else if sameName key "version" then text.map fun t => { p with version := t }
    else some p
  | .source =>
    if sameName key "files" then texts.map fun ts => { p with files := ts } else some p
  | .compiler =>
    if sameName key "globals" then texts.map fun ts => { p with globals := ts }
    else if sameName key "late-binding" then flag.map fun b => { p with lateBinding := b }
    else if sameName key "max-depth" then number.map fun n => { p with maxDepth := n }
    else some p
  | .output =>
    if sameName key "path" then text.map fun t => { p with output := t }
    else if sameName key "cache" then flag.map fun b => { p with cache := b }
    else some p

def Section.hasField : Section → Bytes → Bool
  | project, key => sameName key "name" || sameName key "version"
  | source, key => sameName key "files"
  | compiler, key =>
    sameName key "globals" || sameName key "late-binding" || sameName key "max-depth"
  | output, key => sameName key "path" || sameName key "cache"

def isKnown : Toml.Key → Bool
  | [s] => (Section.of? s).isSome
  | [s, field] => (Section.of? s).any fun s => s.hasField field
  | _ => false

def setSection (p : Project) (key : Bytes) (v : Toml.Value) : Option Project :=
  match Section.of? key, v with
  | none, _ => some p
  | some s, .table es => es.foldlM (fun p (k, v) => setField p s k v) p
  | some _, _ => none

/-- The first file that names the same path as one before it. -/
def firstRepeated? (seen : List Bytes) : List Bytes → Option Bytes
  | [] => none
  | f :: rest =>
    if Path.clean f ∈ seen then some f else firstRepeated? (Path.clean f :: seen) rest

def validate (p : Project) : Except Fault Unit := do
  if p.files.isEmpty then throw .noFiles
  if let some f := firstRepeated? [] p.files then throw (.fileTwice f)
  if p.maxDepth < 0 then throw .negativeDepth

/-- Reads a project file. -/
def parse (text : Bytes) : Except Fault Project := do
  let some doc := Toml.Document.parse? text | throw .malformed
  let some p := doc.root.foldlM (fun p (k, v) => setSection p k v) {} | throw .malformed
  let unknown := doc.keys.filter fun k => !isKnown k
  if !unknown.isEmpty then throw (.unknownKeys unknown)
  p.validate
  pure p

/-- The project as found in a directory; without a path for the output, it is named after the
project or the directory. -/
def locate (p : Project) (dir : Bytes) : Project :=
  let name := if p.name = [] then Path.base dir else p.name
  { p with dir, output := if p.output = [] then name ++ lit ".kbc" else p.output }

def sourcePaths (p : Project) : List Bytes := p.files.map (Path.within p.dir)

def outputPath (p : Project) : Bytes := Path.within p.dir p.output

/-- The settings that compiled code depends on, as texts. -/
def settings (p : Project) : List (Bytes × Bytes) :=
  [(lit "globals", Text.join (lit ",") p.globals),
    (lit "late-binding", lit (if p.lateBinding then "true" else "false"))]

/-- How many of the compiler's options the project sets. -/
def optionCount (p : Project) : Nat :=
  (if p.globals.isEmpty then 0 else 1) + (if p.lateBinding then 1 else 0)

end Project
end StackLisp
