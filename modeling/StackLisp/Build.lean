import StackLisp.Cache
import StackLisp.Compilation
import StackLisp.Program

/-! Building of units from source files. Each file sees what the files before it define. -/
namespace StackLisp

open Text (lit)

/-- How files are compiled, apart from their texts. -/
structure Settings where
  globals : List Bytes := []
  lateBinding : Bool := false
  depth : Int := 500
deriving DecidableEq, Repr

namespace Settings

/-- The settings that compiled code depends on, as texts. The order and the number of times in which
globals are given do not matter. -/
def toTexts (s : Settings) : List (Bytes × Bytes) :=
  [(lit "globals", Text.join (lit ",") (Text.dedupAdjacent (Text.sort s.globals))),
    (lit "late-binding", lit (if s.lateBinding then "true" else "false"))]

def readOptions (s : Settings) (f : SourceFile) : ReadOptions where
  filename := f.filename
  depth := s.depth

def compileOptions (s : Settings) (f : SourceFile) : CompileOptions where
  filename := f.filename
  source := f.text
  globals := s.globals
  lateBinding := s.lateBinding

end Settings

namespace Build

/-- Reads and compiles one file. -/
def file (s : Settings) (env : Environment) (f : SourceFile) :
    Except (List Diagnostic) Compilation := do
  let p := Program.read (s.readOptions f) f.text
  if !p.faults.isEmpty then throw (p.diagnostics (s.readOptions f) f.text)
  let options := s.compileOptions f
  (Compilation.compile options env p.forms).mapError fun r => [r.diagnostic options]

def unitFrom (s : Settings) (env : Environment) :
    List SourceFile → Except (List Diagnostic) CodeUnit
  | [] => .ok []
  | f :: rest => do
    let c ← file s env f
    let more ← unitFrom s c.env rest
    pure (c.images ++ more)

/-- Compiles files up to the first that fails. -/
def unit (s : Settings) (files : List SourceFile) : Except (List Diagnostic) CodeUnit :=
  unitFrom s .empty files

def checkFrom (s : Settings) (env : Environment) : List SourceFile → List Diagnostic
  | [] => []
  | f :: rest =>
    match file s env f with
    | .ok c => checkFrom s c.env rest
    | .error ds => ds ++ checkFrom s env rest

/-- The faults of all files. One that fails defines nothing for those behind it. -/
def check (s : Settings) (files : List SourceFile) : List Diagnostic := checkFrom s .empty files

/-- The key under which the unit of the files is stored. -/
def key (s : Settings) (files : List SourceFile) : Bytes := Cache.key files s.toTexts

/-- Why a unit was not built. -/
inductive Fault where
  | program (faults : List Diagnostic)
  | unwritable (fault : CodeUnit.WriteFault)
deriving DecidableEq, Repr

/-- Takes the unit from a cache, or compiles it and stores it there. An artifact that cannot be read
is replaced. -/
def cached (s : Settings) (files : List SourceFile) (label : Bytes) (stamp : Stamp) (c : Cache) :
    Except Fault (CodeUnit × Cache) :=
  match c.get (key s files) with
  | .ok (_, unit) => .ok (unit, c)
  | .error _ => do
    let u ← (unit s files).mapError .program
    let (c, _) ← (c.put (key s files) label u stamp).mapError .unwritable
    pure (u, c)

end Build
end StackLisp
