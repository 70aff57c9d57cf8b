import StackLisp.Instruction
import StackLisp.Value

/-! Compiled functions. -/
namespace StackLisp

open Text (lit decimalInt)

/-- The place in the source of the instructions from an offset on. -/
structure SourceLocation where
  offset : Int
  line : Int
  column : Int
deriving DecidableEq, Repr

namespace SourceLocation

def render (l : SourceLocation) : Bytes := decimalInt l.line ++ lit ":" ++ decimalInt l.column

def isUnset (l : SourceLocation) : Bool := l.line = 0 && l.column = 0

end SourceLocation

/-- An entry of a constant pool. A function is named by its place in the image that holds it; a
host may also put in a value the compiler knows nothing about. -/
inductive Constant where
  | value (v : Value)
  | function (index : Nat)
  | foreign
deriving DecidableEq, Repr

/-- A function read from an image may lack code, which is not the same as having no instructions. -/
structure Function where
  name : Bytes := []
  params : Int := 0
  captures : Int := 0
  constants : List Constant := []
  code : Option Bytes := none
  locals : List Bytes := []
  filename : Bytes := []
  locations : List SourceLocation := []
deriving DecidableEq, Repr

namespace Function

/-- Puts the locations in the order of their offsets, those of one offset as given. -/
def normalize (f : Function) : Function :=
  { f with locations := f.locations.mergeSort fun a b => a.offset ≤ b.offset }

def bytes (f : Function) : Bytes := f.code.getD []

def isClosure (f : Function) : Bool := f.captures > 0

/-- The location of the last entry that starts at or before an offset. -/
def locationFor (f : Function) (offset : Int) : Option SourceLocation :=
  (f.locations.takeWhile fun l => l.offset ≤ offset).getLast?

/-- The name of a slot; empty when it has none. -/
def localName (f : Function) (slot : Int) : Bytes :=
  if slot < 0 then [] else f.locals[slot.toNat]?.getD []

/-- The functions named in the pool, in pool order. -/
def references (f : Function) : List Nat :=
  f.constants.filterMap fun
    | .function i => some i
    | _ => none

def render (f : Function) : Bytes :=
  lit "#<function" ++ (if f.name = [] then [] else lit " " ++ f.name)
    ++ lit "/" ++ decimalInt f.params
    ++ (if f.isClosure then lit " closure:" ++ decimalInt f.captures else []) ++ lit ">"

def typeName : Bytes := lit "function"

end Function
end StackLisp
