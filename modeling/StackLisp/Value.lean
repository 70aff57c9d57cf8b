import StackLisp.Number.Decimal
import StackLisp.Text.Quoted

/-! The values known at compile time: literals, folded results and the entries of constant pools. -/
namespace StackLisp

/-- A value of different kinds is never the same value: the integer 1 is not the float 1.0, and
floats are told apart by their bits. -/
inductive Value where
  | unit
  | bool (b : Bool)
  | int (i : Int64)
  | float (x : Double)
  | string (s : Bytes)
  | char (c : Int32)
  | name (n : Bytes)
deriving DecidableEq, Repr

namespace Value

def typeName : Value → Bytes
  | unit => Text.lit "unit"
  | bool _ => Text.lit "bool"
  | int _ => Text.lit "integer"
  | float _ => Text.lit "float"
  | string _ => Text.lit "string"
  | char _ => Text.lit "char"
  | name _ => Text.lit "name"

def isNumber : Value → Bool
  | int _ | float _ => true
  | _ => false

/-- The characters that are written by name. -/
def characterNames : List (Bytes × Char) :=
  [(Text.lit "space", ' '), (Text.lit "newline", '\n'), (Text.lit "tab", '\t'),
    (Text.lit "return", '\r'), (Text.lit "nul", '\x00')]

def renderCharacter (c : Int32) : Bytes :=
  let spelled :=
    match characterNames.find? fun (_, d) => c.toInt = d.toNat with
    | some (word, _) => word
    | none => Text.encodeChar (Text.charOfInt c.toInt)
  Text.lit "#\\" ++ spelled

/-- The text of a value as it is written in a program. -/
def render : Value → Bytes
  | unit => Text.lit "()"
  | bool true => Text.lit "true"
  | bool false => Text.lit "false"
  | int i => Text.decimalInt i.toInt
  | float x => x.render
  | string s => Text.quote s
  | char c => renderCharacter c
  | name n => n

end Value
end StackLisp
