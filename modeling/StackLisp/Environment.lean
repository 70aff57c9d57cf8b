import StackLisp.Value

/-! The names that earlier top-level forms introduced. -/
namespace StackLisp

open Text (lit)

/-- What a top-level name stands for. The arity of a definition is the number of parameters of a
function, and negative when the definition is not known to be one. Constants are values of the
language. -/
inductive Symbol where
  | definition (arity : Int)
  | constant (value : Value)
deriving DecidableEq, Repr

namespace Symbol

inductive Kind where
  | definition
  | constant
deriving DecidableEq, Repr

def kind : Symbol → Kind
  | definition _ => .definition
  | constant _ => .constant

def Kind.ofNumber? : Int → Option Kind
  | 1 => some .definition
  | 2 => some .constant
  | _ => none

def Kind.render : Kind → Bytes
  | definition => lit "definition"
  | constant => lit "constant"

/-- The word for a kind given by its number. -/
def kindWord (n : Int) : Bytes := ((Kind.ofNumber? n).map Kind.render).getD (lit "unknown")

def arity : Symbol → Int
  | definition n => n
  | constant _ => -1

def value? : Symbol → Option Value
  | definition _ => none
  | constant v => some v

end Symbol

/-- Symbols in the order of their names. -/
structure Environment where
  symbols : List (Bytes × Symbol) := []
deriving DecidableEq, Repr

namespace Environment

def empty : Environment := {}

def find? (env : Environment) (name : Bytes) : Option Symbol :=
  env.symbols.lookup name

/-- Puts an entry at its place in an ordered list, in place of one with the same name. -/
def insertInto (name : Bytes) (s : Symbol) : List (Bytes × Symbol) → List (Bytes × Symbol)
  | [] => [(name, s)]
  | (n, t) :: rest =>
    if name = n then (name, s) :: rest
    else if name < n then (name, s) :: (n, t) :: rest
    else (n, t) :: insertInto name s rest

def insert (env : Environment) (name : Bytes) (s : Symbol) : Environment :=
  ⟨insertInto name s env.symbols⟩

def size (env : Environment) : Nat := env.symbols.length

def names (env : Environment) : List Bytes := env.symbols.map Prod.fst

end Environment
end StackLisp
