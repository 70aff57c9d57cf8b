import StackLisp.Text.Quoted

/-! The system functions known to the compiler. Compiled code names them by number. -/
namespace StackLisp

open Text (lit decimal decimalInt quote)

/-- The argument counts a system function takes; without `most` there is no upper bound. -/
structure Arity where
  least : Int
  most : Option Int
deriving DecidableEq, Repr

namespace Arity

def exactly (n : Int) : Arity := ⟨n, some n⟩

def atLeast (n : Int) : Arity := ⟨n, none⟩

def accepts (a : Arity) (argc : Int) : Bool :=
  a.least ≤ argc && a.most.all (argc ≤ ·)

def isFixed (a : Arity) : Bool := a.most = some a.least

def render (a : Arity) : Bytes :=
  match a.most with
  | none => decimalInt a.least ++ lit "+"
  | some m =>
    if a.least = m then decimalInt m else decimalInt a.least ++ lit "-" ++ decimalInt m

end Arity

/-- The operations the compiler itself knows the meaning of, and the others of the standard
table. -/
inductive Primitive where
  | add
  | sub
  | mul
  | div
  | floorDiv
  | rem
  | pow
  | eq
  | notEq
  | lt
  | gt
  | le
  | ge
  | not
  | identity
  | floor
  | ceiling
  | round
  | truncate
  | abs
  | min
  | max
  | list
  | first
  | tail
  | init
  | last
  | append
  | elt
  | concat
  | len
  | null
  | typeOf
  | format
  | print
  | println
deriving DecidableEq, Repr

namespace Primitive

/-- All primitives in the order of their numbers. -/
def all : List Primitive :=
  [add, sub, mul, div, floorDiv, rem, pow, eq, notEq, lt, gt, le, ge, not, identity, floor, ceiling,
    round, truncate, abs, min, max, list, first, tail, init, last, append, elt, concat, len, null,
    typeOf, format, print, println]

/-- The number that stands for a primitive in compiled code. -/
def number (p : Primitive) : Nat := all.idxOf p

def ofNumber? (n : Nat) : Option Primitive := all[n]?

def name : Primitive → String
  | add => "+"
  | sub => "-"
  | mul => "*"
  | div => "/"
  | floorDiv => "//"
  | rem => "rem"
  | pow => "^"
  | eq => "="
  | notEq => "/="
  | lt => "<"
  | gt => ">"
  | le => "<="
  | ge => ">="
  | not => "not"
  | identity => "id"
  | floor => "floor"
  | ceiling => "ceiling"
  | round => "round"
  | truncate => "truncate"
  | abs => "abs"
  | min => "min"
  | max => "max"
  | list => "list"
  | first => "first"
  | tail => "tail"
  | init => "init"
  | last => "last"
  | append => "append"
  | elt => "elt"
  | concat => "concat"
  | len => "len"
  | null => "null"
  | typeOf => "type-of"
  | format => "format"
  | print => "print"
  | println => "println"

def arity : Primitive → Arity
  | add | mul | list | concat | println => .atLeast 0
  | sub | div | floorDiv | eq | notEq | lt | gt | le | ge | min | max | format | print => .atLeast 1
  | rem | pow | append | elt => .exactly 2
  | not | identity | floor | ceiling | round | truncate | abs | first | tail | init | last | len
  | null | typeOf => .exactly 1

end Primitive

/-- A system function: its name in programs, its number in code and the arguments it takes. -/
structure Builtin where
  name : Bytes
  id : UInt8
  arity : Arity
deriving DecidableEq, Repr

namespace Builtin

/-- The meaning of a system function goes by its number, whatever its name. -/
def primitive? (b : Builtin) : Option Primitive := Primitive.ofNumber? b.id.toNat

def ofPrimitive (p : Primitive) : Builtin := ⟨lit p.name, p.number.toUInt8, p.arity⟩

end Builtin

/-- A table of system functions, in which no name and no number stands twice. -/
structure BuiltinTable where
  entries : List Builtin
  names_nodup : (entries.map Builtin.name).Nodup
  ids_nodup : (entries.map Builtin.id).Nodup

namespace BuiltinTable

def empty : BuiltinTable := ⟨[], .nil, .nil⟩

/-- Why an entry cannot be added to a table. -/
inductive Clash where
  | nameTwice (name : Bytes)
  | idTwice (id : UInt8) (first second : Bytes)
deriving DecidableEq, Repr

def Clash.message : Clash → Bytes
  | nameTwice name => lit "builtin " ++ quote name ++ lit " registered twice"
  | idTwice id first second =>
    lit "builtin id " ++ decimal id.toNat ++ lit " used by both " ++ quote first ++ lit " and "
      ++ quote second

def find? (t : BuiltinTable) (name : Bytes) : Option Builtin :=
  t.entries.find? fun b => b.name = name

def byId? (t : BuiltinTable) (id : UInt8) : Option Builtin :=
  t.entries.find? fun b => b.id = id

theorem nodup_concat {α β : Type} {f : α → β} {xs : List α} {x : α}
    (h : (xs.map f).Nodup) (hx : f x ∉ xs.map f) : ((xs ++ [x]).map f).Nodup := by
  rw [List.map_append, List.nodup_append]
  refine ⟨h, by simp, ?_⟩
  intro a ha b hb hab
  simp only [List.map_cons, List.map_nil, List.mem_singleton] at hb
  exact hx (hb ▸ hab ▸ ha)

def insert (t : BuiltinTable) (b : Builtin) : Except Clash BuiltinTable :=
  if hn : b.name ∈ t.entries.map Builtin.name then .error (.nameTwice b.name)
  else if hi : b.id ∈ t.entries.map Builtin.id then
    .error (.idTwice b.id (((t.byId? b.id).map Builtin.name).getD []) b.name)
  else .ok ⟨t.entries ++ [b], nodup_concat t.names_nodup hn, nodup_concat t.ids_nodup hi⟩

def ofList (bs : List Builtin) : Except Clash BuiltinTable := bs.foldlM insert empty

/-- The names in the order of their bytes. -/
def names (t : BuiltinTable) : List Bytes := Text.sort (t.entries.map Builtin.name)

def standard : BuiltinTable where
  entries := Primitive.all.map Builtin.ofPrimitive
  names_nodup := by decide +kernel
  ids_nodup := by decide +kernel

instance : Inhabited BuiltinTable := ⟨standard⟩

end BuiltinTable
end StackLisp
