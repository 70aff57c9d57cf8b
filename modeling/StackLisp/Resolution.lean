import StackLisp.Builtin
import StackLisp.Environment

/-! What a name refers to at one point of a program. -/
namespace StackLisp

open Text (lit)

/-- How forms are compiled: the file name to report, the text to quote in diagnostics, the names
the host defines, and the system functions. With late binding, a function body may use names that
are not defined yet. -/
structure CompileOptions where
  filename : Bytes := []
  source : Bytes := []
  globals : List Bytes := []
  lateBinding : Bool := false
  builtins : BuiltinTable := .standard

/-- A function whose body is being compiled: the name by which it may call itself, its number of
parameters, and the names visible in it with their slots, innermost first. -/
structure Frame where
  name : Bytes := []
  params : Nat := 0
  locals : List (Bytes × Nat) := []
deriving DecidableEq, Repr

namespace Frame

def slot? (f : Frame) (name : Bytes) : Option Nat := f.locals.lookup name

/-- Binds names to consecutive slots; of equal names the last one counts. -/
def bind (f : Frame) (slot : Nat) : List Bytes → Frame
  | [] => f
  | name :: rest => bind { f with locals := (name, slot) :: f.locals } (slot + 1) rest

/-- The frame of a function: parameters have the first slots, captured values the next. -/
def ofFunction (name : Bytes) (params captures : List Bytes) : Frame :=
  bind { name, params := params.length } 0 (params ++ captures)

end Frame

/-- A function as messages call it. -/
inductive Owner where
  | named (name : Bytes)
  | form
  | anonymous
deriving DecidableEq, Repr

/-- Everything that is known at one point of a program. `declared` gives, for the names that the
forms compiled together introduce, the number of their form, and `outer` are the frames around the
current one; the last is that of the form itself. -/
structure Context where
  options : CompileOptions
  env : Environment
  declared : List (Bytes × Nat) := []
  form : Nat := 0
  frame : Frame := {}
  outer : List Frame := []

inductive Resolution where
  | unbound
  | slot (index : Nat)
  | self
  | constant (value : Value)
  | builtin (b : Builtin)
  | global
deriving DecidableEq, Repr

namespace Resolution

inductive Kind where
  | unbound
  | slot
  | self
  | constant
  | builtin
  | global
deriving DecidableEq, Repr

def kind : Resolution → Kind
  | unbound => .unbound
  | slot _ => .slot
  | self => .self
  | constant _ => .constant
  | builtin _ => .builtin
  | global => .global

def Kind.ofNumber : Int → Kind
  | 1 => .slot
  | 2 => .self
  | 3 => .constant
  | 4 => .builtin
  | 5 => .global
  | _ => .unbound

def Kind.render : Kind → Bytes
  | unbound => lit "unbound"
  | slot => lit "local"
  | self => lit "self"
  | constant => lit "constant"
  | builtin => lit "builtin"
  | global => lit "global"

end Resolution

namespace Context

/-- Code of a form itself, outside all function bodies. -/
def isTopLevel (ctx : Context) : Bool := ctx.outer.isEmpty

def owner (ctx : Context) : Owner :=
  if ctx.frame.name ≠ [] then .named ctx.frame.name
  else if ctx.isTopLevel then .form
  else .anonymous

/-- Locals shadow the function's own name, which shadows top-level names, which shadow those of
the host, which shadow system functions. -/
def resolve (ctx : Context) (name : Bytes) : Resolution :=
  match ctx.frame.slot? name with
  | some slot => .slot slot
  | none =>
    if ctx.frame.name ≠ [] ∧ ctx.frame.name = name then .self
    else match ctx.env.find? name with
      | some (.constant v) => .constant v
      | some (.definition _) => .global
      | none =>
        if name ∈ ctx.options.globals then .global
        else match ctx.options.builtins.find? name with
          | some b => .builtin b
          | none => .unbound

/-- Inside a function body the name of the form being compiled is known, and with late binding
every name is. -/
def bindsLate (ctx : Context) (name : Bytes) : Bool :=
  !ctx.isTopLevel && (ctx.declared.lookup name == some ctx.form || ctx.options.lateBinding)

/-- The resolution of a name that is used; without one the name is unbound. -/
def lookup (ctx : Context) (name : Bytes) : Resolution :=
  match ctx.resolve name with
  | .unbound => if ctx.bindsLate name then .global else .unbound
  | r => r

/-- A form compiled together with this one introduces the name, but no earlier form does. -/
def isForward (ctx : Context) (name : Bytes) : Bool :=
  (ctx.declared.lookup name).any (ctx.form ≤ ·)

/-- All names in sight. -/
def visibleNames (ctx : Context) : List Bytes :=
  (ctx.frame :: ctx.outer).flatMap (fun f => f.name :: f.locals.map Prod.fst)
    ++ ctx.env.names ++ ctx.options.globals ++ ctx.options.builtins.names

def bind (ctx : Context) (slot : Nat) (names : List Bytes) : Context :=
  { ctx with frame := ctx.frame.bind slot names }

/-- The context of the body of a function that stands at this point. -/
def enter (ctx : Context) (name : Bytes) (params captures : List Bytes) : Context :=
  { ctx with frame := .ofFunction name params captures, outer := ctx.frame :: ctx.outer }

end Context
end StackLisp
