import StackLisp.Position
import StackLisp.Value

/-! Expressions: the forms of the language. -/
namespace StackLisp

/-- A name bound to a value, with the place of the name. -/
structure Binding (α : Type) where
  name : Bytes
  pos : Position
  value : α

inductive Expr where
  | literal (pos : Position) (value : Value)
  | ident (pos : Position) (name : Bytes)
  | call (pos : Position) (fn : Expr) (args : List Expr)
  | cond (pos : Position) (test yes : Expr) (no : Option Expr)
  /-- A function may call itself by its name, which is empty for anonymous ones. -/
  | lambda (pos : Position) (name : Bytes) (params : List Bytes) (body : List Expr)
  | define (pos : Position) (name : Bytes) (value : Expr)
  | const (pos : Position) (name : Bytes) (value : Expr)
  | letIn (pos : Position) (bindings : List (Binding Expr)) (body : List Expr)
  | block (pos : Position) (body : List Expr)
  | and (pos : Position) (operands : List Expr)
  | or (pos : Position) (operands : List Expr)
  /-- The last argument of an application is a list of further arguments. -/
  | apply (pos : Position) (fn : Expr) (args : List Expr)

namespace Expr

instance : Inhabited Expr := ⟨.block {} []⟩

def pos : Expr → Position
  | literal p _ | ident p _ | call p _ _ | cond p _ _ _ | lambda p _ _ _ | define p _ _
  | const p _ _ | letIn p _ _ | block p _ | and p _ | or p _ | apply p _ _ => p

/-- The direct parts of an expression, in source order. -/
def children : Expr → List Expr
  | literal _ _ | ident _ _ => []
  | call _ fn args | apply _ fn args => fn :: args
  | cond _ test yes no => test :: yes :: no.toList
  | lambda _ _ _ body | block _ body => body
  | define _ _ value | const _ _ value => [value]
  | letIn _ bindings body => bindings.map Binding.value ++ body
  | and _ operands | or _ operands => operands

end Expr
end StackLisp
