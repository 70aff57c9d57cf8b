import StackLisp.Expr

/-! Names that an expression uses without binding them. -/
namespace StackLisp.Expr

/-- Adds a name at the end unless it is there. -/
def addOnce (names : List Bytes) (name : Bytes) : List Bytes :=
  if name ∈ names then names else names ++ [name]

/-- The names bound inside a function: its parameters and its own name. -/
def boundBy (name : Bytes) (params : List Bytes) : List Bytes :=
  if name = [] then params else name :: params

mutual
/-- Extends `found` by the free names of an expression in the order of their first use. The values
of a `let` do not see its names. -/
def collectFree (bound : List Bytes) (found : List Bytes) : Expr → List Bytes
  | literal _ _ => found
  | ident _ n => if n ∈ bound then found else addOnce found n
  | call _ fn args | apply _ fn args => collectFreeAll bound (collectFree bound found fn) args
  | cond _ test yes none => collectFree bound (collectFree bound found test) yes
  | cond _ test yes (some no) =>
    collectFree bound (collectFree bound (collectFree bound found test) yes) no
  | lambda _ n params body => collectFreeAll (boundBy n params ++ bound) found body
  | define _ _ value | const _ _ value => collectFree bound found value
  | letIn _ bindings body =>
    collectFreeAll (bindings.map Binding.name ++ bound) (collectFreeValues bound found bindings) body
  | block _ body => collectFreeAll bound found body
  | and _ operands | or _ operands => collectFreeAll bound found operands
termination_by structural e => e

def collectFreeAll (bound : List Bytes) (found : List Bytes) : List Expr → List Bytes
  | [] => found
  | e :: es => collectFreeAll bound (collectFree bound found e) es
termination_by structural es => es

def collectFreeValues (bound : List Bytes) (found : List Bytes) :
    List (Binding Expr) → List Bytes
  | [] => found
  | ⟨_, _, v⟩ :: bs => collectFreeValues bound (collectFree bound found v) bs
termination_by structural bs => bs
end

/-- The free names of a function with the given name, parameters and body. -/
def freeNames (name : Bytes) (params : List Bytes) (body : List Expr) : List Bytes :=
  collectFreeAll (boundBy name params) [] body

end StackLisp.Expr
