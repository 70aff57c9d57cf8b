import StackLisp.Expr

/-! Walks over expressions. -/
namespace StackLisp.Expr

inductive Kind where
  | literal
  | ident
  | call
  | cond
  | lambda
  | define
  | const
  | letIn
  | block
  | and
  | or
  | apply
deriving DecidableEq, Repr

def kind : Expr → Kind
  | literal _ _ => .literal
  | ident _ _ => .ident
  | call _ _ _ => .call
  | cond _ _ _ _ => .cond
  | lambda _ _ _ _ => .lambda
  | define _ _ _ => .define
  | const _ _ _ => .const
  | letIn _ _ _ => .letIn
  | block _ _ => .block
  | and _ _ => .and
  | or _ _ => .or
  | apply _ _ _ => .apply

mutual
/-- The expressions met on a walk from the root in source order; `enter` decides whether the parts
of an expression are visited. -/
def visited (enter : Kind → Bool) : Expr → List Expr
  | e@(literal _ _) | e@(ident _ _) => [e]
  | e@(call _ fn args) =>
    e :: if enter .call then visited enter fn ++ visitedAll enter args else []
  | e@(cond _ test yes none) =>
    e :: if enter .cond then visited enter test ++ visited enter yes else []
  | e@(cond _ test yes (some no)) =>
    e :: if enter .cond then visited enter test ++ visited enter yes ++ visited enter no else []
  | e@(lambda _ _ _ body) => e :: if enter .lambda then visitedAll enter body else []
  | e@(define _ _ value) => e :: if enter .define then visited enter value else []
  | e@(const _ _ value) => e :: if enter .const then visited enter value else []
  | e@(letIn _ bindings body) =>
    e :: if enter .letIn then visitedBindings enter bindings ++ visitedAll enter body else []
  | e@(block _ body) => e :: if enter .block then visitedAll enter body else []
  | e@(and _ operands) => e :: if enter .and then visitedAll enter operands else []
  | e@(or _ operands) => e :: if enter .or then visitedAll enter operands else []
  | e@(apply _ fn args) =>
    e :: if enter .apply then visited enter fn ++ visitedAll enter args else []
termination_by structural e => e

def visitedAll (enter : Kind → Bool) : List Expr → List Expr
  | [] => []
  | e :: es => visited enter e ++ visitedAll enter es
termination_by structural es => es

def visitedBindings (enter : Kind → Bool) : List (Binding Expr) → List Expr
  | [] => []
  | ⟨_, _, v⟩ :: bs => visited enter v ++ visitedBindings enter bs
termination_by structural bs => bs
end

end StackLisp.Expr
