import StackLisp.Expr

/-! Expressions as text. -/
namespace StackLisp.Expr

open Text (lit join)

/-- A parenthesised form; empty parts leave no trace. -/
def form (head : Bytes) (parts : List Bytes) : Bytes :=
  lit "(" ++ head
    ++ parts.flatMap (fun p => if p = [] then [] else lit " " ++ p) ++ lit ")"

def parenthesised (parts : List Bytes) : Bytes := lit "(" ++ join (lit " ") parts ++ lit ")"

mutual
/-- The text of an expression. A definition of a function of the same name is written short. -/
def render : Expr → Bytes
  | literal _ v => v.render
  | ident _ n => n
  | call _ fn args => form (render fn) [join (lit " ") (renderAll args)]
  | cond _ test yes none => form (lit "if") [render test, render yes]
  | cond _ test yes (some no) => form (lit "if") [render test, render yes, render no]
  | lambda _ _ params body =>
    form (lit "lambda") [parenthesised params, join (lit " ") (renderAll body)]
  | define _ n (lambda _ m params body) =>
    if m = n then form (lit "define") [parenthesised (n :: params), join (lit " ") (renderAll body)]
    else form (lit "define")
      [n, form (lit "lambda") [parenthesised params, join (lit " ") (renderAll body)]]
  | define _ n value => form (lit "define") [n, render value]
  | const _ n value => form (lit "const") [n, render value]
  | letIn _ bindings body =>
    form (lit "let") [parenthesised (renderBindings bindings), join (lit " ") (renderAll body)]
  | block _ body => form (lit "do") [join (lit " ") (renderAll body)]
  | and _ operands => form (lit "and") [join (lit " ") (renderAll operands)]
  | or _ operands => form (lit "or") [join (lit " ") (renderAll operands)]
  | apply _ fn args => form (lit "apply") [render fn, join (lit " ") (renderAll args)]
termination_by structural e => e

def renderAll : List Expr → List Bytes
  | [] => []
  | e :: es => render e :: renderAll es
termination_by structural es => es

def renderBindings : List (Binding Expr) → List Bytes
  | [] => []
  | ⟨n, _, v⟩ :: bs => (lit "(" ++ n ++ lit " " ++ render v ++ lit ")") :: renderBindings bs
termination_by structural bs => bs
end

end StackLisp.Expr
