import StackLisp.Builtin.Folding
import StackLisp.Expr
import StackLisp.Resolution

/-! Expressions whose value is known at compile time. -/
namespace StackLisp.Expr

mutual
/-- The value of an expression: of literals, names of constants, conditionals whose condition has
a truth value, and calls of system functions on such expressions. -/
def fold? (ctx : Context) : Expr → Option Value
  | literal _ v => some v
  | ident _ n =>
    match ctx.resolve n with
    | .constant v => some v
    | _ => none
  | cond _ test yes none =>
    match fold? ctx test with
    | some (.bool true) => fold? ctx yes
    | some (.bool false) => some .unit
    | _ => none
  | cond _ test yes (some no) =>
    match fold? ctx test with
    | some (.bool true) => fold? ctx yes
    | some (.bool false) => fold? ctx no
    | _ => none
  | call _ (ident _ n) args =>
    match ctx.resolve n with
    | .builtin b =>
      if b.arity.accepts args.length then
        match b.primitive?, foldAll? ctx args with
        | some p, some vs => p.fold? vs
        | _, _ => none
      else none
    | _ => none
  | _ => none
termination_by structural e => e

def foldAll? (ctx : Context) : List Expr → Option (List Value)
  | [] => some []
  | e :: es =>
    match fold? ctx e with
    | none => none
    | some v => (foldAll? ctx es).map (v :: ·)
termination_by structural es => es
end

end StackLisp.Expr
