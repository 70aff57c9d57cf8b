import StackLisp.Compilation
import StackLisp.Proofs.Evaluation
import StackLisp.Proofs.References

/-! Lexical scoping. The reads of a program are the variables that it uses, found by going outward
from each use; the reads of an image are those that its code loads, traced through captures. -/
namespace StackLisp

open Evaluation (Scope visible callee rewriting?)

/-- Where a function keeps a variable: as a parameter, or on its stack above the parameters and the
captured values. -/
inductive Place where
  | parameter (i : Nat)
  | above (i : Nat)
deriving DecidableEq, Repr

/-- A variable of the function that is `hops` functions further out. -/
structure Variable where
  hops : Nat := 0
  place : Place
deriving DecidableEq, Repr

/-- The same variable seen from a function inside. -/
def Variable.fromInside (v : Variable) : Variable := { v with hops := v.hops + 1 }

/-- The use of a variable, or a function with the reads of its body. -/
inductive Read where
  | variable (v : Variable)
  | function (reads : List Read)

mutual
def Read.decEq : (a b : Read) → Decidable (a = b)
  | .variable v, .variable w => decidable_of_iff (v = w) (by simp)
  | .function xs, .function ys => @decidable_of_iff _ (xs = ys) (by simp) (decEqAll xs ys)
  | .variable _, .function _ | .function _, .variable _ => isFalse nofun

def Read.decEqAll : (xs ys : List Read) → Decidable (xs = ys)
  | [], [] => isTrue rfl
  | [], _ :: _ | _ :: _, [] => isFalse nofun
  | x :: xs, y :: ys =>
    @decidable_of_iff _ (x = y ∧ xs = ys) (by simp)
      (@instDecidableAnd _ _ (decEq x y) (decEqAll xs ys))
end

instance : DecidableEq Read := Read.decEq

/-- The parameters of a function hide what is around it. -/
def Evaluation.Scope.enter (scope : Scope Variable) (params : List Bytes) : Scope Variable :=
  Scope.bind (scope.map fun b => (b.1, b.2.fromInside)) params
    ((List.range params.length).map fun i => { place := .parameter i })

/-- The names of a `let` are kept where their values come on the stack. -/
def Evaluation.Scope.define (scope : Scope Variable) (depth : Nat) (names : List Bytes) :
    Scope Variable :=
  scope.bind names ((List.range names.length).map fun i => { place := .above (depth + i) })

/-- The place of the one argument of a system function that has code, if not all have: the one that
a rewriting evaluates, and the first one of the identity, whatever follows it. -/
def Evaluation.kept? (b : Builtin) (known : List (Option Value)) : Option Nat :=
  if b.primitive? = some .identity then some 0 else (rewriting? b known).map Prod.fst

namespace Expr

mutual
/-- The reads of an expression, when `depth` values lie above the parameters and the captured
values. What is known at compile time is not read. Arguments are evaluated from left to right, with
those before them on the stack. -/
def reads (ctx : Context) (scope : Scope Variable) (depth : Nat) : Expr → List Read
  | literal _ _ => []
  | ident _ n => (scope.lookup n).toList.map .variable
  | call pos fn args =>
    match callee ctx scope fn with
    | .self | .named _ => readsEach ctx scope depth args
    | .builtin b =>
      match (call pos fn args).fold? (visible ctx scope) with
      | some _ => []
      | none =>
        match Evaluation.kept? b (args.map fun e => e.fold? (visible ctx scope)) with
        | some i => readsAt ctx scope depth i args
        | none => readsEach ctx scope depth args
    | .computed => reads ctx scope depth fn ++ readsEach ctx scope (depth + 1) args
  | apply _ fn args =>
    match callee ctx scope fn with
    | .self => readsEach ctx scope depth args
    | _ => reads ctx scope depth fn ++ readsEach ctx scope (depth + 1) args
  | cond _ test yes none =>
    match test.fold? (visible ctx scope) with
    | some (.bool true) => reads ctx scope depth yes
    | some (.bool false) => []
    | _ => reads ctx scope depth test ++ reads ctx scope depth yes
  | cond _ test yes (some no) =>
    match test.fold? (visible ctx scope) with
    | some (.bool true) => reads ctx scope depth yes
    | some (.bool false) => reads ctx scope depth no
    | _ => reads ctx scope depth test ++ reads ctx scope depth yes ++ reads ctx scope depth no
  | lambda _ name params body =>
    [.function (readsAll (ctx.enter name [] []) (scope.enter params) 0 body)]
  | letIn _ bindings body =>
    readsValues ctx scope depth bindings
      ++ readsAll ctx (scope.define depth (bindings.map Binding.name)) (depth + bindings.length)
        body
  | block _ es | and _ es | or _ es => readsAll ctx scope depth es
  | define _ _ _ | const _ _ _ => []
termination_by structural e => e

/-- Expressions whose values do not stay on the stack. -/
def readsAll (ctx : Context) (scope : Scope Variable) (depth : Nat) : List Expr → List Read
  | [] => []
  | e :: es => reads ctx scope depth e ++ readsAll ctx scope depth es
termination_by structural es => es

/-- Expressions whose values stay on the stack. -/
def readsEach (ctx : Context) (scope : Scope Variable) (depth : Nat) : List Expr → List Read
  | [] => []
  | e :: es => reads ctx scope depth e ++ readsEach ctx scope (depth + 1) es
termination_by structural es => es

def readsAt (ctx : Context) (scope : Scope Variable) (depth : Nat) (i : Nat) :
    List Expr → List Read
  | [] => []
  | e :: es =>
    match i with
    | 0 => reads ctx scope depth e
    | i + 1 => readsAt ctx scope depth i es
termination_by structural es => es

def readsValues (ctx : Context) (scope : Scope Variable) (depth : Nat) :
    List (Binding Expr) → List Read
  | [] => []
  | ⟨_, _, e⟩ :: bs => reads ctx scope depth e ++ readsValues ctx scope (depth + 1) bs
termination_by structural bs => bs
end

/-- The reads of a form. A function that is defined has the name of its definition. -/
def formReads (ctx : Context) : Expr → List Read
  | define _ name (lambda place _ params body) => reads ctx [] 0 (lambda place name params body)
  | define _ _ value => reads ctx [] 0 value
  | e => reads ctx [] 0 e

end Expr

/-- The variable in a slot: parameters come first, then the captured values, then the others. -/
def Variable.inSlot (params : Nat) (captured : List Variable) (slot : Nat) : Variable :=
  if slot < params then { place := .parameter slot }
  else match captured[slot - params]? with
    | some v => v.fromInside
    | none => { place := .above (slot - params - captured.length) }

/-- The number of values that a closure captures. -/
def Instruction.captureCount (i : Instruction) : Nat :=
  match i.op, i.operands with
  | .buildClosure, [_, n] => n
  | _, _ => 0

/-- What code has read so far. The variables of the last loads that push, one behind the other, are
kept apart: a closure may capture them. -/
structure Trace where
  reads : List Read := []
  pushed : List Variable := []

def Trace.all (t : Trace) : List Read := t.reads ++ t.pushed.map .variable

/-- How the code of a function is traced: its pool, the variables in its slots, and the reads of
the functions in its pool when they have captured the given variables. -/
structure Tracer where
  pool : List Constant
  inSlot : Nat → Variable
  nested : Nat → List Variable → List Read

/-- A load reads a variable. An instruction that addresses a function captures the variables that
were pushed last; they are read by that function only. -/
def Tracer.step (σ : Tracer) (t : Trace) (i : Instruction) : Trace :=
  match i.slot? with
  | some s =>
    if i.op.family? = some .loadPush then { t with pushed := t.pushed ++ [σ.inSlot s] }
    else { reads := t.all ++ [.variable (σ.inSlot s)] }
  | none =>
    match i.poolIndex?.bind (σ.pool[·]?) with
    | some (.function j) =>
      let (front, captured) := t.pushed.splitAt (t.pushed.length - i.captureCount)
      { reads := t.reads ++ front.map .variable ++ [.function (σ.nested j captured)] }
    | _ => { reads := t.all }

namespace Image

/-- The reads of the function at index `i` when it has captured the given variables. -/
def readsOf (img : Image) (i : Nat) (captured : List Variable) : List Read :=
  match img.get? i with
  | none => []
  | some f =>
    match Instruction.decode f.bytes with
    | .error _ => []
    | .ok ps =>
      let σ : Tracer := {
        pool := f.constants
        inSlot := .inSlot f.params.toNat captured
        nested := fun j vs => if _h : j < i then readsOf img j vs else [] }
      (ps.foldl (fun t p => σ.step t p.instr) {}).all
termination_by i

/-- The reads of the entry. -/
def reads (img : Image) : List Read := img.readsOf (img.functions.length - 1) []

end Image
end StackLisp
