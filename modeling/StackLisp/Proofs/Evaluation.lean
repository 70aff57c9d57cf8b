import StackLisp.Proofs.Processor
import StackLisp.Proofs.Success

/-! What a program means: expressions are evaluated from left to right, and calls are left to the
runtime. -/
namespace StackLisp

/-- The context at a point where the given names are local. -/
def Context.seeing (ctx : Context) (names : List Bytes) : Context :=
  { ctx with frame := { ctx.frame with locals := names.map fun n => (n, 0) } }

namespace Evaluation

open Lower (Callee)

/-- The values of local names, innermost first. -/
abbrev Scope (V : Type) := List (Bytes × V)

/-- What is computed from the remaining operand of a rewritten call. -/
inductive Rest where
  | call (p : Primitive)
  | increment
  | decrement
deriving DecidableEq, Repr

/-- A call of a system function on two operands of which one is a known integer. -/
structure Rewrite where
  primitive : Primitive
  left : Option Int := none
  right : Option Int := none
  rest : Rest
deriving DecidableEq, Repr

namespace Rewrite

/-- The place of the operand that is not known. -/
def operand (r : Rewrite) : Nat := if r.left = none then 0 else 1

def applies (r : Rewrite) (p : Primitive) : List (Option Int) → Bool
  | [x, y] => r.primitive = p && (r.left = none || x = r.left) && (r.right = none || y = r.right)
  | _ => false

/-- The calls that are rewritten; the first that applies counts. -/
def all : List Rewrite :=
  [{ primitive := .add, right := some 0, rest := .call .add },
    { primitive := .add, left := some 0, rest := .call .add },
    { primitive := .add, right := some 1, rest := .increment },
    { primitive := .add, left := some 1, rest := .increment },
    { primitive := .add, right := some (-1), rest := .decrement },
    { primitive := .add, left := some (-1), rest := .decrement },
    { primitive := .sub, right := some 0, rest := .call .add },
    { primitive := .sub, left := some 0, rest := .call .sub },
    { primitive := .sub, right := some 1, rest := .decrement },
    { primitive := .sub, right := some (-1), rest := .increment },
    { primitive := .floorDiv, left := some 1, rest := .call .floorDiv },
    { primitive := .floorDiv, right := some 1, rest := .call .floor }]

def find? (p : Primitive) (known : List (Option Int)) : Option Rewrite :=
  all.find? fun r => r.applies p known

end Rewrite

/-- How a call of a system function is rewritten, given its arguments whose values are known: the
place of the one argument that is evaluated, and what is computed from it. The identity of one
argument is the argument. -/
def rewriting? (b : Builtin) (known : List (Option Value)) : Option (Nat × Option Rest) :=
  match b.primitive? with
  | some .identity => if known.length = 1 then some (0, none) else none
  | some p =>
    (Rewrite.find? p (known.map fun v => v.bind Value.toInt?)).map fun r =>
      (r.operand, some r.rest)
  | none => none

variable {V S : Type}

/-- Later names hide equal ones before them. -/
def Scope.bind (scope : Scope V) (names : List Bytes) (vs : List V) : Scope V :=
  (names.zip vs).reverse ++ scope

/-- What is known where the names of the scope are local. -/
def visible (ctx : Context) (scope : Scope V) : Context := ctx.seeing (scope.map Prod.fst)

def callee (ctx : Context) (scope : Scope V) : Expr → Callee
  | .ident _ name => .ofResolution name ((visible ctx scope).lookup name)
  | _ => .computed

/-- A name of the negation that nothing hides. -/
def isNot (ctx : Context) (scope : Scope V) (fn : Expr) : Bool :=
  match callee ctx scope fn with
  | .builtin b => b.primitive? == some .not
  | _ => false

section
variable (rt : Runtime V S) (ctx : Context)

/-- Names that are not local and not constants are asked for. -/
def name (scope : Scope V) (n : Bytes) : StateM (World V S) V :=
  match scope.lookup n with
  | some v => pure v
  | none =>
    match (visible ctx scope).lookup n with
    | .constant v => pure (rt.ofValue v)
    | _ => rt.ask (.definition n)

def compute (v : V) : Option Rest → StateM (World V S) V
  | none => pure v
  | some (.call p) => rt.ask (.builtin p.number [v])
  | some .increment => rt.ask (.increment v)
  | some .decrement => rt.ask (.decrement v)

mutual
/-- The value of an expression. A call of a system function whose value is known makes no request,
and one that is rewritten makes another. -/
def value (scope : Scope V) (e : Expr) : StateM (World V S) V :=
  match e with
  | .literal _ v => pure (rt.ofValue v)
  | .ident _ n => name rt ctx scope n
  | .call pos fn args =>
    match callee ctx scope fn with
    | .self => do rt.ask (.self (← values scope args))
    | .named v => do rt.ask (.named v (← values scope args))
    | .builtin b =>
      match (Expr.call pos fn args).fold? (visible ctx scope) with
      | some v => pure (rt.ofValue v)
      | none =>
        match rewriting? b (args.map fun e => e.fold? (visible ctx scope)) with
        | some (i, rest) => do compute rt (← valueAt scope i args) rest
        | none => do rt.ask (.builtin b.id.toNat (← values scope args))
    | .computed => do
      let f ← value scope fn
      rt.ask (.call f (← values scope args))
  | .apply _ fn args =>
    match callee ctx scope fn with
    | .self => do
      let (vs, list) ← spread scope args
      rt.ask (.applySelf vs list)
    | _ => do
      let f ← value scope fn
      let (vs, list) ← spread scope args
      rt.ask (.apply f vs list)
  | .cond _ test yes no =>
    match test.fold? (visible ctx scope) with
    | some (.bool true) => value scope yes
    | some (.bool false) => otherwise scope no
    | _ => do if ← truth scope test then value scope yes else otherwise scope no
  | .block _ body => last scope body
  | .letIn _ bindings body => do
    let vs ← initial scope bindings
    last (scope.bind (bindings.map Binding.name) vs) body
  | .and _ es => first scope false es
  | .or _ es => first scope true es
  | .lambda _ _ _ _ | .define _ _ _ | .const _ _ _ => pure (rt.ofValue .unit)
termination_by (sizeOf e, 0)

/-- The truth of a condition; negations around it need no call. -/
def truth (scope : Scope V) (e : Expr) : StateM (World V S) Bool :=
  match e with
  | .call pos fn [x] =>
    if isNot ctx scope fn then Bool.not <$> truth scope x
    else rt.truthy <$> value scope (.call pos fn [x])
  | e => rt.truthy <$> value scope e
termination_by (sizeOf e, 1)

def otherwise (scope : Scope V) (no : Option Expr) : StateM (World V S) V :=
  match no with
  | none => pure (rt.ofValue .unit)
  | some e => value scope e
termination_by (sizeOf no, 0)

/-- The value of the last of several expressions, all of which are evaluated. -/
def last (scope : Scope V) (es : List Expr) : StateM (World V S) V :=
  match es with
  | [] => pure (rt.ofValue .unit)
  | [e] => value scope e
  | e :: rest => do
    let _ ← value scope e
    last scope rest
termination_by (sizeOf es, 0)

/-- The value of the first expression whose truth is `decisive`, or of the last one. -/
def first (scope : Scope V) (decisive : Bool) (es : List Expr) : StateM (World V S) V :=
  match es with
  | [] => pure (rt.ofValue (.bool !decisive))
  | [e] => value scope e
  | e :: rest => do
    let v ← value scope e
    if rt.truthy v = decisive then pure v else first scope decisive rest
termination_by (sizeOf es, 0)

def values (scope : Scope V) (es : List Expr) : StateM (World V S) (List V) :=
  match es with
  | [] => pure []
  | e :: rest => do
    let v ← value scope e
    let vs ← values scope rest
    pure (v :: vs)
termination_by (sizeOf es, 0)

/-- The values of all expressions, with the last one apart. -/
def spread (scope : Scope V) (es : List Expr) : StateM (World V S) (List V × V) :=
  match es with
  | [] => pure ([], rt.ofValue .unit)
  | [e] => do
    let v ← value scope e
    pure ([], v)
  | e :: rest => do
    let v ← value scope e
    let (vs, list) ← spread scope rest
    pure (v :: vs, list)
termination_by (sizeOf es, 0)

/-- The value of one of several expressions. -/
def valueAt (scope : Scope V) (i : Nat) (es : List Expr) : StateM (World V S) V :=
  match i, es with
  | _, [] => pure (rt.ofValue .unit)
  | 0, e :: _ => value scope e
  | i + 1, _ :: rest => valueAt scope i rest
termination_by (sizeOf es, 0)

/-- The values of a `let`, none of which sees its names. -/
def initial (scope : Scope V) (bs : List (Binding Expr)) : StateM (World V S) (List V) :=
  match bs with
  | [] => pure []
  | ⟨_, _, e⟩ :: rest => do
    let v ← value scope e
    let vs ← initial scope rest
    pure (v :: vs)
termination_by (sizeOf bs, 0)
end

end

variable {rt : Runtime V S} {ctx : Context} {scope : Scope V}

/-- A condition whose truth is not known is evaluated. -/
theorem value_cond {pos : Position} {test yes : Expr} {no : Option Expr}
    (h : ∀ b, test.fold? (visible ctx scope) ≠ some (.bool b)) :
    value rt ctx scope (.cond pos test yes no) = (do
      if ← truth rt ctx scope test then value rt ctx scope yes
      else otherwise rt ctx scope no) := by
  rw [value]
  split
  · next hb => exact absurd hb (h true)
  · next hb => exact absurd hb (h false)
  · rfl

/-- A call of a system function whose value is not known. -/
theorem value_builtin {pos : Position} {fn : Expr} {args : List Expr} {b : Builtin}
    (hb : callee ctx scope fn = .builtin b)
    (hf : (Expr.call pos fn args).fold? (visible ctx scope) = none) :
    value rt ctx scope (.call pos fn args) =
      (match rewriting? b (args.map fun e => e.fold? (visible ctx scope)) with
      | some (i, rest) => do compute rt (← valueAt rt ctx scope i args) rest
      | none => do rt.ask (.builtin b.id.toNat (← values rt ctx scope args))) := by
  rw [value, hb]
  simp only [hf]

theorem valueAt_of_getElem? {es : List Expr} {i : Nat} {e : Expr} (h : es[i]? = some e) :
    valueAt rt ctx scope i es = value rt ctx scope e := by
  induction es generalizing i with
  | nil => simp at h
  | cons e' es ih =>
    cases i with
    | zero =>
      rw [valueAt, show e' = e by simpa using h]
    | succ i =>
      rw [valueAt]
      exact ih (by simpa using h)

theorem valueAt_of_none {es : List Expr} {i : Nat} (h : es[i]? = none) :
    valueAt rt ctx scope i es = pure (rt.ofValue .unit) := by
  induction es generalizing i with
  | nil => rw [valueAt]
  | cons e' es ih =>
    cases i with
    | zero => simp at h
    | succ i =>
      rw [valueAt]
      exact ih (by simpa using h)

@[simp] theorem length_values (es : List Expr) (w : World V S) :
    (values rt ctx scope es w).1.length = es.length := by
  induction es generalizing w with
  | nil =>
    rw [values]
    rfl
  | cons e es ih =>
    rw [values]
    exact congrArg (· + 1) (ih (value rt ctx scope e w).2)

@[simp] theorem length_initial (bs : List (Binding Expr)) (w : World V S) :
    (initial rt ctx scope bs w).1.length = bs.length := by
  induction bs generalizing w with
  | nil =>
    rw [initial]
    rfl
  | cons b bs ih =>
    rw [initial]
    exact congrArg (· + 1) (ih (value rt ctx scope b.value w).2)

@[simp] theorem length_spread (es : List Expr) (w : World V S) :
    (spread rt ctx scope es w).1.1.length = es.length - 1 := by
  induction es generalizing w with
  | nil =>
    rw [spread]
    rfl
  | cons e es ih =>
    cases es with
    | nil =>
      rw [spread]
      rfl
    | cons e' es =>
      rw [spread]
      · exact congrArg (· + 1) (ih (value rt ctx scope e w).2)
      · simp

end Evaluation
end StackLisp
