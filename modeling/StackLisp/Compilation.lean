import StackLisp.Expr.Printer
import StackLisp.Image
import StackLisp.Lowering

/-! Compilation of top-level forms. Each becomes an image whose entry evaluates the form; the forms
see the names that the forms before them introduced. -/
namespace StackLisp

open Fragment (op)

inductive FormKind where
  | define
  | const
  | expression
deriving DecidableEq, Repr

namespace FormKind

def of : Expr → FormKind
  | .define _ _ _ => define
  | .const _ _ _ => const
  | _ => expression

def render : FormKind → Bytes
  | define => Text.lit "define"
  | const => Text.lit "const"
  | expression => Text.lit "expression"

end FormKind

/-- What is reported while forms are compiled. -/
inductive Event where
  | compiledFunction (f : Function)
  | compiledForm (kind : FormKind) (name : Bytes) (index : Nat) (f : Function)
deriving DecidableEq, Repr

/-- The code of forms, and the environment after them. -/
structure Compilation where
  images : List Image
  env : Environment
deriving DecidableEq, Repr

namespace Compilation

/-- The name a form introduces. -/
def declaredName? : Expr → Option Bytes
  | .define _ name _ | .const _ name _ => some name
  | _ => none

/-- The names the forms introduce, with the numbers of the forms. A name must not be defined
twice. -/
def declarations (env : Environment) (declared : List (Bytes × Nat)) (index : Nat) :
    List Expr → Except LocatedRefusal (List (Bytes × Nat))
  | [] => .ok declared
  | e :: rest =>
    match declaredName? e with
    | none => declarations env declared (index + 1) rest
    | some name =>
      if (env.find? name).isSome ∨ (declared.lookup name).isSome then
        .error ⟨.alreadyDefined name, e.pos⟩
      else declarations env ((name, index) :: declared) (index + 1) rest

/-- Evaluates a value and publishes it. A function may call itself by the name it is given; the
name is the first constant. -/
def define (ctx : Context) (pos : Position) (name : Bytes) (value : Expr) : Lower Fragment := do
  let i ← Lower.intern ctx pos (.name name)
  let f ← match value with
    | .lambda place own params body =>
      Fragment.marked place <$>
        Lower.function ctx place name params (Expr.freeNames own params body) fun inner slots =>
          Lower.sequence inner .tail 0 slots body
    | e => Lower.expr ctx .value 0 0 e
  pure (f ++ op .setDef [i])

/-- Publishes a value known at compile time. -/
def const (ctx : Context) (pos : Position) (name : Bytes) (value : Expr) :
    Lower (Fragment × Value) := do
  match value.fold? ctx with
  | none => Lower.refuse value.pos (.notConstant name value.render)
  | some v =>
    let i ← Lower.intern ctx pos (.name name)
    let f ← Lower.load ctx value.pos v
    pure (f ++ op .setDef [i], v)

/-- The number of parameters of a value that is a function. -/
def arityOf : Expr → Int
  | .lambda _ _ params _ => params.length
  | _ => -1

/-- Code for a form, and the environment behind it. -/
def formCode (ctx : Context) : Expr → Lower (Fragment × Environment)
  | .define pos name value => do
    let f ← define ctx pos name value
    pure (f, ctx.env.insert name (.definition (arityOf value)))
  | .const pos name value => do
    let (f, v) ← const ctx pos name value
    pure (f, ctx.env.insert name (.constant v))
  | e => do
    let f ← Lower.expr ctx .tail 0 0 e
    pure (f, ctx.env)

/-- Compiles one form. The events tell which functions were completed, also when the form is
refused. -/
def form (ctx : Context) (e : Expr) :
    Except LocatedRefusal (Image × Environment) × List Event :=
  match formCode ctx e {} with
  | (.error r, d) => (.error r, d.functions.map .compiledFunction)
  | (.ok (f, env), d) =>
    let whole := f.returning
    let entry : Function := {
      constants := d.pool
      code := some whole.code
      locals := d.slots
      filename := ctx.options.filename
      locations := whole.locations }
    (.ok (⟨d.functions ++ [entry]⟩, env),
      d.functions.map .compiledFunction
        ++ [.compiledForm (.of e) ((declaredName? e).getD []) ctx.form entry])

/-- Compiles forms in order up to the first that is refused. -/
def formsFrom (options : CompileOptions) (declared : List (Bytes × Nat)) (env : Environment)
    (index : Nat) : List Expr → Except LocatedRefusal Compilation × List Event
  | [] => (.ok ⟨[], env⟩, [])
  | e :: rest =>
    match form { options, env, declared, form := index } e with
    | (.error r, events) => (.error r, events)
    | (.ok (image, env), events) =>
      match formsFrom options declared env (index + 1) rest with
      | (.error r, more) => (.error r, events ++ more)
      | (.ok c, more) => (.ok { c with images := image :: c.images }, events ++ more)

/-- Compiles forms together. -/
def run (options : CompileOptions) (env : Environment) (forms : List Expr) :
    Except LocatedRefusal Compilation × List Event :=
  match declarations env [] 0 forms with
  | .error r => (.error r, [])
  | .ok declared => formsFrom options declared env 0 forms

def compile (options : CompileOptions) (env : Environment) (forms : List Expr) :
    Except LocatedRefusal Compilation :=
  (run options env forms).1

/-- Compiles forms one by one; what was compiled before a refusal is kept. -/
def runEach (options : CompileOptions) (env : Environment) :
    List Expr → Compilation × Option LocatedRefusal × List Event
  | [] => (⟨[], env⟩, none, [])
  | e :: rest =>
    match run options env [e] with
    | (.error r, events) => (⟨[], env⟩, some r, events)
    | (.ok c, events) =>
      let (d, fault, more) := runEach options c.env rest
      (⟨c.images ++ d.images, d.env⟩, fault, events ++ more)

end Compilation
end StackLisp
