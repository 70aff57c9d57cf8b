import StackLisp.Datum
import StackLisp.Expr
import StackLisp.Number.Literal

/-! Data as expressions: the special forms, names and literals of the language. -/
namespace StackLisp.Expr

open Text (lit)

inductive Keyword where
  | define
  | const
  | lambda
  | letIn
  | block
  | cond
  | and
  | or
  | apply
deriving DecidableEq, Repr

def keywords : List (Bytes × Keyword) :=
  [(lit "define", .define), (lit "const", .const), (lit "lambda", .lambda), (lit "let", .letIn),
    (lit "do", .block), (lit "if", .cond), (lit "and", .and), (lit "or", .or),
    (lit "apply", .apply)]

def keyword? (name : Bytes) : Option Keyword := (keywords.find? fun k => k.1 = name).map Prod.snd

/-- Names that stand for themselves or open a special form cannot be bound. -/
def isReserved (name : Bytes) : Bool :=
  name = lit "true" || name = lit "false" || (keyword? name).isSome

def operands : Keyword → OperandRange
  | .define | .lambda | .letIn | .apply => .atLeast 1
  | .const => .exactly 2
  | .cond => .between 2 3
  | .block | .and | .or => .atLeast 0

def numberFault (t : Token) : Number.Fault → LocatedFault
  | .malformed => ⟨.malformedNumber t.literal, t.start, t.stop⟩
  | .outOfRange => ⟨.numberOutOfRange t.literal, t.start, t.stop⟩

/-- The code point of the first character. -/
def codePoint (text : Bytes) : Int32 :=
  match Text.chars text with
  | c :: _ => Int32.ofNat c.toNat
  | [] => 0

def ofAtom (t : Token) : Except LocatedFault Expr :=
  match t.kind with
  | .int => (Number.readInt t.literal).mapError (numberFault t) |>.map fun i => literal t.start (.int i)
  | .float =>
    (Number.readFloat t.literal).mapError (numberFault t) |>.map fun x => literal t.start (.float x)
  | .string => .ok (literal t.start (.string t.literal))
  | .char => .ok (literal t.start (.char (codePoint t.literal)))
  | _ =>
    if t.literal = lit "true" then .ok (literal t.start (.bool true))
    else if t.literal = lit "false" then .ok (literal t.start (.bool false))
    else if (keyword? t.literal).isSome then
      .error ((Datum.atom t).fail (.keywordAsValue t.literal))
    else .ok (ident t.start t.literal)

/-- A name that is to be bound in the given role. -/
def symbol (role : String) : Datum → Except LocatedFault Bytes
  | d@(.atom t) =>
    if t.kind ≠ .ident then .error (d.fail (.expected role d.describe))
    else if isReserved t.literal then .error (d.fail (.keywordAs t.literal role))
    else .ok t.literal
  | d => .error (d.fail (.expected role d.describe))

def parameters (items : List Datum) : Except LocatedFault (List Bytes) :=
  items.mapM (symbol "parameter name")

def checkOperands (form : Datum) (keyword : Bytes) (range : OperandRange) (found : Nat) :
    Except LocatedFault Unit :=
  if range.accepts found then .ok () else .error (form.fail (.wrongOperands keyword range found))

/-- The special form that a list opens, with its keyword as written. -/
def headKeyword? : Datum → Option (Bytes × Keyword)
  | .atom t => if t.kind = .ident then (keyword? t.literal).map fun k => (t.literal, k) else none
  | .list _ _ _ => none

mutual
/-- The expression that a datum spells. -/
def ofDatum : Datum → Except LocatedFault Expr
  | .atom t => ofAtom t
  | .list o [] _ => .ok (literal o.start .unit)
  | .list o (head :: items) stop =>
    let whole := Datum.list o (head :: items) stop
    match headKeyword? head with
    | none => do
      let fn ← ofDatum head
      let args ← ofData items
      return call o.start fn args
    | some (word, k) => do
      checkOperands whole word (operands k) items.length
      match k, items with
      | .define, .list p [] q :: _ => .error ((Datum.list p [] q).fail .namelessFunction)
      | .define, .list p (first :: params) _ :: body => do
        let name ← symbol "function name" first
        let params ← parameters params
        let body ← ofData body
        return define o.start name (lambda p.start name params body)
      | .define, target :: rest => do
        checkOperands whole word (.exactly 2) items.length
        let name ← symbol "definition name" target
        match rest with
        | value :: _ => return define o.start name (← ofDatum value)
        | [] => return define o.start name (literal o.start .unit)
      | .const, target :: value :: _ => do
        let name ← symbol "constant name" target
        return const o.start name (← ofDatum value)
      | .lambda, .list _ params _ :: body => do
        let params ← parameters params
        return lambda o.start [] params (← ofData body)
      | .lambda, d :: _ => .error (d.fail (.expected "parameter list" d.describe))
      | .letIn, .list _ bindings _ :: body => do
        let bindings ← ofBindings bindings
        return letIn o.start bindings (← ofData body)
      | .letIn, d :: _ => .error (d.fail (.expected "binding list" d.describe))
      | .block, body => return block o.start (← ofData body)
      | .cond, [test, yes] => do
        let test ← ofDatum test
        return cond o.start test (← ofDatum yes) none
      | .cond, test :: yes :: no :: _ => do
        let test ← ofDatum test
        let yes ← ofDatum yes
        return cond o.start test yes (some (← ofDatum no))
      | .and, operands => return and o.start (← ofData operands)
      | .or, operands => return or o.start (← ofData operands)
      | .apply, fn :: args => do
        let fn ← ofDatum fn
        return apply o.start fn (← ofData args)
      | _, _ => return literal o.start .unit
termination_by structural d => d

def ofData : List Datum → Except LocatedFault (List Expr)
  | [] => .ok []
  | d :: ds => do
    let e ← ofDatum d
    return e :: (← ofData ds)
termination_by structural ds => ds

/-- Bindings have the form of a list of a name and a value. -/
def ofBindings : List Datum → Except LocatedFault (List (Binding Expr))
  | [] => .ok []
  | .list _ [first, second] _ :: ds => do
    let name ← symbol "binding name" first
    let value ← ofDatum second
    return ⟨name, first.start, value⟩ :: (← ofBindings ds)
  | d :: _ => .error (d.fail .malformedBinding)
termination_by structural ds => ds
end

end StackLisp.Expr
