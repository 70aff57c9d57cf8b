import StackLisp.Expr.Folding
import StackLisp.Expr.FreeNames
import StackLisp.Fragment
import StackLisp.Refusal

/-! Code for expressions. Every piece of code leaves its value in the register and the stack as it
was; in tail position it may return instead. -/
namespace StackLisp

open Fragment (op instr)

/-- What compiling a function has produced besides its code: its constant pool and the names of its
slots. `functions` are all functions completed for the form so far. -/
structure Draft where
  pool : List Constant := []
  slots : List Bytes := []
  functions : List Function := []
deriving DecidableEq, Repr

/-- A refusal keeps what had been completed before it. -/
abbrev Lower := ExceptT LocatedRefusal (StateM Draft)

/-- How the value of an expression is used: in the register, as the result of the function, or
only for its truth, up to negation. -/
inductive Use where
  | value
  | tail
  | test
deriving DecidableEq, Repr

/-- The use of the last part of a sequence. -/
def Use.last : Use → Use
  | tail => tail
  | _ => value

namespace Lower

def refuse {α : Type} (pos : Position) (r : Refusal) : Lower α := throw ⟨r, pos⟩

/-- Adds an entry to the pool and gives its index. -/
def addConstant (ctx : Context) (pos : Position) (c : Constant) : Lower Nat := do
  let d ← get
  if d.pool.length ≥ Limit.constants then refuse pos (.tooManyConstants ctx.owner)
  else do
    set { d with pool := d.pool ++ [c] }
    pure d.pool.length

/-- The index of a value in the pool, where it is added if it is not there. -/
def intern (ctx : Context) (pos : Position) (v : Value) : Lower Nat := do
  let d ← get
  match d.pool.idxOf? (.value v) with
  | some i => pure i
  | none => addConstant ctx pos (.value v)

/-- Names a slot unless it already has a name. -/
def nameSlot (slots : List Bytes) (slot : Nat) (name : Bytes) : List Bytes :=
  let padded := slots ++ List.replicate (slot + 1 - slots.length) []
  if padded[slot]? = some [] then padded.set slot name else padded

def nameSlots (slots : List Bytes) : Nat → List Bytes → List Bytes
  | _, [] => slots
  | slot, name :: rest => nameSlots (nameSlot slots slot name) (slot + 1) rest

def load (ctx : Context) (pos : Position) : Value → Lower Fragment
  | .unit => pure (op .unit)
  | .bool true => pure (op .truth)
  | .bool false => pure (op .falsity)
  | v => do
    let i ← intern ctx pos v
    pure (instr (.indexed .const i))

/-- What a name that is used refers to. -/
def resolve (ctx : Context) (pos : Position) (name : Bytes) : Lower Resolution :=
  match ctx.lookup name with
  | .unbound =>
    if ctx.isForward name then refuse pos (.forwardReference name)
    else refuse pos (.unbound name ctx.visibleNames)
  | r => pure r

/-- System functions, and the function itself, are loaded as definitions by name. -/
def loadName (ctx : Context) (pos : Position) (name : Bytes) : Lower Fragment := do
  match ← resolve ctx pos name with
  | .slot s => pure (instr (.indexed .load s))
  | .constant v => load ctx pos v
  | _ =>
    let i ← intern ctx pos (.name name)
    pure (instr (.indexed .getDef i))

def checkTarget (ctx : Context) (pos : Position) (target : Nat) : Lower Unit :=
  if target > Limit.target then refuse pos (.jumpTooFar target ctx.owner) else pure ()

/-- The function of a call as far as the compiler knows it. -/
inductive Callee where
  | self
  | named (v : Value)
  | builtin (b : Builtin)
  | computed
deriving DecidableEq, Repr

def callee (ctx : Context) : Expr → Lower Callee
  | .ident pos name => do
    match ← resolve ctx pos name with
    | .self => pure .self
    | .global => pure (.named (.name name))
    | .constant v => pure (.named v)
    | .builtin b => pure (.builtin b)
    | _ => pure .computed
  | _ => pure .computed

/-- Refuses a call of a defined function with the wrong number of arguments. -/
def checkArity (ctx : Context) (pos : Position) (v : Value) (argc : Nat) : Lower Unit :=
  match v with
  | .name n =>
    match (ctx.env.find? n).map Symbol.arity with
    | some wanted =>
      if wanted ≥ 0 ∧ wanted ≠ argc then refuse pos (.functionArity n wanted argc) else pure ()
    | none => pure ()
  | _ => pure ()

/-- A call of a system function on the arguments on the stack. -/
def callBuiltin (b : Builtin) (argc : Nat) : Fragment :=
  if b.arity = .exactly 1 ∧ argc = 1 then op .callSys [b.id.toNat]
  else op .callSysArgs [b.id.toNat, argc]

/-- A cheaper way to compute a call of a system function, from one of its arguments: the argument
itself, another call on it, or an instruction on the register. -/
inductive Shortcut where
  | operand (i : Nat)
  | unary (b : Builtin) (i : Nat)
  | step (op : Opcode) (i : Nat)
deriving DecidableEq, Repr

def sumShortcut (x y : Option Int) : Option Shortcut :=
  if y = some 0 then some (.unary (.ofPrimitive .add) 0)
  else if x = some 0 then some (.unary (.ofPrimitive .add) 1)
  else if y = some 1 then some (.step .inc 0)
  else if x = some 1 then some (.step .inc 1)
  else if y = some (-1) then some (.step .dec 0)
  else if x = some (-1) then some (.step .dec 1)
  else none

def differenceShortcut (b : Builtin) (x y : Option Int) : Option Shortcut :=
  if y = some 0 then some (.unary (.ofPrimitive .add) 0)
  else if x = some 0 then some (.unary b 1)
  else if y = some 1 then some (.step .dec 0)
  else if y = some (-1) then some (.step .inc 0)
  else none

def floorDivShortcut (b : Builtin) (x y : Option Int) : Option Shortcut :=
  if x = some 1 then some (.unary b 1)
  else if y = some 1 then some (.unary (.ofPrimitive .floor) 0)
  else none

/-- The shortcut for a call, given the arguments whose values are known. -/
def shortcut? (b : Builtin) (args : List (Option Value)) : Option Shortcut :=
  let ints := args.map fun v => v.bind Value.toInt?
  match b.primitive?, ints with
  | some .identity, _ => some (.operand 0)
  | some .add, [x, y] => sumShortcut x y
  | some .sub, [x, y] => differenceShortcut b x y
  | some .floorDiv, [x, y] => floorDivShortcut b x y
  | _, _ => none

/-- A call of the negation that nothing shadows. -/
def isNegation (ctx : Context) (fn : Expr) (argc : Nat) : Bool :=
  match fn with
  | .ident _ name =>
    match ctx.resolve name with
    | .builtin b => argc = 1 && b.primitive? == some .not
    | _ => false
  | _ => false

mutual
/-- An odd number of negations stands around the condition that is tested. -/
def negated (ctx : Context) : Expr → Bool
  | .call _ fn args => isNegation ctx fn args.length && !negatedFirst ctx args
  | _ => false
termination_by structural e => e

def negatedFirst (ctx : Context) : List Expr → Bool
  | [] => false
  | e :: _ => negated ctx e
termination_by structural es => es
end

/-- Operands one behind the other, with a jump to the end behind each but the last. -/
def withJumps (branch : Opcode) (target : Nat) : List Fragment → Fragment
  | [] => {}
  | [f] => f
  | f :: rest => f ++ op branch [target] ++ withJumps branch target rest

/-- The size of operands with the jumps between them. -/
def sizeWithJumps : List Fragment → Nat
  | [] => 0
  | [f] => f.size
  | f :: rest => f.size + Fragment.jumpSize + sizeWithJumps rest

/-- Puts operands together behind the offset `base`. -/
def joinOperands (ctx : Context) (pos : Position) (branch : Opcode) (base : Nat) :
    List Fragment → Lower Fragment
  | [] => pure {}
  | [f] => pure f
  | fs => do
    let target := base + sizeWithJumps fs
    checkTarget ctx pos target
    pure (withJumps branch target fs).landed

/-- Runs a step with a pool and slots of its own; completed functions are kept in any case. -/
def isolated {α : Type} (slots : List Bytes) (m : Lower α) : Lower (α × Draft) :=
  fun outer =>
    match m { slots, functions := outer.functions } with
    | (.ok a, d) => (.ok (a, d), { outer with functions := d.functions })
    | (.error e, d) => (.error e, { outer with functions := d.functions })

/-- Adds a finished function and gives its place. -/
def complete (f : Function) : Lower Nat := do
  let d ← get
  set { d with functions := d.functions ++ [f] }
  pure d.functions.length

/-- The first name that stands a second time. -/
def firstRepeated? (seen : List Bytes) : List Bytes → Option Bytes
  | [] => none
  | n :: rest => if n ∈ seen then some n else firstRepeated? (n :: seen) rest

def checkFunction (pos : Position) (params : List Bytes) (captures : Nat) : Lower Unit :=
  if captures > Limit.captures then refuse pos (.tooManyCaptures captures)
  else if params.length + captures > Limit.slots then
    refuse pos (.tooManyLocals (params.length + captures))
  else if params.length > Limit.arguments then refuse pos (.tooManyParameters params.length)
  else pure ()

/-- The locals that a function needs of the function around it, with their slots there. -/
def capturedBy (ctx : Context) (name : Bytes) (free : List Bytes) : List (Bytes × Nat) :=
  free.filterMap fun n => if n = name then none else (ctx.frame.slot? n).map fun s => (n, s)

/-- Loads a function: its body is compiled on its own, and the locals it uses are captured. -/
def function (ctx : Context) (pos : Position) (name : Bytes) (params free : List Bytes)
    (body : Context → Nat → Lower Fragment) : Lower Fragment := do
  if let some p := firstRepeated? [] params then refuse pos (.duplicateParameter p)
  let captured := capturedBy ctx name free
  let captures := captured.map Prod.fst
  checkFunction pos params captures.length
  let (f, d) ← isolated (params ++ captures)
    (body (ctx.enter name params captures) (params.length + captures.length))
  let whole := (f.marked pos).returning
  let place ← complete {
    name
    params := params.length
    captures := captures.length
    constants := d.pool
    code := some whole.code
    locals := d.slots
    filename := ctx.options.filename
    locations := whole.locations }
  let i ← addConstant ctx pos (.function place)
  if captured = [] then pure (instr (.indexed .const i))
  else
    pure (⟨captured.map fun (_, s) => .instr (.indexed .loadPush s), false⟩
      ++ op .buildClosure [i, captured.length])

mutual
/-- Code for an expression at the offset `base`, when the stack holds `depth` values. -/
def expr (ctx : Context) (use : Use) (base depth : Nat) : Expr → Lower Fragment
  | .literal pos v => Fragment.marked pos <$> load ctx pos v
  | .ident pos name => Fragment.marked pos <$> loadName ctx pos name
  | .call pos fn args =>
    if use = .test ∧ isNegation ctx fn args.length then operandAt ctx .test base depth 0 args
    else Fragment.marked pos <$> do
      let argc := args.length
      if argc > Limit.arguments then refuse pos (.tooManyArguments argc)
      match ← callee ctx fn with
      | .self =>
        if argc ≠ ctx.frame.params then
          refuse pos (.functionArity ctx.frame.name ctx.frame.params argc)
        let a ← arguments ctx base depth args
        pure (a ++ op (if use = .tail then .tailCallSelf else .callSelf) [argc])
      | .named v =>
        checkArity ctx pos v argc
        let i ← intern ctx fn.pos v
        let a ← arguments ctx base depth args
        pure (a ++ instr (.indexed .callConst i [argc]))
      | .builtin b =>
        if !b.arity.accepts argc then refuse pos (.builtinArity b.name b.arity argc)
        match (Expr.call pos fn args).fold? ctx with
        | some v => load ctx pos v
        | none =>
          match shortcut? b (args.map fun e => e.fold? ctx) with
          | some (.operand i) => operandAt ctx .value base depth i args
          | some (.unary b i) =>
            let f ← operandAt ctx .value base depth i args
            pure (f.pushed ++ callBuiltin b 1)
          | some (.step o i) =>
            let f ← operandAt ctx .value base depth i args
            pure (f ++ op o)
          | none =>
            let a ← arguments ctx base depth args
            pure (a ++ callBuiltin b argc)
      | .computed =>
        let f ← expr ctx .value base depth fn
        let a ← arguments ctx (base + f.pushed.size) (depth + 1) args
        pure (f.pushed ++ a ++ op .call [argc])
  | .apply pos fn args => Fragment.marked pos <$> do
    if args.isEmpty then refuse pos .applyWithoutList
    let leading := args.length - 1
    if leading > Limit.arguments then refuse pos (.tooManyLeading leading)
    match ← callee ctx fn with
    | .self =>
      if leading > ctx.frame.params then
        refuse pos (.leadingArity ctx.frame.name ctx.frame.params leading)
      let a ← spread ctx base depth args
      pure (a ++ op (if use = .tail then .tailApplySelf else .applySelf) [leading])
    | _ =>
      let f ← expr ctx .value base depth fn
      let a ← spread ctx (base + f.pushed.size) (depth + 1) args
      pure (f.pushed ++ a ++ op .apply [leading])
  | .cond pos test yes no => Fragment.marked pos <$> do
    match test.fold? ctx with
    | some (.bool true) => expr ctx use.last base depth yes
    | some (.bool false) => otherwise ctx use.last base depth no
    | _ =>
      let t ← expr ctx .test base depth test
      let branch := if negated ctx test then Opcode.jumpIf else .jumpIfNot
      let start := base + t.size + Fragment.jumpSize
      let y ← expr ctx use.last start depth yes
      if use = .tail then
        let target := start + y.returning.size
        checkTarget ctx pos target
        let n ← otherwise ctx .tail target depth no
        pure (t ++ op branch [target] ++ y.returning ++ n)
      else
        let target := start + y.size + Fragment.jumpSize
        checkTarget ctx pos target
        let n ← otherwise ctx .value target depth no
        let stop := target + n.size
        checkTarget ctx pos stop
        pure (t ++ op branch [target] ++ y ++ op .jump [stop] ++ n).landed
  | .block pos body => Fragment.marked pos <$> sequence ctx use.last base depth body
  | .letIn pos bindings body => Fragment.marked pos <$> do
    let v ← values ctx base depth bindings
    let names := bindings.map Binding.name
    modify fun d => { d with slots := nameSlots d.slots depth names }
    let b ← sequence (ctx.bind depth names) use.last (base + v.size) (depth + names.length) body
    pure (if use = .tail then v ++ b else (v ++ b).skipping names.length)
  | .and pos es => Fragment.marked pos <$> do
    if es.isEmpty then pure (op .truth)
    else
      let fs ← operands ctx use.last base depth es
      joinOperands ctx ((es.map Expr.pos).headD pos) .jumpIfNot base fs
  | .or pos es => Fragment.marked pos <$> do
    if es.isEmpty then pure (op .falsity)
    else
      let fs ← operands ctx use.last base depth es
      joinOperands ctx ((es.map Expr.pos).headD pos) .jumpIf base fs
  | .lambda pos name params body => Fragment.marked pos <$>
    function ctx pos name params (Expr.freeNames name params body) fun inner slots =>
      sequence inner .tail 0 slots body
  | .define pos name _ => refuse pos (.misplacedDefine name)
  | .const pos name _ => refuse pos (.misplacedConst name)
termination_by structural e => e

/-- A missing alternative is the unit value. -/
def otherwise (ctx : Context) (use : Use) (base depth : Nat) : Option Expr → Lower Fragment
  | none => pure (op .unit)
  | some e => expr ctx use base depth e
termination_by structural e => e

/-- The value of a sequence is that of its last expression. -/
def sequence (ctx : Context) (use : Use) (base depth : Nat) : List Expr → Lower Fragment
  | [] => pure (op .unit)
  | [e] => expr ctx use base depth e
  | e :: rest => do
    let f ← expr ctx .value base depth e
    let g ← sequence ctx use (base + f.size) depth rest
    pure (f ++ g)
termination_by structural es => es

/-- Pushes the values of all expressions. -/
def arguments (ctx : Context) (base depth : Nat) : List Expr → Lower Fragment
  | [] => pure {}
  | e :: rest => do
    let f ← expr ctx .value base depth e
    let g ← arguments ctx (base + f.pushed.size) (depth + 1) rest
    pure (f.pushed ++ g)
termination_by structural es => es

/-- Pushes the values of all expressions but the last, whose value stays in the register. -/
def spread (ctx : Context) (base depth : Nat) : List Expr → Lower Fragment
  | [] => pure {}
  | [e] => expr ctx .value base depth e
  | e :: rest => do
    let f ← expr ctx .value base depth e
    let g ← spread ctx (base + f.pushed.size) (depth + 1) rest
    pure (f.pushed ++ g)
termination_by structural es => es

/-- Code for the operands of `and` and `or`, with room for a jump behind each but the last. -/
def operands (ctx : Context) (use : Use) (base depth : Nat) : List Expr → Lower (List Fragment)
  | [] => pure []
  | [e] => do
    let f ← expr ctx use base depth e
    pure [f]
  | e :: rest => do
    let f ← expr ctx .value base depth e
    let fs ← operands ctx use (base + f.size + Fragment.jumpSize) depth rest
    pure (f :: fs)
termination_by structural es => es

/-- Code for one of several expressions. -/
def operandAt (ctx : Context) (use : Use) (base depth : Nat) (i : Nat) :
    List Expr → Lower Fragment
  | [] => pure (op .unit)
  | e :: rest =>
    match i with
    | 0 => expr ctx use base depth e
    | i + 1 => operandAt ctx use base depth i rest
termination_by structural es => es

/-- Pushes the values of a `let`; each takes the next slot. -/
def values (ctx : Context) (base depth : Nat) : List (Binding Expr) → Lower Fragment
  | [] => pure {}
  | ⟨_, pos, e⟩ :: rest => do
    if depth ≥ Limit.slots then refuse pos (.tooManySlots ctx.owner)
    let f ← expr ctx .value base depth e
    let g ← values ctx (base + f.pushed.size) (depth + 1) rest
    pure (f.pushed ++ g)
termination_by structural bs => bs
end

theorem expr_literal (ctx : Context) (use : Use) (base depth : Nat) (pos : Position) (v : Value) :
    expr ctx use base depth (.literal pos v) = Fragment.marked pos <$> load ctx pos v := by
  rw [expr]

end Lower
end StackLisp
