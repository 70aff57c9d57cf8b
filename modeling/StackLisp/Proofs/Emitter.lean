import StackLisp.Compilation

/-! Compilation into a buffer of bytes. Instructions are written one behind the other, a jump gets
its target when the target is reached, and a load that was just written may become one that pushes.
What the compiler takes for granted about operands, jumps and arguments is checked; where it does
not hold there is a defect, which is not the same as a refusal of the program. Everything of which
there is only so much is asked for before it is used. -/
namespace StackLisp

/-- Something that the compiler takes for granted and that does not hold. -/
inductive Defect where
  | operandCount (op : Opcode) (count : Nat)
  | operandRange (op : Opcode) (operand : Nat)
  | indexRange (index : Nat)
  | outsideCode (position : Nat)
  | openJumps (count : Int)
  | missingArgument (index : Nat)
deriving DecidableEq, Repr

/-- Why compilation ends without code. -/
inductive Stop where
  | refused (r : LocatedRefusal)
  | misplacedTail (op : Opcode) (pos : Position)
  | defect (d : Defect)
deriving DecidableEq, Repr

/-- Something of which there is only so much: an entry of the pool for a value or for a function,
the slot above `depth` others, captured locals, slots for parameters and captured locals together,
parameters, arguments, the arguments of an `apply` before its list, and the target of a jump. -/
inductive Need where
  | value (v : Value) (pool : List Constant)
  | function (pool : List Constant)
  | slot (depth : Nat)
  | captures (count : Nat)
  | locals (count : Nat)
  | parameters (count : Nat)
  | arguments (count : Nat)
  | leading (count : Nat)
  | target (offset : Nat)

namespace Need

/-- There is enough. A value that is in the pool needs no other entry. -/
def Met : Need → Prop
  | value v pool => .value v ∈ pool ∨ pool.length < 256
  | function pool => pool.length < 256
  | slot depth => depth < 256
  | locals count => count ≤ 256
  | captures count | parameters count | arguments count | leading count => count ≤ 255
  | target offset => offset ≤ 255

instance : DecidablePred Met
  | value _ _ => inferInstanceAs (Decidable (_ ∨ _))
  | function _ | slot _ => inferInstanceAs (Decidable (_ < _))
  | locals _ | captures _ | parameters _ | arguments _ | leading _ | target _ =>
    inferInstanceAs (Decidable (_ ≤ _))

/-- The refusal of a program that needs too much. -/
def refusal (owner : Owner) : Need → Refusal
  | value _ _ | function _ => .tooManyConstants owner
  | slot _ => .tooManySlots owner
  | captures count => .tooManyCaptures count
  | locals count => .tooManyLocals count
  | parameters count => .tooManyParameters count
  | arguments count => .tooManyArguments count
  | leading count => .tooManyLeading count
  | target offset => .jumpTooFar offset owner

end Need

/-- A need, with the place in the program and the function that has it. -/
structure Demand where
  need : Need
  pos : Position
  owner : Owner

def Demand.refusal (q : Demand) : LocatedRefusal := ⟨q.need.refusal q.owner, q.pos⟩

/-- The code of a function as far as it is written: `last` is the offset of its last instruction,
`label` the offset where a jump was last told to lead, and `pending` the number of jumps that have
no target yet. -/
structure Buffer where
  bytes : Bytes := []
  locations : List SourceLocation := []
  last : Option Nat := none
  label : Option Nat := none
  pending : Int := 0
deriving DecidableEq, Repr

namespace Buffer

def offset (b : Buffer) : Nat := b.bytes.length

def lastOp? (b : Buffer) : Option Opcode :=
  b.last.bind fun start => b.bytes[start]?.bind fun byte => Opcode.ofNumber? byte.toNat

/-- A jump leads right behind what is written. -/
def isLabelled (b : Buffer) : Bool := b.label = some b.offset

/-- Control cannot reach the end of what is written. -/
def terminated (b : Buffer) : Bool := !b.isLabelled && b.lastOp?.any Opcode.isTerminal

/-- Adds a place of the source. It replaces the last one if that has the same offset. -/
def place (offset : Nat) (pos : Position) (ls : List SourceLocation) : List SourceLocation :=
  let l : SourceLocation := ⟨offset, pos.lineNumber, pos.columnNumber⟩
  if ls.getLast?.map SourceLocation.offset = some (offset : Int) then ls.dropLast ++ [l]
  else ls ++ [l]

def mark (b : Buffer) (pos : Position) : Buffer :=
  { b with locations := place b.offset pos b.locations }

def write (b : Buffer) (i : Instruction) : Buffer :=
  { b with bytes := b.bytes ++ i.bytes, last := some b.offset }

/-- The load that was just written also pushes, if there is such a load and no jump skips it. -/
def pushLast? (b : Buffer) : Option Buffer :=
  if b.isLabelled then none
  else do
    let start ← b.last
    let op ← b.lastOp?
    let pushing ← op.pushForm
    some { b with bytes := b.bytes.set start pushing.number.toUInt8 }

/-- The jump whose operand has the given position leads here. -/
def land (b : Buffer) (position : Nat) : Buffer :=
  { b with
    bytes := b.bytes.set position b.offset.toUInt8
    label := some b.offset
    pending := b.pending - 1 }

end Buffer

/-! ### Values known at compile time -/

namespace Folding

/-- The argument at an index. -/
def argument {α : Type} (args : List α) (i : Nat) : Except Defect α :=
  match args[i]? with
  | some a => .ok a
  | none => .error (.missingArgument i)

/-- The arguments behind the first. -/
def others {α : Type} : List α → Except Defect (List α)
  | [] => .error (.missingArgument 0)
  | _ :: rest => .ok rest

/-- Treats a single argument in one way, and a first argument before others in another. -/
def leading {α β : Type} (alone : α → β) (many : α → List α → β) (args : List α) :
    Except Defect β := do
  let a ← argument args 0
  if args.length = 1 then pure (alone a)
  else
    let rest ← others args
    pure (many a rest)

def checkedDifference (vs : List Value) : Except Defect (Option Value) :=
  match Numbers.ofValues? vs with
  | none => .ok none
  | some (.ints ns) =>
    leading (fun n => chainInt Checked.sub 0 [n]) (chainInt Checked.sub) ns
  | some (.floats xs) =>
    leading (fun x => some (.float x.neg)) (fun x ys => some (.float (ys.foldl Double.sub x))) xs

def checkedQuotient (div : Int64 → Int64 → Option Int64) (divFloat : Double → Double → Double)
    (vs : List Value) : Except Defect (Option Value) :=
  match Numbers.ofValues? vs with
  | none => .ok none
  | some (.ints ns) =>
    leading (fun n => chainInt (Checked.divide div) 1 [n]) (chainInt (Checked.divide div)) ns
  | some (.floats xs) =>
    leading (fun x => divideFloats divFloat (Double.ofInt 1) [x]) (divideFloats divFloat) xs

def checkedRemainder (vs : List Value) : Except Defect (Option Value) :=
  match Numbers.ofValues? vs with
  | none => .ok none
  | some (.ints ns) => do
    let b ← argument ns 1
    let a ← argument ns 0
    pure ((Checked.rem a b).map .int)
  | some (.floats xs) => do
    let y ← argument xs 1
    let x ← argument xs 0
    pure (if y.isZero then none else some (.float (x.rem y)))

def checkedExtremum (better : Ordering → Bool) (vs : List Value) : Except Defect (Option Value) :=
  if vs.all Value.isNumber then do
    let v ← argument vs 0
    let rest ← others vs
    pure (best better v rest)
  else .ok none

/-- The value of a function of one argument. -/
def checkedUnary (f : List Value → Option Value) (vs : List Value) :
    Except Defect (Option Value) := do
  let v ← argument vs 0
  pure (f [v])

end Folding

namespace Primitive

open Folding

/-- The value of a call whose arguments are taken by their indices. -/
def evaluate (p : Primitive) (args : List Value) : Except Defect (Option Value) :=
  match p with
  | sub => checkedDifference args
  | div => checkedQuotient Checked.exactQuotient Double.div args
  | floorDiv => checkedQuotient Checked.floorQuotient (fun x y => (x.div y).round .down) args
  | rem => checkedRemainder args
  | not | identity | floor | ceiling | round | truncate | abs => checkedUnary p.fold? args
  | min => checkedExtremum (· == .lt) args
  | max => checkedExtremum (· == .gt) args
  | _ => .ok (p.fold? args)

end Primitive

namespace Expr

mutual
/-- The value of an expression, computed with `Primitive.evaluate`. -/
def evaluate (ctx : Context) : Expr → Except Defect (Option Value)
  | literal _ v => .ok (some v)
  | ident _ n =>
    match ctx.resolve n with
    | .constant v => .ok (some v)
    | _ => .ok none
  | cond _ test yes none => do
    match ← evaluate ctx test with
    | some (.bool true) => evaluate ctx yes
    | some (.bool false) => .ok (some .unit)
    | _ => .ok none
  | cond _ test yes (some no) => do
    match ← evaluate ctx test with
    | some (.bool true) => evaluate ctx yes
    | some (.bool false) => evaluate ctx no
    | _ => .ok none
  | call _ (ident _ n) args =>
    match ctx.resolve n with
    | .builtin b =>
      if b.arity.accepts args.length then
        match b.primitive? with
        | none => .ok none
        | some p => do
          match ← evaluateAll ctx args with
          | none => .ok none
          | some vs => p.evaluate vs
      else .ok none
    | _ => .ok none
  | _ => .ok none
termination_by structural e => e

/-- The values of all expressions, if all have one. -/
def evaluateAll (ctx : Context) : List Expr → Except Defect (Option (List Value))
  | [] => .ok (some [])
  | e :: es => do
    match ← evaluate ctx e with
    | none => .ok none
    | some v => do
      let vs ← evaluateAll ctx es
      pure (vs.map (v :: ·))
termination_by structural es => es
end

end Expr

/-! ### Code -/

/-- The function that is being compiled: its code, and what is produced besides. `demands` is all
that was asked for since the form was begun. -/
structure Emitter.State where
  code : Buffer := {}
  draft : Draft := {}
  demands : List Demand := []

def Emitter.State.demanding (s : State) (q : Demand) : State :=
  { s with demands := s.demands ++ [q] }

abbrev Emitter := ExceptT Stop (StateM Emitter.State)

namespace Emitter

def refuse {α : Type} (pos : Position) (r : Refusal) : Emitter α := throw (.refused ⟨r, pos⟩)

def defect {α : Type} (d : Defect) : Emitter α := throw (.defect d)

/-- A step that does not write code. -/
def lift {α : Type} (m : Lower α) : Emitter α := fun s =>
  match m s.draft with
  | (.ok a, d) => (.ok a, { s with draft := d })
  | (.error r, d) => (.error (.refused r), { s with draft := d })

/-- Asks for something, and refuses the program if there is not enough of it. -/
def demand (ctx : Context) (pos : Position) (need : Need) : Emitter Unit := do
  modify fun s => s.demanding ⟨need, pos, ctx.owner⟩
  if ¬ need.Met then refuse pos (need.refusal ctx.owner)

/-- A step that needs an entry of the pool. -/
def entry (ctx : Context) (pos : Position) (need : List Constant → Need) (m : Lower Nat) :
    Emitter Nat := do
  demand ctx pos (need (← get).draft.pool)
  lift m

def intern (ctx : Context) (pos : Position) (v : Value) : Emitter Nat :=
  entry ctx pos (.value v) (Lower.intern ctx pos v)

def addFunction (ctx : Context) (pos : Position) (place : Nat) : Emitter Nat :=
  entry ctx pos .function (Lower.addConstant ctx pos (.function place))

def given {α : Type} : Except Defect α → Emitter α
  | .ok a => pure a
  | .error d => defect d

def mark (pos : Position) : Emitter Unit := modify fun s => { s with code := s.code.mark pos }

/-- Writes an instruction. Its code decides how many operands there are, and each is one byte. -/
def emit (i : Instruction) : Emitter Unit :=
  if i.operands.length ≠ i.op.operandCount then
    defect (.operandCount i.op i.operands.length)
  else
    match i.operands.find? (255 < ·) with
    | some o => defect (.operandRange i.op o)
    | none => modify fun s => { s with code := s.code.write i }

/-- Writes an instruction of a family. One byte must hold the index. -/
def emitIndexed (f : Family) (index : Nat) (extra : List Nat := []) : Emitter Unit :=
  if index.toUInt8.toNat ≠ index then defect (.indexRange index)
  else emit (.indexed f index.toUInt8.toNat extra)

def push : Emitter Unit := do
  match (← get).code.pushLast? with
  | some b => modify fun s => { s with code := b }
  | none => emit ⟨.push, []⟩

/-- Writes a jump without a target and gives the position of its operand. -/
def emitJump (o : Opcode) : Emitter Nat := do
  let start := (← get).code.offset
  emit ⟨o, [0]⟩
  modify fun s => { s with code.pending := s.code.pending + 1 }
  pure (start + 1)

/-- Lets a jump lead here. -/
def label (ctx : Context) (pos : Position) (position : Nat) : Emitter Unit := do
  let target := (← get).code.offset
  demand ctx pos (.target target)
  if position ≥ target then defect (.outsideCode position)
  modify fun s => { s with code := s.code.land position }

/-- Writes a return if control reaches the end. -/
def finish : Emitter Unit := do
  if !(← get).code.terminated then emit ⟨.ret, []⟩

/-- The finished code. All jumps must have their targets. -/
def build : Emitter Buffer := do
  let b := (← get).code
  if b.pending ≠ 0 then defect (.openJumps b.pending)
  pure b

/-- Writes a function into a buffer of its own. -/
def isolated (slots : List Bytes) (body : Emitter Unit) : Emitter (Buffer × Draft) := fun outer =>
  match (do body; finish; build : Emitter Buffer)
      { draft := { slots, functions := outer.draft.functions }, demands := outer.demands } with
  | (.ok b, s) => (.ok (b, s.draft),
      { outer with draft.functions := s.draft.functions, demands := s.demands })
  | (.error e, s) => (.error e,
      { outer with draft.functions := s.draft.functions, demands := s.demands })

def load (ctx : Context) (pos : Position) : Value → Emitter Unit
  | .unit => emit ⟨.unit, []⟩
  | .bool true => emit ⟨.truth, []⟩
  | .bool false => emit ⟨.falsity, []⟩
  | v => do
    let i ← intern ctx pos v
    emitIndexed .const i

def loadName (ctx : Context) (pos : Position) (name : Bytes) : Emitter Unit := do
  match ← lift (Lower.resolve ctx pos name) with
  | .slot s => emitIndexed .load s
  | .constant v => load ctx pos v
  | _ =>
    let i ← intern ctx pos (.name name)
    emitIndexed .getDef i

/-- A call of the function itself. The forms that reuse its frame are for tail position only. -/
def callSelf (pos : Position) (use : Use) (o : Opcode) (argc : Nat) : Emitter Unit :=
  if use ≠ .tail ∧ (o = .tailCallSelf ∨ o = .tailApplySelf) then throw (.misplacedTail o pos)
  else emit ⟨o, [argc]⟩

def callBuiltin (b : Builtin) (argc : Nat) : Emitter Unit :=
  if b.arity = .exactly 1 ∧ argc = 1 then emit ⟨.callSys, [b.id.toNat]⟩
  else emit ⟨.callSysArgs, [b.id.toNat, argc]⟩

/-- Drops values from the stack, as many at a time as one operand can count. -/
def skip (count : Nat) : Emitter Unit :=
  if count = 0 then pure ()
  else do
    emit ⟨.skip, [min count 255]⟩
    skip (count - 255)
termination_by count

/-- Pushes captured locals. -/
def captures : List (Bytes × Nat) → Emitter Unit
  | [] => pure ()
  | (_, slot) :: rest => do
    emitIndexed .load slot
    push
    captures rest

def checkFunction (ctx : Context) (pos : Position) (params : List Bytes) (captures : Nat) :
    Emitter Unit := do
  demand ctx pos (.captures captures)
  demand ctx pos (.locals (params.length + captures))
  demand ctx pos (.parameters params.length)

def function (ctx : Context) (pos : Position) (name : Bytes) (params free : List Bytes)
    (body : Context → Nat → Emitter Unit) : Emitter Unit := do
  if let some p := Lower.firstRepeated? [] params then refuse pos (.duplicateParameter p)
  let captured := Lower.capturedBy ctx name free
  let names := captured.map Prod.fst
  checkFunction ctx pos params names.length
  let (b, d) ← isolated (params ++ names) do
    mark pos
    body (ctx.enter name params names) (params.length + names.length)
  let place ← lift (Lower.complete {
    name
    params := params.length
    captures := names.length
    constants := d.pool
    code := some b.bytes
    locals := d.slots
    filename := ctx.options.filename
    locations := b.locations })
  let i ← addFunction ctx pos place
  if captured = [] then emitIndexed .const i
  else
    captures captured
    emit ⟨.buildClosure, [i, captured.length]⟩

mutual
def expr (ctx : Context) (use : Use) (depth : Nat) : Expr → Emitter Unit
  | .literal pos v => do
    mark pos
    load ctx pos v
  | .ident pos name => do
    mark pos
    loadName ctx pos name
  | .call pos fn args =>
    if use = .test ∧ Lower.isNegation ctx fn args.length then operandAt ctx .test depth 0 args
    else do
      mark pos
      let argc := args.length
      demand ctx pos (.arguments argc)
      match ← lift (Lower.callee ctx fn) with
      | .self =>
        if argc ≠ ctx.frame.params then
          refuse pos (.functionArity ctx.frame.name ctx.frame.params argc)
        arguments ctx depth args
        callSelf pos use (if use = .tail then .tailCallSelf else .callSelf) argc
      | .named v =>
        lift (Lower.checkArity ctx pos v argc)
        let i ← intern ctx fn.pos v
        arguments ctx depth args
        emitIndexed .callConst i [argc]
      | .builtin b =>
        if !b.arity.accepts argc then refuse pos (.builtinArity b.name b.arity argc)
        match ← given ((Expr.call pos fn args).evaluate ctx) with
        | some v => load ctx pos v
        | none =>
          let known ← given (args.mapM fun e => e.evaluate ctx)
          match Lower.shortcut? b known with
          | some (.operand i) => operandAt ctx .value depth i args
          | some (.unary b i) =>
            operandAt ctx .value depth i args
            push
            callBuiltin b 1
          | some (.step o i) =>
            operandAt ctx .value depth i args
            emit ⟨o, []⟩
          | none =>
            arguments ctx depth args
            callBuiltin b argc
      | .computed =>
        expr ctx .value depth fn
        push
        arguments ctx (depth + 1) args
        emit ⟨.call, [argc]⟩
  | .apply pos fn args => do
    mark pos
    if args.isEmpty then refuse pos .applyWithoutList
    let leading := args.length - 1
    demand ctx pos (.leading leading)
    match ← lift (Lower.callee ctx fn) with
    | .self =>
      if leading > ctx.frame.params then
        refuse pos (.leadingArity ctx.frame.name ctx.frame.params leading)
      spread ctx depth args
      callSelf pos use (if use = .tail then .tailApplySelf else .applySelf) leading
    | _ =>
      expr ctx .value depth fn
      push
      spread ctx (depth + 1) args
      emit ⟨.apply, [leading]⟩
  | .cond pos test yes no => do
    mark pos
    match ← given (test.evaluate ctx) with
    | some (.bool true) => expr ctx use.last depth yes
    | some (.bool false) => otherwise ctx use.last depth no
    | _ =>
      expr ctx .test depth test
      let toElse ← emitJump (if Lower.negated ctx test then .jumpIf else .jumpIfNot)
      expr ctx use.last depth yes
      if use = .tail then
        finish
        label ctx pos toElse
        otherwise ctx .tail depth no
      else
        let toEnd ← emitJump .jump
        label ctx pos toElse
        otherwise ctx .value depth no
        label ctx pos toEnd
  | .block pos body => do
    mark pos
    sequence ctx use.last depth body
  | .letIn pos bindings body => do
    mark pos
    values ctx depth bindings
    let names := bindings.map Binding.name
    lift (modify fun d => { d with slots := Lower.nameSlots d.slots depth names })
    sequence (ctx.bind depth names) use.last (depth + names.length) body
    if use = .tail then pure () else skip names.length
  | .and pos es => do
    mark pos
    if es.isEmpty then emit ⟨.truth, []⟩
    else
      let jumps ← operands ctx use.last depth .jumpIfNot es
      jumps.forM (label ctx ((es.map Expr.pos).headD pos))
  | .or pos es => do
    mark pos
    if es.isEmpty then emit ⟨.falsity, []⟩
    else
      let jumps ← operands ctx use.last depth .jumpIf es
      jumps.forM (label ctx ((es.map Expr.pos).headD pos))
  | .lambda pos name params body => do
    mark pos
    function ctx pos name params (Expr.freeNames name params body) fun inner slots =>
      sequence inner .tail slots body
  | .define pos name _ => refuse pos (.misplacedDefine name)
  | .const pos name _ => refuse pos (.misplacedConst name)
termination_by structural e => e

def otherwise (ctx : Context) (use : Use) (depth : Nat) : Option Expr → Emitter Unit
  | none => emit ⟨.unit, []⟩
  | some e => expr ctx use depth e
termination_by structural e => e

def sequence (ctx : Context) (use : Use) (depth : Nat) : List Expr → Emitter Unit
  | [] => emit ⟨.unit, []⟩
  | [e] => expr ctx use depth e
  | e :: rest => do
    expr ctx .value depth e
    sequence ctx use depth rest
termination_by structural es => es

def arguments (ctx : Context) (depth : Nat) : List Expr → Emitter Unit
  | [] => pure ()
  | e :: rest => do
    expr ctx .value depth e
    push
    arguments ctx (depth + 1) rest
termination_by structural es => es

/-- There must be a last expression, whose value stays in the register. -/
def spread (ctx : Context) (depth : Nat) : List Expr → Emitter Unit
  | [] => defect (.missingArgument 0)
  | [e] => expr ctx .value depth e
  | e :: rest => do
    expr ctx .value depth e
    push
    spread ctx (depth + 1) rest
termination_by structural es => es

/-- Writes operands with a jump behind each but the last, and gives the positions of the jumps. -/
def operands (ctx : Context) (use : Use) (depth : Nat) (branch : Opcode) :
    List Expr → Emitter (List Nat)
  | [] => pure []
  | [e] => do
    expr ctx use depth e
    pure []
  | e :: rest => do
    expr ctx .value depth e
    let jump ← emitJump branch
    let jumps ← operands ctx use depth branch rest
    pure (jump :: jumps)
termination_by structural es => es

/-- The expression at an index, which must exist. -/
def operandAt (ctx : Context) (use : Use) (depth : Nat) (i : Nat) : List Expr → Emitter Unit
  | [] => defect (.missingArgument i)
  | e :: rest =>
    match i with
    | 0 => expr ctx use depth e
    | i + 1 => operandAt ctx use depth i rest
termination_by structural es => es

def values (ctx : Context) (depth : Nat) : List (Binding Expr) → Emitter Unit
  | [] => pure ()
  | ⟨_, pos, e⟩ :: rest => do
    demand ctx pos (.slot depth)
    expr ctx .value depth e
    push
    values ctx (depth + 1) rest
termination_by structural bs => bs
end

theorem expr_literal (ctx : Context) (use : Use) (depth : Nat) (pos : Position) (v : Value) :
    expr ctx use depth (.literal pos v) = (do mark pos; load ctx pos v) := by
  rw [expr]

/-! ### Forms -/

def define (ctx : Context) (pos : Position) (name : Bytes) (value : Expr) : Emitter Unit := do
  let i ← intern ctx pos (.name name)
  match value with
  | .lambda place own params body =>
    mark place
    function ctx place name params (Expr.freeNames own params body) fun inner slots =>
      sequence inner .tail slots body
  | e => expr ctx .value 0 e
  emit ⟨.setDef, [i]⟩

def const (ctx : Context) (pos : Position) (name : Bytes) (value : Expr) : Emitter Value := do
  match ← given (value.evaluate ctx) with
  | none => refuse value.pos (.notConstant name value.render)
  | some v =>
    let i ← intern ctx pos (.name name)
    load ctx value.pos v
    emit ⟨.setDef, [i]⟩
    pure v

/-- Writes the code of a form and gives the environment behind it. -/
def formCode (ctx : Context) : Expr → Emitter Environment
  | .define pos name value => do
    define ctx pos name value
    pure (ctx.env.insert name (.definition (Compilation.arityOf value)))
  | .const pos name value => do
    let v ← const ctx pos name value
    pure (ctx.env.insert name (.constant v))
  | e => do
    expr ctx .tail 0 e
    pure ctx.env

/-- Compiles one form and tells what was asked for, also when the form is refused. -/
def form (ctx : Context) (e : Expr) : Except Stop (Image × Environment) × List Demand :=
  match (do let env ← formCode ctx e; finish; let b ← build; pure (b, env) :
      Emitter (Buffer × Environment)) {} with
  | (.error stop, s) => (.error stop, s.demands)
  | (.ok (b, env), s) =>
    let entry : Function := {
      constants := s.draft.pool
      code := some b.bytes
      locals := s.draft.slots
      filename := ctx.options.filename
      locations := b.locations }
    (.ok (⟨s.draft.functions ++ [entry]⟩, env), s.demands)

def formsFrom (options : CompileOptions) (declared : List (Bytes × Nat)) (env : Environment)
    (index : Nat) : List Expr → Except Stop Compilation × List Demand
  | [] => (.ok ⟨[], env⟩, [])
  | e :: rest =>
    match form { options, env, declared, form := index } e with
    | (.error stop, qs) => (.error stop, qs)
    | (.ok (image, env), qs) =>
      match formsFrom options declared env (index + 1) rest with
      | (.error stop, more) => (.error stop, qs ++ more)
      | (.ok c, more) => (.ok { c with images := image :: c.images }, qs ++ more)

/-- Compiles forms together. -/
def compile (options : CompileOptions) (env : Environment) (forms : List Expr) :
    Except Stop Compilation × List Demand :=
  match Compilation.declarations env [] 0 forms with
  | .error r => (.error (.refused r), [])
  | .ok declared => formsFrom options declared env 0 forms

end Emitter
end StackLisp
