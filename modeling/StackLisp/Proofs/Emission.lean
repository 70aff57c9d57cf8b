import StackLisp.Proofs.Fragment
import StackLisp.Proofs.Success

/-! The code of every part of a program, as rules. Each rule says all that a successful step of the
compiler does, so that properties of code are proved by induction on the rules. -/
namespace StackLisp

open Fragment (op instr jumpSize)
open Lower (Yields)

/-- A part of a program that becomes one piece of code. -/
inductive Part where
  | expr (e : Expr)
  /-- An expression whose place is not marked. -/
  | bare (e : Expr)
  | otherwise (no : Option Expr)
  | sequence (es : List Expr)
  | arguments (es : List Expr)
  | spread (es : List Expr)
  /-- Operands up to the first whose truth decides. -/
  | operands (decisive : Bool) (es : List Expr)
  | operandAt (i : Nat) (es : List Expr)
  | values (bs : List (Binding Expr))
  | function (pos : Position) (name : Bytes) (params free : List Bytes) (body : List Expr)

/-- The expressions that a part is made of. -/
def Part.exprs : Part → List Expr
  | .expr e | .bare e => [e]
  | .otherwise no => no.toList
  | .sequence es | .arguments es | .spread es | .operands _ es | .operandAt _ es => es
  | .values bs => bs.map Binding.value
  | .function pos _ params _ body => [.lambda pos [] params body]

theorem Use.last_of_ne_tail {use : Use} (h : use ≠ .tail) : use.last = .value := by
  cases use with
  | tail => exact absurd rfl h
  | _ => rfl

theorem Use.last_ne_test (use : Use) : use.last ≠ .test := by
  cases use <;> simp [last]

namespace Lower

/-- A condition that is tested through its operand. -/
def strips (ctx : Context) : Expr → Bool
  | .call _ fn args => isNegation ctx fn args.length
  | _ => false

/-- The jump that is taken when the register has the given truth. -/
def branchOn (truth : Bool) : Opcode := if truth then .jumpIf else .jumpIfNot

/-- The function with the given body. -/
def finished (ctx : Context) (pos : Position) (name : Bytes) (params : List Bytes)
    (captures : Nat) (body : Fragment) (d : Draft) : Function :=
  { name
    params := params.length
    captures
    constants := d.pool
    code := some (body.marked pos).returning.code
    locals := d.slots
    filename := ctx.options.filename
    locations := (body.marked pos).returning.locations }

/-- The loads of the captured slots. -/
def captureLoads (captured : List (Bytes × Nat)) : Fragment :=
  ⟨captured.map fun c => .instr (.indexed .loadPush c.2), false⟩

/-- Loads the function at index `i` of the pool. -/
def loadFunction (captured : List (Bytes × Nat)) (i : Nat) : Fragment :=
  if captured = [] then instr (.indexed .const i)
  else captureLoads captured ++ op .buildClosure [i, captured.length]

end Lower

open Lower

/-- The code `f` of a part, for the given use, behind the offset `base` and above `depth` values;
the draft changes from `d` to `d'`. -/
inductive Emits : Context → Use → Nat → Nat → Part → Draft → Fragment → Draft → Prop where
  | marked {ctx use base depth e d f d'} :
      (use = .test → strips ctx e = false) → Emits ctx use base depth (.bare e) d f d' →
      Emits ctx use base depth (.expr e) d (f.marked e.pos) d'
  | negation {ctx base depth pos fn args d f d'} :
      isNegation ctx fn args.length = true →
      Emits ctx .test base depth (.operandAt 0 args) d f d' →
      Emits ctx .test base depth (.expr (.call pos fn args)) d f d'
  | literal {ctx use base depth pos v d f d'} :
      Yields (load ctx pos v) d f d' →
      Emits ctx use base depth (.bare (.literal pos v)) d f d'
  | ident {ctx use base depth pos name d f d'} :
      Yields (loadName ctx pos name) d f d' →
      Emits ctx use base depth (.bare (.ident pos name)) d f d'
  | callSelf {ctx use base depth pos fn args d a d'} :
      args.length ≤ Limit.arguments → Yields (callee ctx fn) d .self d →
      args.length = ctx.frame.params →
      Emits ctx .value base depth (.arguments args) d a d' →
      Emits ctx use base depth (.bare (.call pos fn args)) d
        (a ++ op (if use = .tail then .tailCallSelf else .callSelf) [args.length]) d'
  | callNamed {ctx use base depth pos fn args v i d d₁ a d'} :
      args.length ≤ Limit.arguments → Yields (callee ctx fn) d (.named v) d →
      Yields (checkArity ctx pos v args.length) d () d → Yields (intern ctx fn.pos v) d i d₁ →
      Emits ctx .value base depth (.arguments args) d₁ a d' →
      Emits ctx use base depth (.bare (.call pos fn args)) d
        (a ++ instr (.indexed .callConst i [args.length])) d'
  | callFolded {ctx use base depth pos fn args b v d f d'} :
      args.length ≤ Limit.arguments → Yields (callee ctx fn) d (.builtin b) d →
      b.arity.accepts args.length = true → (Expr.call pos fn args).fold? ctx = some v →
      Yields (load ctx pos v) d f d' →
      Emits ctx use base depth (.bare (.call pos fn args)) d f d'
  | callOperand {ctx use base depth pos fn args b i d f d'} :
      args.length ≤ Limit.arguments → Yields (callee ctx fn) d (.builtin b) d →
      b.arity.accepts args.length = true → (Expr.call pos fn args).fold? ctx = none →
      shortcut? b (args.map fun e => e.fold? ctx) = some (.operand i) →
      Emits ctx .value base depth (.operandAt i args) d f d' →
      Emits ctx use base depth (.bare (.call pos fn args)) d f d'
  | callUnary {ctx use base depth pos fn args b c i d f d'} :
      args.length ≤ Limit.arguments → Yields (callee ctx fn) d (.builtin b) d →
      b.arity.accepts args.length = true → (Expr.call pos fn args).fold? ctx = none →
      shortcut? b (args.map fun e => e.fold? ctx) = some (.unary c i) →
      Emits ctx .value base depth (.operandAt i args) d f d' →
      Emits ctx use base depth (.bare (.call pos fn args)) d (f.pushed ++ callBuiltin c 1) d'
  | callStep {ctx use base depth pos fn args b o i d f d'} :
      args.length ≤ Limit.arguments → Yields (callee ctx fn) d (.builtin b) d →
      b.arity.accepts args.length = true → (Expr.call pos fn args).fold? ctx = none →
      shortcut? b (args.map fun e => e.fold? ctx) = some (.step o i) →
      Emits ctx .value base depth (.operandAt i args) d f d' →
      Emits ctx use base depth (.bare (.call pos fn args)) d (f ++ op o) d'
  | callPlain {ctx use base depth pos fn args b d a d'} :
      args.length ≤ Limit.arguments → Yields (callee ctx fn) d (.builtin b) d →
      b.arity.accepts args.length = true → (Expr.call pos fn args).fold? ctx = none →
      shortcut? b (args.map fun e => e.fold? ctx) = none →
      Emits ctx .value base depth (.arguments args) d a d' →
      Emits ctx use base depth (.bare (.call pos fn args)) d (a ++ callBuiltin b args.length) d'
  | callComputed {ctx use base depth pos fn args d f d₁ a d'} :
      args.length ≤ Limit.arguments → Yields (callee ctx fn) d .computed d →
      Emits ctx .value base depth (.expr fn) d f d₁ →
      Emits ctx .value (base + f.pushed.size) (depth + 1) (.arguments args) d₁ a d' →
      Emits ctx use base depth (.bare (.call pos fn args)) d
        (f.pushed ++ a ++ op .call [args.length]) d'
  | applySelf {ctx use base depth pos fn args d a d'} :
      args ≠ [] → args.length - 1 ≤ Limit.arguments → Yields (callee ctx fn) d .self d →
      args.length - 1 ≤ ctx.frame.params →
      Emits ctx .value base depth (.spread args) d a d' →
      Emits ctx use base depth (.bare (.apply pos fn args)) d
        (a ++ op (if use = .tail then .tailApplySelf else .applySelf) [args.length - 1]) d'
  | applyComputed {ctx use base depth pos fn args c d f d₁ a d'} :
      args ≠ [] → args.length - 1 ≤ Limit.arguments → Yields (callee ctx fn) d c d → c ≠ .self →
      Emits ctx .value base depth (.expr fn) d f d₁ →
      Emits ctx .value (base + f.pushed.size) (depth + 1) (.spread args) d₁ a d' →
      Emits ctx use base depth (.bare (.apply pos fn args)) d
        (f.pushed ++ a ++ op .apply [args.length - 1]) d'
  | condTrue {ctx use base depth pos test yes no d f d'} :
      test.fold? ctx = some (.bool true) → Emits ctx use.last base depth (.expr yes) d f d' →
      Emits ctx use base depth (.bare (.cond pos test yes no)) d f d'
  | condFalse {ctx use base depth pos test yes no d f d'} :
      test.fold? ctx = some (.bool false) → Emits ctx use.last base depth (.otherwise no) d f d' →
      Emits ctx use base depth (.bare (.cond pos test yes no)) d f d'
  | condTail {ctx base depth pos test yes no target d t d₁ y d₂ n d'} :
      (∀ b, test.fold? ctx ≠ some (.bool b)) →
      Emits ctx .test base depth (.expr test) d t d₁ →
      Emits ctx .tail (base + t.size + jumpSize) depth (.expr yes) d₁ y d₂ →
      target = base + t.size + jumpSize + y.returning.size → target ≤ Limit.target →
      Emits ctx .tail target depth (.otherwise no) d₂ n d' →
      Emits ctx .tail base depth (.bare (.cond pos test yes no)) d
        (t ++ op (branchOn (negated ctx test)) [target] ++ y.returning ++ n) d'
  | condValue {ctx use base depth pos test yes no target d t d₁ y d₂ n d'} :
      use ≠ .tail → (∀ b, test.fold? ctx ≠ some (.bool b)) →
      Emits ctx .test base depth (.expr test) d t d₁ →
      Emits ctx .value (base + t.size + jumpSize) depth (.expr yes) d₁ y d₂ →
      target = base + t.size + jumpSize + y.size + jumpSize → target ≤ Limit.target →
      Emits ctx .value target depth (.otherwise no) d₂ n d' → target + n.size ≤ Limit.target →
      Emits ctx use base depth (.bare (.cond pos test yes no)) d
        (t ++ op (branchOn (negated ctx test)) [target] ++ y ++ op .jump [target + n.size]
          ++ n).landed d'
  | block {ctx use base depth pos body d f d'} :
      Emits ctx use.last base depth (.sequence body) d f d' →
      Emits ctx use base depth (.bare (.block pos body)) d f d'
  | letTail {ctx base depth pos bindings body d v d₁ b d'} :
      Emits ctx .value base depth (.values bindings) d v d₁ →
      Emits (ctx.bind depth (bindings.map Binding.name)) .tail (base + v.size)
        (depth + bindings.length) (.sequence body)
        { d₁ with slots := nameSlots d₁.slots depth (bindings.map Binding.name) } b d' →
      Emits ctx .tail base depth (.bare (.letIn pos bindings body)) d (v ++ b) d'
  | letValue {ctx use base depth pos bindings body d v d₁ b d'} :
      use ≠ .tail → Emits ctx .value base depth (.values bindings) d v d₁ →
      Emits (ctx.bind depth (bindings.map Binding.name)) .value (base + v.size)
        (depth + bindings.length) (.sequence body)
        { d₁ with slots := nameSlots d₁.slots depth (bindings.map Binding.name) } b d' →
      Emits ctx use base depth (.bare (.letIn pos bindings body)) d
        ((v ++ b).skipping bindings.length) d'
  | andEmpty {ctx use base depth pos d} :
      Emits ctx use base depth (.bare (.and pos [])) d (op .truth) d
  | orEmpty {ctx use base depth pos d} :
      Emits ctx use base depth (.bare (.or pos [])) d (op .falsity) d
  | and {ctx use base depth pos es d f d'} :
      es ≠ [] → Emits ctx use.last base depth (.operands false es) d f d' →
      Emits ctx use base depth (.bare (.and pos es)) d f d'
  | or {ctx use base depth pos es d f d'} :
      es ≠ [] → Emits ctx use.last base depth (.operands true es) d f d' →
      Emits ctx use base depth (.bare (.or pos es)) d f d'
  | lambda {ctx use base depth pos name params body d f d'} :
      Emits ctx .value base depth
        (.function pos name params (Expr.freeNames name params body) body) d f d' →
      Emits ctx use base depth (.bare (.lambda pos name params body)) d f d'
  | function {ctx base depth pos name params free body captured d b inner} :
      firstRepeated? [] params = none → captured = capturedBy ctx name free →
      captured.length ≤ Limit.captures → params.length + captured.length ≤ Limit.slots →
      params.length ≤ Limit.arguments →
      Emits (ctx.enter name params (captured.map Prod.fst)) .tail 0
        (params.length + captured.length) (.sequence body)
        { slots := params ++ captured.map Prod.fst, functions := d.functions } b inner →
      d.pool.length < Limit.constants →
      Emits ctx .value base depth (.function pos name params free body) d
        (loadFunction captured d.pool.length)
        { d with
          pool := d.pool ++ [.function inner.functions.length]
          functions :=
            inner.functions ++ [finished ctx pos name params captured.length b inner] }
  | otherwiseNone {ctx use base depth d} :
      Emits ctx use base depth (.otherwise none) d (op .unit) d
  | otherwiseSome {ctx use base depth e d f d'} :
      Emits ctx use base depth (.expr e) d f d' →
      Emits ctx use base depth (.otherwise (some e)) d f d'
  | sequenceNil {ctx use base depth d} :
      Emits ctx use base depth (.sequence []) d (op .unit) d
  | sequenceOne {ctx use base depth e d f d'} :
      Emits ctx use base depth (.expr e) d f d' →
      Emits ctx use base depth (.sequence [e]) d f d'
  | sequenceCons {ctx use base depth e rest d f d₁ g d'} :
      rest ≠ [] → Emits ctx .value base depth (.expr e) d f d₁ →
      Emits ctx use (base + f.size) depth (.sequence rest) d₁ g d' →
      Emits ctx use base depth (.sequence (e :: rest)) d (f ++ g) d'
  | argumentsNil {ctx base depth d} : Emits ctx .value base depth (.arguments []) d {} d
  | argumentsCons {ctx base depth e rest d f d₁ g d'} :
      Emits ctx .value base depth (.expr e) d f d₁ →
      Emits ctx .value (base + f.pushed.size) (depth + 1) (.arguments rest) d₁ g d' →
      Emits ctx .value base depth (.arguments (e :: rest)) d (f.pushed ++ g) d'
  | spreadOne {ctx base depth e d f d'} :
      Emits ctx .value base depth (.expr e) d f d' →
      Emits ctx .value base depth (.spread [e]) d f d'
  | spreadCons {ctx base depth e rest d f d₁ g d'} :
      rest ≠ [] → Emits ctx .value base depth (.expr e) d f d₁ →
      Emits ctx .value (base + f.pushed.size) (depth + 1) (.spread rest) d₁ g d' →
      Emits ctx .value base depth (.spread (e :: rest)) d (f.pushed ++ g) d'
  | operandsOne {ctx use base depth decisive e d f d'} :
      Emits ctx use base depth (.expr e) d f d' →
      Emits ctx use base depth (.operands decisive [e]) d f d'
  | operandsCons {ctx use base depth decisive e rest stop d f d₁ g d'} :
      rest ≠ [] → Emits ctx .value base depth (.expr e) d f d₁ →
      Emits ctx use (base + f.size + jumpSize) depth (.operands decisive rest) d₁ g d' →
      stop = base + f.size + jumpSize + g.size → stop ≤ Limit.target →
      Emits ctx use base depth (.operands decisive (e :: rest)) d
        (f ++ op (branchOn decisive) [stop] ++ g).landed d'
  | operandAt {ctx use base depth i es e d f d'} :
      es[i]? = some e → Emits ctx use base depth (.expr e) d f d' →
      Emits ctx use base depth (.operandAt i es) d f d'
  | operandAtNone {ctx use base depth i es d} :
      es[i]? = none → Emits ctx use base depth (.operandAt i es) d (op .unit) d
  | valuesNil {ctx base depth d} : Emits ctx .value base depth (.values []) d {} d
  | valuesCons {ctx base depth name pos e rest d f d₁ g d'} :
      depth < Limit.slots → Emits ctx .value base depth (.expr e) d f d₁ →
      Emits ctx .value (base + f.pushed.size) (depth + 1) (.values rest) d₁ g d' →
      Emits ctx .value base depth (.values (⟨name, pos, e⟩ :: rest)) d (f.pushed ++ g) d'

end StackLisp
