import StackLisp.Function
import StackLisp.Proofs.Encoding

/-! The processor of compiled code: a value register, and a stack whose first places are the
slots of the running function. What calls compute is left to a runtime that may keep a state. -/
namespace StackLisp

/-- What the processor asks of the runtime. -/
inductive Request (V : Type) where
  | definition (name : Bytes)
  | define (name : Bytes) (v : V)
  | closure (c : Constant) (captured : List V)
  | increment (v : V)
  | decrement (v : V)
  | builtin (id : Nat) (args : List V)
  | named (callee : Value) (args : List V)
  | call (fn : V) (args : List V)
  | self (args : List V)
  | apply (fn : V) (args : List V) (rest : V)
  | applySelf (args : List V) (rest : V)

/-- What constants stand for, which values count as true, and an answer to every request that may
depend on a state and change it. -/
structure Runtime (V S : Type) where
  constant : Constant → V
  truthy : V → Bool
  answer : Request V → S → V × S

/-- The state of the runtime, and all requests made so far. -/
structure World (V S : Type) where
  state : S
  asked : List (Request V)

namespace Runtime

variable {V S : Type}

def ask (rt : Runtime V S) (r : Request V) : StateM (World V S) V := fun w =>
  let (v, s) := rt.answer r w.state
  (v, ⟨s, w.asked ++ [r]⟩)

def ofValue (rt : Runtime V S) (v : Value) : V := rt.constant (.value v)

end Runtime

/-- A runtime with the constant pool and the code of a function. -/
structure Processor (V S : Type) where
  runtime : Runtime V S
  pool : List Constant
  code : Bytes

namespace Processor

/-- The stack has its oldest value first, so that slots count from the front. -/
structure Config (V S : Type) where
  pc : Nat
  register : V
  stack : List V
  world : World V S

inductive Outcome (V S : Type) where
  | running (c : Config V S)
  | returned (v : V) (w : World V S)

variable {V S : Type}

/-- The load that led here also pushes. -/
def Outcome.push : Outcome V S → Outcome V S
  | running c => running { c with stack := c.stack ++ [c.register] }
  | returned v w => returned v w

/-- Splits the newest `n` values off the stack. -/
def pop (n : Nat) (stack : List V) : Option (List V × List V) :=
  if n ≤ stack.length then some (stack.splitAt (stack.length - n)) else none

@[simp] theorem pop_append (stack args : List V) :
    pop args.length (stack ++ args) = some (stack, args) := by
  simp [pop]

variable (m : Processor V S)

/-- Puts a value in the register and goes on. -/
def load (c : Config V S) (next : Nat) (v : V) : Outcome V S :=
  .running { c with pc := next, register := v }

/-- The answer to a request comes in the register. -/
def request (c : Config V S) (next : Nat) (stack : List V) (r : Request V) : Outcome V S :=
  let (v, w) := m.runtime.ask r c.world
  .running ⟨next, v, stack, w⟩

/-- The answer to a request is the result of the function. -/
def finish (c : Config V S) (r : Request V) : Outcome V S :=
  let (v, w) := m.runtime.ask r c.world
  .returned v w

def executeIndexed (k : Nat) (next : Nat) (c : Config V S) :
    Family → List Nat → Option (Outcome V S)
  | .load, [] => c.stack[k]?.map (load c next)
  | .loadPush, [] => c.stack[k]?.map fun v => (load c next v).push
  | .const, [] => m.pool[k]?.map fun x => load c next (m.runtime.constant x)
  | .constPush, [] => m.pool[k]?.map fun x => (load c next (m.runtime.constant x)).push
  | .getDef, [] =>
    match m.pool[k]? with
    | some (.value (.name n)) => some (m.request c next c.stack (.definition n))
    | _ => none
  | .getDefPush, [] =>
    match m.pool[k]? with
    | some (.value (.name n)) => some (m.request c next c.stack (.definition n)).push
    | _ => none
  | .callConst, [n] =>
    match m.pool[k]?, pop n c.stack with
    | some (.value v), some (stack, args) => some (m.request c next stack (.named v args))
    | _, _ => none
  | _, _ => none

/-- One instruction; `next` is the offset behind it. -/
def execute (i : Instruction) (next : Nat) (c : Config V S) : Option (Outcome V S) :=
  match i.op, i.operands with
  | .compact f k, extra => m.executeIndexed k next c f extra
  | .wide f, k :: extra => m.executeIndexed k next c f extra
  | .push, [] => some (load c next c.register).push
  | .unit, [] => some (load c next (m.runtime.ofValue .unit))
  | .unitPush, [] => some (load c next (m.runtime.ofValue .unit)).push
  | .truth, [] => some (load c next (m.runtime.ofValue (.bool true)))
  | .truthPush, [] => some (load c next (m.runtime.ofValue (.bool true))).push
  | .falsity, [] => some (load c next (m.runtime.ofValue (.bool false)))
  | .falsityPush, [] => some (load c next (m.runtime.ofValue (.bool false))).push
  | .setDef, [k] =>
    match m.pool[k]? with
    | some (.value (.name n)) => some (m.request c next c.stack (.define n c.register))
    | _ => none
  | .buildClosure, [k, n] =>
    match m.pool[k]?, pop n c.stack with
    | some x, some (stack, captured) => some (m.request c next stack (.closure x captured))
    | _, _ => none
  | .jump, [t] => some (.running { c with pc := t })
  | .jumpIf, [t] =>
    some (.running { c with pc := if m.runtime.truthy c.register then t else next })
  | .jumpIfNot, [t] =>
    some (.running { c with pc := if m.runtime.truthy c.register then next else t })
  | .inc, [] => some (m.request c next c.stack (.increment c.register))
  | .dec, [] => some (m.request c next c.stack (.decrement c.register))
  | .callSys, [id] => (pop 1 c.stack).map fun (stack, args) =>
      m.request c next stack (.builtin id args)
  | .callSysArgs, [id, n] => (pop n c.stack).map fun (stack, args) =>
      m.request c next stack (.builtin id args)
  | .callSelf, [n] => (pop n c.stack).map fun (stack, args) => m.request c next stack (.self args)
  | .tailCallSelf, [n] => (pop n c.stack).map fun (_, args) => m.finish c (.self args)
  | .applySelf, [n] => (pop n c.stack).map fun (stack, args) =>
      m.request c next stack (.applySelf args c.register)
  | .tailApplySelf, [n] => (pop n c.stack).map fun (_, args) =>
      m.finish c (.applySelf args c.register)
  | .call, [n] =>
    match pop (n + 1) c.stack with
    | some (stack, fn :: args) => some (m.request c next stack (.call fn args))
    | _ => none
  | .apply, [n] =>
    match pop (n + 1) c.stack with
    | some (stack, fn :: args) => some (m.request c next stack (.apply fn args c.register))
    | _ => none
  | .skip, [n] => (pop n c.stack).map fun (stack, _) => .running { c with pc := next, stack }
  | .ret, [] => some (.returned c.register c.world)
  | _, _ => none

/-- The instruction at an offset. -/
def fetch (code : Bytes) (pc : Nat) : Option Instruction :=
  (Instruction.decodeFrom pc (code.drop pc)).1.head?.map Instruction.Placed.instr

def step (c : Config V S) : Option (Outcome V S) :=
  (fetch m.code c.pc).bind fun i => m.execute i (c.pc + i.size) c

/-- Execution from `c` comes to the given outcome. -/
inductive Runs : Config V S → Outcome V S → Prop where
  | refl (c : Config V S) : Runs c (.running c)
  | next {c c' : Config V S} {o : Outcome V S} :
      m.step c = some (.running c') → Runs c' o → Runs c o
  | stop {c : Config V S} {v : V} {w : World V S} :
      m.step c = some (.returned v w) → Runs c (.returned v w)

/-- The instructions stand at the given offset of the code, and can be read back from it. -/
structure Holds (base : Nat) (is : List Instruction) : Prop where
  split : ∃ before behind, m.code = before ++ Instruction.encode is ++ behind ∧
    before.length = base
  fits : ∀ i ∈ is, i.Fits

variable {m : Processor V S} {base : Nat} {is js : List Instruction}

theorem Runs.trans {c c' : Config V S} {o : Outcome V S} (h : m.Runs c (.running c'))
    (h' : m.Runs c' o) : m.Runs c o := by
  generalize ho : Outcome.running c' = o' at h
  induction h with
  | refl c =>
    cases ho
    exact h'
  | next hs _ ih => exact .next hs (ih ho)
  | stop => cases ho

theorem Holds.left (h : m.Holds base (is ++ js)) : m.Holds base is := by
  obtain ⟨before, behind, hcode, hlen⟩ := h.split
  refine ⟨⟨before, Instruction.encode js ++ behind, ?_, hlen⟩, fun i hi => h.fits i ?_⟩
  · simp [hcode, Instruction.encode]
  · exact List.mem_append_left _ hi

theorem Holds.right (h : m.Holds base (is ++ js)) :
    m.Holds (base + Instruction.totalSize is) js := by
  obtain ⟨before, behind, hcode, hlen⟩ := h.split
  refine ⟨⟨before ++ Instruction.encode is, behind, ?_, ?_⟩, fun i hi => h.fits i ?_⟩
  · simp [hcode, Instruction.encode]
  · simp [hlen]
  · exact List.mem_append_right _ hi

theorem Holds.fetch {i : Instruction} (h : m.Holds base [i]) : fetch m.code base = some i := by
  obtain ⟨before, behind, hcode, hlen⟩ := h.split
  have hdrop : m.code.drop base = i.bytes ++ behind := by
    simp [hcode, ← hlen, Instruction.encode]
  simp [Processor.fetch, hdrop, Instruction.decodeFrom_bytes (h.fits i (by simp))]

/-- What the instruction at an offset does is what the processor does there. -/
theorem Holds.step {i : Instruction} {c : Config V S} (h : m.Holds c.pc [i]) :
    m.step c = m.execute i (c.pc + i.size) c := by
  simp [Processor.step, h.fetch]

end Processor
end StackLisp
