import StackLisp.Text.Bytes

/-! Operation codes of the machine. It has a value register and a stack: loads write the register,
their push forms also push, and calls take their arguments from the stack. -/
namespace StackLisp

/-- Instructions that address a slot or a constant by index. -/
inductive Family where
  | load
  | loadPush
  | const
  | constPush
  | getDef
  | getDefPush
  | callConst
deriving DecidableEq, Repr

/-- An index below eight is part of the compact code; the wide code has it as an operand. -/
inductive Opcode where
  | wide (f : Family)
  | compact (f : Family) (index : Fin 8)
  | push
  | unit
  | unitPush
  | truth
  | truthPush
  | falsity
  | falsityPush
  | setDef
  | buildClosure
  | jump
  | jumpIf
  | jumpIfNot
  | inc
  | dec
  | callSys
  | callSysArgs
  | callSelf
  | tailCallSelf
  | applySelf
  | tailApplySelf
  | call
  | apply
  | skip
  | ret
deriving DecidableEq, Repr

namespace Family

def all : List Family := [load, loadPush, const, constPush, getDef, getDefPush, callConst]

/-- The number of the wide code; the eight compact ones follow it. -/
def number : Family → Nat
  | load => 1
  | loadPush => 10
  | const => 19
  | constPush => 28
  | getDef => 37
  | getDefPush => 46
  | callConst => 55

def name : Family → String
  | load => "LOAD"
  | loadPush => "LOAD_PUSH"
  | const => "CONST"
  | constPush => "CONST_PUSH"
  | getDef => "GET_DEF"
  | getDefPush => "GET_DEF_PUSH"
  | callConst => "CALL_CONST"

/-- Operands besides the index. -/
def extraOperands : Family → Nat
  | callConst => 1
  | _ => 0

/-- The family that also pushes what is loaded. -/
def pushForm : Family → Option Family
  | load => some loadPush
  | const => some constPush
  | getDef => some getDefPush
  | _ => none

/-- The others address the constant pool. -/
def isSlot : Family → Bool
  | load | loadPush => true
  | _ => false

end Family

namespace Opcode

/-- The codes outside the indexed families, in the order of their numbers. -/
def plain : List Opcode :=
  [push, unit, unitPush, truth, truthPush, falsity, falsityPush, setDef, buildClosure, jump,
    jumpIf, jumpIfNot, inc, dec, callSys, callSysArgs, callSelf, tailCallSelf, applySelf,
    tailApplySelf, call, apply, skip, ret]

def number : Opcode → Nat
  | wide f => f.number
  | compact f i => f.number + 1 + i
  | push => 64
  | unit => 65
  | unitPush => 66
  | truth => 67
  | truthPush => 68
  | falsity => 69
  | falsityPush => 70
  | setDef => 71
  | buildClosure => 72
  | jump => 73
  | jumpIf => 74
  | jumpIfNot => 75
  | inc => 76
  | dec => 77
  | callSys => 78
  | callSysArgs => 79
  | callSelf => 80
  | tailCallSelf => 81
  | applySelf => 82
  | tailApplySelf => 83
  | call => 84
  | apply => 85
  | skip => 86
  | ret => 87

/-- The code with the given number; zero and the numbers above 87 have none. -/
def ofNumber? (n : Nat) : Option Opcode :=
  if n = 0 then none
  else if n < 64 then
    match Family.all[(n - 1) / 9]? with
    | none => none
    | some f =>
      let k := (n - 1) % 9
      if k = 0 then some (wide f) else some (compact f (Fin.ofNat 8 (k - 1)))
  else plain[n - 64]?

def name : Opcode → Bytes
  | wide f => Text.lit f.name
  | compact f i => Text.lit f.name ++ Text.lit "_" ++ Text.decimal i
  | push => Text.lit "PUSH"
  | unit => Text.lit "UNIT"
  | unitPush => Text.lit "UNIT_PUSH"
  | truth => Text.lit "TRUE"
  | truthPush => Text.lit "TRUE_PUSH"
  | falsity => Text.lit "FALSE"
  | falsityPush => Text.lit "FALSE_PUSH"
  | setDef => Text.lit "SET_DEF"
  | buildClosure => Text.lit "BUILD_CLOSURE"
  | jump => Text.lit "JUMP"
  | jumpIf => Text.lit "JUMP_IF"
  | jumpIfNot => Text.lit "JUMP_IF_NOT"
  | inc => Text.lit "INC"
  | dec => Text.lit "DEC"
  | callSys => Text.lit "CALL_SYS"
  | callSysArgs => Text.lit "CALL_SYS_ARGS"
  | callSelf => Text.lit "CALL_SELF"
  | tailCallSelf => Text.lit "TAIL_CALL_SELF"
  | applySelf => Text.lit "APPLY_SELF"
  | tailApplySelf => Text.lit "TAIL_APPLY_SELF"
  | call => Text.lit "CALL"
  | apply => Text.lit "APPLY"
  | skip => Text.lit "SKIP"
  | ret => Text.lit "RETURN"

def operandCount : Opcode → Nat
  | wide f => f.extraOperands + 1
  | compact f _ => f.extraOperands
  | buildClosure | callSysArgs => 2
  | setDef | jump | jumpIf | jumpIfNot | callSys | callSelf | tailCallSelf | applySelf
  | tailApplySelf | call | apply | skip => 1
  | push | unit | unitPush | truth | truthPush | falsity | falsityPush | inc | dec | ret => 0

/-- The code that loads the same value and pushes it; it has the same operands. -/
def pushForm : Opcode → Option Opcode
  | wide f => f.pushForm.map wide
  | compact f i => f.pushForm.map (compact · i)
  | unit => some unitPush
  | truth => some truthPush
  | falsity => some falsityPush
  | _ => none

/-- The index a compact code holds, and the wide code of its family. -/
def implicitIndex : Opcode → Option (Nat × Opcode)
  | compact f i => some (i, wide f)
  | _ => none

/-- Control never passes on to what follows. -/
def isTerminal : Opcode → Bool
  | ret | tailCallSelf | tailApplySelf => true
  | _ => false

def isJump : Opcode → Bool
  | jump | jumpIf | jumpIfNot => true
  | _ => false

end Opcode
end StackLisp
