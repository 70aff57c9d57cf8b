import StackLisp.Instruction.Opcode

/-! Instructions and their encoding: one byte of code, then its operands, one byte each. -/
namespace StackLisp

open Text (lit decimal)

structure Instruction where
  op : Opcode
  operands : List Nat := []
deriving DecidableEq, Repr

namespace Instruction

def size (i : Instruction) : Nat := 1 + i.operands.length

def bytes (i : Instruction) : Bytes :=
  i.op.number.toUInt8 :: i.operands.map Nat.toUInt8

/-- The instruction has the operands of its code and each fits in a byte. -/
def Fits (i : Instruction) : Prop :=
  i.operands.length = i.op.operandCount ∧ ∀ o ∈ i.operands, o < 256

/-- Addresses an index within a family, in the shortest form. -/
def indexed (f : Family) (index : Nat) (extra : List Nat := []) : Instruction :=
  if h : index < 8 then ⟨.compact f ⟨index, h⟩, extra⟩ else ⟨.wide f, index :: extra⟩

/-- The code with an index operand, which a family's code absorbs if it is small. -/
def addressed (op : Opcode) (index : Nat) : Instruction :=
  match op with
  | .wide f => indexed f index
  | op => ⟨op, [index]⟩

/-- The constant an instruction addresses. -/
def poolIndex? (i : Instruction) : Option Nat :=
  match i.op with
  | .compact f k => if f.isSlot then none else some k
  | .wide f => if f.isSlot then none else i.operands.head?
  | .setDef | .buildClosure => i.operands.head?
  | _ => none

/-- The local slot an instruction reads. -/
def slot? (i : Instruction) : Option Nat :=
  match i.op with
  | .compact f k => if f.isSlot then some k else none
  | .wide f => if f.isSlot then i.operands.head? else none
  | _ => none

/-- The number of arguments a call takes from the stack. -/
def argCount? (i : Instruction) : Option Nat :=
  match i.op with
  | .callSys => some 1
  | .callSysArgs | .wide .callConst => i.operands[1]?
  | .callSelf | .tailCallSelf | .applySelf | .tailApplySelf | .call | .apply
  | .compact .callConst _ => i.operands.head?
  | _ => none

/-- The offset a jump leads to. -/
def target? (i : Instruction) : Option Nat := if i.op.isJump then i.operands.head? else none

def render (i : Instruction) : Bytes :=
  Text.join (lit " ") (i.op.name :: i.operands.map decimal)

/-- An instruction with the offset of its first byte. -/
structure Placed where
  offset : Nat
  instr : Instruction
deriving DecidableEq, Repr

/-- Why code does not split into instructions. -/
inductive DecodeFault where
  | unknown (code offset : Nat)
  | truncated (op : Opcode) (offset : Nat)
deriving DecidableEq, Repr

def DecodeFault.message : DecodeFault → Bytes
  | unknown code offset => lit "invalid opcode " ++ decimal code ++ lit " at offset " ++ decimal offset
  | truncated op offset => lit "truncated " ++ op.name ++ lit " at offset " ++ decimal offset

/-- The instructions of the longest prefix that can be decoded, and what stopped there. -/
def decodeFrom (offset : Nat) : Bytes → List Placed × Option DecodeFault
  | [] => ([], none)
  | b :: rest =>
    match Opcode.ofNumber? b.toNat with
    | none => ([], some (.unknown b.toNat offset))
    | some op =>
      match op.operandCount, rest with
      | 0, rest =>
        let (out, fault) := decodeFrom (offset + 1) rest
        (⟨offset, ⟨op, []⟩⟩ :: out, fault)
      | 1, x :: rest =>
        let (out, fault) := decodeFrom (offset + 2) rest
        (⟨offset, ⟨op, [x.toNat]⟩⟩ :: out, fault)
      | 2, x :: y :: rest =>
        let (out, fault) := decodeFrom (offset + 3) rest
        (⟨offset, ⟨op, [x.toNat, y.toNat]⟩⟩ :: out, fault)
      | _, _ => ([], some (.truncated op offset))

/-- The instructions of code that splits completely. -/
def decode (code : Bytes) : Except DecodeFault (List Placed) :=
  match decodeFrom 0 code with
  | (out, none) => .ok out
  | (_, some fault) => .error fault

def encode (is : List Instruction) : Bytes := is.flatMap bytes

end Instruction
end StackLisp
