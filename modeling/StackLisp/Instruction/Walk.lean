import StackLisp.Instruction

/-! Walking through code from one offset to the next, without splitting it first. -/
namespace StackLisp.Instruction

/-- The instruction that starts at an offset. There is none where the byte is no operation code or
too few operands follow it. -/
def startingAt? (code : Bytes) (offset : Nat) : Option Placed :=
  match code.drop offset with
  | [] => none
  | b :: rest =>
    match Opcode.ofNumber? b.toNat with
    | none => none
    | some op =>
      if op.operandCount ≤ rest.length then
        some ⟨offset, ⟨op, (rest.take op.operandCount).map UInt8.toNat⟩⟩
      else none

theorem lt_length_of_startingAt? {code : Bytes} {offset : Nat} {p : Placed}
    (h : startingAt? code offset = some p) : offset < code.length := by
  unfold startingAt? at h
  split at h
  · cases h
  · next hdrop =>
    have hlength := congrArg List.length hdrop
    rw [List.length_drop, List.length_cons] at hlength
    omega

/-- The instructions from an offset on. The walk just ends where no instruction starts. -/
def walkFrom (code : Bytes) (offset : Nat) : List Placed :=
  match _h : startingAt? code offset with
  | none => []
  | some p => p :: walkFrom code (offset + p.instr.size)
termination_by code.length - offset
decreasing_by
  have hlt := lt_length_of_startingAt? _h
  have hsize : p.instr.size = 1 + p.instr.operands.length := rfl
  omega

/-- The instructions that are met on a walk through code. -/
def walk (code : Bytes) : List Placed := walkFrom code 0

end StackLisp.Instruction
