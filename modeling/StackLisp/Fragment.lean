import StackLisp.Function
import StackLisp.Position

/-! Pieces of code as they are put together. -/
namespace StackLisp

/-- An instruction, or a mark that says where in the source the instructions behind it come
from. -/
inductive Item where
  | mark (pos : Position)
  | instr (i : Instruction)
deriving DecidableEq, Repr

/-- Code that leaves a value in the register. `landing` tells that a jump inside it may lead right
behind its end. -/
structure Fragment where
  items : List Item := []
  landing : Bool := false
deriving DecidableEq, Repr

namespace Fragment

/-- The second piece is never empty where landing matters. -/
def append (f g : Fragment) : Fragment := ⟨f.items ++ g.items, g.landing⟩

instance : Append Fragment := ⟨append⟩

def instr (i : Instruction) : Fragment := ⟨[.instr i], false⟩

def op (op : Opcode) (operands : List Nat := []) : Fragment := instr ⟨op, operands⟩

/-- A piece with a mark in front. -/
def marked (pos : Position) (f : Fragment) : Fragment := { f with items := .mark pos :: f.items }

/-- A jump leads right behind this piece. -/
def landed (f : Fragment) : Fragment := { f with landing := true }

def instructions (f : Fragment) : List Instruction :=
  f.items.filterMap fun
    | .instr i => some i
    | .mark _ => none

def size (f : Fragment) : Nat := f.instructions.foldr (fun i n => i.size + n) 0

/-- The size of a jump. -/
def jumpSize : Nat := 2

/-- Control cannot reach the end of the piece. -/
def terminated (f : Fragment) : Bool :=
  !f.landing && f.instructions.getLast?.any fun i => i.op.isTerminal

/-- The list with its last instruction in the form that pushes, if it has such a form. -/
def pushLast : List Item → Option (List Item)
  | [] => none
  | [.instr i] => i.op.pushForm.map fun op => [.instr { i with op }]
  | item :: rest => (pushLast rest).map (item :: ·)

/-- The piece followed by a push of its value. A load at the end becomes a load that pushes, unless
a jump may skip it. -/
def pushed (f : Fragment) : Fragment :=
  let separate := f ++ op .push
  if f.landing then separate
  else match pushLast f.items with
    | some items => ⟨items, false⟩
    | none => separate

/-- The piece followed by a return, if control reaches its end. -/
def returning (f : Fragment) : Fragment := if f.terminated then f else f ++ op .ret

/-- Drops values from the stack, as many at a time as one operand can count. -/
def skips (count : Nat) : List Item :=
  if h : count = 0 then []
  else .instr ⟨.skip, [min count 255]⟩ :: skips (count - 255)
termination_by count

def skipping (f : Fragment) (count : Nat) : Fragment :=
  if count = 0 then f else f ++ ⟨skips count, false⟩

def code (f : Fragment) : Bytes := f.instructions.flatMap Instruction.bytes

/-- The places in the source, by offset. Of two marks at one offset the later one counts. -/
def locationsFrom (offset : Nat) : List Item → List SourceLocation
  | [] => []
  | .instr i :: rest => locationsFrom (offset + i.size) rest
  | .mark p :: rest =>
    match rest with
    | .mark _ :: _ => locationsFrom offset rest
    | _ => ⟨offset, p.lineNumber, p.columnNumber⟩ :: locationsFrom offset rest

def locations (f : Fragment) : List SourceLocation := locationsFrom 0 f.items

end Fragment
end StackLisp
