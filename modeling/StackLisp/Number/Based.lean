import StackLisp.Number.Literal

/-! Integers of 64 bits whose base may be marked, as in `0x1f`, `0b11`, `0o17` and `017`. -/
namespace StackLisp.Number

open Text (hexValue?)

/-- The value of a digit or a letter, whatever the base. -/
def digitValue? (b : UInt8) : Option Nat :=
  if Text.isDigit b then some (b.toNat - 48)
  else if 97 ≤ lowerAscii b ∧ lowerAscii b ≤ 122 then some ((lowerAscii b).toNat - 87)
  else none

/-- Reads digits of a base into a word of 64 bits, passing over underscores. -/
def readWordIn (base : Nat) : Nat → Bytes → Except Fault Nat
  | n, [] => .ok n
  | n, b :: rest =>
    if b = 95 then readWordIn base n rest
    else match digitValue? b with
      | none => .error .malformed
      | some d =>
        if d ≥ base then .error .malformed
        else if base * n + d < wordSize then readWordIn base (base * n + d) rest
        else .error .outOfRange

/-- The base a text is marked with, and its digits. A mark needs a digit behind it. -/
def splitBase : Bytes → Nat × Bytes
  | 48 :: x :: d :: rest =>
    if lowerAscii x = 98 then (2, d :: rest)
    else if lowerAscii x = 111 then (8, d :: rest)
    else if lowerAscii x = 120 then (16, d :: rest)
    else (8, x :: d :: rest)
  | 48 :: rest => (8, rest)
  | digits => (10, digits)

def readBased (text : Bytes) : Except Fault Int := do
  let (negative, body) := splitSign text
  if body = [] then throw .malformed
  let (base, digits) := splitBase body
  let n ← readWordIn base 0 digits
  if 95 ∈ digits ∧ !underscoresOk body then throw .malformed
  let i : Int := if negative then -(n : Int) else n
  if minInt ≤ i ∧ i ≤ maxInt then pure i else throw .outOfRange

end StackLisp.Number
