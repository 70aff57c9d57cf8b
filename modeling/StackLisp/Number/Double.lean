/-! Binary floating-point numbers of 64 bits, as bit patterns with exact values. Every finite one
is a whole number of units of 2^-1074. -/
namespace StackLisp

structure Double where
  bits : UInt64
deriving DecidableEq, Repr, Inhabited

namespace Double

inductive View where
  | nan
  | infinite (negative : Bool)
  | finite (negative : Bool) (units : Nat)
deriving DecidableEq, Repr

def signBit : UInt64 := 0x8000000000000000

def isNegative (x : Double) : Bool := x.bits &&& signBit != 0

/-- The value of the leading bit of a normal significand: the fraction has 52 bits. -/
def leadingBit : Nat := 0x10000000000000

/-- The eleven bits of the exponent. -/
def exponentField (x : Double) : Nat := x.bits.toNat / leadingBit % 2048

def fractionField (x : Double) : Nat := x.bits.toNat % leadingBit

/-- The distance, in units, to the next larger magnitude. -/
def gap (x : Double) : Nat := Nat.pow 2 (x.exponentField - 1)

/-- The significand, with the leading bit of normal numbers. -/
def significand (x : Double) : Nat :=
  if x.exponentField = 0 then x.fractionField else leadingBit + x.fractionField

def view (x : Double) : View :=
  if x.exponentField = 2047 then
    if x.fractionField = 0 then .infinite x.isNegative else .nan
  else .finite x.isNegative (x.significand * x.gap)

def isNaN (x : Double) : Bool := x.view == .nan

def isInfinite (x : Double) : Bool :=
  match x.view with
  | .infinite _ => true
  | _ => false

/-- The number of units in one. -/
def one : Nat := Nat.pow 2 1074

def signed (negative : Bool) (magnitude : UInt64) : Double :=
  ⟨if negative then signBit ||| magnitude else magnitude⟩

def infinity (negative : Bool) : Double := signed negative 0x7FF0000000000000

def zero (negative : Bool) : Double := signed negative 0

/-- The result of an operation on operands for which it is undefined. -/
def invalid : Double := ⟨0xFFF8000000000000⟩

/-- The number that reads as not-a-number. -/
def quietNaN : Double := ⟨0x7FF8000000000001⟩

def quiet (x : Double) : Double := ⟨x.bits ||| 0x0008000000000000⟩

/-- The quotient rounded to the nearest whole number, a half going to the even neighbour. -/
def divideEven (n d : Nat) : Nat :=
  let q := n / d
  let r := n % d
  if 2 * r > d ∨ (2 * r = d ∧ q % 2 = 1) then q + 1 else q

/-- The exponent above the least with which the quotient has 53 bits, or zero below that. -/
def scaleOf (n d : Nat) : Nat :=
  let k := n.log2 + 1074 - d.log2 - 53
  if n * one / (d * Nat.pow 2 k) ≥ 2 * leadingBit then k + 1 else k

/-- The number nearest to `n / d`, ties to even, and an infinity beyond the largest. -/
def ofRatio (negative : Bool) (n d : Nat) : Double :=
  if n = 0 then zero negative
  else
    let k := scaleOf n d
    let magnitude := k * leadingBit + divideEven (n * one) (d * Nat.pow 2 k)
    if magnitude < 2047 * leadingBit then signed negative magnitude.toUInt64 else infinity negative

def ofUnits (negative : Bool) (units : Nat) : Double := ofRatio negative units one

def ofInt (i : Int) : Double := ofRatio (i < 0) i.natAbs 1

end Double
end StackLisp
