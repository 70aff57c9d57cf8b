import StackLisp.Number.Double

/-! Arithmetic on floating-point numbers: the exact result on units, rounded once. An operand that
is not a number is returned, the first of two. -/
namespace StackLisp.Double

def toUnits (negative : Bool) (units : Nat) : Int := if negative then -(units : Int) else units

def neg (x : Double) : Double := ⟨x.bits ^^^ signBit⟩

def abs (x : Double) : Double := ⟨x.bits &&& 0x7FFFFFFFFFFFFFFF⟩

/-- A sum of opposite numbers is positive zero; a zero keeps its sign only if both are negative. -/
def addFinite (s : Bool) (a : Nat) (t : Bool) (b : Nat) : Double :=
  let sum := toUnits s a + toUnits t b
  if sum = 0 then zero (s && t) else ofUnits (sum < 0) sum.natAbs

def add (x y : Double) : Double :=
  match x.view, y.view with
  | .nan, _ => x.quiet
  | _, .nan => y.quiet
  | .infinite s, .infinite t => if s = t then x else invalid
  | .infinite _, _ => x
  | _, .infinite _ => y
  | .finite s a, .finite t b => addFinite s a t b

def sub (x y : Double) : Double := if y.isNaN then add x y else add x y.neg

def mul (x y : Double) : Double :=
  match x.view, y.view with
  | .nan, _ => x.quiet
  | _, .nan => y.quiet
  | .infinite s, .infinite t => infinity (s ^^ t)
  | .infinite s, .finite t b => if b = 0 then invalid else infinity (s ^^ t)
  | .finite s a, .infinite t => if a = 0 then invalid else infinity (s ^^ t)
  | .finite s a, .finite t b =>
    if a * b = 0 then zero (s ^^ t) else ofRatio (s ^^ t) (a * b) (one * one)

def div (x y : Double) : Double :=
  match x.view, y.view with
  | .nan, _ => x.quiet
  | _, .nan => y.quiet
  | .infinite _, .infinite _ => invalid
  | .infinite s, .finite t _ => infinity (s ^^ t)
  | .finite s _, .infinite t => zero (s ^^ t)
  | .finite s a, .finite t b =>
    if b = 0 then if a = 0 then invalid else infinity (s ^^ t)
    else if a = 0 then zero (s ^^ t) else ofRatio (s ^^ t) a b

/-- The remainder of the division that drops the fraction, with the sign of `x`. -/
def rem (x y : Double) : Double :=
  match x.view, y.view with
  | .finite s a, .finite _ b =>
    if b = 0 then quietNaN else if a % b = 0 then zero s else ofUnits s (a % b)
  | .finite _ _, .infinite _ => x
  | _, _ => quietNaN

inductive Rounding where
  | down
  | up
  | nearest
  | toZero
deriving DecidableEq, Repr

/-- Rounds a magnitude in units to a whole number; a half goes away from zero. -/
def roundMagnitude (mode : Rounding) (negative : Bool) (units : Nat) : Nat :=
  let whole := units / one
  let part := units % one
  match mode with
  | .toZero => whole
  | .nearest => if 2 * part ≥ one then whole + 1 else whole
  | .down => if part ≠ 0 ∧ negative then whole + 1 else whole
  | .up => if part ≠ 0 ∧ ¬ negative then whole + 1 else whole

/-- The sign stays, also when the result is zero. -/
def round (mode : Rounding) (x : Double) : Double :=
  match x.view with
  | .finite s a =>
    let n := roundMagnitude mode s a
    if n = 0 then zero s else ofRatio s n 1
  | _ => x

/-- The order of two numbers, both zeros being equal. -/
def compare? (x y : Double) : Option Ordering :=
  match x.view, y.view with
  | .nan, _ | _, .nan => none
  | .infinite s, .infinite t => some (compare t s)
  | .infinite s, .finite _ _ => some (if s then .lt else .gt)
  | .finite _ _, .infinite t => some (if t then .gt else .lt)
  | .finite s a, .finite t b => some (compare (toUnits s a) (toUnits t b))

def isZero (x : Double) : Bool :=
  match x.view with
  | .finite _ a => a == 0
  | _ => false

end StackLisp.Double
