import StackLisp.Builtin
import StackLisp.Number.Arithmetic
import StackLisp.Number.Checked
import StackLisp.Value

/-! System functions on values known at compile time. A call that would fail when run, such as a
division by zero or an overflow, has no value here. -/
namespace StackLisp

namespace Value

def toDouble? : Value → Option Double
  | int i => some (Double.ofInt i.toInt)
  | float x => some x
  | _ => none

def toInt64? : Value → Option Int64
  | int i => some i
  | _ => none

def toInt? (v : Value) : Option Int := v.toInt64?.map Int64.toInt

/-- Orders two values of the same type, or two numbers. -/
def compare? : Value → Value → Option Ordering
  | int a, int b => some (compare a.toInt b.toInt)
  | int a, float y => (Double.ofInt a.toInt).compare? y
  | float x, int b => x.compare? (Double.ofInt b.toInt)
  | float x, float y => x.compare? y
  | string s, string t => some (compare s t)
  | char c, char d => some (compare c.toInt d.toInt)
  | name m, name n => some (compare m n)
  | _, _ => none

/-- Equality as programs see it: numbers by value, all else by type and value. Values of different
types cannot be compared. -/
def equals? (a b : Value) : Option Bool :=
  match compare? a b with
  | some c => some (c == .eq)
  | none =>
    if a.isNumber && b.isNumber then some false
    else if a.typeName = b.typeName then some (a = b)
    else none

end Value

/-- Numbers all of one type: integers if all are, floats otherwise. -/
inductive Numbers where
  | ints (ns : List Int64)
  | floats (xs : List Double)
deriving DecidableEq, Repr

namespace Numbers

def ofValues? (vs : List Value) : Option Numbers :=
  match vs.mapM Value.toInt64? with
  | some ns => some (.ints ns)
  | none => (vs.mapM Value.toDouble?).map .floats

end Numbers

namespace Folding

/-- Applies an operation from left to right; every intermediate result must have a value. -/
def chainInt (step : Int64 → Int64 → Option Int64) : Int64 → List Int64 → Option Value
  | n, [] => some (.int n)
  | n, m :: rest => do
    let r ← step n m
    chainInt step r rest

def sum (vs : List Value) : Option Value := do
  match ← Numbers.ofValues? vs with
  | .ints ns => chainInt Checked.add 0 ns
  | .floats xs => some (.float (xs.foldl Double.add (Double.zero false)))

def product (vs : List Value) : Option Value := do
  match ← Numbers.ofValues? vs with
  | .ints ns => chainInt Checked.mul 1 ns
  | .floats xs => some (.float (xs.foldl Double.mul (Double.ofInt 1)))

/-- The first argument less the others; a single argument is negated. -/
def difference (vs : List Value) : Option Value := do
  match ← Numbers.ofValues? vs with
  | .ints [n] => chainInt Checked.sub 0 [n]
  | .ints (n :: ns) => chainInt Checked.sub n ns
  | .floats [x] => some (.float x.neg)
  | .floats (x :: xs) => some (.float (xs.foldl Double.sub x))
  | _ => none

def divideFloats (div : Double → Double → Double) : Double → List Double → Option Value
  | x, [] => some (.float x)
  | x, y :: ys => if y.isZero then none else divideFloats div (div x y) ys

/-- Divides the first argument by the others; one is divided by a single argument. -/
def quotient (div : Int64 → Int64 → Option Int64) (divFloat : Double → Double → Double)
    (vs : List Value) : Option Value := do
  match ← Numbers.ofValues? vs with
  | .ints [n] => chainInt (Checked.divide div) 1 [n]
  | .ints (n :: ns) => chainInt (Checked.divide div) n ns
  | .floats [x] => divideFloats divFloat (Double.ofInt 1) [x]
  | .floats (x :: xs) => divideFloats divFloat x xs
  | _ => none

def remainder (vs : List Value) : Option Value := do
  match ← Numbers.ofValues? vs with
  | .ints (a :: b :: _) => (Checked.rem a b).map .int
  | .floats (x :: y :: _) => if y.isZero then none else some (.float (x.rem y))
  | _ => none

/-- Neighbours are compared up to the first that differ. -/
def allEqual : List Value → Option Value
  | a :: b :: rest => do
    if ← a.equals? b then allEqual (b :: rest) else some (.bool false)
  | _ => some (.bool true)

/-- No later argument equals the first; true stands for that. -/
def differsFrom (a : Value) : List Value → Option Bool
  | [] => some true
  | b :: rest => do
    if ← a.equals? b then some false else differsFrom a rest

/-- All pairs are compared up to the first that are equal. -/
def allDifferent : List Value → Option Value
  | [] => some (.bool true)
  | a :: rest => do
    if ← differsFrom a rest then allDifferent rest else some (.bool false)

/-- All neighbours must be comparable, also behind the first that fail the test. -/
def ordered (test : Ordering → Bool) : List Value → Option Bool
  | a :: b :: rest => do
    let c ← a.compare? b
    let others ← ordered test (b :: rest)
    some (test c && others)
  | _ => some true

def chain (test : Ordering → Bool) (vs : List Value) : Option Value :=
  (ordered test vs).map .bool

def negation : List Value → Option Value
  | .bool b :: _ => some (.bool !b)
  | _ => none

def rounded (mode : Double.Rounding) : List Value → Option Value
  | .int i :: _ => some (.int i)
  | .float x :: _ => some (.float (x.round mode))
  | _ => none

def magnitude : List Value → Option Value
  | .int i :: _ => (Checked.abs i).map .int
  | .float x :: _ => some (.float x.abs)
  | _ => none

/-- Keeps the first of the arguments that none of the others beats. -/
def best (better : Ordering → Bool) : Value → List Value → Option Value
  | v, [] => some v
  | v, a :: rest => do
    let c ← a.compare? v
    best better (if better c then a else v) rest

def extremum (better : Ordering → Bool) : List Value → Option Value
  | [] => none
  | v :: vs => if (v :: vs).all Value.isNumber then best better v vs else none

end Folding

namespace Primitive

open Folding

/-- The value of a call on the given arguments, if it is computed at compile time. -/
def fold? (p : Primitive) (args : List Value) : Option Value :=
  match p with
  | add => sum args
  | sub => difference args
  | mul => product args
  | div => quotient Checked.exactQuotient Double.div args
  | floorDiv => quotient Checked.floorQuotient (fun x y => (x.div y).round .down) args
  | rem => remainder args
  | eq => allEqual args
  | notEq => allDifferent args
  | lt => chain (· == .lt) args
  | gt => chain (· == .gt) args
  | le => chain (· != .gt) args
  | ge => chain (· != .lt) args
  | not => negation args
  | identity => args.head?
  | floor => rounded .down args
  | ceiling => rounded .up args
  | round => rounded .nearest args
  | truncate => rounded .toZero args
  | abs => magnitude args
  | min => extremum (· == .lt) args
  | max => extremum (· == .gt) args
  | _ => none

end Primitive
end StackLisp
