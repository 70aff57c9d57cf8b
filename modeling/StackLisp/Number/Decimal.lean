import StackLisp.Number.Double
import StackLisp.Text.Bytes

/-! The shortest decimal text of a floating-point number that reads back as that number. A unit
is 5^1074 / 10^1074, so every finite number is a whole number of 10^-1074. -/
namespace StackLisp

/-- A decimal `0.d₁d₂… · 10^point` without trailing zeros. -/
structure Decimal where
  digits : List Nat
  point : Int
deriving DecidableEq, Repr

namespace Decimal

def digitsOf (n : Nat) : List Nat := (Nat.toDigits 10 n).map fun c => c.toNat - 48

def dropTrailingZeros (ds : List Nat) : List Nat := (ds.reverse.dropWhile (· = 0)).reverse

/-- The decimal `n · 10^exponent`. -/
def ofScaled (n : Nat) (exponent : Int) : Decimal :=
  let ds := digitsOf n
  ⟨dropTrailingZeros ds, ds.length + exponent⟩

/-- How many times 10^-1074 goes into a unit. -/
def unit : Nat := Nat.pow 5 1074

/-- Bounds, in halves of 10^-1074, of the numbers that round to `x`. -/
structure Neighbourhood where
  low : Nat
  high : Nat
  closed : Bool

def neighbourhood (x : Double) : Neighbourhood :=
  let units := x.significand * x.gap
  let below := if x.fractionField = 0 ∧ x.exponentField > 1 then x.gap / 2 else x.gap
  ⟨(2 * units - below) * unit, (2 * units + x.gap) * unit, x.significand % 2 = 0⟩

def Neighbourhood.contains (b : Neighbourhood) (n : Nat) : Bool :=
  if b.closed then b.low ≤ n && n ≤ b.high else b.low < n && n < b.high

/-- The nearer of the two multiples of `grid` beside `n` that lie in the neighbourhood, halfway the
even one. -/
def onGrid (b : Neighbourhood) (n grid : Nat) : Option Nat :=
  let d := n / grid
  let down := b.contains (2 * d * grid)
  let up := b.contains (2 * (d + 1) * grid)
  if down && up then some (Double.divideEven n grid)
  else if down then some d
  else if up then some (d + 1)
  else none

/-- Tries grids with more and more digits, from `size - steps` places on. -/
def firstOnGrid (b : Neighbourhood) (n places : Nat) : Nat → Option Decimal
  | 0 => none
  | steps + 1 =>
    match onGrid b n (Nat.pow 10 places) with
    | some d => some (ofScaled d ((places : Int) - 1074))
    | none => firstOnGrid b n (places - 1) steps

/-- The fewest digits that read back as `x`, and of those the nearest to `x`. -/
def shortest (x : Double) : Decimal :=
  let n := x.significand * x.gap * unit
  let size := (digitsOf n).length
  (firstOnGrid (neighbourhood x) n (size - 1) 17).getD (ofScaled n (-1074))

def digitBytes (ds : List Nat) : Bytes := ds.map fun d => (48 + d).toUInt8

/-- Scientific notation, with a sign and at least two digits in the exponent. -/
def scientific (d : Decimal) : Bytes :=
  let e := d.point - 1
  let exponent := Text.decimal e.natAbs
  digitBytes (d.digits.take 1)
    ++ (if d.digits.length > 1 then Text.lit "." ++ digitBytes (d.digits.drop 1) else [])
    ++ (if e < 0 then Text.lit "e-" else Text.lit "e+")
    ++ (if exponent.length < 2 then Text.lit "0" ++ exponent else exponent)

def positional (d : Decimal) : Bytes :=
  if d.point ≤ 0 then
    Text.lit "0." ++ Text.repeated (-d.point).toNat 48 ++ digitBytes d.digits
  else
    let whole := d.point.toNat
    digitBytes (d.digits.take whole) ++ Text.repeated (whole - d.digits.length) 48
      ++ (if d.digits.length > whole then Text.lit "." ++ digitBytes (d.digits.drop whole) else [])

/-- Positional for exponents from -4 to 5. -/
def render (d : Decimal) : Bytes :=
  if d.digits = [] then Text.lit "0"
  else if d.point - 1 < -4 ∨ d.point - 1 ≥ 6 then d.scientific
  else d.positional

end Decimal

namespace Double

/-- The text of a number in its shortest form; a whole number keeps a point. -/
def render (x : Double) : Bytes :=
  match x.view with
  | .nan => Text.lit "NaN"
  | .infinite negative => if negative then Text.lit "-Inf" else Text.lit "+Inf"
  | .finite negative _ =>
    let text := (Decimal.shortest x).render
    let text := if text.any fun b => b = 46 || b = 101 then text else text ++ Text.lit ".0"
    if negative then Text.lit "-" ++ text else text

end Double
end StackLisp
