import StackLisp.Number.Arithmetic
import StackLisp.Text.Bytes

/-! Reading of number literals: decimal integers of 64 bits, and decimal or hexadecimal
floating-point numbers with underscores between digits. -/
namespace StackLisp.Number

open Text (isDigit hexValue?)

inductive Fault where
  | malformed
  | outOfRange
deriving DecidableEq, Repr

def minInt : Int := -0x8000000000000000

def maxInt : Int := 0x7fffffffffffffff

/-- How many words of 64 bits there are. -/
def wordSize : Nat := 0x10000000000000000

/-- Reads digits into a word of 64 bits, refusing the first bad digit or the first overflow. -/
def readWord : Nat → Bytes → Except Fault Nat
  | n, [] => .ok n
  | n, d :: rest =>
    if isDigit d then
      let m := 10 * n + (d.toNat - 48)
      if m < wordSize then readWord m rest else .error .outOfRange
    else .error .malformed

/-- The sign of a literal and what follows it. -/
def splitSign : Bytes → Bool × Bytes
  | 43 :: rest => (false, rest)
  | 45 :: rest => (true, rest)
  | text => (false, text)

def readInt (text : Bytes) : Except Fault Int64 :=
  let (negative, digits) := splitSign text
  if digits = [] then .error .malformed
  else do
    let n ← readWord 0 digits
    let i : Int := if negative then -(n : Int) else n
    if minInt ≤ i ∧ i ≤ maxInt then return Int64.ofInt i else .error .outOfRange

def lowerAscii (b : UInt8) : UInt8 := b ||| 32

/-- What stands before a place of a literal, as far as underscores are concerned. -/
inductive Before where
  | start
  | digit
  | underscore
  | other
deriving DecidableEq

def underscoresFrom (hex : Bool) : Before → Bytes → Bool
  | before, [] => before != .underscore
  | before, b :: rest =>
    if isDigit b || (hex && (hexValue? b).isSome) then underscoresFrom hex .digit rest
    else if b = 95 then before == .digit && underscoresFrom hex .underscore rest
    else before != .underscore && underscoresFrom hex .other rest

/-- Every underscore stands between two digits; a base mark counts as a digit. -/
def underscoresOk (text : Bytes) : Bool :=
  match (splitSign text).2 with
  | 48 :: x :: rest =>
    if lowerAscii x = 120 then underscoresFrom true .digit rest
    else if lowerAscii x = 98 ∨ lowerAscii x = 111 then underscoresFrom false .digit rest
    else underscoresFrom false .start (48 :: x :: rest)
  | body => underscoresFrom false .start body

/-- The digits read so far: their value, how many stand behind the point, and whether there was a
point or any digit. -/
structure Mantissa where
  value : Nat := 0
  places : Nat := 0
  point : Bool := false
  any : Bool := false

def Mantissa.push (m : Mantissa) (base digit : Nat) : Mantissa :=
  { m with value := base * m.value + digit, places := if m.point then m.places + 1 else 0, any := true }

/-- Reads digits, at most one point and underscores, and returns what follows. -/
def readMantissa (base : Nat) (m : Mantissa) : Bytes → Mantissa × Bytes
  | [] => (m, [])
  | b :: rest =>
    if b = 95 then readMantissa base m rest
    else if b = 46 ∧ ¬ m.point then readMantissa base { m with point := true } rest
    else if isDigit b then readMantissa base (m.push base (b.toNat - 48)) rest
    else match (if base = 16 then hexValue? b else none) with
      | some d => readMantissa base (m.push base d) rest
      | none => (m, b :: rest)

/-- Reads an exponent's digits; once it has reached ten thousand further digits do not count. -/
def readExponent : Nat → Bytes → Option Nat
  | e, [] => some e
  | e, b :: rest =>
    if b = 95 then readExponent e rest
    else if isDigit b then readExponent (if e < 10000 then 10 * e + (b.toNat - 48) else e) rest
    else none

/-- The exponent behind its mark, which is absent at the end of the text. -/
def exponentAfter (mark : UInt8) : Bytes → Option (Option Int)
  | [] => some none
  | b :: rest =>
    if lowerAscii b = mark then
      let (negative, digits) := splitSign rest
      match digits with
      | d :: _ =>
        if isDigit d then
          (readExponent 0 digits).map fun e => some (if negative then -(e : Int) else e)
        else none
      | [] => none
    else none

/-- The number `value · 10^exponent`; far exponents are decided without computing the power. -/
def ofDecimal (negative : Bool) (value : Nat) (exponent : Int) : Double :=
  let size : Int := (Nat.toDigits 10 value).length
  if value = 0 then .zero negative
  else if size + exponent > 310 then .infinity negative
  else if size + exponent < -330 then .zero negative
  else if exponent ≥ 0 then .ofRatio negative (value * Nat.pow 10 exponent.toNat) 1
  else .ofRatio negative value (Nat.pow 10 (-exponent).toNat)

/-- The number `value · 2^exponent`. -/
def ofBinary (negative : Bool) (value : Nat) (exponent : Int) : Double :=
  let size : Int := value.log2
  if value = 0 then .zero negative
  else if size + exponent > 1024 then .infinity negative
  else if size + exponent < -1080 then .zero negative
  else if exponent ≥ 0 then .ofRatio negative (value * Nat.pow 2 exponent.toNat) 1
  else .ofRatio negative value (Nat.pow 2 (-exponent).toNat)

def readDecimal (negative : Bool) (body : Bytes) : Option Double :=
  let (m, rest) := readMantissa 10 {} body
  match m.any, exponentAfter 101 rest with
  | true, some e => some (ofDecimal negative m.value (e.getD 0 - m.places))
  | _, _ => none

/-- The exponent of a hexadecimal number must not be absent. -/
def readHexadecimal (negative : Bool) (body : Bytes) : Option Double :=
  let (m, rest) := readMantissa 16 {} body
  match m.any, exponentAfter 112 rest with
  | true, some (some e) => some (ofBinary negative m.value (e - 4 * m.places))
  | _, _ => none

def readDigits (negative : Bool) (body : Bytes) : Option Double :=
  match body with
  | 48 :: x :: c :: rest =>
    if lowerAscii x = 120 then readHexadecimal negative (c :: rest)
    else readDecimal negative body
  | _ => readDecimal negative body

/-- The words for infinities and for not-a-number, in any case. -/
def readWordFloat (text : Bytes) : Option Double :=
  let (negative, body) := splitSign text
  let word := body.map lowerAscii
  if word = Text.lit "inf" ∨ word = Text.lit "infinity" then some (.infinity negative)
  else if text.map lowerAscii = Text.lit "nan" then some .quietNaN
  else none

/-- A finite literal too large for a number is out of range. -/
def readFloat (text : Bytes) : Except Fault Double :=
  match readWordFloat text with
  | some x => .ok x
  | none =>
    let (negative, body) := splitSign text
    match readDigits negative body with
    | none => .error .malformed
    | some x =>
      if text.contains 95 && !underscoresOk text then .error .malformed
      else if x.isInfinite then .error .outOfRange
      else .ok x

end StackLisp.Number
