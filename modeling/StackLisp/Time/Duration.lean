import StackLisp.Text.Bytes

/-! Lengths of time, written as numbers with units such as `1h30m` and `1.5s`. -/
namespace StackLisp.Duration

open Text (lit isDigit digitsValue)

inductive Fault where
  | malformed
  | unitMissing
  | unknownUnit (unit : Bytes)
deriving DecidableEq, Repr

/-- Quotes and backslashes are marked, and bytes that are no printable ASCII are written by
number. -/
def quote (text : Bytes) : Bytes :=
  let shown (b : UInt8) : Bytes :=
    if b ≥ 128 || b < 32 then lit "\\x" ++ Text.hexByte b
    else if b = 34 || b = 92 then [92, b]
    else [b]
  lit "\"" ++ text.flatMap shown ++ lit "\""

/-- The message of a fault in a text. -/
def Fault.message (text : Bytes) : Fault → Bytes
  | malformed => lit "time: invalid duration " ++ quote text
  | unitMissing => lit "time: missing unit in duration " ++ quote text
  | unknownUnit unit =>
    lit "time: unknown unit " ++ quote unit ++ lit " in duration " ++ quote text

/-- Units in nanoseconds; there are two characters for the millionth. -/
def units : List (Bytes × Nat) :=
  [(lit "ns", 1), (lit "us", 1000), (lit "µs", 1000), (lit "μs", 1000), (lit "ms", 1000000),
    (lit "s", 1000000000), (lit "m", 60 * 1000000000), (lit "h", 3600 * 1000000000)]

/-- No length is greater than this many nanoseconds. -/
def longest : Nat := 0x8000000000000000

def isNumeric (b : UInt8) : Bool := b = 46 || isDigit b

/-- One number with its unit. -/
structure Part where
  whole : Bytes
  fraction : Bytes
  unit : Bytes

/-- Splits off a number and the unit behind it. -/
def splitPart (text : Bytes) : Part × Bytes :=
  let whole := text.takeWhile isDigit
  let rest := text.dropWhile isDigit
  let (fraction, rest) :=
    match rest with
    | 46 :: more => (more.takeWhile isDigit, more.dropWhile isDigit)
    | other => ([], other)
  (⟨whole, fraction, rest.takeWhile (!isNumeric ·)⟩, rest.dropWhile (!isNumeric ·))

/-- The length of a part in nanoseconds, rounded down. -/
def Part.value (p : Part) : Except Fault Nat :=
  if p.whole = [] ∧ p.fraction = [] then .error .malformed
  else if digitsValue p.whole > longest then .error .malformed
  else if p.unit = [] then .error .unitMissing
  else match units.lookup p.unit with
    | none => .error (.unknownUnit p.unit)
    | some u =>
      .ok (digitsValue p.whole * u + digitsValue p.fraction * u / Nat.pow 10 p.fraction.length)

/-- Adds the parts of a text, of which there are at most as many as `fuel`, to a length. -/
def addParts : Nat → Nat → Bytes → Except Fault Nat
  | 0, total, _ => .ok total
  | fuel + 1, total, text =>
    match text with
    | [] => .ok total
    | b :: _ =>
      if !isNumeric b then .error .malformed
      else do
        let (part, rest) := splitPart text
        let n ← part.value
        if total + n > longest then throw .malformed
        addParts fuel (total + n) rest

/-- Reads a length of time in nanoseconds. -/
def parse (text : Bytes) : Except Fault Int :=
  let (negative, body) : Bool × Bytes :=
    match text with
    | 45 :: rest => (true, rest)
    | 43 :: rest => (false, rest)
    | _ => (false, text)
  if body = lit "0" then .ok 0
  else if body = [] then .error .malformed
  else do
    let n ← addParts body.length 0 body
    if negative then pure (-(n : Int))
    else if n < longest then pure n
    else throw .malformed

end StackLisp.Duration
