/-! Texts as byte sequences. Program text need not be valid UTF-8, so names, messages and listings
are lists of bytes, and only what prints them decodes them. -/
namespace StackLisp

abbrev Bytes := List UInt8

/-- Whether a text is one of several can be decided. -/
instance (text : Bytes) (texts : List Bytes) : Decidable (text ∈ texts) := inferInstance

namespace Text

/-- The UTF-8 bytes of a fixed text. -/
def lit (s : String) : Bytes := s.toByteArray.data.toList

def newline : UInt8 := 10

def decimal (n : Nat) : Bytes := (Nat.toDigits 10 n).map fun c => c.toNat.toUInt8

def decimalInt (i : Int) : Bytes :=
  if i < 0 then lit "-" ++ decimal i.natAbs else decimal i.natAbs

def join (sep : Bytes) (parts : List Bytes) : Bytes := sep.intercalate parts

/-- A digit below sixteen, in lower case. -/
def hexDigit (n : Nat) : UInt8 :=
  if n < 10 then (48 + n).toUInt8 else (87 + n).toUInt8

def hexByte (b : UInt8) : Bytes := [hexDigit (b.toNat / 16), hexDigit (b.toNat % 16)]

def hex (bs : Bytes) : Bytes := bs.flatMap hexByte

/-- Exactly `width` hexadecimal digits, the low ones. -/
def hexFixed : Nat → Nat → Bytes
  | 0, _ => []
  | width + 1, n => hexFixed width (n / 16) ++ [hexDigit (n % 16)]

def hexValue? (b : UInt8) : Option Nat :=
  if 48 ≤ b ∧ b ≤ 57 then some (b.toNat - 48)
  else if 97 ≤ b ∧ b ≤ 102 then some (b.toNat - 87)
  else if 65 ≤ b ∧ b ≤ 70 then some (b.toNat - 55)
  else none

def unhex? : Bytes → Option Bytes
  | [] => some []
  | hi :: lo :: rest => do
    let h ← hexValue? hi
    let l ← hexValue? lo
    let tail ← unhex? rest
    return (16 * h + l).toUInt8 :: tail
  | [_] => none

def isDigit (b : UInt8) : Bool := 48 ≤ b && b ≤ 57

/-- The value of a run of decimal digits. -/
def digitsValue (ds : Bytes) : Nat := ds.foldl (fun n d => 10 * n + (d.toNat - 48)) 0

/-- Splits at every occurrence of `sep`; the parts joined by `sep` give the text back. -/
def split (sep : UInt8) : Bytes → List Bytes
  | [] => [[]]
  | b :: rest =>
    if b = sep then [] :: split sep rest
    else match split sep rest with
      | part :: parts => (b :: part) :: parts
      | [] => [[b]]

/-- The text up to `sep` and what follows it, if `sep` occurs. -/
def cut? (sep : UInt8) : Bytes → Option (Bytes × Bytes)
  | [] => none
  | b :: rest =>
    if b = sep then some ([], rest)
    else (cut? sep rest).map fun (before, after) => (b :: before, after)

/-- The line with the given number, counted from zero, without its newline; empty when there are
not that many lines. -/
def lineAt : Nat → Bytes → Bytes
  | 0, text => text.takeWhile (· ≠ newline)
  | n + 1, text =>
    match cut? newline text with
    | some (_, rest) => lineAt n rest
    | none => []

def repeated (n : Nat) (b : UInt8) : Bytes := List.replicate n b

def spaces (n : Nat) : Bytes := repeated n 32

def sort (texts : List Bytes) : List Bytes := texts.mergeSort (· ≤ ·)

/-- Drops repetitions that stand side by side. -/
def dedupAdjacent : List Bytes → List Bytes
  | a :: b :: rest => if a = b then dedupAdjacent (b :: rest) else a :: dedupAdjacent (b :: rest)
  | short => short

end Text
end StackLisp
