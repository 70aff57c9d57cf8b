import StackLisp.Text.Bytes

/-! Self-describing binary data (CBOR) and its canonical encoding. -/
namespace StackLisp

/-- A data item. The negative number with argument `n` is `-1 - n`. Text keeps the pieces in which
it was written. -/
inductive Cbor where
  | unsigned (n : Nat)
  | negative (n : Nat)
  | bytes (b : Bytes)
  | text (pieces : List Bytes)
  | array (items : List Cbor)
  | map (pairs : List (Cbor × Cbor))
  | tag (number : Nat) (content : Cbor)
  | simple (n : Nat)
  | float (width : Nat) (bits : Nat)

namespace Cbor

def ofInt (i : Int) : Cbor :=
  if i < 0 then negative (-1 - i).toNat else unsigned i.toNat

def ofText (t : Bytes) : Cbor := text [t]

def null : Cbor := simple 22

/-- The number in the given number of bytes, most significant first. -/
def bigEndian : Nat → Nat → Bytes
  | 0, _ => []
  | width + 1, n => bigEndian width (n / 256) ++ [n.toUInt8]

/-- The first byte of an item and its argument, in the shortest form. -/
def head (major n : Nat) : Bytes :=
  if n < 24 then [(32 * major + n).toUInt8]
  else if n < 0x100 then (32 * major + 24).toUInt8 :: bigEndian 1 n
  else if n < 0x10000 then (32 * major + 25).toUInt8 :: bigEndian 2 n
  else if n < 0x100000000 then (32 * major + 26).toUInt8 :: bigEndian 4 n
  else (32 * major + 27).toUInt8 :: bigEndian 8 n

mutual
def encode : Cbor → Bytes
  | unsigned n => head 0 n
  | negative n => head 1 n
  | bytes b => head 2 b.length ++ b
  | text pieces => head 3 pieces.flatten.length ++ pieces.flatten
  | array items => head 4 items.length ++ encodeAll items
  | map pairs => head 5 pairs.length ++ encodePairs pairs
  | tag number content => head 6 number ++ encode content
  | simple n => head 7 n
  | float width bits =>
    (if width = 2 then 0xf9 else if width = 4 then 0xfa else 0xfb) :: bigEndian width bits

def encodeAll : List Cbor → Bytes
  | [] => []
  | i :: rest => encode i ++ encodeAll rest

def encodePairs : List (Cbor × Cbor) → Bytes
  | [] => []
  | (k, v) :: rest => encode k ++ encode v ++ encodePairs rest
end

end Cbor
end StackLisp
